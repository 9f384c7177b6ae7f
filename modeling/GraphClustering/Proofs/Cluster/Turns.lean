import GraphClustering.Proofs.Cluster.Sweep

/-!
# Taking turns from the leaves up

A sweep visits the clusters in the order of the depths they had before it, while the
rule changes the tree under it.  No rewrite gives a cluster an ancestor that it did not
have, so whatever is below a cluster at its turn has had its own turn, and nothing above
it has (`mem_before_of_mem_ancestors`).  What every turn keeps, and brings about at the
cluster whose turn it is, holds after the sweep (`sweepOver_of_turns`).
-/

namespace GraphClustering

open Forest Relation

variable {f f' h : Forest} {c d r : ClusterId} {before after : List ClusterId} {rule : TreeRule}

theorem TreeRule.Sound.rewrites {b : Bool} (sound : rule.Sound r) (hf : f.Rooted r)
    (hc : f.root c = r) (applied : rule f c = .ok (f', b)) : ReflTransGen (Rewrite r) f f' := by
  cases b with
  | true => exact .single (sound.changed hf hc applied)
  | false => rw [sound.unchanged applied]

namespace Postprocessing

/-! ## The order of the turns -/

theorem mem_sweepOrder (hf : f.Rooted r) : c ∈ sweepOrder f r ↔ f.root c = r :=
  List.mem_mergeSort.trans hf.mem_walk_iff

theorem nodup_sweepOrder (hf : f.Rooted r) : (sweepOrder f r).Nodup :=
  (List.mergeSort_perm _ _).nodup_iff.mpr (nodup_walk hf.toWellFormed hf.lt_size)

theorem deepest_first (f : Forest) (r : ClusterId) :
    (sweepOrder f r).Pairwise fun a b => f.depth b ≤ f.depth a := by
  refine (List.pairwise_mergeSort ?_ ?_ (f.walk r)).imp of_decide_eq_true
  · intro a b c hab hbc
    exact decide_eq_true ((of_decide_eq_true hbc).trans (of_decide_eq_true hab))
  · intro a b
    rw [Bool.or_eq_true, decide_eq_true_iff, decide_eq_true_iff]
    exact Nat.le_total _ _

section Order

variable (hf : f.Rooted r) (order : sweepOrder f r = before ++ c :: after)

include hf order

theorem notMem_before : c ∉ before := fun hc =>
  List.disjoint_of_nodup_append (order ▸ nodup_sweepOrder hf) hc List.mem_cons_self

/-- What was deeper has had its turn. -/
theorem mem_before_of_depth_lt (hd : f.root d = r) (deeper : f.depth c < f.depth d) :
    d ∈ before := by
  have mem := (mem_sweepOrder hf).mpr hd
  rw [order, List.mem_append, List.mem_cons] at mem
  rcases mem with mem | rfl | mem
  · exact mem
  · exact absurd deeper (lt_irrefl _)
  · have sorted := deepest_first f r
    rw [order] at sorted
    have := List.rel_of_pairwise_cons (List.pairwise_append.mp sorted).2.1 mem
    omega

omit hf in
/-- What was not as deep has not had its turn. -/
theorem notMem_before_of_depth_lt (higher : f.depth d < f.depth c) : d ∉ before := by
  intro mem
  have sorted := deepest_first f r
  rw [order] at sorted
  have := (List.pairwise_append.mp sorted).2.2 d mem c List.mem_cons_self
  omega

variable (rewrites : ReflTransGen (Rewrite r) f h)

include rewrites

/-- All that is below a cluster at its turn has had its turn. -/
theorem mem_before_of_mem_ancestors (above : c ∈ h.ancestors d) : d ∈ before := by
  have hc : f.root c = r := (mem_sweepOrder hf).mp (by rw [order]; simp)
  have above := (ancestors_sublist_of_rewrites hf rewrites d).subset above
  refine mem_before_of_depth_lt hf order ?_ (depth_lt_of_mem_ancestors hf.toWellFormed above)
  rw [root_of_mem_ancestors hf.toWellFormed above, hc]

/-- Nothing that is above a cluster at its turn has had its turn. -/
theorem notMem_before_of_mem_ancestors (below : d ∈ h.ancestors c) : d ∉ before :=
  notMem_before_of_depth_lt order <| depth_lt_of_mem_ancestors hf.toWellFormed
    ((ancestors_sublist_of_rewrites hf rewrites c).subset below)

end Order

/-! ## A whole sweep -/

variable {I : Forest → Prop} {Q : Forest → ClusterId → Prop} {E : Fault → Prop}

/-- A property `I` of the tree that every turn keeps holds after some turns, and so does a
property `Q` of clusters for all that had their turn by then and are still in the tree, if
every turn brings it about at its cluster and leaves it to those before; `done` are those
that had their turn at first.  A turn may fail with one of the faults `E`, and then so do
the turns together. -/
theorem sweepOver_cases (done turns : List ClusterId) (hf : f.Rooted r) (sound : rule.Sound r)
    (start : I f) (first : ∀ d ∈ done, f.root d = r → Q f d)
    (turn : ∀ more c after h, turns = more ++ c :: after → ReflTransGen (Rewrite r) f h →
      I h → (∀ d ∈ done ++ more, h.root d = r → Q h d) → h.root c = r →
        (∃ h' b, rule h c = .ok (h', b) ∧ I h' ∧
          ∀ d, d ∈ done ++ more ∨ d = c → h'.root d = r → Q h' d) ∨
        ∃ e, rule h c = .error e ∧ E e) (a : Bool) :
    (∃ g b, sweepOver rule r turns f a = (g, .ok b) ∧ ReflTransGen (Rewrite r) f g ∧
      I g ∧ ∀ d ∈ done ++ turns, g.root d = r → Q g d) ∨
    ∃ g e, sweepOver rule r turns f a = (g, .error e) ∧ E e := by
  suffices rest : ∀ after more h a, turns = more ++ after → ReflTransGen (Rewrite r) f h →
      I h → (∀ d ∈ done ++ more, h.root d = r → Q h d) →
        (∃ g b, sweepOver rule r after h a = (g, .ok b) ∧ ReflTransGen (Rewrite r) f g ∧
          I g ∧ ∀ d ∈ done ++ turns, g.root d = r → Q g d) ∨
        ∃ g e, sweepOver rule r after h a = (g, .error e) ∧ E e from
    rest turns [] f a rfl .refl start (by rwa [List.append_nil])
  intro after
  induction after with
  | nil =>
      intro more h a order rewrites kept visited
      rw [List.append_nil] at order
      exact .inl ⟨h, a, rfl, rewrites, kept, order ▸ visited⟩
  | cons c after ih =>
      intro more h a order rewrites kept visited
      have next : turns = (more ++ [c]) ++ after := by rw [order, List.append_assoc]; rfl
      have split : ∀ d, d ∈ done ++ (more ++ [c]) ↔ d ∈ done ++ more ∨ d = c := fun d => by
        rw [← List.append_assoc, List.mem_append, List.mem_singleton]
      rw [sweepOver]
      by_cases hc : h.root c = r
      · rw [if_pos hc]
        rcases turn more c after h order rewrites kept visited hc with
          ⟨h', b, applied, kept', visited'⟩ | ⟨e, fails, expected⟩
        · rw [applied]
          exact ih (more ++ [c]) h' (a || b) next
            (rewrites.trans (sound.rewrites (rooted_of_rewrites hf rewrites) hc applied)) kept'
            fun d hd => visited' d ((split d).mp hd)
        · rw [fails]
          exact .inr ⟨h, e, rfl, expected⟩
      · rw [if_neg hc]
        refine ih (more ++ [c]) h a next rewrites kept fun d hd hroot => ?_
        rcases (split d).mp hd with hd | rfl
        · exact visited d hd hroot
        · exact absurd hroot hc

/-- The same where no turn fails. -/
theorem sweepOver_of_turns (done turns : List ClusterId) (hf : f.Rooted r) (sound : rule.Sound r)
    (start : I f) (first : ∀ d ∈ done, f.root d = r → Q f d)
    (turn : ∀ more c after h, turns = more ++ c :: after → ReflTransGen (Rewrite r) f h →
      I h → (∀ d ∈ done ++ more, h.root d = r → Q h d) → h.root c = r →
        ∃ h' b, rule h c = .ok (h', b) ∧ I h' ∧
          ∀ d, d ∈ done ++ more ∨ d = c → h'.root d = r → Q h' d) (a : Bool) :
    ∃ g b, sweepOver rule r turns f a = (g, .ok b) ∧ ReflTransGen (Rewrite r) f g ∧
      I g ∧ ∀ d ∈ done ++ turns, g.root d = r → Q g d :=
  (sweepOver_cases (E := fun _ => False) done turns hf sound start first
    (fun more c after h order rewrites kept visited hc =>
      .inl (turn more c after h order rewrites kept visited hc)) a).resolve_right
    fun ⟨_, _, _, impossible⟩ => impossible

theorem sweepOver_append (rule : TreeRule) (r : ClusterId) (cs ds : List ClusterId) (f : Forest)
    (a : Bool) : sweepOver rule r (cs ++ ds) f a =
      match sweepOver rule r cs f a with
      | (g, .ok b) => sweepOver rule r ds g b
      | (g, .error e) => (g, .error e) := by
  induction cs generalizing f a with
  | nil => rfl
  | cons c cs ih =>
      rw [List.cons_append, sweepOver, sweepOver]
      by_cases hc : f.root c = r
      · rw [if_pos hc, if_pos hc]
        cases rule f c with
        | ok x => exact ih x.1 _
        | error e => rfl
      · rw [if_neg hc, if_neg hc]
        exact ih f a

/-- A rule that finds nothing to do at any cluster of a tree has nothing to do in a sweep. -/
theorem sweep_of_idle (idle : ∀ c, f.root c = r → rule f c = .ok (f, false)) :
    sweep rule r f = (f, .ok false) := by
  have still : Idle (fun _ _ => False) r f rule := fun c hc => .inl (idle c hc)
  rcases still.sweepOver_still (sweepOrder f r) false with same | ⟨e, -, absurd⟩
  · exact same
  · exact absurd.elim

end Postprocessing

end GraphClustering
