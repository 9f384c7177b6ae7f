import GraphClustering.Proofs.Cluster.Eviction
import GraphClustering.Proofs.Forest.OtherTrees

/-!
# Visits of a sweep

A sweep takes the clusters in the order of the depths they had before it, and visits those
that are still in the tree at their turn.  `visits` lists the visits with the tree at each;
they are the applications of the rule that the sweep makes (`mem_visits_iff`).  Whatever the
rules do to the tree meanwhile, a visit finds all descendants visited, and nothing that has
left the tree is visited or changed again (`BottomUp`).
-/

namespace GraphClustering

open Forest Relation

namespace Postprocessing

variable {f g h : Forest} {c d r : ClusterId} {cs ds : List ClusterId} {rule : TreeRule}
variable {a b : Bool} {e : Fault}

/-- A cluster whose turn it is, and the tree it is then in. -/
structure Visit where
  cluster : ClusterId
  tree : Forest

/-- The visits of clusters in turn, to those that are in the tree at their turn.  A rule that
fails is not applied again. -/
def visits (rule : TreeRule) (r : ClusterId) : List ClusterId → Forest → List Visit
  | [], _ => []
  | c :: rest, f =>
      if f.root c = r then
        ⟨c, f⟩ :: match rule f c with
          | .ok (g, _) => visits rule r rest g
          | .error _ => []
      else visits rule r rest f

/-! ## Turns and visits -/

/-- The first turns take their visits, and the others go on from where these end. -/
theorem visits_append (rule : TreeRule) (r : ClusterId) (cs ds : List ClusterId) (f : Forest)
    (a : Bool) : visits rule r (cs ++ ds) f = visits rule r cs f ++
      match sweepOver rule r cs f a with
      | (g, .ok _) => visits rule r ds g
      | (_, .error _) => [] := by
  induction cs generalizing f a with
  | nil => rfl
  | cons c cs ih =>
      rw [List.cons_append, visits, visits, sweepOver]
      by_cases hc : f.root c = r
      · rw [if_pos hc, if_pos hc, if_pos hc]
        cases rule f c with
        | ok x => exact congrArg (⟨c, f⟩ :: ·) (ih x.1 _)
        | error e => rfl
      · rw [if_neg hc, if_neg hc, if_neg hc]
        exact ih f a

theorem visits_append_of_ok (swept : sweepOver rule r cs f a = (g, .ok b)) :
    visits rule r (cs ++ ds) f = visits rule r cs f ++ visits rule r ds g := by
  rw [visits_append rule r cs ds f a, swept]

/-- Each cluster is visited at its turn or left out. -/
theorem visits_sublist (rule : TreeRule) (r : ClusterId) (cs : List ClusterId) (f : Forest) :
    ((visits rule r cs f).map Visit.cluster).Sublist cs := by
  induction cs generalizing f with
  | nil => exact List.nil_sublist []
  | cons c cs ih =>
      rw [visits]
      by_cases hc : f.root c = r
      · rw [if_pos hc, List.map_cons]
        refine List.Sublist.cons_cons c ?_
        cases rule f c with
        | ok x => exact ih x.1
        | error e => exact List.nil_sublist cs
      · rw [if_neg hc]
        exact (ih f).cons c

/-- A visit among others splits the turns: those before it end in the tree it finds. -/
theorem exists_turn {before after : List Visit} {v : Visit} (a : Bool)
    (split : visits rule r cs f = before ++ v :: after) :
    ∃ cs₁ cs₂ b, cs = cs₁ ++ v.cluster :: cs₂ ∧ sweepOver rule r cs₁ f a = (v.tree, .ok b) ∧
      v.tree.root v.cluster = r ∧ before = visits rule r cs₁ f ∧
      v :: after = visits rule r (v.cluster :: cs₂) v.tree := by
  induction cs generalizing f before a with
  | nil =>
      rw [visits] at split
      exact absurd split.symm (by simp)
  | cons c cs ih =>
      by_cases hc : f.root c = r
      · cases before with
        | nil =>
            have head : v = ⟨c, f⟩ := by
              rw [visits, if_pos hc, List.nil_append, List.cons.injEq] at split
              exact split.1.symm
            subst head
            exact ⟨[], cs, a, rfl, rfl, hc, rfl, split.symm⟩
        | cons u before =>
            rw [visits, if_pos hc, List.cons_append, List.cons.injEq] at split
            obtain ⟨rfl, split⟩ := split
            cases applied : rule f c with
            | error e =>
                rw [applied] at split
                exact absurd split.symm (by simp)
            | ok x =>
                rw [applied] at split
                obtain ⟨cs₁, cs₂, b, order, swept, hv, first, rest⟩ := ih (a || x.2) split
                refine ⟨c :: cs₁, cs₂, b, congrArg (c :: ·) order, ?_, hv, ?_, rest⟩
                · rw [sweepOver, if_pos hc, applied]
                  exact swept
                · rw [visits, if_pos hc, applied, first]
      · rw [visits, if_neg hc] at split
        obtain ⟨cs₁, cs₂, b, order, swept, hv, first, rest⟩ := ih a split
        refine ⟨c :: cs₁, cs₂, b, congrArg (c :: ·) order, ?_, hv, ?_, rest⟩
        · rw [sweepOver, if_neg hc]
          exact swept
        · rw [visits, if_neg hc, first]

/-- The visits are what the sweep does: each comes at a turn that finds the cluster in the tree
that the turns before have left. -/
theorem mem_visits_iff {v : Visit} (a : Bool) : v ∈ visits rule r cs f ↔
    ∃ before after b, cs = before ++ v.cluster :: after ∧
      sweepOver rule r before f a = (v.tree, .ok b) ∧ v.tree.root v.cluster = r := by
  constructor
  · intro hv
    obtain ⟨before, after, split⟩ := List.mem_iff_append.mp hv
    obtain ⟨cs₁, cs₂, b, order, swept, root, -⟩ := exists_turn a split
    exact ⟨cs₁, cs₂, b, order, swept, root⟩
  · rintro ⟨before, after, b, rfl, swept, root⟩
    rw [visits_append_of_ok swept, visits, if_pos root]
    exact List.mem_append_right _ List.mem_cons_self

section Sound

variable (sound : rule.Sound r) (hf : f.Rooted r)

include sound hf

theorem rewrites_sweepOver (cs : List ClusterId) (a : Bool) :
    ReflTransGen (Rewrite r) f (sweepOver rule r cs f a).1 := by
  have kept : Invariant r (·.Rooted r) := ⟨id, fun hf step => step.rooted hf⟩
  have safe : Safe (·.Rooted r) (fun _ _ => True) r rule := ⟨sound, fun _ _ _ => trivial⟩
  exact (sweepOver_tracks kept safe hf cs a).rewrites

theorem rewrites_of_swept (swept : sweepOver rule r cs f a = (g, .ok b)) :
    ReflTransGen (Rewrite r) f g := by
  have rewrites := rewrites_sweepOver sound hf cs a
  rwa [swept] at rewrites

/-- What is in the tree after its turn was visited at it. -/
theorem mem_visits_of_root (swept : sweepOver rule r cs f a = (g, .ok b)) (hc : c ∈ cs)
    (hroot : g.root c = r) : c ∈ (visits rule r cs f).map Visit.cluster := by
  obtain ⟨before, after, rfl⟩ := List.mem_iff_append.mp hc
  rw [sweepOver_append] at swept
  rcases reached : sweepOver rule r before f a with ⟨h, first⟩
  rw [reached] at swept
  cases first with
  | error e => cases swept
  | ok b' =>
      have hh := rooted_of_rewrites hf (rewrites_of_swept sound hf reached)
      have inside := root_of_rewrites hh (rewrites_of_swept sound hh swept) hroot
      exact List.mem_map_of_mem (f := Visit.cluster)
        ((mem_visits_iff (v := ⟨c, h⟩) a).mpr ⟨before, after, b', rfl, reached, inside⟩)

/-- No visit finds a tree that was not made by rewrites. -/
theorem rewrites_of_mem_visits {v : Visit} (hv : v ∈ visits rule r cs f) :
    ReflTransGen (Rewrite r) f v.tree ∧ v.tree.root v.cluster = r := by
  obtain ⟨before, after, b, -, swept, root⟩ := (mem_visits_iff false).mp hv
  exact ⟨rewrites_of_swept sound hf swept, root⟩

end Sound

/-! ## From the leaves up -/

/-- A sweep of a rule over the tree with root `r` goes from the leaves up, although the rule
changes the tree meanwhile. -/
structure BottomUp (rule : TreeRule) (r : ClusterId) (f : Forest) : Prop where
  /-- Each cluster of the tree has one turn. -/
  turns : (sweepOrder f r).Nodup ∧ ∀ c, c ∈ sweepOrder f r ↔ f.root c = r
  /-- A cluster is visited at its turn just if it is in the tree that the sweep has reached. -/
  visited : ∀ v, v ∈ visits rule r (sweepOrder f r) f ↔ ∃ before after a,
    sweepOrder f r = before ++ v.cluster :: after ∧
      sweepOver rule r before f false = (v.tree, .ok a) ∧ v.tree.root v.cluster = r
  once : ((visits rule r (sweepOrder f r) f).map Visit.cluster).Nodup
  /-- What is below a cluster at its visit was visited before. -/
  below : ∀ before v after, visits rule r (sweepOrder f r) f = before ++ v :: after →
    ∀ d, v.cluster ∈ v.tree.ancestors d → d ∈ before.map Visit.cluster
  /-- What is no longer in the tree is neither visited nor brought back nor changed. -/
  detached : ∀ before v after, visits rule r (sweepOrder f r) f = before ++ v :: after →
    ∀ d, v.tree.root d ≠ r →
      (∀ u ∈ v :: after, u.cluster ≠ d ∧ u.tree.root d ≠ r ∧ u.tree.cluster d = v.tree.cluster d) ∧
        (sweep rule r f).1.root d ≠ r ∧ (sweep rule r f).1.cluster d = v.tree.cluster d
  /-- No visit puts a cluster below another one that it was not below before. -/
  noneAdded : ∀ v ∈ visits rule r (sweepOrder f r) f, ∀ g b,
    rule v.tree v.cluster = .ok (g, b) → ∀ c d, c ∈ g.ancestors d → c ∈ v.tree.ancestors d
  /-- What is in the tree after the sweep was visited. -/
  complete : ∀ g b, sweep rule r f = (g, .ok b) → ∀ c, g.root c = r →
    c ∈ (visits rule r (sweepOrder f r) f).map Visit.cluster

theorem bottomUp_of_sound (sound : rule.Sound r) (hf : f.Rooted r) : BottomUp rule r f where
  turns := ⟨nodup_sweepOrder hf, fun _ => mem_sweepOrder hf⟩
  visited _ := mem_visits_iff false
  once := (visits_sublist rule r (sweepOrder f r) f).nodup (nodup_sweepOrder hf)
  below before v after split d above := by
    obtain ⟨cs₁, cs₂, b, order, swept, root, rfl, -⟩ := exists_turn false split
    have rewrites := rewrites_of_swept sound hf swept
    have hv := rooted_of_rewrites hf rewrites
    have earlier := mem_before_of_mem_ancestors hf order rewrites above
    refine mem_visits_of_root sound hf swept earlier ?_
    rw [root_of_mem_ancestors hv.toWellFormed above, root]
  detached before v after split d other := by
    obtain ⟨cs₁, cs₂, b, order, swept, -, -, rest⟩ := exists_turn false split
    have hv := rooted_of_rewrites hf (rewrites_of_swept sound hf swept)
    refine ⟨fun u hu => ?_, ?_⟩
    · rw [rest] at hu
      obtain ⟨rewrites, root⟩ := rewrites_of_mem_visits sound hv hu
      obtain ⟨gone, same⟩ := cluster_of_rewrites hv rewrites other
      exact ⟨fun visited => gone (visited ▸ root), gone, same⟩
    · have last := rewrites_sweepOver sound hv (v.cluster :: cs₂) b
      rw [sweep, order, sweepOver_append, swept]
      exact cluster_of_rewrites hv last other
  noneAdded v hv g b applied c d above := by
    obtain ⟨rewrites, root⟩ := rewrites_of_mem_visits sound hf hv
    have hv := rooted_of_rewrites hf rewrites
    exact (ancestors_sublist_of_rewrites hv (sound.rewrites hv root applied) d).subset above
  complete g b swept c hroot := by
    have rewrites := rewrites_of_swept sound hf swept
    exact mem_visits_of_root sound hf swept
      ((mem_sweepOrder hf).mpr (root_of_rewrites hf rewrites hroot)) hroot

/-- Each of the three rules is swept from the leaves up, under any metric. -/
theorem sweep_bottomUp {α : Type} [Scalar α] (hf : f.Rooted r) (guard : Guard α) (graph : View α)
    (minOverlap : α) : ∀ rule ∈ [TreeRule.collapse, .evict guard, .climb graph minOverlap],
      BottomUp rule r f := by
  simp only [List.forall_mem_cons, List.not_mem_nil, false_imp_iff, implies_true, and_true]
  exact ⟨bottomUp_of_sound (TreeRule.collapse_sound r) hf,
    bottomUp_of_sound (TreeRule.evict_sound guard r) hf,
    bottomUp_of_sound (TreeRule.climb_sound graph minOverlap r) hf⟩

end Postprocessing

namespace Clustering

open TreeRule Postprocessing

/-- The cluster of strays is given up at its visit, and the root comes last. -/
theorem sweep_bottomUp_strayed : BottomUp (evict halving.guard) 0 strayed ∧
    (visits (evict halving.guard) 0 (sweepOrder strayed 0) strayed).map Visit.cluster =
      [2, 1, 3, 0] ∧
    ((visits (evict halving.guard) 0 (sweepOrder strayed 0) strayed).map fun v => v.tree.root 3) =
      [0, 0, 0, 3] :=
  ⟨sweep_bottomUp rooted_strayed halving.guard pairs 0 _ (by simp), by cbv, by cbv⟩

end Clustering

end GraphClustering
