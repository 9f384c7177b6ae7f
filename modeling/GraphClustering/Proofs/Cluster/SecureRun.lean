import Mathlib
import GraphClustering.Proofs.Cluster.Coverage
import GraphClustering.Proofs.Cluster.Secure

/-!
# The queue makes clusters for secure parts

Only guarded parts are ever scored; components and views without a split become
clusters unchecked.  Every task keeps the invariant that the views in the queue are
ample and those of components and of clusters below the root secure (`Secured`), so
at the end there is nothing for the guard to evict.
-/

namespace GraphClustering

open Forest

namespace Clustering

variable {α : Type} [ExactScalar α] {k : Clustering α} {u v : View α} {l : Ledger α}
variable {t : Task α} {rest : List (Task α)} {c : Placement α} {ps : List (Placement α)}

/-! ## The placements of a task -/

/-- A new cluster is made for a secure part, and a view that goes back is secure. -/
def Placement.Secure (k : Clustering α) (t : Task α) : Placement α → Prop
  | owned _ => True
  | terminal v | queued _ v => k.guard.Secure v
  | again => k.guard.Secure t.view

/-- A task whose view is ample, and secure if it is to be split. -/
structure Ready (k : Clustering α) (t : Task α) : Prop where
  ample : k.guard.Ample t.view
  secure : t.stage = .component → k.guard.Secure t.view

/-- All placements of a task are secure. -/
theorem secure_of_mem_placements (hm : k.guard.metric = Metric.relativeWeight)
    (lawful : k.guard.graph.Lawful) (pos : k.guard.graph.PosEntries) (ht : Ready k t)
    (h : k.placements t = .ok ps) (hc : c ∈ ps) : c.Secure k t := by
  have part := ht.ample.part
  rcases cases_of_mem_placements h hc with ⟨v, hv, rfl⟩ | ⟨split, rfl⟩ |
    ⟨positive, v, hv, guarded, kept, hg, hkept, rfl | rfl⟩ | ⟨ids, rfl⟩
  · have secure := ht.ample.secure_of_mem_components lawful pos hv
    rw [componentPlacement]
    split_ifs with whole
    · -- a component with as many vertices as the view is the view
      rw [(View.partOf_of_mem_components hv).eq_of_order_le part.ascending whole.ge] at secure
      exact secure
    · trivial
    · exact secure
    · exact secure
  · rw [unsettledPlacement]
    split_ifs
    · exact ht.secure split
    · trivial
  · exact Guard.secure_of_ensure hm lawful ((View.partOf_of_mem_parts hv).trans part) hg hkept
  · exact Guard.secure_of_ensure hm lawful ((View.partOf_of_mem_parts hv).trans part) hg hkept
  · trivial

/-! ## The invariant -/

/-- The tasks are ready, and the views of all clusters but the first are secure. -/
structure Secured (k : Clustering α) (l : Ledger α) : Prop where
  tasks : ∀ t ∈ l.progress.queue, Ready k t
  clusters : ∀ c u, c ≠ 0 → l.views[c]? = some u → k.guard.Secure u

/-- Entering a secure placement keeps the invariant. -/
theorem Secured.enter (h : Secured k l) (hc : c.Secure k t) :
    Secured k (Placement.enter t l c) where
  tasks := by
    have added : ∀ {u s d}, k.guard.Secure u →
        ∀ t' ∈ l.progress.queue ++ [⟨u, s, d⟩], Ready k t' := by
      intro u s d secure t' ht'
      rcases List.mem_append.mp ht' with ht' | ht'
      · exact h.tasks t' ht'
      · rw [List.mem_singleton.mp ht']
        exact ⟨secure.toAmple, fun _ => secure⟩
    cases c with
    | owned ids => exact h.tasks
    | terminal u => exact h.tasks
    | queued stage u => exact added hc
    | again => exact added hc
  clusters d u hd hu := by
    rcases getElem?_append_toList hu with hu | hu
    · exact h.clusters d u hd hu
    · cases c <;> cases hu <;> exact hc

theorem Secured.foldl_enter (h : Secured k l) (hps : ∀ c ∈ ps, c.Secure k t) :
    Secured k (ps.foldl (Placement.enter t) l) := by
  induction ps generalizing l with
  | nil => exact h
  | cons c ps ih =>
      exact ih (h.enter (hps c List.mem_cons_self)) fun d hd => hps d (List.mem_cons_of_mem _ hd)

section Run

variable (hm : k.guard.metric = Metric.relativeWeight) (lawful : k.guard.graph.Lawful)
variable (pos : k.guard.graph.PosEntries)
include hm lawful pos

/-- A task keeps the invariant. -/
theorem Secured.settle (h : Secured k l) (hq : l.progress.queue = t :: rest)
    (hps : k.placements t = .ok ps) : Secured k (settle t rest l ps) := by
  refine Secured.foldl_enter ⟨?_, h.clusters⟩ fun c hc =>
    secure_of_mem_placements hm lawful pos (h.tasks t (hq ▸ List.mem_cons_self)) hps hc
  rw [queue_counted]
  exact fun t' ht' => h.tasks t' (hq ▸ List.mem_cons_of_mem t ht')

/-- The clusters that a run for the graph makes below the root are secure. -/
theorem recordedPhase_secured (share : k.guard.minLikelihood ≤ 1)
    (hl : k.recordedPhase k.guard.graph .whole = .ok l) : Secured k l := by
  refine record_induction (fun l t rest ps h hq hps => h.settle hm lawful pos hq hps) ?_ hl
  refine ⟨?_, ?_⟩
  · intro t ht
    rw [List.mem_singleton.mp ht]
    exact ⟨Guard.ample_graph lawful pos share, nofun⟩
  · intro c u hc hu
    obtain ⟨hlt, -⟩ := List.getElem?_eq_some_iff.mp hu
    exact absurd (Nat.lt_one_iff.mp hlt) hc

end Run

/-! ## The tree -/

/-- A cluster below the root and its descendants own the vertices of a secure part. -/
theorem Secured.exists_aggregateView (h : Secured k l) (sound : Sound k v l [])
    (drained : l.progress.queue = []) (lawful : k.guard.graph.Lawful) {c : ClusterId}
    (hc : c ∈ l.progress.forest.walk 0) (hne : c ≠ 0) : ∃ u,
      TreeRule.aggregateView k.guard.graph l.progress.forest c = .ok u ∧ k.guard.Secure u ∧
        k.isSmall u = false := by
  have account : Account l.progress.forest l.views [] := by
    have account := sound.account
    rwa [drained] at account
  have hlt := lt_size_of_mem_walk account.wellFormed sound.size_pos hc
  obtain ⟨u, hu⟩ : ∃ u, l.views[c]? = some u :=
    ⟨_, List.getElem?_eq_getElem (account.length_views ▸ hlt)⟩
  have secure := h.clusters c _ hne hu
  have perm := account.aggregate_perm hlt
  rw [verticesOf_of_getElem? hu] at perm
  exact ⟨u, lawful.mirrored.induced_eq secure.part fun id => perm.mem_iff, secure,
    sound.notSmall c _ hne hu⟩

theorem evict_of_secure (hm : k.guard.metric = Metric.relativeWeight)
    (lawful : k.guard.graph.Lawful) {f : Forest} {c : ClusterId}
    (hu : TreeRule.aggregateView k.guard.graph f c = .ok u) (secure : k.guard.Secure u)
    (large : k.isSmall u = false) (several : 2 ≤ u.order) :
    TreeRule.evict k.guard f c = .ok (f, false) ∨
      ∃ e, TreeRule.evict k.guard f c = .error e ∧ k.guard.graph.Understaffed e := by
  cases hp : f.parent c with
  | none =>
      rw [TreeRule.evict, hp]
      exact .inl rfl
  | some p =>
      rw [TreeRule.evict_of_parent hp, hu]
      rcases secure.consistent_or hm lawful several with consistent | ⟨e, fault, few⟩
      · have kept := consistent.ensure_eq large
        refine .inl ?_
        simp only [bind, Except.bind, kept, Option.isSome_some, List.isEmpty_nil, Bool.and_self,
          if_true]
      · have failed := Guard.ensure_eq_error large fault
        refine .inr ⟨e, ?_, few⟩
        simp only [bind, Except.bind, failed]

/-- The clusters below the root that a queue phase over the whole graph leaves keep, of
the weight of each vertex with weight, the share that the guard asks for; and if clusters
need two vertices, the guard has nothing to evict from any cluster. -/
theorem queuePhase_secure {p : Progress α} (hm : k.guard.metric = Metric.relativeWeight)
    (lawful : k.guard.graph.Lawful) (pos : k.guard.graph.PosEntries)
    (hk : Setting.Rule.atLeastOne.refuses k.minSize = false)
    (share : k.guard.minLikelihood ≤ 1) (hsigns : k.SignsEach)
    (h : k.queuePhase k.guard.graph .whole = .ok p) :
    (∀ c ∈ p.forest.walk 0, c ≠ 0 →
      ∃ u, TreeRule.aggregateView k.guard.graph p.forest c = .ok u ∧
        ∀ ws us, k.guard.graph.weights = .ok ws → u.weights = .ok us →
          ∀ id (i j : Nat) w x, k.guard.graph.vertices[i]? = some id →
            u.vertices[j]? = some id → ws[i]? = some w → us[j]? = some x → 0 < w →
              k.guard.minLikelihood * w ≤ x) ∧
    (Number.atMost (.int 2) k.minSize = true → ∀ c ∈ p.forest.walk 0,
      TreeRule.evict k.guard p.forest c = .ok (p.forest, false) ∨
        ∃ e, TreeRule.evict k.guard p.forest c = .error e ∧ k.guard.graph.Understaffed e) := by
  rw [queuePhase_eq] at h
  cases hl : k.recordedPhase k.guard.graph .whole with
  | error e => rw [hl] at h; cases h
  | ok l =>
      rw [hl] at h
      cases h
      have secured := recordedPhase_secured hm lawful pos share hl
      obtain ⟨sound, drained⟩ := recordedPhase_sound hk hsigns lawful.nodup_vertexList hl
      refine ⟨fun c hc hne => ?_, fun two c hc => ?_⟩
      · obtain ⟨u, hu, secure, -⟩ := secured.exists_aggregateView sound drained lawful hc hne
        exact ⟨u, hu, fun ws us hws hus id i j w x hi hj hw hx =>
          secure.le_of_weights lawful hws hus hi hj hw hx⟩
      · by_cases hne : c = 0
        · rw [TreeRule.evict, hne, sound.parentless]
          exact .inl rfl
        · obtain ⟨u, hu, secure, large⟩ :=
            secured.exists_aggregateView sound drained lawful hc hne
          refine evict_of_secure hm lawful hu secure large ?_
          by_contra few
          rw [isSmall, Number.less_of_lt_of_atMost (by omega) two] at large
          cases large

theorem lawful_pairs : pairs.Lawful where
  store := by apply Store.lawful_of_rows <;> decide +kernel
  ascending := by decide +kernel
  inRange := by decide +kernel

theorem queuePhase_secure_pairs : ∃ p, halving.queuePhase pairs .whole = .ok p ∧
    p.forest.walk 0 = [0, 1, 2] ∧
    (∀ c ∈ p.forest.walk 0, c ≠ 0 →
      ∃ u, TreeRule.aggregateView pairs p.forest c = .ok u ∧
        ∀ ws us, pairs.weights = .ok ws → u.weights = .ok us →
          ∀ id (i j : Nat) w x, pairs.vertices[i]? = some id →
            u.vertices[j]? = some id → ws[i]? = some w → us[j]? = some x → 0 < w →
              1 / 2 * w ≤ x) ∧
    ∀ c ∈ p.forest.walk 0, TreeRule.evict halving.guard p.forest c = .ok (p.forest, false) := by
  obtain ⟨p, hp, walk⟩ : ∃ p, halving.queuePhase pairs .whole = .ok p ∧
      p.forest.walk 0 = [0, 1, 2] := ⟨_, by cbv, by cbv⟩
  let _ := exactRat
  obtain ⟨shares, evicts⟩ := queuePhase_secure (k := halving) rfl lawful_pairs posEntries_pairs
    (by cbv) (by norm_num [halving]) signsEach_halving hp
  refine ⟨p, hp, walk, shares, fun c hc => (evicts (by cbv) c hc).resolve_right ?_⟩
  rintro ⟨_, -, -, few⟩
  exact few (.inl (by decide))

end Clustering

end GraphClustering
