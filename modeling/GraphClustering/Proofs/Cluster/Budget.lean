import GraphClustering.Proofs.Cluster.Placement

/-!
# The number of tasks

A task costs the queue a number that is greater than what all the tasks that
come from it cost, so the bound on the number of tasks is never met.
-/

namespace GraphClustering

/-- A bound on the number of tasks that come from a task for a view of the given
order, itself included. -/
def Stage.cost (order : Nat) : Stage → Nat
  | component => max 1 (4 * order - 3)
  | whole | spectral => max 1 (4 * order - 2)

def Task.cost {α : Type} (t : Task α) : Nat :=
  t.stage.cost t.view.order

namespace Clustering

/-- What the placement of vertices costs the queue. -/
def Placement.cost {α : Type} (t : Task α) : Placement α → Nat
  | owned _ | terminal _ => 0
  | queued s v => s.cost v.order
  | again => Stage.component.cost t.view.order

section Budget

variable {α : Type} {k : Clustering α} {t : Task α} {v u : View α} {ps : List (Placement α)}

theorem order_pos_of_isLarge (hk : Setting.Rule.atLeastOne.refuses k.minSize = false)
    (h : k.isLarge v = true) : 0 < v.order := by
  apply Nat.pos_of_ne_zero
  intro zero
  rw [isLarge, zero] at h
  rw [Setting.Rule.refuses, Number.less_one_of_less_zero h] at hk
  cases hk

theorem atLeastOne_of_int {m : Int} (hm : k.minSize = .int m) (pos : 1 ≤ m) :
    Setting.Rule.atLeastOne.refuses k.minSize = false := by
  rw [Setting.Rule.refuses, hm, Number.less_int, decide_eq_false_iff_not]
  omega

theorem cost_componentPlacement_le (hv : 0 < v.order) :
    (k.componentPlacement t v).cost t + 3 ≤ 4 * v.order := by
  rw [componentPlacement]
  split_ifs with same
  · rw [Placement.cost, Stage.cost, ← same]; omega
  · rw [Placement.cost]; omega
  · rw [Placement.cost]; omega
  · rw [Placement.cost, Stage.cost]; omega

theorem sum_cost_components_le {vs : List (View α)} (hvs : ∀ v ∈ vs, 0 < v.order) :
    ((vs.map (k.componentPlacement t)).map (Placement.cost t)).sum + 3 * vs.length ≤
      4 * (vs.flatMap View.vertexList).length := by
  induction vs with
  | nil => simp
  | cons v vs ih =>
      have head := cost_componentPlacement_le (k := k) (t := t) (hvs v List.mem_cons_self)
      have tail := ih fun u hu => hvs u (List.mem_cons_of_mem _ hu)
      simp only [List.map_cons, List.sum_cons, List.length_cons, List.flatMap_cons,
        List.length_append, View.length_vertexList]
      omega

theorem cost_components_lt (ht : t.view.vertexList.Nodup) (hs : t.stage ≠ .component) :
    ((t.view.components.map (k.componentPlacement t)).map (Placement.cost t)).sum < t.cost := by
  have bound := sum_cost_components_le (k := k) (t := t)
    fun v (hv : v ∈ t.view.components) => View.order_pos_of_mem_components hv
  rw [(View.components_perm ht).length_eq, View.length_vertexList] at bound
  have cost : t.cost = max 1 (4 * t.view.order - 2) := by
    rw [Task.cost]
    cases h : t.stage with
    | component => exact absurd h hs
    | whole => rfl
    | spectral => rfl
  cases hcs : t.view.components with
  | nil => rw [cost, List.map_nil, List.map_nil, List.sum_nil]; omega
  | cons v vs => rw [hcs, List.length_cons] at bound; rw [cost]; omega

variable [Scalar α]

theorem cost_partPlacements_le (hk : Setting.Rule.atLeastOne.refuses k.minSize = false)
    (hv : v.vertexList.Nodup) (h : k.partPlacements t v = .ok ps) :
    (ps.map (Placement.cost t)).sum = 0 ∨
      (ps.map (Placement.cost t)).sum + 2 ≤ 4 * v.order ∧ v.order ≠ t.view.order := by
  rw [partPlacements] at h
  split_ifs at h with hown
  · cases h
    exact .inl rfl
  · obtain ⟨guarded, hg, h⟩ := exists_of_bind_eq_ok h
    split at h
    · rename_i kept hkept
      obtain ⟨placed, hplaced, h⟩ := exists_of_bind_eq_ok h
      cases h
      have le : kept.order ≤ v.order := by
        have shared := (Guard.ensure_fits hv hg).perm.length_eq
        rw [hkept, Option.elim_some, List.length_append, View.length_vertexList,
          View.length_vertexList] at shared
        omega
      rw [consistentPlacement] at hplaced
      split_ifs at hplaced with large _ <;> cases hplaced
      · refine .inr ⟨?_, fun same => hown (by simp [same])⟩
        have pos := order_pos_of_isLarge hk large
        simp only [List.map_cons, List.map_nil, List.sum_cons, List.sum_nil, Placement.cost,
          Stage.cost]
        omega
      · exact .inl rfl
    · cases h
      exact .inl rfl

/-- A task leaves the queue with less to do than it took from it. -/
theorem cost_placements_lt (hk : Setting.Rule.atLeastOne.refuses k.minSize = false)
    (hsigns : k.SignsEach) (ht : t.view.vertexList.Nodup) (h : k.placements t = .ok ps) :
    (ps.map (Placement.cost t)).sum < t.cost := by
  rw [placements] at h
  cases hs : t.stage with
  | whole => rw [hs] at h; cases h; exact cost_components_lt ht (by rw [hs]; rintro ⟨⟩)
  | spectral => rw [hs] at h; cases h; exact cost_components_lt ht (by rw [hs]; rintro ⟨⟩)
  | component =>
      rw [hs] at h
      have cost : t.cost = max 1 (4 * t.view.order - 3) := by rw [Task.cost, hs]; rfl
      obtain ⟨verdict, hverdict, h⟩ := exists_of_bind_eq_ok h
      cases verdict with
      | unsettled =>
          cases h
          have free : (k.unsettledPlacement t).cost t = 0 := by
            rw [unsettledPlacement]; split_ifs <;> rfl
          rw [cost, List.map_singleton, List.sum_singleton, free]
          omega
      | signs positive =>
          have shared := (View.parts_perm ht (hsigns _ _ hverdict)).length_eq
          have nodup := fun u (hu : u ∈ Bisection.parts t.view positive) =>
            View.nodup_of_mem_parts ht hu
          simp only [Bisection.parts] at h shared nodup
          obtain ⟨qs, hqs, h⟩ := exists_of_bind_eq_ok h
          obtain ⟨rs', hrs', h⟩ := exists_of_bind_eq_ok h
          cases h
          obtain ⟨rs, hrs, h⟩ := exists_of_bind_eq_ok hrs'
          cases h
          have left := cost_partPlacements_le hk (nodup _ List.mem_cons_self) hqs
          have right := cost_partPlacements_le hk
            (nodup _ (List.mem_cons_of_mem _ List.mem_cons_self)) hrs
          simp only [List.flatMap_cons, List.flatMap_nil, List.length_append, List.length_nil,
            View.length_vertexList] at shared
          simp only [List.map_append, List.sum_append, cost, List.append_nil]
          omega

end Budget

end Clustering

end GraphClustering
