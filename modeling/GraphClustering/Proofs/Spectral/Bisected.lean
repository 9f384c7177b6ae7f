import Mathlib
import GraphClustering.Proofs.Cluster.Orderly
import GraphClustering.Proofs.Graph.Submatrix
import GraphClustering.Proofs.Spectral.Deflation

/-!
# The operator on the views that are bisected

The adjacency of a view is symmetric (`Matrix.IsPrincipal.isAdjacency`).  The views
that are bisected are connected, so no row of their adjacency is zero if there are several
vertices (`Matrix.IsPrincipal.exists_weight_ne_zero`): the operator acts on them as
described.
-/

namespace GraphClustering

variable {α : Type} [ExactScalar α]

namespace Matrix

/-! ## The adjacency of a view -/

variable {row : List (Nat × α)} {j : Nat} {w : α}

theorem rowWeight_eq_zero (h : ∀ e ∈ row, e.1 ≠ j) : rowWeight row j = 0 := by
  have none : (row.filter fun e => e.1 = j) = [] :=
    List.filter_eq_nil_iff.mpr fun e he => by simpa using h e he
  rw [rowWeight, none]
  rfl

/-- A row with ascending columns stores the weight of a column once. -/
theorem rowWeight_of_mem (ascend : row.Pairwise fun e e' => e.1 < e'.1) (h : (j, w) ∈ row) :
    rowWeight row j = w := by
  induction row with
  | nil => cases h
  | cons e row ih =>
      obtain ⟨first, rest⟩ := List.pairwise_cons.mp ascend
      rw [rowWeight_cons]
      rcases List.mem_cons.mp h with rfl | h
      · rw [if_pos rfl, rowWeight_eq_zero fun e he => (first e he).ne', add_zero]
      · rw [if_neg (first _ h).ne, zero_add, ih rest h]

namespace IsPrincipal

variable {v : View α} {m : Matrix α} {i j : Fin v.order} (h : m.IsPrincipal v)

include h

theorem weights_of_stores (stored : v.Stores i j w) : m.weights v.order i j = w := by
  obtain ⟨row, hrow, mem⟩ := (h.holds i j w).mpr stored
  rw [weights, Array.getD_eq_getD_getElem?, hrow, Option.getD_some]
  exact rowWeight_of_mem (h.ascend row (Array.mem_of_getElem? hrow)) mem

theorem weights_of_not_stores (none : ∀ w, ¬ v.Stores i j w) : m.weights v.order i j = 0 := by
  have inside : (i : Nat) < m.rows.size := by
    rw [h.rows]
    exact i.isLt
  have hrow : m.rows[(i : Nat)]? = some m.rows[(i : Nat)] := Array.getElem?_eq_getElem inside
  rw [weights, Array.getD_eq_getD_getElem?, hrow, Option.getD_some]
  apply rowWeight_eq_zero
  rintro ⟨_, w⟩ mem rfl
  exact none w ((h.holds i _ w).mp ⟨_, hrow, mem⟩)

/-- The adjacency of a view without negative weights. -/
theorem isAdjacency (hv : v.Lawful) (nonneg : v.NonnegEntries) : m.IsAdjacency v.order where
  columns := h.columns
  rows := h.rows
  within := by
    rintro row hrow ⟨j, w⟩ mem
    obtain ⟨i, hi⟩ := Array.mem_iff_getElem?.mp hrow
    exact (View.lt_order_of_stores ((h.holds i j w).mp ⟨row, hi, mem⟩)).2
  symm i j := by
    by_cases stored : ∃ w, v.Stores i j w
    · obtain ⟨w, stored⟩ := stored
      rw [h.weights_of_stores stored, h.weights_of_stores (stored.symm hv.store)]
    · rw [not_exists] at stored
      rw [h.weights_of_not_stores stored,
        h.weights_of_not_stores fun w back => stored w (back.symm hv.store)]
  nonneg i j := by
    by_cases stored : ∃ w, v.Stores i j w
    · obtain ⟨w, stored⟩ := stored
      rw [h.weights_of_stores stored]
      obtain ⟨r, c, -, -, entry⟩ := stored
      exact nonneg r _ entry
    · rw [h.weights_of_not_stores (not_exists.mp stored)]

/-- In a connected view of several vertices no row is zero. -/
theorem exists_weight_ne_zero (hv : v.Lawful) (pos : v.PosEntries) (connected : v.Connected)
    (several : 2 ≤ v.order) (i : Fin v.order) : ∃ j, m.weights v.order i j ≠ 0 := by
  obtain ⟨k, other⟩ : ∃ k : Fin v.order, k ≠ i := by
    have := Fin.nontrivial_iff_two_le.mpr several
    exact exists_ne i
  have row (j : Fin v.order) : v.rows[(j : Nat)]? = some v.rows[j] :=
    Array.getElem?_eq_getElem j.isLt
  have mem (j : Fin v.order) : v.rows[j] ∈ v.rows.toList :=
    Array.mem_toList_iff.mpr (Array.getElem_mem j.isLt)
  have distinct : v.rows[i] ≠ v.rows[k] := by
    have nodup : v.rows.toList.Nodup := hv.ascending.imp fun lt => lt.ne
    exact fun same => other (Fin.ext ((nodup.getElem_inj_iff).mp same).symm)
  -- the first step of a path away from the row leads along an entry of the row
  rcases (connected.linked _ (mem i) _ (mem k)).cases_head with same | ⟨c, link, -⟩
  · exact absurd same distinct
  · obtain ⟨-, hc, x, entry⟩ := link
    obtain ⟨j, hj, rfl⟩ := Array.mem_iff_getElem.mp (Array.mem_toList_iff.mp hc)
    have entry := entry.elim id (hv.store.symmetric _ _ _)
    refine ⟨⟨j, hj⟩, ?_⟩
    rw [h.weights_of_stores ⟨_, _, row i, row ⟨j, hj⟩, entry⟩]
    exact (pos _ _ entry).ne'

end IsPrincipal

end Matrix

namespace Clustering

open NormalizedAdjacency Relation

/-! ## The views that are bisected -/

section Run

variable {k : Clustering α} {g : View α} {p : Progress α} {t : Task α}
variable (lawful : g.Lawful) (run : ReflTransGen k.TaskStep (start g .whole) p) (ht : t ∈ p.queue)

include lawful run ht

/-- All tasks of a run are for parts of its view. -/
theorem partOf_of_run : t.view.PartOf g := by
  induction run generalizing t with
  | refl =>
      rw [List.mem_singleton.mp ht]
      exact .refl lawful.ascending
  | tail _ step ih =>
      obtain ⟨t', rest, next, done⟩ := step
      rw [perform_eq] at done
      obtain ⟨ps, hps, rfl⟩ := exists_of_map_eq_ok done
      exact partOf_of_mem_queue hps (ih (next ▸ List.mem_cons_self))
        (fun s hs => ih (next ▸ List.mem_cons_of_mem t' hs)) t ht

/-- The views that are bisected are connected. -/
theorem connected_of_run (stage : t.stage = .component) : t.view.Connected :=
  ((arranged_start lawful.nodup_vertexList).of_passes lawful.store.span_le
    (.between run)).connected t ht stage

end Run

/-- Over exact numbers with exact roots, for symmetric weights that are not negative: what the
operator returns has no part along the trivial eigenvector, the operator acts as described just
if no row is zero, and then it maps the trivial eigenvector to zero.  So it does for the views of
several vertices that a run for a graph of positive weights bisects, which are connected. -/
theorem apply_deflates :
    (∀ {m : Matrix α} {n : Nat}, m.IsAdjacency n → ExactRoots (m.weights n) →
      (∀ x : Fin n → α, ∃ y, (ofMatrix m).apply (List.ofFn x) = .ok (List.ofFn y) ∧
        along (m.weights n) y = 0) ∧
      (ActsAsDescribed m n ↔ ∀ i, ∃ j, m.weights n i j ≠ 0) ∧
      ((∀ i, ∃ j, m.weights n i j ≠ 0) → Annihilates m n)) ∧
    ∀ {k : Clustering α} {g : View α} {p : Progress α} {t : Task α} {m : Matrix α},
      g.Lawful → g.PosEntries → ReflTransGen k.TaskStep (start g .whole) p → t ∈ p.queue →
      t.stage = .component → 2 ≤ t.view.order → t.view.adjacency = .ok m →
      t.view.Connected ∧ m.IsAdjacency t.view.order ∧ (ExactRoots (m.weights t.view.order) →
        ActsAsDescribed m t.view.order ∧ Annihilates m t.view.order) := by
  constructor
  · intro m n h exact
    exact ⟨exists_apply_along h exact, actsAsDescribed_iff h exact, annihilates h exact⟩
  · intro k g p t m lawful pos run ht stage several hm
    have part := partOf_of_run lawful run ht
    have connected := connected_of_run lawful run ht stage
    have within := part.lawful lawful
    have positive : t.view.PosEntries := fun row e he => pos row e (part.store ▸ he)
    have principal := View.isPrincipal_of_adjacency within.store.compressed within.ascending hm
    have adjacency := principal.isAdjacency within positive.nonneg
    have some := principal.exists_weight_ne_zero within positive connected several
    refine ⟨connected, adjacency, fun exact => ⟨?_, annihilates adjacency exact some⟩⟩
    exact (actsAsDescribed_iff adjacency exact).mpr some

/-- Three vertices with the degrees 4, 16 and 16. -/
def triangle : View ℚ :=
  .whole (.ofEntries #[10, 20, 30] [⟨0, 1, 2⟩, ⟨0, 2, 2⟩, ⟨1, 0, 2⟩, ⟨1, 2, 14⟩, ⟨2, 0, 2⟩,
    ⟨2, 1, 14⟩]) none

theorem lawful_triangle : triangle.Lawful where
  store := by apply Store.lawful_of_rows <;> decide +kernel
  ascending := by decide +kernel
  inRange := by decide +kernel

/-- The weights between the vertices of the triangle. -/
def triangleMatrix : Matrix ℚ :=
  ⟨3, #[[(1, 2), (2, 2)], [(0, 2), (2, 14)], [(0, 2), (1, 14)]]⟩

theorem exactRoots_triangle : @ExactRoots ℚ exactRat 3
    (@Matrix.weights ℚ exactRat triangleMatrix 3) :=
  letI := exactRat
  { root_pos := by decide +kernel
    root_sq := by decide +kernel
    norm_pos := by decide +kernel
    norm_sq := by decide +kernel }

/-- The triangle is connected, so its first task is for a component; its trivial eigenvector is
mapped to zero, and the first unit vector to one without a part along it. -/
theorem apply_deflates_triangle : ∃ p, halving.TaskStep (start triangle .whole) p ∧
    p.queue.map Task.stage = [.component] ∧ triangle.adjacency = .ok triangleMatrix ∧
    @ActsAsDescribed ℚ exactRat triangleMatrix 3 ∧
    (ofMatrix triangleMatrix).apply [1 / 3, 2 / 3, 2 / 3] = .ok [0, 0, 0] ∧
    ∃ y : Fin 3 → ℚ, (ofMatrix triangleMatrix).apply [1, 0, 0] = .ok (List.ofFn y) ∧
      @along ℚ exactRat 3 (@Matrix.weights ℚ exactRat triangleMatrix 3) y = 0 := by
  let _ := exactRat
  have step : halving.TaskStep (start triangle .whole)
      ⟨(start triangle .whole).forest, [⟨triangle, .component, 0⟩], 0, 1⟩ :=
    ⟨⟨triangle, .whole, 0⟩, [], rfl, by cbv⟩
  have positive : triangle.PosEntries := View.posEntries_of_weights (by decide +kernel)
  have found : triangle.adjacency = .ok triangleMatrix := by cbv
  obtain ⟨-, adjacency, bisected⟩ := apply_deflates.2 lawful_triangle positive (.single step)
    List.mem_cons_self rfl (by decide +kernel) found
  change triangleMatrix.IsAdjacency 3 at adjacency
  obtain ⟨described, trivial⟩ := bisected exactRoots_triangle
  obtain ⟨y, hy, orthogonal⟩ :=
    (apply_deflates.1 adjacency exactRoots_triangle).1 ![1, 0, 0]
  have direction_eq : List.ofFn (direction (triangleMatrix.weights 3)) = [1 / 3, 2 / 3, 2 / 3] := by
    decide +kernel
  refine ⟨_, step, rfl, found, described, ?_, y, hy, orthogonal⟩
  rw [← direction_eq]
  exact trivial

end Clustering

end GraphClustering
