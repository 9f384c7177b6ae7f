import GraphClustering.Proofs.Graph.Lawful

/-!
# Neighbours in a view

In a view of a compressed store, looking up the entries of a row and looking up the
vertices of the view come to the same (`probedOf_eq_adjacentOf`): the neighbours of
a vertex are the vertices of the view for which its row has an entry, ascending.  If the
entries are mirrored, the relation is symmetric.
-/

namespace GraphClustering.View

variable {α : Type} {v : View α} {row i j r c : Nat} {x : α}

/-! ## Looking up local ids -/

theorem localOf?_eq_some_iff (hv : v.rows.toList.Pairwise (· < ·)) :
    v.localOf? r = some i ↔ v.rows[i]? = some r := by
  rw [localOf?, Search.position?_eq_some_iff hv, Array.getElem?_eq_some_iff]
  refine ⟨fun ⟨hi, h⟩ => ⟨hi, ?_⟩, fun ⟨hi, h⟩ => ⟨hi, ?_⟩⟩ <;>
    simpa [Array.getD_eq_getD_getElem?, hi] using h

theorem isSome_localOf? (hv : v.rows.toList.Pairwise (· < ·)) {c : Nat} :
    (v.localOf? c).isSome = decide (c ∈ v.rows.toList) := by
  rw [Bool.eq_iff_iff, decide_eq_true_iff, Option.isSome_iff_exists, mem_rows_iff]
  simp only [localOf?_eq_some_iff hv]

theorem lt_of_rows_lt (hv : v.rows.toList.Pairwise (· < ·)) (hi : v.rows[i]? = some r)
    (hj : v.rows[j]? = some c) (h : r < c) : i < j := by
  obtain ⟨hi', rfl⟩ := Array.getElem?_eq_some_iff.mp hi
  obtain ⟨hj', rfl⟩ := Array.getElem?_eq_some_iff.mp hj
  by_contra hji
  rcases Nat.eq_or_lt_of_le (Nat.le_of_not_lt hji) with rfl | hji
  · exact lt_irrefl _ h
  · exact lt_asymm h (List.pairwise_iff_getElem.mp hv j i hj' hi' hji)

theorem mem_adjacentOf (hv : v.rows.toList.Pairwise (· < ·)) :
    (i, x) ∈ v.adjacentOf row ↔ ∃ c, v.rows[i]? = some c ∧ (c, x) ∈ v.store.rowEntries row := by
  simp only [adjacentOf, List.mem_filterMap, Option.map_eq_some_iff, localOf?_eq_some_iff hv,
    Prod.exists, Prod.mk.injEq]
  constructor
  · rintro ⟨c, x, entry, i, hi, rfl, rfl⟩
    exact ⟨c, hi, entry⟩
  · rintro ⟨c, hi, entry⟩
    exact ⟨c, x, entry, i, hi, rfl, rfl⟩

theorem mem_probedOf (hs : v.store.Compressed) :
    (i, x) ∈ v.probedOf row ↔ ∃ c, v.rows[i]? = some c ∧ (c, x) ∈ v.store.rowEntries row := by
  simp only [probedOf, List.mem_filterMap, List.mem_range, Option.bind_eq_some_iff,
    Option.map_eq_some_iff, Prod.mk.injEq, ← hs.exists_positionWithin?_iff]
  constructor
  · rintro ⟨i, -, c, hi, k, found, x, weight, rfl, rfl⟩
    exact ⟨c, hi, k, found, weight⟩
  · rintro ⟨c, hi, k, found, weight⟩
    exact ⟨i, (Array.getElem?_eq_some_iff.mp hi).1, c, hi, k, found, x, weight, rfl, rfl⟩

theorem adjacentOf_ascend (hs : v.store.Compressed) (hv : v.rows.toList.Pairwise (· < ·))
    (row : Nat) : (v.adjacentOf row).Pairwise fun e e' => e.1 < e'.1 := by
  rw [adjacentOf, List.pairwise_filterMap]
  refine (hs.rowEntries_ascend row).imp ?_
  rintro ⟨c, x⟩ ⟨d, y⟩ lt e he e' he'
  obtain ⟨i, hi, rfl⟩ := Option.map_eq_some_iff.mp he
  obtain ⟨j, hj, rfl⟩ := Option.map_eq_some_iff.mp he'
  exact lt_of_rows_lt hv ((localOf?_eq_some_iff hv).mp hi) ((localOf?_eq_some_iff hv).mp hj) lt

theorem probedOf_ascend (v : View α) (row : Nat) :
    (v.probedOf row).Pairwise fun e e' => e.1 < e'.1 := by
  rw [probedOf, List.pairwise_filterMap]
  refine List.pairwise_lt_range.imp ?_
  intro i j hij e he e' he'
  simp only [Option.bind_eq_some_iff, Option.map_eq_some_iff] at he he'
  obtain ⟨-, -, -, -, -, -, rfl⟩ := he
  obtain ⟨-, -, -, -, -, -, rfl⟩ := he'
  exact hij

/-- Both ways to find the neighbours of a row come to the same. -/
theorem probedOf_eq_adjacentOf (hs : v.store.Compressed) (hv : v.rows.toList.Pairwise (· < ·))
    (row : Nat) : v.probedOf row = v.adjacentOf row := by
  refine List.Subset.antisymm_of_pairwise (v.probedOf_ascend row)
    (adjacentOf_ascend hs hv row) ?_ ?_ <;> rintro ⟨i, x⟩ h
  · exact (mem_adjacentOf hv).mpr ((mem_probedOf hs).mp h)
  · exact (mem_probedOf hs).mpr ((mem_adjacentOf hv).mp h)

theorem neighboursOf_eq_adjacentOf (hs : v.store.Compressed) (hv : v.rows.toList.Pairwise (· < ·))
    (row : Nat) : v.neighboursOf row = v.adjacentOf row := by
  rw [neighboursOf]
  split_ifs with isolated
  · rw [adjacentOf, Store.rowEntries, isolated]
    rfl
  · rfl
  · exact probedOf_eq_adjacentOf hs hv row

/-! ## Neighbours by local ids -/

theorem mem_neighbourIds (h : v.Compressed) : j ∈ v.neighbourIds i ↔ ∃ r c x,
    v.rows[i]? = some r ∧ v.rows[j]? = some c ∧ (c, x) ∈ v.store.rowEntries r := by
  rw [neighbourIds]
  cases hr : v.rows[i]? with
  | none => simp
  | some r =>
      simp only [neighboursOf_eq_adjacentOf h.store h.ascending, List.mem_map, Prod.exists,
        mem_adjacentOf h.ascending, exists_and_right, exists_eq_right]
      constructor
      · rintro ⟨x, c, hc, entry⟩
        exact ⟨r, c, x, rfl, hc, entry⟩
      · rintro ⟨_, c, x, ⟨⟩, hc, entry⟩
        exact ⟨x, c, hc, entry⟩

theorem lt_order_of_mem_neighbourIds (h : v.Compressed) (hj : j ∈ v.neighbourIds i) :
    j < v.order := by
  obtain ⟨_, _, _, -, hj, -⟩ := (mem_neighbourIds h).mp hj
  exact (Array.getElem?_eq_some_iff.mp hj).1

theorem neighbourIds_symm (h : v.Mirrored) (hj : j ∈ v.neighbourIds i) :
    i ∈ v.neighbourIds j := by
  obtain ⟨r, c, x, hi, hj, entry⟩ := (mem_neighbourIds h.toCompressed).mp hj
  obtain ⟨y, back⟩ := h.mirrored r c x entry
  exact (mem_neighbourIds h.toCompressed).mpr ⟨c, r, y, hj, hi, back⟩

theorem nodup_neighbourIds (h : v.Compressed) (i : Nat) : (v.neighbourIds i).Nodup := by
  rw [neighbourIds]
  split
  · rw [neighboursOf_eq_adjacentOf h.store h.ascending]
    exact List.pairwise_map.mpr
      ((adjacentOf_ascend h.store h.ascending _).imp fun h => ne_of_lt h)
  · exact List.nodup_nil

end GraphClustering.View
