import GraphClustering.Proofs.Graph.Parts

/-!
# Lawful stores and views

In a lawful store the labels ascend, rows lie within the arrays and have ascending
columns, and every entry is stored in the rows of both its ends.  The views of such
a store, with ascending rows, are closed under parts, and the view on some of their
vertices is such a part (`Compressed.partOf_of_induced`).  Where weights are rounded, an
entry may differ from the one in the row of its column: then the store is no more than
mirrored.
-/

namespace GraphClustering

variable {α : Type}

namespace Store

variable {s : Store α} {row c k : Nat} {x : α}

/-- The labels ascend, one for each row; every row lies within the arrays, its
columns ascend, and each of its entries is repeated in the row of the column. -/
structure Lawful (s : Store α) : Prop where
  labels_ascend : s.labels.toList.Pairwise (· < ·)
  size_labels : s.labels.size = s.order
  size_weights : s.weights.size = s.edges.size
  span_le : ∀ row, (s.span row).2 ≤ s.edges.size
  columns_ascend : ∀ row i j, (s.span row).1 ≤ i → i < j → j < (s.span row).2 →
    s.edges.getD i default < s.edges.getD j default
  symmetric : ∀ row c x, (c, x) ∈ s.rowEntries row → (row, x) ∈ s.rowEntries c

theorem entryAt?_eq_some_iff :
    s.entryAt? k = some (c, x) ↔ s.edges[k]? = some c ∧ s.weights[k]? = some x := by
  rw [entryAt?]
  cases s.edges[k]? <;> cases s.weights[k]? <;> simp

/-- The entries of a row are those at the positions of its span. -/
theorem mem_rowEntries : (c, x) ∈ s.rowEntries row ↔ ∃ k, (s.span row).1 ≤ k ∧
    k < (s.span row).2 ∧ s.edges[k]? = some c ∧ s.weights[k]? = some x := by
  rw [rowEntries, List.mem_filterMap]
  simp only [List.mem_range'_1, entryAt?_eq_some_iff, degree, and_assoc]
  refine exists_congr fun k => and_congr_right fun above => and_congr_left fun _ => ?_
  omega

theorem span_of_order_le (h : s.order ≤ row) : (s.span row).2 = 0 := by
  have outside : s.pointers.size ≤ row + 1 := Nat.sub_le_iff_le_add.mp h
  change s.pointers.getD (row + 1) 0 = 0
  rw [Array.getD_eq_getD_getElem?, Array.getElem?_eq_none outside, Option.getD_none]

theorem rowEntries_of_order_le (h : s.order ≤ row) : s.rowEntries row = [] := by
  rw [rowEntries, degree, span_of_order_le h, Nat.zero_sub]
  rfl

/-- The labels ascend, one for each row; every row lies within the arrays and its columns
ascend. -/
structure Compressed (s : Store α) : Prop where
  labels_ascend : s.labels.toList.Pairwise (· < ·)
  size_labels : s.labels.size = s.order
  size_weights : s.weights.size = s.edges.size
  span_le : ∀ row, (s.span row).2 ≤ s.edges.size
  columns_ascend : ∀ row i j, (s.span row).1 ≤ i → i < j → j < (s.span row).2 →
    s.edges.getD i default < s.edges.getD j default

theorem Lawful.compressed (h : s.Lawful) : s.Compressed :=
  ⟨h.labels_ascend, h.size_labels, h.size_weights, h.span_le, h.columns_ascend⟩

/-- Whether each entry has one in the row of its column, of whatever weight. -/
def Mirrored (s : Store α) : Prop :=
  ∀ row c x, (c, x) ∈ s.rowEntries row → ∃ y, (row, y) ∈ s.rowEntries c

theorem Lawful.mirrored (h : s.Lawful) : s.Mirrored := fun row c x entry =>
  ⟨x, h.symmetric row c x entry⟩

theorem Compressed.lawful (h : s.Compressed)
    (symmetric : ∀ row c x, (c, x) ∈ s.rowEntries row → (row, x) ∈ s.rowEntries c) : s.Lawful :=
  ⟨h.labels_ascend, h.size_labels, h.size_weights, h.span_le, h.columns_ascend, symmetric⟩

theorem Compressed.label_lt (h : s.Compressed) {r r' : Nat} (hrr' : r < r') (hr' : r' < s.order) :
    s.labels.getD r 0 < s.labels.getD r' 0 := by
  rw [← h.size_labels] at hr'
  exact Search.rel_getD h.labels_ascend hrr' hr'

theorem Compressed.label_inj (h : s.Compressed) {r r' : Nat} (hr : r < s.order)
    (hr' : r' < s.order) (label : s.labels.getD r 0 = s.labels.getD r' 0) : r = r' := by
  refine le_antisymm (Nat.le_of_not_lt fun lt => ?_) (Nat.le_of_not_lt fun lt => ?_)
  · exact (h.label_lt lt hr).ne label.symm
  · exact (h.label_lt lt hr').ne label

section Rows

variable (labels : s.labels.toList.Pairwise (· < ·)) (size : s.labels.size = s.order)
variable (weights : s.weights.size = s.edges.size)
variable (span : ∀ row < s.order, (s.span row).2 ≤ s.edges.size)
variable (columns : ∀ row < s.order, ∀ j < (s.span row).2, ∀ i < j, (s.span row).1 ≤ i →
  s.edges.getD i default < s.edges.getD j default)
include labels size weights span columns

/-- Only the rows of a store have to be looked at. -/
theorem compressed_of_rows : s.Compressed where
  labels_ascend := labels
  size_labels := size
  size_weights := weights
  span_le row := by
    rcases Nat.lt_or_ge row s.order with h | h
    · exact span row h
    · rw [span_of_order_le h]
      exact Nat.zero_le _
  columns_ascend row i j hi hij hj := by
    rcases Nat.lt_or_ge row s.order with h | h
    · exact columns row h j hj i hij hi
    · rw [span_of_order_le h] at hj
      cases hj

theorem lawful_of_rows
    (symmetric : ∀ row < s.order, ∀ e ∈ s.rowEntries row, (row, e.2) ∈ s.rowEntries e.1) :
    s.Lawful := by
  refine (compressed_of_rows labels size weights span columns).lawful fun row c x entry => ?_
  rcases Nat.lt_or_ge row s.order with h | h
  · exact symmetric row h (c, x) entry
  · rw [rowEntries_of_order_le h] at entry
    cases entry

end Rows

theorem getD_edges_of_getElem? (h : s.edges[k]? = some c) : s.edges.getD k default = c := by
  rw [Array.getD_eq_getD_getElem?, h, Option.getD_some]

/-- The columns of a row ascend. -/
theorem Compressed.rowEntries_ascend (h : s.Compressed) (row : Nat) :
    (s.rowEntries row).Pairwise fun e e' => e.1 < e'.1 := by
  rw [rowEntries, List.pairwise_filterMap]
  refine List.Pairwise.imp_of_mem ?_ List.pairwise_lt_range'
  rintro i j hi hj hij ⟨c, x⟩ hc ⟨d, y⟩ hd
  rw [List.mem_range'_1, degree] at hi hj
  have lt := h.columns_ascend row i j hi.1 hij (by omega)
  rwa [getD_edges_of_getElem? (entryAt?_eq_some_iff.mp hc).1,
    getD_edges_of_getElem? (entryAt?_eq_some_iff.mp hd).1] at lt

/-- The binary search among the columns of a row finds its entries. -/
theorem Compressed.exists_positionWithin?_iff (h : s.Compressed) :
    (∃ k, Search.positionWithin? s.edges c (s.span row).1 (s.span row).2 = some k ∧
      s.weights[k]? = some x) ↔ (c, x) ∈ s.rowEntries row := by
  rw [mem_rowEntries]
  refine exists_congr fun k => ⟨?_, ?_⟩
  · rintro ⟨found, weight⟩
    obtain ⟨hlt, rfl⟩ := Search.positionWithin?_eq_some found
    have inside : k < s.edges.size := hlt.trans_le (h.span_le row)
    refine ⟨Search.le_of_positionWithin? found, hlt, ?_, weight⟩
    rw [Array.getD_eq_getD_getElem?, Array.getElem?_eq_getElem inside, Option.getD_some]
  · rintro ⟨above, below, entry, weight⟩
    refine ⟨?_, weight⟩
    rw [← getD_edges_of_getElem? entry]
    exact Search.positionWithin?_getD above below (h.columns_ascend row)

end Store

namespace View

variable {v u : View α} {row i j r c : Nat} {x : α}

/-- A view of a lawful store with ascending rows of it. -/
structure Lawful (v : View α) : Prop where
  store : v.store.Lawful
  ascending : v.rows.toList.Pairwise (· < ·)
  inRange : ∀ r ∈ v.rows.toList, r < v.store.order

/-- A view of a compressed store with ascending rows of it. -/
structure Compressed (v : View α) : Prop where
  store : v.store.Compressed
  ascending : v.rows.toList.Pairwise (· < ·)
  inRange : ∀ r ∈ v.rows.toList, r < v.store.order

/-- A view of a compressed store whose entries are mirrored, with ascending rows of it. -/
structure Mirrored (v : View α) : Prop extends v.Compressed where
  mirrored : v.store.Mirrored

theorem Lawful.mirrored (h : v.Lawful) : v.Mirrored :=
  ⟨⟨h.store.compressed, h.ascending, h.inRange⟩, h.store.mirrored⟩

theorem PartOf.compressed (h : u.PartOf v) (hv : v.Compressed) : u.Compressed where
  store := h.store ▸ hv.store
  ascending := h.ascending
  inRange r hr := h.store ▸ hv.inRange r (h.subset hr)

theorem PartOf.lawful (h : u.PartOf v) (hv : v.Lawful) : u.Lawful where
  store := h.store ▸ hv.store
  ascending := h.ascending
  inRange r hr := h.store ▸ hv.inRange r (h.subset hr)

theorem Compressed.vertexList_ascend (h : v.Compressed) : v.vertexList.Pairwise (· < ·) := by
  rw [vertexList_eq_map, List.pairwise_map]
  exact h.ascending.imp_of_mem fun hr hs lt => h.store.label_lt lt (h.inRange _ hs)

theorem Compressed.nodup_vertexList (h : v.Compressed) : v.vertexList.Nodup :=
  h.vertexList_ascend.imp fun h => ne_of_lt h

namespace Lawful

theorem vertexList_ascend (h : v.Lawful) : v.vertexList.Pairwise (· < ·) :=
  h.mirrored.vertexList_ascend

theorem nodup_vertexList (h : v.Lawful) : v.vertexList.Nodup :=
  h.mirrored.nodup_vertexList

end Lawful

/-! ## Induced views -/

namespace Compressed

variable {ids : List Int}

theorem mem_labels (hv : v.Compressed) {id : Int} (hid : id ∈ v.vertexList) :
    id ∈ v.store.labels := by
  obtain ⟨r, hr, rfl⟩ := mem_vertexList_iff_row.mp hid
  have inside : r < v.store.labels.size := hv.store.size_labels ▸ hv.inRange r hr
  rw [Array.getD_eq_getD_getElem?, Array.getElem?_eq_getElem inside]
  exact Array.getElem_mem inside

/-- The view on some of the vertices of a view is a part of it. -/
theorem partOf_of_induced (hv : v.Compressed) (h : v.induced ids = .ok u)
    (inside : ids ⊆ v.vertexList) : u.PartOf v := by
  have ascending := ascending_of_induced hv.store.labels_ascend h
  rw [induced, rowsOf] at h
  split at h <;> cases h
  refine ⟨rfl, rfl, ascending, fun r hr => ?_⟩
  obtain ⟨id, hid, hr⟩ := List.mem_filterMap.mp hr
  obtain ⟨s, hs, label⟩ :=
    mem_vertexList_iff_row.mp (inside (mem_sortedDistinct.mp hid))
  obtain ⟨below, rfl⟩ := Search.position?_eq_some hr
  rw [hv.store.size_labels] at below
  exact hv.store.label_inj below (hv.inRange s hs) label.symm ▸ hs

/-- Some of the vertices of a view always induce a part of it. -/
theorem exists_partOf_induced (hv : v.Compressed) (inside : ids ⊆ v.vertexList) :
    ∃ u, v.induced ids = .ok u ∧ u.PartOf v := by
  obtain ⟨u, hu⟩ := exists_induced hv.store.labels_ascend fun id hid => hv.mem_labels (inside hid)
  exact ⟨u, hu, hv.partOf_of_induced hu inside⟩

/-- Its rows are those labelled with these vertices. -/
theorem mem_rows_of_induced (hv : v.Compressed) (h : v.induced ids = .ok u)
    (inside : ids ⊆ v.vertexList) :
    r ∈ u.rows.toList ↔ r ∈ v.rows.toList ∧ v.store.labels.getD r 0 ∈ ids := by
  have part := hv.partOf_of_induced h inside
  rw [← mem_vertexList_of_induced h, mem_vertexList_iff_row, part.store]
  constructor
  · exact fun hr => ⟨part.subset hr, r, hr, rfl⟩
  · rintro ⟨hr, s, hs, label⟩
    exact eq_of_label_eq hv.nodup_vertexList (part.subset hs) hr label ▸ hs

/-- Some of the vertices of a view are the vertices of a part of it. -/
theorem induced_eq (hv : v.Compressed) (hu : u.PartOf v)
    (same : ∀ id, id ∈ ids ↔ id ∈ u.vertexList) : v.induced ids = .ok u := by
  have inside : ids ⊆ v.vertexList := fun id hid => hu.vertexList_subset ((same id).mp hid)
  obtain ⟨w, hw, part⟩ := hv.exists_partOf_induced inside
  rw [hw, PartOf.eq_of_vertices hv.nodup_vertexList part hu fun id =>
    (mem_vertexList_of_induced hw).trans (same id)]

end Compressed

end View

end GraphClustering
