import GraphClustering.Proofs.Graph.Restriction

/-!
# Parts of a view

A part of a view is a view of the same store whose rows ascend and are among the
rows of the view.  Restricting a view gives a part of it (`partOf_restrict`), and
where the vertices of a view are distinct a part is determined by its vertices
(`PartOf.eq_of_vertices`), so that parts stand for sets of vertices.
-/

namespace GraphClustering.View

variable {α : Type} {u v w : View α} {L : List Nat} {id : Int} {r : Nat}

/-- A view of some of the vertices of another one, in ascending order. -/
structure PartOf (u v : View α) : Prop where
  store : u.store = v.store
  workers : u.workers = v.workers
  ascending : u.rows.toList.Pairwise (· < ·)
  subset : u.rows.toList ⊆ v.rows.toList

theorem partOf_restrict (v : View α) (L : List Nat) : (v.restrict L).PartOf v where
  store := rfl
  workers := rfl
  ascending := rows_restrict_ascending v L
  subset r hr := by
    obtain ⟨i, -, hi⟩ := mem_rows_restrict.mp hr
    exact mem_rows_iff.mpr ⟨i, hi⟩

theorem mem_vertexList_iff_row :
    id ∈ v.vertexList ↔ ∃ r ∈ v.rows.toList, v.store.labels.getD r 0 = id := by
  rw [vertexList_eq_map, List.mem_map]

/-- The rows of a view with distinct vertices have distinct labels. -/
theorem eq_of_label_eq (hv : v.vertexList.Nodup) {r s : Nat} (hr : r ∈ v.rows.toList)
    (hs : s ∈ v.rows.toList) (h : v.store.labels.getD r 0 = v.store.labels.getD s 0) : r = s := by
  rw [vertexList_eq_map] at hv
  exact List.inj_on_of_nodup_map hv hr hs h

namespace PartOf

theorem refl (h : v.rows.toList.Pairwise (· < ·)) : v.PartOf v :=
  ⟨rfl, rfl, h, List.Subset.refl _⟩

theorem trans (h : u.PartOf v) (h' : v.PartOf w) : u.PartOf w :=
  ⟨h.store.trans h'.store, h.workers.trans h'.workers, h.ascending,
    List.Subset.trans h.subset h'.subset⟩

theorem nodup_rows (h : u.PartOf v) : u.rows.toList.Nodup :=
  h.ascending.imp fun h => ne_of_lt h

theorem vertexList_subset (h : u.PartOf v) : u.vertexList ⊆ v.vertexList := by
  intro id hid
  rw [mem_vertexList_iff_row] at hid ⊢
  obtain ⟨r, hr, rfl⟩ := hid
  exact ⟨r, h.subset hr, by rw [h.store]⟩

theorem nodup_vertexList (h : u.PartOf v) (hv : v.vertexList.Nodup) : u.vertexList.Nodup := by
  rw [vertexList_eq_map, h.store]
  exact h.nodup_rows.map_on fun r hr s hs => eq_of_label_eq hv (h.subset hr) (h.subset hs)

theorem order_le (h : u.PartOf v) : u.order ≤ v.order := by
  have := (h.nodup_rows.subperm h.subset).length_le
  rwa [Array.length_toList, Array.length_toList] at this

theorem eq_of_rows (hu : u.PartOf v) (hw : w.PartOf v) (h : u.rows.toList = w.rows.toList) :
    u = w := by
  obtain ⟨s, rows, workers⟩ := u
  obtain ⟨s', rows', workers'⟩ := w
  obtain rfl : s = s' := hu.store.trans hw.store.symm
  obtain rfl : workers = workers' := hu.workers.trans hw.workers.symm
  obtain rfl : rows = rows' := Array.toList_inj.mp h
  rfl

/-- Two parts have a vertex at the same row. -/
theorem exists_row (hv : v.vertexList.Nodup) (hu : u.PartOf v) (hw : w.PartOf v) {i j : Nat}
    (hi : u.vertices[i]? = some id) (hj : w.vertices[j]? = some id) :
    ∃ r, u.rows[i]? = some r ∧ w.rows[j]? = some r := by
  simp only [vertices, Array.getElem?_map, Option.map_eq_some_iff] at hi hj
  obtain ⟨r, hr, rfl⟩ := hi
  obtain ⟨s, hs, label⟩ := hj
  rw [hu.store, hw.store] at label
  obtain rfl : s = r := eq_of_label_eq hv (hw.subset (mem_rows_iff.mpr ⟨j, hs⟩))
    (hu.subset (mem_rows_iff.mpr ⟨i, hr⟩)) label
  exact ⟨s, hr, hs⟩

/-- Of two parts, one is part of the other if its vertices are. -/
theorem of_vertexList_subset (hv : v.vertexList.Nodup) (hu : u.PartOf v) (hw : w.PartOf v)
    (h : u.vertexList ⊆ w.vertexList) : u.PartOf w where
  store := hu.store.trans hw.store.symm
  workers := hu.workers.trans hw.workers.symm
  ascending := hu.ascending
  subset r hr := by
    obtain ⟨s, hs, label⟩ := mem_vertexList_iff_row.mp (h (mem_vertexList_iff_row.mpr ⟨r, hr, rfl⟩))
    rw [hu.store, hw.store] at label
    rwa [← eq_of_label_eq hv (hw.subset hs) (hu.subset hr) label]

/-- A part is determined by its vertices. -/
theorem eq_of_vertices (hv : v.vertexList.Nodup) (hu : u.PartOf v) (hw : w.PartOf v)
    (h : ∀ id, id ∈ u.vertexList ↔ id ∈ w.vertexList) : u = w := by
  have below := hu.of_vertexList_subset hv hw fun id => (h id).mp
  have above := hw.of_vertexList_subset hv hu fun id => (h id).mpr
  exact hu.eq_of_rows hw
    (List.Subset.antisymm_of_pairwise hu.ascending hw.ascending below.subset above.subset)

/-- A part with as many vertices as the view is the view. -/
theorem eq_of_order_le (h : u.PartOf v) (hv : v.rows.toList.Pairwise (· < ·))
    (hle : v.order ≤ u.order) : u = v := by
  refine h.eq_of_rows (refl hv) (List.Perm.eq_of_pairwise' (r := (· < ·)) h.ascending hv ?_)
  refine (h.nodup_rows.subperm h.subset).perm_of_length_le ?_
  rwa [Array.length_toList, Array.length_toList]

/-- The rows of a part are found in the view by their labels. -/
theorem exists_position? (h : u.PartOf v) (ascending : v.vertexList.Pairwise (· < ·))
    (hr : r ∈ u.rows.toList) : ∃ i,
      Search.position? v.vertices (u.store.labels.getD r 0) = some i ∧ v.rows[i]? = some r := by
  obtain ⟨i, hi⟩ := mem_rows_iff.mp (h.subset hr)
  have label : v.vertices[i]? = some (u.store.labels.getD r 0) := by
    rw [vertices, Array.getElem?_map, hi, Option.map_some, h.store]
  obtain ⟨hlt, value⟩ := Array.getElem?_eq_some_iff.mp label
  refine ⟨i, (Search.position?_eq_some_iff ascending).mpr ⟨hlt, ?_⟩, hi⟩
  rw [Array.getD_eq_getD_getElem?, label, Option.getD_some]

end PartOf

end GraphClustering.View
