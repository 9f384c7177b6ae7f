import GraphClustering.Graph.View
import GraphClustering.Proofs.Graph.Sorted

/-!
# Restricting views

The vertices of a view restricted to local ids are those at these ids, and the
vertices of an induced view are the given ids, ascending and each once.  Views
on disjoint lists of local ids that together cover a view share its vertices out
(`flatMap_restrict_perm`).
-/

namespace GraphClustering.View

variable {α : Type} {v u : View α} {L : List Nat} {ids : List Int} {id : Int}

theorem length_vertexList (v : View α) : v.vertexList.length = v.order := by
  rw [vertexList, Array.length_toList, vertices, Array.size_map, order]

theorem getElem?_vertices {i : Nat} (h : i < v.order) :
    v.vertices[i]? = some (v.vertices.getD i 0) := by
  have inside : i < v.vertices.size := h.trans_eq v.length_vertexList.symm
  rw [Array.getD_eq_getD_getElem?, Array.getElem?_eq_getElem inside, Option.getD_some]

theorem vertexList_eq_map (v : View α) :
    v.vertexList = v.rows.toList.map fun r => v.store.labels.getD r 0 := by
  rw [vertexList, vertices, Array.toList_map]

theorem mem_rows_iff {r : Nat} : r ∈ v.rows.toList ↔ ∃ i : Nat, v.rows[i]? = some r := by
  rw [Array.mem_toList_iff, Array.mem_iff_getElem?]

theorem mem_vertexList_iff : id ∈ v.vertexList ↔ ∃ i : Nat, v.vertices[i]? = some id := by
  rw [vertexList, Array.mem_toList_iff, Array.mem_iff_getElem?]

theorem lt_order_of_getElem? {i : Nat} (h : v.vertices[i]? = some id) : i < v.order := by
  obtain ⟨hi, -⟩ := Array.getElem?_eq_some_iff.mp h
  rwa [vertices, Array.size_map] at hi

/-- A vertex has one local id in a view without repetition. -/
theorem eq_of_getElem?_vertices (hv : v.vertexList.Nodup) {i j : Nat}
    (hi : v.vertices[i]? = some id) (hj : v.vertices[j]? = some id) : i = j := by
  rw [← Array.getElem?_toList] at hi hj
  exact (List.getElem?_inj (List.getElem?_eq_some_iff.mp hi).1 hv).mp (hi.trans hj.symm)

theorem mem_rows_restrict {r : Nat} :
    r ∈ (v.restrict L).rows.toList ↔ ∃ i ∈ L, v.rows[i]? = some r := by
  rw [restrict, List.toList_toArray, mem_sortedRows, List.mem_filterMap]

theorem rows_restrict_ascending (v : View α) (L : List Nat) :
    (v.restrict L).rows.toList.Pairwise (· < ·) := by
  rw [restrict, List.toList_toArray]
  exact sortedRows_ascending _

theorem mem_vertexList_restrict :
    id ∈ (v.restrict L).vertexList ↔ ∃ i ∈ L, v.vertices[i]? = some id := by
  rw [vertexList_eq_map, List.mem_map]
  simp only [mem_rows_restrict, vertices, Array.getElem?_map, Option.map_eq_some_iff]
  constructor
  · rintro ⟨r, ⟨i, hi, hr⟩, rfl⟩
    exact ⟨i, hi, r, hr, rfl⟩
  · rintro ⟨i, hi, r, hr, rfl⟩
    exact ⟨r, ⟨i, hi, hr⟩, rfl⟩

theorem nodup_vertexList_restrict (hv : v.vertexList.Nodup) (L : List Nat) :
    (v.restrict L).vertexList.Nodup := by
  rw [vertexList_eq_map] at hv ⊢
  refine List.Nodup.map_on ?_ ((rows_restrict_ascending v L).imp fun h => ne_of_lt h)
  intro r hr s hs
  obtain ⟨i, -, hi⟩ := mem_rows_restrict.mp hr
  obtain ⟨j, -, hj⟩ := mem_rows_restrict.mp hs
  exact List.inj_on_of_nodup_map hv (mem_rows_iff.mpr ⟨i, hi⟩) (mem_rows_iff.mpr ⟨j, hj⟩)

/-- Disjoint lists of local ids that cover a view share its vertices out. -/
theorem flatMap_restrict_perm (hv : v.vertexList.Nodup) {Ls : List (List Nat)}
    (disjoint : Ls.Pairwise List.Disjoint) (cover : ∀ i < v.order, ∃ L ∈ Ls, i ∈ L) :
    (Ls.flatMap fun L => (v.restrict L).vertexList).Perm v.vertexList := by
  refine (List.perm_ext_iff_of_nodup ?_ hv).mpr ?_
  · rw [List.nodup_flatMap]
    refine ⟨fun L _ => nodup_vertexList_restrict hv L, disjoint.imp fun {L L'} hL id hid hid' => ?_⟩
    obtain ⟨i, hi, hid⟩ := mem_vertexList_restrict.mp hid
    obtain ⟨j, hj, hid'⟩ := mem_vertexList_restrict.mp hid'
    exact hL hi (eq_of_getElem?_vertices hv hid hid' ▸ hj)
  · intro id
    rw [List.mem_flatMap, mem_vertexList_iff]
    constructor
    · rintro ⟨L, -, hid⟩
      obtain ⟨i, -, hi⟩ := mem_vertexList_restrict.mp hid
      exact ⟨i, hi⟩
    · rintro ⟨i, hi⟩
      obtain ⟨L, hL, hiL⟩ := cover i (lt_order_of_getElem? hi)
      exact ⟨L, hL, mem_vertexList_restrict.mpr ⟨i, hiL, hi⟩⟩

/-! ## Induced views -/

theorem map_label_filterMap_position? {labels : Array Int}
    (h : ∀ id ∈ ids, (Search.position? labels id).isSome) :
    ((ids.filterMap fun id => Search.position? labels id).map fun r => labels.getD r 0) = ids := by
  induction ids with
  | nil => rfl
  | cons id ids ih =>
      obtain ⟨r, hr⟩ := Option.isSome_iff_exists.mp (h id List.mem_cons_self)
      rw [List.filterMap_cons_some hr, List.map_cons,
        ih fun j hj => h j (List.mem_cons_of_mem _ hj)]
      exact congrArg (· :: ids) (Search.position?_eq_some hr).2

/-- An induced view has the given ids as its vertices, ascending and each once. -/
theorem vertexList_of_induced (h : v.induced ids = .ok u) :
    u.vertexList = sortedDistinct ids := by
  rw [induced, rowsOf] at h
  split at h
  · rename_i known
    cases h
    rw [vertexList_eq_map]
    apply map_label_filterMap_position?
    intro id hid
    by_contra hnone
    have : id ∈ (sortedDistinct ids).filter fun id =>
        (Search.position? v.store.labels id).isNone :=
      List.mem_filter.mpr ⟨hid, by simpa using hnone⟩
    rw [List.isEmpty_iff.mp known] at this
    cases this
  · cases h

theorem mem_vertexList_of_induced (h : v.induced ids = .ok u) :
    id ∈ u.vertexList ↔ id ∈ ids := by
  rw [vertexList_of_induced h, mem_sortedDistinct]

theorem nodup_vertexList_of_induced (h : v.induced ids = .ok u) : u.vertexList.Nodup := by
  rw [vertexList_of_induced h]
  exact (sortedDistinct_ascending ids).imp fun h => ne_of_lt h

/-- Distinct ids induce a view with as many vertices. -/
theorem order_of_induced (h : v.induced ids = .ok u) (nodup : ids.Nodup) :
    u.order = ids.length := by
  rw [← length_vertexList]
  refine List.Perm.length_eq ((List.perm_ext_iff_of_nodup ?_ nodup).mpr fun id => ?_)
  · exact nodup_vertexList_of_induced h
  · exact mem_vertexList_of_induced h

/-- Ids among ascending labels always induce a view. -/
theorem exists_induced (ascending : v.store.labels.toList.Pairwise (· < ·))
    (h : ∀ id ∈ ids, id ∈ v.store.labels) : ∃ u, v.induced ids = .ok u := by
  have known : ((sortedDistinct ids).filter fun id =>
      (Search.position? v.store.labels id).isNone) = [] := by
    rw [List.filter_eq_nil_iff]
    intro id hid
    obtain ⟨k, hk⟩ := Search.exists_position? ascending (h id (mem_sortedDistinct.mp hid))
    rw [hk]; simp
  rw [induced, rowsOf, known]
  exact ⟨_, rfl⟩

/-- The rows of an induced view ascend where the labels do. -/
theorem ascending_of_induced (labels : v.store.labels.toList.Pairwise (· < ·))
    (h : v.induced ids = .ok u) : u.rows.toList.Pairwise (· < ·) := by
  rw [induced, rowsOf] at h
  split at h <;> cases h
  refine List.pairwise_filterMap.mpr ((sortedDistinct_ascending ids).imp ?_)
  intro id id' lt r hr r' hr'
  obtain ⟨below, rfl⟩ := Search.position?_eq_some hr
  obtain ⟨below', rfl⟩ := Search.position?_eq_some hr'
  by_contra le
  rcases Nat.eq_or_lt_of_le (Nat.le_of_not_lt le) with rfl | gt
  · exact lt_irrefl _ lt
  · exact lt_asymm lt (Search.rel_getD labels gt below)

end GraphClustering.View
