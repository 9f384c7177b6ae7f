import GraphClustering.Proofs.Graph.Partition
import GraphClustering.Proofs.Graph.Submatrix
import GraphClustering.Proofs.Graph.Unaltered

/-!
# Views derived from a graph

Views are taken from views: by global ids, by local ids, as components and as sides of a
split.  Each step leaves a part of the graph (`Derived.partOf`), so that after any chain of
them the rows ascend, and local and global ids stand for each other under either look-up
(`derived_idMap`).
-/

namespace GraphClustering.View

variable {α : Type} {g u v w : View α} {ids locals : List Int} {id : Int}

/-- The graph, and the views taken from it by any chain of steps. -/
inductive Derived (g : View α) : View α → Prop
  | graph : Derived g g
  | induced {u w : View α} {ids : List Int} :
      Derived g u → u.induced ids = .ok w → Derived g w
  | localSubgraph {u w : View α} {locals : List Int} :
      Derived g u → u.localSubgraph locals = .ok w → Derived g w
  | component {u w : View α} : Derived g u → w ∈ u.components → Derived g w
  | side {u w : View α} {positive : List Bool} :
      Derived g u → w ∈ Bisection.parts u positive → Derived g w

/-! ## Parts of a whole graph -/

/-- The vertices of the view of all rows are the labels. -/
theorem mem_vertexList_whole {s : Store α} {workers : Option Int} (h : s.Compressed) :
    id ∈ (whole s workers).vertexList ↔ id ∈ s.labels := by
  refine ⟨(Builder.whole_compressed h workers).mem_labels, fun label => ?_⟩
  obtain ⟨r, hr, rfl⟩ := Array.mem_iff_getElem.mp label
  refine mem_vertexList_iff_row.mpr ⟨r, ?_, ?_⟩
  · rw [whole, Array.toList_range]
    exact List.mem_range.mpr (h.size_labels ▸ hr)
  · simp [whole, Array.getD_eq_getD_getElem?, hr]

/-- Induced views depend on the store only. -/
theorem PartOf.induced_eq (h : u.PartOf v) (ids : List Int) : u.induced ids = v.induced ids := by
  rw [induced, induced, h.store, h.workers]

theorem labels_of_induced (h : v.induced ids = .ok u) (hid : id ∈ ids) : id ∈ v.store.labels := by
  rw [induced, rowsOf] at h
  split at h
  · rename_i known
    have found := List.filter_eq_nil_iff.mp (List.isEmpty_iff.mp known) id
      (mem_sortedDistinct.mpr hid)
    rw [Option.isNone_iff_eq_none] at found
    obtain ⟨r, hr⟩ := Option.ne_none_iff_exists'.mp found
    obtain ⟨hlt, rfl⟩ := Search.position?_eq_some hr
    rw [Array.getD_eq_getD_getElem?, Array.getElem?_eq_getElem hlt]
    exact Array.getElem_mem hlt
  · cases h

/-- Ids induce a view of a whole graph just if they are all vertices of the graph. -/
theorem exists_induced_iff {s : Store α} {workers : Option Int} (h : s.Compressed)
    (part : u.PartOf (whole s workers)) :
    (∃ w, u.induced ids = .ok w) ↔ ids ⊆ (whole s workers).vertexList := by
  rw [part.induced_eq ids]
  refine ⟨fun ⟨w, hw⟩ id hid => (mem_vertexList_whole h).mpr (labels_of_induced hw hid),
    fun known => exists_induced h.labels_ascend fun id hid => ?_⟩
  exact (mem_vertexList_whole h).mp (known hid)

/-- Every step takes a part of the graph. -/
theorem Derived.partOf {s : Store α} {workers : Option Int} (h : s.Compressed)
    (derived : Derived (whole s workers) u) : u.PartOf (whole s workers) := by
  have compressed := Builder.whole_compressed h workers
  induction derived with
  | graph => exact .refl compressed.ascending
  | induced _ found part =>
      rw [part.induced_eq] at found
      exact compressed.partOf_of_induced found fun id hid =>
        (mem_vertexList_whole h).mpr (labels_of_induced found hid)
  | localSubgraph _ found part =>
      obtain ⟨L, -, rfl⟩ := exists_of_map_eq_ok found
      exact (partOf_restrict _ L).trans part
  | component _ hw part => exact (partOf_of_mem_components hw).trans part
  | side _ hw part => exact (partOf_of_mem_parts hw).trans part

/-! ## Local ids -/

/-- The local id that a number stands for: below zero it counts from the end. -/
def place (v : View α) (i : Int) : Nat :=
  (if 0 ≤ i then i else i + v.order).toNat

/-- A number that stands for a vertex, counted from either end. -/
def IsLocal (v : View α) (i : Int) : Prop :=
  -(v.order : Int) ≤ i ∧ i < v.order

theorem place_lt {i : Int} (h : v.IsLocal i) : v.place i < v.order := by
  rw [IsLocal] at h
  rw [place]
  omega

theorem resolve_of_isLocal {i : Int} (h : v.IsLocal i) :
    Position.resolve v.order i = .ok (v.place i) := by
  have lt := place_lt h
  rw [IsLocal] at h
  rw [place] at lt ⊢
  rw [Position.resolve, Position.resolve?]
  split_ifs at lt ⊢ <;> first | rfl | omega

theorem globalId_of_isLocal {i : Int} (h : v.IsLocal i) :
    v.globalId i = .ok (v.vertices.getD (v.place i) 0) := by
  rw [globalId, resolve_of_isLocal h]
  rfl

/-- The view on some local ids is the view on the global ids of these. -/
theorem Compressed.localSubgraph_eq_induced (hv : v.Compressed)
    (valid : ∀ i ∈ locals, v.IsLocal i) :
    v.localSubgraph locals = .ok (v.restrict (locals.map v.place)) ∧
      v.induced (locals.map fun i => v.vertices.getD (v.place i) 0) =
        .ok (v.restrict (locals.map v.place)) := by
  constructor
  · rw [localSubgraph, mapM_eq_ok fun i hi => resolve_of_isLocal (valid i hi)]
    rfl
  · refine hv.induced_eq (partOf_restrict v _) fun id => ?_
    simp only [mem_vertexList_restrict, List.mem_map]
    constructor
    · rintro ⟨i, hi, rfl⟩
      exact ⟨_, ⟨i, hi, rfl⟩, getElem?_vertices (place_lt (valid i hi))⟩
    · rintro ⟨_, ⟨i, hi, rfl⟩, vertex⟩
      refine ⟨i, hi, ?_⟩
      rw [Array.getD_eq_getD_getElem?, vertex, Option.getD_some]

theorem localIds_singleton (ascending : v.vertexList.Pairwise (· < ·)) {found : Option Nat}
    (h : ∀ i, found = some i ↔ v.vertices[i]? = some id) : v.localIds [id] = [found] := by
  have same : Search.position? v.vertices id = found := by
    refine Option.ext fun i => ?_
    rw [Search.position?_eq_some_iff ascending, h, Array.getElem?_eq_some_iff]
    refine ⟨fun ⟨hi, value⟩ => ⟨hi, ?_⟩, fun ⟨hi, value⟩ => ⟨hi, ?_⟩⟩ <;>
      simpa [Array.getD_eq_getD_getElem?, hi] using value
  rw [localIds, List.map_singleton, same]

/-! ## The two look-ups -/

/-- Whether the rows of a view ascend within its store, and local and global ids stand for each
other: under the search for one id, under that for several, and as ways to take a view. -/
structure IdMap (v : View α) : Prop where
  rows_ascend : v.rows.toList.Pairwise (· < ·)
  labels : ∀ (i r : Nat), v.rows[i]? = some r →
    ∃ id, v.store.labels[r]? = some id ∧ v.vertices[i]? = some id
  vertices_ascend : v.vertexList.Pairwise (· < ·)
  local_global : ∀ i < v.order, ∃ id, v.globalId i = .ok id ∧ v.localId id = .ok (some i)
  global_local : ∀ id ∈ v.vertexList, ∃ i : Nat, v.localId id = .ok (some i) ∧
    v.localIds [id] = [some i] ∧ v.globalId i = .ok id
  absent : ∀ id ∉ v.vertexList, v.localId id = .ok none ∧ v.localIds [id] = [none]
  signed : ∀ id, ElementType.minSigned ≤ id → id ≤ ElementType.maxSigned →
    vertexIds [.int id] = .ok [id]
  subgraph : ∀ locals : List Int, (∀ i ∈ locals, v.IsLocal i) → ∃ ids w,
    locals.mapM v.globalId = .ok ids ∧ v.localSubgraph locals = .ok w ∧ v.induced ids = .ok w

theorem Compressed.idMap (hv : v.Compressed) : v.IdMap where
  rows_ascend := hv.ascending
  labels i r row := by
    have inside : r < v.store.labels.size :=
      hv.store.size_labels ▸ hv.inRange r (mem_rows_iff.mpr ⟨i, row⟩)
    refine ⟨v.store.labels[r], Array.getElem?_eq_getElem inside, ?_⟩
    rw [vertices, Array.getElem?_map, row, Option.map_some, Array.getD_eq_getD_getElem?,
      Array.getElem?_eq_getElem inside, Option.getD_some]
  vertices_ascend := hv.vertexList_ascend
  local_global i hi := by
    have isLocal : v.IsLocal i := ⟨by omega, by omega⟩
    obtain ⟨found, run, holds⟩ := v.exists_localId hv.vertexList_ascend (v.vertices.getD i 0)
    refine ⟨_, globalId_of_isLocal isLocal, ?_⟩
    have same : v.place i = i := by simp [place]
    rw [same, run, (holds i).mpr (getElem?_vertices hi)]
  global_local id hid := by
    obtain ⟨i, vertex⟩ := mem_vertexList_iff.mp hid
    obtain ⟨found, run, holds⟩ := v.exists_localId hv.vertexList_ascend id
    have hi := lt_order_of_getElem? vertex
    have isLocal : v.IsLocal i := ⟨by omega, by omega⟩
    refine ⟨i, by rw [run, (holds i).mpr vertex], ?_, ?_⟩
    · rw [localIds_singleton hv.vertexList_ascend holds, (holds i).mpr vertex]
    · have same : v.place i = i := by simp [place]
      rw [globalId_of_isLocal isLocal, same, Array.getD_eq_getD_getElem?, vertex, Option.getD_some]
  absent id hid := by
    refine ⟨localId_eq_none hv.vertexList_ascend hid, ?_⟩
    refine localIds_singleton hv.vertexList_ascend fun i => ?_
    refine iff_of_false (Option.some_ne_none i).symm fun vertex => ?_
    exact hid (mem_vertexList_iff.mpr ⟨i, vertex⟩)
  signed id low high := vertexIds_eq (List.forall_mem_singleton.mpr ⟨low, high⟩)
  subgraph locals valid := by
    obtain ⟨restricted, induced⟩ := hv.localSubgraph_eq_induced valid
    exact ⟨_, _, mapM_eq_ok fun i hi => globalId_of_isLocal (valid i hi), restricted, induced⟩

/-! ## Built graphs -/

section Built

variable [Scalar α] {b : Builder α}

theorem compressed_of_build (built : b.build = .ok g) : g.Compressed :=
  Builder.build_eq_whole built ▸
    Builder.whole_compressed (Builder.build_compressed built) b.workers

theorem Derived.partOf_of_build (built : b.build = .ok g) (derived : Derived g u) :
    u.PartOf g := by
  rw [Builder.build_eq_whole built] at derived ⊢
  exact derived.partOf (Builder.build_compressed built)

theorem exists_induced_iff_of_build (built : b.build = .ok g) (part : u.PartOf g) :
    (∃ w, u.induced ids = .ok w) ↔ ids ⊆ g.vertexList := by
  rw [Builder.build_eq_whole built] at part ⊢
  exact exists_induced_iff (Builder.build_compressed built) part

/-- In every view taken from a built graph by any chain of steps, local and global ids stand for
each other, and ids induce a view, with just them as its vertices, if they all are vertices of
the graph and not otherwise. -/
theorem derived_idMap (built : b.build = .ok g) (derived : Derived g u) :
    u.store = g.store ∧ u.IdMap ∧
      ∀ ids, (∃ w, u.induced ids = .ok w ∧ ∀ id, id ∈ w.vertexList ↔ id ∈ ids) ↔
        ids ⊆ g.vertexList := by
  have part := derived.partOf_of_build built
  refine ⟨part.store, (part.compressed (compressed_of_build built)).idMap, fun ids => ?_⟩
  rw [← exists_induced_iff_of_build built part]
  exact exists_congr fun w => and_iff_left_of_imp fun hw id => mem_vertexList_of_induced hw

end Built

/-- The ends of a path induce a view without the vertex between them. -/
theorem exists_ends : ∃ g ends : View ℚ, pathWithLoop.build = .ok g ∧
    g.induced [9, 4, 9] = .ok ends ∧ ends.vertexList = [4, 9] := by
  obtain ⟨g, built⟩ : ∃ g, pathWithLoop.build = .ok g := ⟨_, rfl⟩
  have compressed := compressed_of_build built
  have whole := PartOf.refl compressed.ascending
  have vertices : [9, 4, 9] ⊆ g.vertexList := by
    intro id hid
    rw [Builder.build_eq_whole built, mem_vertexList_whole (Builder.build_compressed built)]
    cases built
    refine List.mem_toArray.mpr (mem_sortedDistinct.mpr ?_)
    revert id
    decide
  obtain ⟨ends, hends⟩ := (exists_induced_iff_of_build built whole).mpr vertices
  have part := (Derived.graph.induced hends).partOf_of_build built
  refine ⟨g, ends, built, hends, List.Pairwise.eq_of_mem_iff
    (part.compressed compressed).vertexList_ascend (by decide) fun id => ?_⟩
  rw [mem_vertexList_of_induced hends]
  simp
  tauto

/-- The ends of a path, taken by ids that repeat and descend, and the last of them, counted from
behind. -/
theorem derived_idMap_ends : ∃ g ends last : View ℚ, pathWithLoop.build = .ok g ∧
    g.induced [9, 4, 9] = .ok ends ∧ ends.vertexList = [4, 9] ∧ ends.IdMap ∧
    ends.localIds [9] = [some 1] ∧ ends.localIds [7] = [none] ∧
    ends.localSubgraph [-1] = .ok last ∧ last.IdMap := by
  obtain ⟨g, ends, built, hends, two⟩ := exists_ends
  have derived := Derived.graph.induced hends
  obtain ⟨-, map, -⟩ := derived_idMap built derived
  have order : ends.order = 2 := by rw [← ends.length_vertexList, two]; rfl
  obtain ⟨ids, last, -, hlast, -⟩ := map.subgraph [-1] (by simp [IsLocal, order])
  have found : ends.localIds [9] = [some 1] := by
    rw [localIds, show ends.vertices = #[4, 9] from Array.toList_inj.mp two]
    cbv
  exact ⟨g, ends, last, built, hends, two, map, found, (map.absent 7 (by simp [two])).2, hlast,
    (derived_idMap built (derived.localSubgraph hlast)).2.1⟩

end GraphClustering.View
