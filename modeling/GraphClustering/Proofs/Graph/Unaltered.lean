import GraphClustering.Proofs.Chain
import GraphClustering.Proofs.Graph.Interpolation
import GraphClustering.Proofs.Graph.Supply

/-!
# The ids of a built graph

A build checks the signs of the ids that it was given, and reads them as signed integers
afterwards.  So its vertices are the supplied ids, in order and found by both look-ups, as
long as these have a sign of 64 bits; a greater id passes the checks and becomes a negative
one (`vertices_of_supplied`).
-/

namespace GraphClustering

theorem wrapSigned_of_gt {id : Int} (above : ElementType.maxSigned < id)
    (below : id < Nat.pow 2 64) : wrapSigned id = id - Nat.pow 2 64 := by
  have power : (Nat.pow 2 64 : Int) = 2 * Nat.pow 2 63 := rfl
  have shifted : wrapSigned id = wrapSigned (id - Nat.pow 2 64) := by
    rw [wrapSigned, wrapSigned, Int.sub_bmod_right]
  rw [shifted]
  rw [ElementType.maxSigned] at above
  refine Multigraph.wrapSigned_eq ?_ ?_
  · rw [ElementType.minSigned]
    omega
  · rw [ElementType.maxSigned]
    omega

theorem wrapSigned_le (id : Int) : wrapSigned id ≤ ElementType.maxSigned := by
  have power : (Nat.pow 2 64 : Int) = 2 * Nat.pow 2 63 := rfl
  have lt := Int.bmod_lt (x := id) (m := Nat.pow 2 64) (by decide)
  rw [ElementType.maxSigned, wrapSigned]
  omega

/-- Signed integers of 64 bits pass as vertex ids unaltered. -/
theorem vertexIds_eq {ids : List Int}
    (fits : ∀ id ∈ ids, ElementType.minSigned ≤ id ∧ id ≤ ElementType.maxSigned) :
    vertexIds (ids.map .int) = .ok ids := by
  by_cases none : ids = []
  · rw [none]
    rfl
  · have signed : ElementType.ofCells (ids.map .int) = .signed :=
      congrArg Column.type (Multigraph.ofCells_int none fits)
    have wrapped : (ids.map Cell.int).map (fun c => wrapSigned c.toInt) = ids := by
      rw [List.map_map]
      exact Multigraph.map_wrapSigned fits
    rw [vertexIds, List.isEmpty_map, List.isEmpty_eq_false_iff.mpr none, signed, wrapped]
    rfl

namespace Multigraph

variable {α : Type} {m : Multigraph α} {id : Int}

/-- The multigraph whose ids are read as signed integers. -/
def wrapped (m : Multigraph α) : Multigraph α where
  edges := m.edges.map fun e => (wrapSigned e.1, wrapSigned e.2.1, e.2.2)
  declared := m.declared.map wrapSigned
  bound := m.bound

theorem sources_wrapped (m : Multigraph α) : m.wrapped.sources = m.sources.map wrapSigned := by
  rw [sources, sources, wrapped, List.map_map, List.map_map]
  rfl

theorem targets_wrapped (m : Multigraph α) : m.wrapped.targets = m.targets.map wrapSigned := by
  rw [targets, targets, wrapped, List.map_map, List.map_map]
  rfl

theorem weights_wrapped (m : Multigraph α) : m.wrapped.weights = m.weights := by
  rw [weights, weights, wrapped, List.map_map]
  rfl

theorem ids_wrapped (m : Multigraph α) : m.wrapped.ids = m.ids.map wrapSigned := by
  rw [ids, ids, sources_wrapped, targets_wrapped, List.map_append, List.map_append]
  rfl

/-- Signed integers stay what they are. -/
theorem ids_wrapped_of_fits
    (fits : ∀ id ∈ m.ids, ElementType.minSigned ≤ id ∧ id ≤ ElementType.maxSigned) :
    m.wrapped.ids = m.ids := by
  rw [ids_wrapped, map_wrapSigned fits]

variable [Scalar α]

theorem vertexList_whole_store (m : Multigraph α) (workers : Option Int) :
    (View.whole m.store workers).vertexList = m.labels.toList := by
  have size : m.store.order = m.labels.size := by rw [store_eq, Store.order_ofEntries]
  have labels : m.store.labels = m.labels := by rw [store_eq]; rfl
  rw [View.vertexList_eq_map, View.whole, size, labels, Array.toList_range]
  refine List.ext_getElem (by simp) fun i hi _ => ?_
  simp only [List.length_map, List.length_range] at hi
  simp [Array.getD_eq_getD_getElem?, hi]

theorem ascend_whole_store (m : Multigraph α) (workers : Option Int) :
    (View.whole m.store workers).vertexList.Pairwise (· < ·) := by
  rw [vertexList_whole_store]
  exact m.labels_ascend

/-- The vertices of the wrapped multigraph are the wrapped ids and the ids below the bound. -/
theorem mem_vertexList_wrapped {workers : Option Int} :
    id ∈ (View.whole m.wrapped.store workers).vertexList ↔
      (∃ given ∈ m.ids, wrapSigned given = id) ∨ ∃ n, m.bound = some n ∧ 0 ≤ id ∧ id < n := by
  rw [vertexList_whole_store, Array.mem_toList_iff, mem_labels, HasVertex, ids_wrapped,
    List.mem_map]
  rfl

theorem mem_vertexList_of_fits {workers : Option Int}
    (fits : ∀ id ∈ m.ids, ElementType.minSigned ≤ id ∧ id ≤ ElementType.maxSigned) :
    id ∈ (View.whole m.wrapped.store workers).vertexList ↔
      id ∈ m.ids ∨ ∃ n, m.bound = some n ∧ 0 ≤ id ∧ id < n := by
  rw [vertexList_whole_store, Array.mem_toList_iff, mem_labels, HasVertex,
    ids_wrapped_of_fits fits]
  rfl

/-- An id beyond the signed integers is no vertex, unless it lies below the bound. -/
theorem not_mem_vertexList_of_gt (workers : Option Int) (above : ElementType.maxSigned < id)
    (beyond : ∀ n, m.bound = some n → n ≤ id) :
    id ∉ (View.whole m.wrapped.store workers).vertexList := fun vertex => by
  rcases mem_vertexList_wrapped.mp vertex with ⟨given, -, rfl⟩ | ⟨n, hn, -, lt⟩
  · exact absurd above (not_lt.mpr (wrapSigned_le given))
  · exact absurd lt (not_lt.mpr (beyond n hn))

end Multigraph

namespace View

variable {α : Type} {v : View α} {id : Int}

/-- Whether both look-ups find all of some ids where they stand. -/
def Finds (v : View α) (ids : List Int) : Prop :=
  ∃ place : Int → Nat,
    (∀ id ∈ ids, v.vertices[place id]? = some id ∧ v.localId id = .ok (some (place id))) ∧
      vertexIds (ids.map .int) = .ok ids ∧ v.localIds ids = ids.map fun id => some (place id)

theorem localId_eq_none (ascending : v.vertexList.Pairwise (· < ·)) (h : id ∉ v.vertexList) :
    v.localId id = .ok none := by
  obtain ⟨found, run, holds⟩ := v.exists_localId ascending id
  cases found with
  | none => exact run
  | some i =>
      have entry := (holds i).mp rfl
      exact absurd (Array.mem_toList_iff.mpr (Array.mem_of_getElem? entry)) h

theorem finds_of_subset (ascending : v.vertexList.Pairwise (· < ·)) {ids : List Int}
    (h : ids ⊆ v.vertexList)
    (fits : ∀ id ∈ ids, ElementType.minSigned ≤ id ∧ id ≤ ElementType.maxSigned) :
    v.Finds ids := by
  have entry : ∀ id ∈ ids, v.vertices[v.vertexList.idxOf id]? = some id := fun id hid => by
    rw [← Array.getElem?_toList]
    exact List.getElem?_idxOf (h hid)
  refine ⟨fun id => v.vertexList.idxOf id, fun id hid => ⟨entry id hid, ?_⟩, ?_, ?_⟩
  · obtain ⟨found, run, holds⟩ := v.exists_localId ascending id
    rw [run, (holds _).mpr (entry id hid)]
  · exact vertexIds_eq fits
  · refine List.map_congr_left fun id hid => ?_
    obtain ⟨hlt, value⟩ := Array.getElem?_eq_some_iff.mp (entry id hid)
    rw [Search.position?_eq_some_iff ascending]
    refine ⟨hlt, ?_⟩
    rw [Array.getD_eq_getD_getElem?, entry id hid, Option.getD_some]

end View

namespace Builder

variable {α : Type} [Scalar α] {calls : List (Supply α)} {bound workers : Option Int} {v : View α}

omit [Scalar α] in
theorem lt_of_boundIds {b : Builder α} {ids below : List Int} (h : b.boundIds ids = .ok below)
    (m : Multigraph α) (given : b.bound = m.bound) :
    below = m.below ∧ ∀ n, m.bound = some n → ∀ id ∈ ids, id < n := by
  rw [boundIds, given] at h
  rw [Multigraph.below]
  cases hb : m.bound with
  | none =>
      rw [hb] at h
      cases h
      exact ⟨rfl, fun _ given => absurd given (Option.some_ne_none _).symm⟩
  | some n =>
      rw [hb] at h
      dsimp only at h
      split at h
      · cases h
      · rename_i within
        cases h
        refine ⟨rfl, ?_⟩
        rintro _ ⟨⟩
        exact (Multigraph.foldl_max_lt_iff.mp (not_le.mp within)).2

/-- A build that succeeds has passed the checks and made the graph of the wrapped ids. -/
theorem whole_of_build {b : Builder α} {m : Multigraph α} {s t : ElementType}
    (collected : b.collect = .ok (m.typedBatch s t)) (given : b.bound = m.bound)
    (declared : ∀ ds, b.declaredIds = .ok ds → ds = m.declared.map wrapSigned)
    (h : b.build = .ok v) : check (m.typedBatch s t) = .ok () ∧ (∃ ds, b.declaredIds = .ok ds) ∧
      (∀ n, m.bound = some n → ∀ id ∈ m.wrapped.ids, id < n) ∧
      v = .whole m.wrapped.store b.workers := by
  rw [build, collected] at h
  obtain ⟨_, ⟨⟩, h⟩ := exists_of_bind_eq_ok h
  obtain ⟨_, checked, h⟩ := exists_of_bind_eq_ok h
  obtain ⟨ds, found, h⟩ := exists_of_bind_eq_ok h
  obtain ⟨below, within, h⟩ := exists_of_bind_eq_ok h
  obtain rfl := declared ds found
  simp only [Multigraph.typedBatch, Multigraph.integers_int, ← Multigraph.sources_wrapped,
    ← Multigraph.targets_wrapped] at h within
  obtain ⟨rfl, bounded⟩ := lt_of_boundIds within m given
  cases h
  refine ⟨checked, ⟨_, found⟩, bounded, ?_⟩
  rw [← m.weights_wrapped]
  rfl

/-- The ends of edges that pass the check are integers of 64 bits, none of them negative. -/
theorem lt_of_check {m : Multigraph α} {s t : ElementType} (hs : s.Suits m.sources)
    (ht : t.Suits m.targets) (h : check (m.typedBatch s t) = .ok ()) :
    ∀ id ∈ m.sources ++ m.targets, 0 ≤ id ∧ id < Nat.pow 2 64 := by
  by_cases none : m.edges = []
  · rw [Multigraph.sources, Multigraph.targets, none]
    exact List.forall_mem_nil _
  · have typed : s.isInteger = true ∧ t.isInteger = true := by
      by_contra foreign
      cases (Multigraph.check_of_not_integer none foreign).symm.trans h
    have nonneg := ((Multigraph.check_eq_ok_iff (.inr typed)).mp h).1
    refine fun id hid => ⟨nonneg id hid, ?_⟩
    exact (List.mem_append.mp hid).elim (hs.lt typed.1) (ht.lt typed.2)

/-- A build that succeeds has found the supplied ids to be integers of 64 bits, none of them
negative, and has made the graph of these as signed integers. -/
theorem exists_of_supplied (h : ((empty bound workers).supplyAll calls).build = .ok v) :
    ∃ m : Multigraph α, m.bound = bound ∧ (∀ id, id ∈ m.ids ↔ id ∈ calls.flatMap Supply.ids) ∧
      (∀ id ∈ m.ids, 0 ≤ id ∧ id < Nat.pow 2 64) ∧
      (∀ n, bound = some n → ∀ id ∈ m.wrapped.ids, id < n) ∧
      v = .whole m.wrapped.store workers := by
  obtain ⟨singles, hs⟩ | ⟨f, failed⟩ := Supply.collect_of_calls calls bound workers
  swap
  · rw [build, failed] at h
    cases h
  have found := declaredIds_of_arrays (b := (empty bound workers).supplyAll calls)
    (calls.filterMap Supply.declared?) (by rw [supplyAll_eq]; rfl)
  have checked := whole_of_build (Supply.collect_of_singles hs) (by rw [supplyAll_eq]; rfl)
    (fun ds ok => by rw [found] at ok; split_ifs at ok; cases ok; rfl) h
  obtain ⟨checked, ⟨ds, ok⟩, bounded, rfl⟩ := checked
  rw [found] at ok
  split_ifs at ok with integer nonneg
  refine ⟨Supply.multigraph calls singles bound, rfl, fun id => Supply.mem_ids_multigraph hs, ?_,
    bounded, by rw [supplyAll_eq]; rfl⟩
  intro id hid
  rcases List.mem_append.mp hid with hid | hid
  · refine lt_of_check ?_ ?_ checked id hid
    · rw [Multigraph.sources, Supply.multigraph, IdBatch.map_source_flatMap_edges]
      exact IdArray.suits_joined _
    · rw [Multigraph.targets, Supply.multigraph, IdBatch.map_target_flatMap_edges]
      exact IdArray.suits_joined _
  · exact ⟨nonneg id hid, (IdArray.suits_joined _).lt integer hid⟩

/-- The vertices of a graph that is built from supplied ids are these ids as signed integers of
64 bits, and those below the bound.  Ids without a sign bit are their own signed integers: then
nothing is altered, and every supplied id is found.  Any greater id is not a vertex. -/
theorem vertices_of_supplied (h : ((empty bound workers).supplyAll calls).build = .ok v) :
    (∀ id ∈ calls.flatMap Supply.ids, 0 ≤ id ∧ id < Nat.pow 2 64) ∧
    (∀ id, id ∈ v.vertexList ↔ (∃ given ∈ calls.flatMap Supply.ids, wrapSigned given = id) ∨
      ∃ n, bound = some n ∧ 0 ≤ id ∧ id < n) ∧
    ((∀ id ∈ calls.flatMap Supply.ids, id ≤ ElementType.maxSigned) →
      (∀ id, id ∈ v.vertexList ↔
        id ∈ calls.flatMap Supply.ids ∨ ∃ n, bound = some n ∧ 0 ≤ id ∧ id < n) ∧
      (∀ id ∈ v.vertexList, 0 ≤ id ∧ ∀ n, bound = some n → id < n) ∧
      ∀ ids ⊆ calls.flatMap Supply.ids, v.Finds ids) ∧
    ∀ id ∈ calls.flatMap Supply.ids, ElementType.maxSigned < id →
      id - Nat.pow 2 64 ∈ v.vertexList ∧ ((∀ n, bound = some n → n ≤ id) →
        id ∉ v.vertexList ∧ v.localId id = .ok none) := by
  obtain ⟨m, rfl, mem_ids, range, bounded, rfl⟩ := exists_of_supplied h
  simp only [← mem_ids]
  have ascending := m.wrapped.ascend_whole_store workers
  refine ⟨range, fun id => Multigraph.mem_vertexList_wrapped, fun fits => ?_,
    fun id hid above => ?_⟩
  · have signed : ∀ id ∈ m.ids, ElementType.minSigned ≤ id ∧ id ≤ ElementType.maxSigned :=
      fun id hid => ⟨(by decide : ElementType.minSigned ≤ 0).trans (range id hid).1, fits id hid⟩
    refine ⟨fun id => Multigraph.mem_vertexList_of_fits signed, fun id hid => ?_,
      fun ids supplied => ?_⟩
    · rcases (Multigraph.mem_vertexList_of_fits signed).mp hid with hid | ⟨n, hn, nonneg, lt⟩
      · refine ⟨(range id hid).1, fun n hn => bounded n hn id ?_⟩
        rwa [Multigraph.ids_wrapped_of_fits signed]
      · refine ⟨nonneg, fun n' hn' => ?_⟩
        cases hn.symm.trans hn'
        exact lt
    · have inside : ids ⊆ m.ids := fun id hid => (mem_ids id).mpr (supplied hid)
      exact View.finds_of_subset ascending
        (fun id hid => (Multigraph.mem_vertexList_of_fits signed).mpr (.inl (inside hid)))
        fun id hid => signed id (inside hid)
  · have other : wrapSigned id = id - Nat.pow 2 64 := wrapSigned_of_gt above (range id hid).2
    refine ⟨Multigraph.mem_vertexList_wrapped.mpr (.inl ⟨id, hid, other⟩), fun beyond => ?_⟩
    have absent := Multigraph.not_mem_vertexList_of_gt workers above beyond
    exact ⟨absent, View.localId_eq_none ascending absent⟩

/-- An array of unsigned integers beside an edge in lists, a batch that fails and declared
vertices, under a bound. -/
def gapped : List (Supply ℚ) :=
  [.edges (.unsigned [7, 40] (by decide)) (.unsigned [40, 3] (by decide)) none,
    .edges (.list [1, 2]) (.list [3]) none, .vertices (.list [5, 1])]

/-- A declared vertex with a sign bit. -/
def signBit : List (Supply ℚ) :=
  [.vertices (.list [Nat.pow 2 63])]

theorem vertices_of_supplied_gapped :
    (∃ v, ((empty (some 41) none).supplyAll gapped).build = .ok v ∧ v.Finds [40, 3, 5]) ∧
      ∃ v, ((empty none none).supplyAll signBit).build = .ok v ∧
        (Nat.pow 2 63 : Int) ∉ v.vertexList := by
  constructor
  · obtain ⟨v, built⟩ : ∃ v, ((empty (some 41) none).supplyAll gapped).build = .ok v := ⟨_, rfl⟩
    exact ⟨v, built, ((vertices_of_supplied built).2.2.1 (by decide)).2.2 _ (by decide)⟩
  · obtain ⟨v, built⟩ : ∃ v, ((empty none none).supplyAll signBit).build = .ok v := ⟨_, rfl⟩
    exact ⟨v, built, (((vertices_of_supplied built).2.2.2 (Nat.pow 2 63) (by decide) (by decide)).2
      nofun).1⟩

/-- The sign bit of a declared vertex makes it a negative one, which is not found. -/
theorem build_signBit : ∃ v, ((empty none none).supplyAll signBit).build = .ok v ∧
    v.vertexList = [-(Nat.pow 2 63 : Int)] ∧ v.localId (Nat.pow 2 63) = .ok none := by
  let m : Multigraph ℚ := ⟨[], [-(Nat.pow 2 63 : Int)], none⟩
  have vertices : (View.whole m.store none).vertexList = [-(Nat.pow 2 63 : Int)] := by
    rw [Multigraph.vertexList_whole_store]
    exact congrArg List.eraseReps (List.mergeSort_singleton _)
  refine ⟨.whole m.store none, rfl, vertices, View.localId_eq_none (m.ascend_whole_store none) ?_⟩
  rw [vertices]
  decide

end Builder

end GraphClustering
