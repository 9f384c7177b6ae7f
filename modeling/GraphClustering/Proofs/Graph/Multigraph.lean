import Mathlib
import GraphClustering.Proofs.Graph.Built
import GraphClustering.Proofs.Rational

/-!
# Builds against multigraphs

The input of a build is a multigraph: weighted edges, vertices declared besides, and a
bound below which every integer is a vertex.  A build succeeds just on the admissible
ones (`cases_of_build`), and over exact weights the store represents the multigraph: a
row for each vertex, and in it for each other vertex the weight of all edges between
the two, unless that is zero (`Represents`).
-/

namespace GraphClustering

/-- Weighted edges between integers, with declared vertices and a bound on the ids. -/
structure Multigraph (α : Type) where
  edges : List (Int × Int × α)
  declared : List Int
  bound : Option Int

namespace Multigraph

variable {α : Type} {m : Multigraph α} {workers : Option Int} {id u v : Int}

def sources (m : Multigraph α) : List Int :=
  m.edges.map fun e => e.1

def targets (m : Multigraph α) : List Int :=
  m.edges.map fun e => e.2.1

def weights (m : Multigraph α) : List α :=
  m.edges.map fun e => e.2.2

theorem zip_eq_edges (m : Multigraph α) :
    m.sources.zip (m.targets.zip m.weights) = m.edges := by
  rw [sources, targets, weights, List.zip_map', List.zip_map']
  exact List.map_id m.edges

/-- The ids that are supplied: the ends of the edges and the declared vertices. -/
def ids (m : Multigraph α) : List Int :=
  m.sources ++ m.targets ++ m.declared

/-- The ids that the bound makes vertices. -/
def below (m : Multigraph α) : List Int :=
  m.bound.elim [] fun b => (List.range b.toNat).map fun (k : Nat) => (k : Int)

/-- Whether an id is supplied or below the bound. -/
def HasVertex (m : Multigraph α) (id : Int) : Prop :=
  id ∈ m.ids ∨ ∃ b, m.bound = some b ∧ 0 ≤ id ∧ id < b

/-- Ids of 64 bits with a sign, and a bound that is not negative. -/
structure Fits (m : Multigraph α) : Prop where
  ids : ∀ id ∈ m.ids, ElementType.minSigned ≤ id ∧ id ≤ ElementType.maxSigned
  bound : ∀ b, m.bound = some b → 0 ≤ b

theorem mem_below : id ∈ m.below ↔ ∃ b, m.bound = some b ∧ 0 ≤ id ∧ id < b := by
  rw [below]
  cases m.bound with
  | none => simp
  | some b =>
      simp only [Option.elim_some, List.mem_map, List.mem_range, Option.some_inj, exists_eq_left']
      constructor
      · rintro ⟨k, hk, rfl⟩
        omega
      · rintro ⟨nonneg, lt⟩
        exact ⟨id.toNat, by omega, by omega⟩

theorem hasVertex_iff : m.HasVertex id ↔ id ∈ m.ids ++ m.below := by
  rw [HasVertex, List.mem_append, mem_below]

/-! ## Rows -/

/-- The labels of the rows of the store. -/
def labels (m : Multigraph α) : Array Int :=
  (sortedDistinct (m.ids ++ m.below)).toArray

/-- The edges between the rows of their ends. -/
def entries (m : Multigraph α) : List (Entry α) :=
  m.edges.map fun e => ⟨Builder.rowOf m.labels e.1, Builder.rowOf m.labels e.2.1, e.2.2⟩

theorem labels_ascend (m : Multigraph α) : m.labels.toList.Pairwise (· < ·) :=
  sortedDistinct_ascending _

theorem mem_labels : id ∈ m.labels ↔ m.HasVertex id := by
  rw [hasVertex_iff, labels, List.mem_toArray, mem_sortedDistinct]

theorem rowOf_lt (hid : id ∈ m.ids) : Builder.rowOf m.labels id < m.labels.size :=
  Builder.rowOf_lt (List.mem_append_left m.below hid)

theorem rowOf_eq_iff (hid : id ∈ m.ids) {r : Nat} (hr : m.labels[r]? = some u) :
    Builder.rowOf m.labels id = r ↔ id = u := by
  obtain ⟨k, hk⟩ := Search.exists_position? m.labels_ascend
    (mem_labels.mpr (hasVertex_iff.mpr (List.mem_append_left m.below hid)))
  have label : m.labels.getD r default = u := by
    rw [Array.getD_eq_getD_getElem?, hr, Option.getD_some]
  rw [Builder.rowOf, hk, Option.getD_some, ← Option.some_inj, ← hk,
    Search.position?_eq_some_iff m.labels_ascend, label, eq_comm (a := u)]
  exact and_iff_right (Array.getElem?_eq_some_iff.mp hr).1

/-- The ends of the edges are supplied. -/
theorem ends_mem_ids {e : Int × Int × α} (he : e ∈ m.edges) : e.1 ∈ m.ids ∧ e.2.1 ∈ m.ids :=
  ⟨List.mem_append_left _ (List.mem_append_left _ (List.mem_map.mpr ⟨e, he, rfl⟩)),
    List.mem_append_left _ (List.mem_append_right _ (List.mem_map.mpr ⟨e, he, rfl⟩))⟩

/-! ## The collected edges -/

/-- The builder that is given the edges one by one, after the declared vertices. -/
def builder (m : Multigraph α) (workers : Option Int) : Builder α :=
  { (Builder.empty m.bound workers).addVertices (m.declared.map .int) with
    loose := m.edges.map fun e => ⟨.int e.1, .int e.2.1, .ok e.2.2⟩ }

theorem ofCells_int {zs : List Int} (nonempty : zs ≠ [])
    (fits : ∀ id ∈ zs, ElementType.minSigned ≤ id ∧ id ≤ ElementType.maxSigned) :
    Column.ofCells (zs.map .int) = ⟨.signed, zs.map .int⟩ := by
  rw [Column.ofCells, Column.mk.injEq]
  refine ⟨?_, rfl⟩
  obtain ⟨z, zs, rfl⟩ := List.exists_cons_of_ne_nil nonempty
  have first : ElementType.ofCell (.int z) = .signed := if_pos (fits z List.mem_cons_self)
  rw [List.map_cons, ElementType.ofCells, first]
  replace fits := fun id hid => fits id (List.mem_cons_of_mem z hid)
  clear nonempty first
  induction zs with
  | nil => rfl
  | cons y ys ih =>
      have next : ElementType.ofCell (.int y) = .signed := if_pos (fits y List.mem_cons_self)
      rw [List.map_cons, List.foldl_cons, next]
      exact ih fun id hid => fits id (List.mem_cons_of_mem y hid)

theorem wrapSigned_eq (low : ElementType.minSigned ≤ id) (high : id ≤ ElementType.maxSigned) :
    wrapSigned id = id := by
  have power : Nat.pow 2 64 = 2 * Nat.pow 2 63 := rfl
  simp only [ElementType.minSigned, ElementType.maxSigned] at low high
  rw [wrapSigned, power, Int.bmod_eq_of_le (by omega) (by omega)]

theorem map_wrapSigned {zs : List Int}
    (fits : ∀ id ∈ zs, ElementType.minSigned ≤ id ∧ id ≤ ElementType.maxSigned) :
    zs.map wrapSigned = zs :=
  (List.map_congr_left fun id hid => wrapSigned_eq (fits id hid).1 (fits id hid).2).trans
    (List.map_id zs)

theorem integers_int (t : ElementType) (zs : List Int) :
    (⟨t, zs.map .int⟩ : Column).integers = zs := by
  rw [Column.integers, List.map_map]
  exact List.map_id zs

/-- The edges as one batch. -/
def batch (m : Multigraph α) : EdgeBatch α :=
  ⟨⟨.signed, m.sources.map .int⟩, ⟨.signed, m.targets.map .int⟩, m.weights⟩

/-- The edges as one batch whose ids have the given types. -/
def typedBatch (m : Multigraph α) (s t : ElementType) : EdgeBatch α :=
  ⟨⟨s, m.sources.map .int⟩, ⟨t, m.targets.map .int⟩, m.weights⟩

theorem mapM_weight (es : List (Int × Int × α)) :
    (es.map fun e => (⟨.int e.1, .int e.2.1, .ok e.2.2⟩ : LooseEdge α)).mapM LooseEdge.weight =
      .ok (es.map fun e => e.2.2) := by
  induction es with
  | nil => rfl
  | cons e es ih =>
      rw [List.map_cons, List.mapM_cons, ih]
      rfl

theorem collect_eq (fits : m.Fits) (workers : Option Int) :
    (m.builder workers).collect = .ok m.batch := by
  have batches : (m.builder workers).batches = [] := by
    rw [builder, Builder.addVertices]
    split <;> rfl
  have starts : (m.builder workers).loose.map LooseEdge.source = m.sources.map .int := by
    rw [builder, sources, List.map_map, List.map_map]; rfl
  have stops : (m.builder workers).loose.map LooseEdge.target = m.targets.map .int := by
    rw [builder, targets, List.map_map, List.map_map]; rfl
  have read : (m.builder workers).loose.mapM LooseEdge.weight = .ok m.weights :=
    mapM_weight m.edges
  rw [Builder.collect, batches, read, starts, stops, batch]
  by_cases none : m.edges = []
  · have loose : (m.builder workers).loose = [] := by rw [builder, none]; rfl
    rw [loose, sources, targets, weights, none]
    rfl
  · have some : (m.builder workers).loose.isEmpty = false := by
      rw [builder, List.isEmpty_map]
      exact List.isEmpty_eq_false_iff.mpr none
    have ends : ∀ id ∈ m.sources ++ m.targets,
        ElementType.minSigned ≤ id ∧ id ≤ ElementType.maxSigned := fun id hid =>
      fits.ids id (List.mem_append_left _ hid)
    rw [some, ofCells_int (by rwa [sources, Ne, List.map_eq_nil_iff]) fun id hid =>
        ends id (List.mem_append_left _ hid),
      ofCells_int (by rwa [targets, Ne, List.map_eq_nil_iff]) fun id hid =>
        ends id (List.mem_append_right _ hid)]
    simp only [bind, Except.bind, Bool.false_eq_true, if_false, List.nil_append, List.map_cons,
      List.map_nil, List.flatMap_singleton, Column.concat, List.foldl_nil]

theorem declaredIds_eq (fits : m.Fits) (workers : Option Int) : (m.builder workers).declaredIds =
    if ∀ id ∈ m.declared, 0 ≤ id then .ok m.declared else .error .idsNegative := by
  by_cases none : m.declared = []
  · rw [Builder.declaredIds, builder, Builder.addVertices, none]
    rfl
  · have declared : (m.builder workers).declared = [⟨.signed, m.declared.map .int⟩] := by
      rw [builder, Builder.addVertices, List.isEmpty_map, List.isEmpty_eq_false_iff.mpr none,
        ofCells_int none fun id hid => fits.ids id (List.mem_append_right _ hid)]
      rfl
    have wrapped : m.declared.map wrapSigned = m.declared :=
      map_wrapSigned fun id hid => fits.ids id (List.mem_append_right _ hid)
    rw [Builder.declaredIds, declared]
    simp only [List.isEmpty_cons, Bool.false_eq_true, if_false, Column.concat, List.foldl_nil,
      ElementType.isInteger, Bool.not_true, integers_int, wrapped, List.any_eq_true,
      decide_eq_true_eq]
    split_ifs with negative nonneg nonneg
    · obtain ⟨id, hid, low⟩ := negative
      exact absurd (nonneg id hid) (not_le.mpr low)
    · rfl
    · rfl
    · exact absurd (fun id hid => not_lt.mp fun low => negative ⟨id, hid, low⟩) nonneg

theorem foldl_max_lt_iff {b : Int} {zs : List Int} {z : Int} :
    zs.foldl max z < b ↔ z < b ∧ ∀ id ∈ zs, id < b := by
  induction zs generalizing z with
  | nil => simp
  | cons y ys ih => rw [List.foldl_cons, ih, max_lt_iff, List.forall_mem_cons, and_assoc]

theorem boundIds_eq (fits : m.Fits) {b : Builder α} (given : b.bound = m.bound) :
    (∀ n, m.bound = some n → ∀ id ∈ m.ids, id < n) ∧ b.boundIds m.ids = .ok m.below ∨
      (¬ ∀ n, m.bound = some n → ∀ id ∈ m.ids, id < n) ∧
        ∃ n largest, b.boundIds m.ids = .error (.vertexBeyond n largest) := by
  rw [Builder.boundIds, given, below]
  cases hb : m.bound with
  | none => exact .inl ⟨nofun, rfl⟩
  | some b =>
      have nonneg := fits.bound b hb
      simp only [Option.some_inj, forall_eq', Option.elim_some, ← not_lt, foldl_max_lt_iff]
      split_ifs with beyond
      · exact .inl ⟨beyond.2, rfl⟩
      · exact .inr ⟨fun below => beyond ⟨by omega, below⟩, _, _, rfl⟩

/-! ## The checks of a build -/

section Build

variable [Scalar α]

/-- Supplied ids that are not negative and below the bound, and finite weights that are not
negative. -/
structure Admissible (m : Multigraph α) : Prop where
  nonneg : ∀ id ∈ m.ids, 0 ≤ id
  weights : ∀ w ∈ m.weights, Scalar.isFinite w = true ∧ Scalar.less w 0 = false
  bounded : ∀ b, m.bound = some b → ∀ id ∈ m.ids, id < b

/-- The store of the edges between all vertices. -/
def store (m : Multigraph α) : Store α :=
  Builder.assemble (m.ids ++ m.below) m.sources m.targets m.weights

theorem store_eq (m : Multigraph α) :
    m.store = .ofEntries m.labels (Entry.normalize (Entry.symmetric m.entries)) := by
  rw [store, Builder.assemble, zip_eq_edges]
  rfl

theorem negativeEdge?_eq_none_iff : Builder.negativeEdge? m.sources m.targets m.weights = none ↔
    ∀ w ∈ m.weights, Scalar.less w 0 = false := by
  rw [Builder.negativeEdge?, zip_eq_edges, List.find?_eq_none, weights, List.forall_mem_map]
  simp only [Bool.not_eq_true]

theorem check_eq_ok_iff {s t : ElementType}
    (typed : m.edges = [] ∨ s.isInteger = true ∧ t.isInteger = true) :
    Builder.check (m.typedBatch s t) = .ok () ↔
      (∀ id ∈ m.sources ++ m.targets, 0 ≤ id) ∧
        ∀ w ∈ m.weights, Scalar.isFinite w = true ∧ Scalar.less w 0 = false := by
  rw [Builder.check, typedBatch]
  simp only [integers_int]
  by_cases none : m.edges = []
  · simp [sources, targets, weights, none]
  · obtain ⟨start, stop⟩ := typed.resolve_left none
    have some : m.sources.isEmpty = false := by
      rw [sources, List.isEmpty_map]
      exact List.isEmpty_eq_false_iff.mpr none
    rw [some, if_neg Bool.false_ne_true, start, stop, ← List.any_append]
    simp only [Bool.and_self, Bool.not_true, Bool.false_eq_true, if_false]
    split_ifs with negative infinite
    · refine iff_of_false (by rintro ⟨⟩) fun h => ?_
      obtain ⟨id, hid, low⟩ := List.any_eq_true.mp negative
      exact absurd (h.1 id hid) (not_le.mpr (of_decide_eq_true low))
    · refine iff_of_false (by rintro ⟨⟩) fun h => ?_
      rw [Bool.not_eq_true', List.all_eq_false] at infinite
      obtain ⟨w, hw, finite⟩ := infinite
      exact finite (h.2 w hw).1
    · simp only [Bool.not_eq_true, List.any_eq_false, decide_eq_false_iff_not, not_lt] at negative
      rw [Bool.not_eq_true', Bool.not_eq_false, List.all_eq_true] at infinite
      have light := m.negativeEdge?_eq_none_iff
      split
      · rename_i found
        rw [found] at light
        refine iff_of_false (by rintro ⟨⟩) fun h => ?_
        cases light.mpr fun w hw => (h.2 w hw).2
      · rename_i found
        rw [found] at light
        exact iff_of_true rfl ⟨negative, fun w hw => ⟨infinite w hw, light.mp rfl w hw⟩⟩

/-- Edges whose ids have no integer type are refused. -/
theorem check_of_not_integer {s t : ElementType} (some : m.edges ≠ [])
    (foreign : ¬ (s.isInteger = true ∧ t.isInteger = true)) :
    Builder.check (m.typedBatch s t) = .error .idsNotIntegers := by
  have nonempty : m.sources.isEmpty = false := by
    rw [sources, List.isEmpty_map]
    exact List.isEmpty_eq_false_iff.mpr some
  have refused : (!(s.isInteger && t.isInteger)) = true := by
    rwa [Bool.not_eq_true', ← Bool.not_eq_true, Bool.and_eq_true]
  rw [Builder.check, typedBatch]
  simp only [integers_int, nonempty, refused, Bool.false_eq_true, if_false, if_true]

theorem ne_weight_of_check (e : EdgeBatch α) (f : Fault) :
    Builder.check e ≠ .error (.weight f) := by
  rw [Builder.check]
  split_ifs
  · rintro ⟨⟩
  · rintro ⟨⟩
  · rintro ⟨⟩
  · rintro ⟨⟩
  · split <;> rintro ⟨⟩

/-- Whether a builder holds the edges, the declared vertices and the bound of a multigraph,
with ids of integer types. -/
structure HeldBy (m : Multigraph α) (b : Builder α) : Prop where
  collect : ∃ s t, b.collect = .ok (m.typedBatch s t) ∧
    (m.edges = [] ∨ s.isInteger = true ∧ t.isInteger = true)
  declaredIds : b.declaredIds =
    if ∀ id ∈ m.declared, 0 ≤ id then .ok m.declared else .error .idsNegative
  bound : b.bound = m.bound

/-- A build from what a multigraph holds succeeds just if it is admissible, and all errors
are errors of construction. -/
theorem HeldBy.cases_of_build {b : Builder α} (held : m.HeldBy b) (fits : m.Fits) :
    m.Admissible ∧ b.build = .ok (.whole m.store b.workers) ∨
      ¬ m.Admissible ∧ ∃ e, b.build = .error e ∧ ∀ f, e ≠ .weight f := by
  have wrapped : ∀ ids ⊆ m.ids, ids.map wrapSigned = ids := fun ids sub =>
    map_wrapSigned fun id hid => fits.ids id (sub hid)
  have ends : m.sources ++ m.targets ⊆ m.ids := List.subset_append_left _ _
  have supplied : m.sources ++ m.targets ++ m.declared = m.ids := rfl
  obtain ⟨s, t, collected, typed⟩ := held.collect
  simp only [Builder.build, collected, held.declaredIds, bind, Except.bind, typedBatch,
    integers_int, wrapped m.sources fun id hid => ends (List.mem_append_left _ hid),
    wrapped m.targets fun id hid => ends (List.mem_append_right _ hid)]
  have checks := check_eq_ok_iff typed
  rw [typedBatch] at checks
  cases checked : Builder.check (m.typedBatch s t) with
  | error e =>
      rw [typedBatch] at checked
      rw [checked] at checks ⊢
      refine .inr ⟨fun h => ?_, e, rfl, ?_⟩
      · cases checks.mpr ⟨fun id hid => h.nonneg id (ends hid), h.weights⟩
      · rintro f rfl
        exact ne_weight_of_check _ f checked
  | ok _ =>
      rw [typedBatch] at checked
      rw [checked] at checks ⊢
      obtain ⟨nonneg, weights⟩ := checks.mp rfl
      split_ifs with declared
      · dsimp only
        rcases boundIds_eq fits held.bound with ⟨bounded, found⟩ | ⟨unbounded, b, largest, found⟩
        · rw [supplied, found]
          refine .inl ⟨⟨fun id hid => ?_, weights, bounded⟩, rfl⟩
          exact (List.mem_append.mp hid).elim (nonneg id) (declared id)
        · rw [supplied, found]
          exact .inr ⟨fun h => unbounded h.bounded, _, rfl, by rintro f ⟨⟩⟩
      · refine .inr ⟨fun h => declared fun id hid => ?_, _, rfl, by rintro f ⟨⟩⟩
        exact h.nonneg id (List.mem_append_right _ hid)

omit [Scalar α] in
theorem heldBy_builder (fits : m.Fits) (workers : Option Int) : m.HeldBy (m.builder workers) where
  collect := ⟨.signed, .signed, collect_eq fits workers, .inr ⟨rfl, rfl⟩⟩
  declaredIds := declaredIds_eq fits workers
  bound := by
    rw [builder, Builder.addVertices]
    split <;> rfl

/-- A build succeeds just on the admissible multigraphs, and all its errors are errors of
construction. -/
theorem cases_of_build (fits : m.Fits) (workers : Option Int) :
    m.Admissible ∧ (m.builder workers).build = .ok (.whole m.store workers) ∨
      ¬ m.Admissible ∧ ∃ e, (m.builder workers).build = .error e ∧ ∀ f, e ≠ .weight f := by
  have given : (m.builder workers).workers = workers := by
    rw [builder, Builder.addVertices]
    split <;> rfl
  have cases := (heldBy_builder fits workers).cases_of_build fits
  rwa [given] at cases

end Build

/-! ## The store over exact weights -/

section Exact

variable [ExactScalar α] {r c : Nat} {x : α}

/-- The weight of all edges from one vertex to another one. -/
def weightFrom (es : List (Int × Int × α)) (u v : Int) : α :=
  ((es.filter fun e => e.1 = u ∧ e.2.1 = v).map fun e => e.2.2).sum

/-- The weight of all edges between two vertices, in either direction; a loop counts once. -/
def weightBetween (m : Multigraph α) (u v : Int) : α :=
  ((m.edges.filter fun e => e.1 = u ∧ e.2.1 = v ∨ e.1 = v ∧ e.2.1 = u).map fun e => e.2.2).sum

/-- A store of compressed rows with a row for each vertex, and in it an entry for each vertex
whose edges to the first one have a weight that is not zero: this weight. -/
structure Represents (s : Store α) (m : Multigraph α) : Prop where
  labels_ascend : s.labels.toList.Pairwise (· < ·)
  mem_labels : ∀ id, id ∈ s.labels ↔ m.HasVertex id
  size_pointers : s.pointers.size = s.labels.size + 1
  pointers_zero : s.pointers[0]? = some 0
  pointers_mono : s.pointers.toList.Pairwise (· ≤ ·)
  pointers_last : s.pointers[s.labels.size]? = some s.edges.size
  size_weights : s.weights.size = s.edges.size
  columns_ascend : ∀ r, (s.rowEntries r).Pairwise fun e e' => e.1 < e'.1
  inRange : ∀ r c x, (c, x) ∈ s.rowEntries r → r < s.labels.size ∧ c < s.labels.size
  mem_rowEntries : ∀ r c u v x, s.labels[r]? = some u → s.labels[c]? = some v →
    ((c, x) ∈ s.rowEntries r ↔ x = m.weightBetween u v ∧ x ≠ 0)
  symmetric : ∀ r c x, (c, x) ∈ s.rowEntries r → (r, x) ∈ s.rowEntries c
  weight_pos : ∀ x ∈ s.weights, 0 < x

theorem weightBetween_eq (m : Multigraph α) (u v : Int) :
    m.weightBetween u v = weightFrom m.edges u v + if u = v then 0 else weightFrom m.edges v u := by
  rw [weightBetween]
  by_cases loop : u = v
  · simp only [loop, or_self, if_true, add_zero, weightFrom]
  · rw [if_neg loop, weightFrom, weightFrom]
    induction m.edges with
    | nil => simp
    | cons e es ih =>
        simp only [List.filter_cons, decide_eq_true_eq]
        by_cases there : e.1 = u ∧ e.2.1 = v
        · have back : ¬ (e.1 = v ∧ e.2.1 = u) := fun back => loop (there.1.symm.trans back.1)
          rw [if_pos (.inl there), if_pos there, if_neg back, List.map_cons, List.map_cons,
            List.sum_cons, List.sum_cons, ih, add_assoc]
        · by_cases back : e.1 = v ∧ e.2.1 = u
          · rw [if_pos (.inr back), if_neg there, if_pos back, List.map_cons, List.map_cons,
              List.sum_cons, List.sum_cons, ih, add_left_comm]
          · rw [if_neg (not_or.mpr ⟨there, back⟩), if_neg there, if_neg back, ih]

theorem sumAt_entries (hr : m.labels[r]? = some u) (hc : m.labels[c]? = some v) :
    Entry.sumAt m.entries r c = weightFrom m.edges u v := by
  rw [Entry.sumAt, entries, List.filter_map, List.map_map, weightFrom]
  congr 2
  refine List.filter_congr fun e he => ?_
  obtain ⟨start, stop⟩ := ends_mem_ids he
  simp only [Function.comp_apply, rowOf_eq_iff start hr, rowOf_eq_iff stop hc]

/-- The sum for the rows of two vertices is the weight between them. -/
theorem sumAt_symmetric_entries (hr : m.labels[r]? = some u) (hc : m.labels[c]? = some v) :
    Entry.sumAt (Entry.symmetric m.entries) r c = m.weightBetween u v := by
  have same : r = c ↔ u = v := by
    constructor
    · rintro rfl
      exact Option.some_inj.mp (hr.symm.trans hc)
    · rintro rfl
      rw [← Array.getElem?_toList] at hr hc
      exact (List.getElem?_inj (List.getElem?_eq_some_iff.mp hr).1
        (m.labels_ascend.imp fun h => ne_of_lt h)).mp (hr.trans hc.symm)
  rw [Entry.sumAt_symmetric, weightBetween_eq, sumAt_entries hr hc, sumAt_entries hc hr]
  simp only [same]

/-- The entries that are kept, in order. -/
def kept (m : Multigraph α) : List (Entry α) :=
  Entry.normalize (Entry.symmetric m.entries)

theorem strict_kept (m : Multigraph α) : m.kept.Pairwise Entry.Precedes :=
  Entry.strict_normalize _

theorem row_lt_of_mem_kept : ∀ e ∈ m.kept, e.row < m.labels.size := by
  have ends : ∀ e ∈ Entry.symmetric m.entries, e.row < m.labels.size := by
    refine Entry.forall_mem_symmetric fun e he => ?_
    obtain ⟨t, ht, rfl⟩ := List.mem_map.mp he
    exact ⟨rowOf_lt (ends_mem_ids ht).1, rowOf_lt (ends_mem_ids ht).2⟩
  exact fun e he => Entry.row_lt_of_mem_normalize ends he

theorem lawful_ofEntries_kept (m : Multigraph α) : (Store.ofEntries m.labels m.kept).Lawful :=
  Store.lawful_ofEntries m.strict_kept row_lt_of_mem_kept m.labels_ascend
    fun _ _ _ => Entry.mem_normalize_symmetric

theorem mem_rowEntries_kept :
    (c, x) ∈ (Store.ofEntries m.labels m.kept).rowEntries r ↔ ⟨r, c, x⟩ ∈ m.kept :=
  Store.mem_rowEntries_ofEntries m.strict_kept row_lt_of_mem_kept

theorem getElem?_pointers_kept {i : Nat} (h : i ≤ m.labels.size) :
    (Store.ofEntries m.labels m.kept).pointers[i]? = some (Store.startOf m.kept i) :=
  Store.getElem?_pointers_ofEntries m.strict_kept h

theorem pointers_kept_mono (m : Multigraph α) :
    (Store.ofEntries m.labels m.kept).pointers.toList.Pairwise (· ≤ ·) := by
  have size : (Store.ofEntries m.labels m.kept).pointers.size = m.labels.size + 1 := by
    rw [Store.ofEntries, List.size_toArray, Store.length_rowStarts]
  rw [List.pairwise_iff_getElem]
  intro i j hi hj lt
  simp only [Array.length_toList, Array.getElem_toList] at hi hj ⊢
  have early := m.getElem?_pointers_kept (i := i) (by omega)
  have late := m.getElem?_pointers_kept (i := j) (by omega)
  rw [Array.getElem?_eq_getElem hi, Option.some_inj] at early
  rw [Array.getElem?_eq_getElem hj, Option.some_inj] at late
  rw [early, late]
  exact Store.startOf_mono _ lt.le

/-- The store of an admissible multigraph represents it. -/
theorem represents (h : m.Admissible) : Represents m.store m := by
  have nonneg : ∀ e ∈ Entry.symmetric m.entries, 0 ≤ e.weight := by
    refine Entry.forall_mem_symmetric fun e he => ?_
    obtain ⟨t, ht, rfl⟩ := List.mem_map.mp he
    have light := (h.weights _ (List.mem_map.mpr ⟨t, ht, rfl⟩)).2
    exact ⟨less_eq_false_iff.mp light, less_eq_false_iff.mp light⟩
  rw [store_eq, ← kept]
  exact
  { labels_ascend := m.labels_ascend
    mem_labels := fun id => mem_labels
    size_pointers := by rw [Store.ofEntries, List.size_toArray, Store.length_rowStarts]
    pointers_zero := by
      rw [m.getElem?_pointers_kept (Nat.zero_le _), Store.startOf_eq_zero fun e _ => Nat.zero_le _]
    pointers_mono := m.pointers_kept_mono
    pointers_last := by
      have last := m.getElem?_pointers_kept le_rfl
      rwa [Store.startOf_eq_length row_lt_of_mem_kept, ← List.length_map (f := Entry.col)] at last
    size_weights := m.lawful_ofEntries_kept.size_weights
    columns_ascend := m.lawful_ofEntries_kept.compressed.rowEntries_ascend
    inRange := fun r c x entry => by
      rw [mem_rowEntries_kept] at entry
      exact ⟨row_lt_of_mem_kept _ entry, row_lt_of_mem_kept _ (Entry.mem_normalize_symmetric entry)⟩
    mem_rowEntries := fun r c u v x hr hc => by
      rw [mem_rowEntries_kept, kept, Entry.mem_normalize, sumAt_symmetric_entries hr hc]
    symmetric := m.lawful_ofEntries_kept.symmetric
    weight_pos := fun x hx => by
      rw [Store.ofEntries, List.mem_toArray] at hx
      obtain ⟨e, he, rfl⟩ := List.mem_map.mp hx
      exact Entry.weight_pos_of_mem_normalize nonneg he }

end Exact

/-! ## The graph of a multigraph -/

/-- The graph of the edges, with the declared vertices besides. -/
def graph [Scalar α] (m : Multigraph α) (workers : Option Int) :
    Except (ConstructionError α) (View α) :=
  buildGraph (m.edges.map fun e => ⟨.int e.1, .int e.2.1, .ok e.2.2⟩) m.bound workers
    (m.declared.map .int)

theorem build_builder [Scalar α] (m : Multigraph α) (workers : Option Int) :
    (m.builder workers).build = m.graph workers :=
  rfl

/-- The graph of edges whose merged entries are known, none of weight zero. -/
theorem graph_of_merged [Scalar α] {m : Multigraph α} (fits : m.Fits) (admissible : m.Admissible)
    {es : List (Entry α)}
    (merged : Entry.mergeRuns ((Entry.symmetric m.entries).mergeSort Entry.before) = es)
    (weighty : ∀ e ∈ es, Scalar.isZero e.weight = false) (workers : Option Int) :
    m.graph workers = .ok (.whole (.ofEntries m.labels es) workers) := by
  have stored : m.store = .ofEntries m.labels es := by
    rw [store_eq, Entry.normalize, merged]
    exact congrArg _ (List.filter_eq_self.mpr fun e he => by rw [weighty e he, Bool.not_false])
  rw [← stored, ← build_builder]
  exact (cases_of_build fits workers).elim And.right fun refused => absurd admissible refused.1

/-- A multigraph has a graph just if it is admissible, and all other ones are refused as such;
over exact weights the graph holds all rows of a store that represents the multigraph. -/
theorem graph_represents :
    (∀ {β : Type} [Scalar β] (m : Multigraph β) (workers : Option Int), m.Fits →
      ((∃ v, m.graph workers = .ok v) ↔ m.Admissible) ∧
        (¬ m.Admissible → ∃ e, m.graph workers = .error e ∧ ∀ f, e ≠ .weight f)) ∧
    ∀ {β : Type} [ExactScalar β] (m : Multigraph β) (workers : Option Int) (v : View β), m.Fits →
      m.graph workers = .ok v → v = .whole v.store workers ∧ Represents v.store m := by
  refine ⟨fun m workers fits => ?_, fun m workers v fits built => ?_⟩
  · rw [← build_builder]
    rcases cases_of_build fits workers with ⟨admissible, built⟩ | ⟨refused, e, failed, known⟩
    · exact ⟨iff_of_true ⟨_, built⟩ admissible, fun refused => absurd admissible refused⟩
    · refine ⟨iff_of_false ?_ refused, fun _ => ⟨e, failed, known⟩⟩
      rintro ⟨v, built⟩
      exact nomatch failed.symm.trans built
  · rw [← build_builder] at built
    rcases cases_of_build fits workers with ⟨admissible, built'⟩ | ⟨-, e, failed, -⟩
    · cases built'.symm.trans built
      exact ⟨rfl, represents admissible⟩
    · exact nomatch failed.symm.trans built

/-- Parallel edges in both directions, an edge without weight, two loops at one vertex, a
declared vertex and a bound. -/
def parallel : Multigraph ℚ where
  edges := [(0, 3, 1), (3, 0, 2), (0, 1, 0), (1, 1, 2), (1, 1, 3)]
  declared := [2, 2]
  bound := some 5

theorem fits_parallel : parallel.Fits where
  ids := by decide
  bound := by decide

/-- One edge of negative weight. -/
def owing : Multigraph ℚ :=
  ⟨[(0, 1, 1), (1, 2, -1)], [], none⟩

theorem fits_owing : owing.Fits where
  ids := by decide
  bound := nofun

theorem graph_represents_parallel :
    (∃ v, parallel.graph none = .ok v ∧ @Represents ℚ exactRat v.store parallel) ∧
      ¬ ∃ v, owing.graph none = .ok v := by
  let _ := exactRat
  have admissible : parallel.Admissible := ⟨by decide, by decide, by rintro b ⟨⟩; decide⟩
  obtain ⟨v, built⟩ := (graph_represents.1 parallel none fits_parallel).1.mpr admissible
  refine ⟨⟨v, built, (graph_represents.2 parallel none v fits_parallel built).2⟩, fun built => ?_⟩
  have admissible := (graph_represents.1 owing none fits_owing).1.mp built
  exact absurd (admissible.weights (-1) (by decide)).2 (by decide)

end Multigraph

end GraphClustering
