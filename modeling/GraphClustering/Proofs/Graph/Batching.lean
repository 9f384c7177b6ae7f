import GraphClustering.Graph.Frame
import GraphClustering.Proofs.Graph.Supply

/-!
# Ways of supplying the same edges

Edges may be supplied one by one, in batches or as a table, and in any order.  Over exact
weights the build makes the same graph of all ways in which the ids have integer types that
go together.  It refuses all other ways, if only for one batch: an empty list of ids counts
as one of real numbers, and unsigned ids have no integer type in common with signed ones
(`build_of_supplies`).
-/

namespace GraphClustering

variable {α : Type}

/-! ## Multigraphs in another order -/

namespace Multigraph

/-- Whether two multigraphs have the same edges, in any order, and the same declared
vertices and bound. -/
structure Same (m m' : Multigraph α) : Prop where
  edges : m.edges.Perm m'.edges
  declared : ∀ id, id ∈ m.declared ↔ id ∈ m'.declared
  bound : m.bound = m'.bound

namespace Same

variable {m m' : Multigraph α}

theorem symm (h : m.Same m') : m'.Same m :=
  ⟨h.edges.symm, fun id => (h.declared id).symm, h.bound.symm⟩

theorem mem_ids (h : m.Same m') {id : Int} : id ∈ m.ids ↔ id ∈ m'.ids := by
  rw [ids, ids, List.mem_append, List.mem_append, h.declared, List.mem_append, List.mem_append,
    sources, sources, targets, targets, (h.edges.map _).mem_iff, (h.edges.map _).mem_iff]

theorem fits (h : m.Same m') (fits : m.Fits) : m'.Fits where
  ids id hid := fits.ids id (h.mem_ids.mpr hid)
  bound b hb := fits.bound b (h.bound.trans hb)

theorem admissible [Scalar α] (h : m.Same m') (admissible : m.Admissible) : m'.Admissible where
  nonneg id hid := admissible.nonneg id (h.mem_ids.mpr hid)
  weights w hw := admissible.weights w ((h.edges.map _).mem_iff.mpr hw)
  bounded b hb id hid := admissible.bounded b (h.bound.trans hb) id (h.mem_ids.mpr hid)

theorem edges_eq_nil (h : m.Same m') : m.edges = [] ↔ m'.edges = [] :=
  ⟨fun none => (none ▸ h.edges.symm).eq_nil, fun none => (none ▸ h.edges).eq_nil⟩

theorem labels (h : m.Same m') : m.labels = m'.labels := by
  have below : m.below = m'.below := by rw [Multigraph.below, Multigraph.below, h.bound]
  have members : ∀ id, id ∈ m.ids ++ m.below ↔ id ∈ m'.ids ++ m'.below := fun id => by
    rw [List.mem_append, List.mem_append, h.mem_ids, below]
  refine congrArg List.toArray (List.Subset.antisymm_of_pairwise (r := (· < ·))
    (sortedDistinct_ascending _) (sortedDistinct_ascending _) ?_ ?_)
  · exact fun id hid => mem_sortedDistinct.mpr ((members id).mp (mem_sortedDistinct.mp hid))
  · exact fun id hid => mem_sortedDistinct.mpr ((members id).mpr (mem_sortedDistinct.mp hid))

end Same

end Multigraph

namespace Entry

theorem symmetric_perm {es es' : List (Entry α)} (h : es.Perm es') :
    (symmetric es).Perm (symmetric es') :=
  h.append ((h.filter _).map _)

/-- The normal form does not depend on the order of the entries. -/
theorem normalize_eq_of_perm [ExactScalar α] {es es' : List (Entry α)} (h : es.Perm es') :
    normalize es = normalize es' := by
  have : Std.Antisymm (Precedes (α := α)) := ⟨fun a b hab hba => by
    rw [Precedes] at hab hba
    omega⟩
  have : Std.Irrefl (Precedes (α := α)) := ⟨fun a ha => by
    rw [Precedes] at ha
    omega⟩
  have members : ∀ e, e ∈ normalize es ↔ e ∈ normalize es' := fun e => by
    rw [mem_normalize, mem_normalize, sumAt_perm h]
  exact List.Subset.antisymm_of_pairwise (strict_normalize es) (strict_normalize es')
    (fun e => (members e).mp) (fun e => (members e).mpr)

end Entry

theorem Multigraph.Same.store [ExactScalar α] {m m' : Multigraph α} (h : m.Same m') :
    m.store = m'.store := by
  have entries : m.entries.Perm m'.entries := by
    rw [Multigraph.entries, Multigraph.entries, h.labels]
    exact h.edges.map _
  rw [store_eq, store_eq, h.labels, Entry.normalize_eq_of_perm (Entry.symmetric_perm entries)]

/-! ## Calls that supply a multigraph -/

namespace Supply

variable [Scalar α] {calls : List (Supply α)} {singles : List (Int × Int × α)}
variable {m : Multigraph α} {bound : Option Int}

/-- Whether calls supply the edges of a multigraph, in any order, and declare its vertices. -/
structure Supplies (calls : List (Supply α)) (m : Multigraph α) : Prop where
  edges : (calls.flatMap supplied).Perm (m.edges.map readable)
  declared : ∀ id, id ∈ (calls.filterMap declared?).flatMap IdArray.ids ↔ id ∈ m.declared

/-- Whether ends of the edges of all calls, sources or targets, have one integer type.  That of
a single edge is signed. -/
def EndsTyped (ends : IdBatch α → IdArray) (calls : List (Supply α)) : Prop :=
  ∃ t : ElementType, t.isInteger = true ∧ ∀ c ∈ calls,
    (∀ b ∈ c.batch?, (ends b).type = t) ∧ (c.single? ≠ none → t = .signed)

/-- Whether the ids of the edges, if there are any, and of the declared vertices have integer
types. -/
structure Typed (calls : List (Supply α)) (m : Multigraph α) : Prop where
  edges : m.edges = [] ∨ EndsTyped IdBatch.sources calls ∧ EndsTyped IdBatch.targets calls
  declared : ∃ t : ElementType, t.isInteger = true ∧ ∀ c ∈ calls, ∀ a ∈ c.declared?, a.type = t

omit [Scalar α] in
theorem injective_readable : Function.Injective (readable (α := α)) := by
  rintro ⟨u, v, w⟩ ⟨u', v', w'⟩ ⟨⟩
  rfl

theorem Supplies.exists_same (h : Supplies calls m) :
    ∃ singles, calls.filterMap single? = singles.map readable ∧
      (multigraph calls singles m.bound).Same m := by
  have read : ∀ e ∈ calls.filterMap single?, e ∈ Set.range (readable (α := α)) := fun e he => by
    obtain ⟨c, hc, he⟩ := List.mem_filterMap.mp he
    have supplied : e ∈ calls.flatMap supplied :=
      List.mem_flatMap.mpr ⟨c, hc, List.mem_append_right _ (Option.mem_toList.mpr he)⟩
    obtain ⟨e', -, rfl⟩ := List.mem_map.mp (h.edges.mem_iff.mp supplied)
    exact ⟨e', rfl⟩
  obtain ⟨singles, hs⟩ := (Set.range_list_map (readable (α := α))).ge read
  refine ⟨singles, hs.symm, ?_, h.declared, rfl⟩
  exact (List.map_perm_map_iff injective_readable).mp
    ((supplied_perm m.bound hs.symm).symm.trans h.edges)

/-- The types of the parts are those of the batches, and that of the single edges. -/
theorem endsTyped_iff {ends : IdBatch α → IdArray}
    (hs : calls.filterMap single? = singles.map readable)
    (signed : singles ≠ [] → (ends (.ofEdges singles)).type = .signed) : EndsTyped ends calls ↔
      (IdArray.joined ((parts calls singles).map ends)).isInteger = true := by
  have some : (∃ c ∈ calls, c.single? ≠ none) ↔ singles ≠ [] := by
    rw [← not_iff_not, not_not, ← List.map_eq_nil_iff (f := readable), ← hs,
      List.filterMap_eq_nil_iff]
    push Not
    rfl
  rw [IdArray.isInteger_joined_iff, EndsTyped]
  refine exists_congr fun t => and_congr_right fun _ => ?_
  have last : (∀ c ∈ calls, c.single? ≠ none → t = .signed) ↔ (singles ≠ [] → t = .signed) := by
    rw [← some]
    simp
  rw [forall₂_and, last, List.forall_mem_map, parts, List.forall_mem_append]
  refine and_congr ?_ ?_
  · exact List.forall_mem_filterMap.symm
  · split
    · rename_i none
      exact iff_of_true (fun some => absurd (List.isEmpty_iff.mp none) some) (List.forall_mem_nil _)
    · rename_i some
      rw [List.isEmpty_iff] at some
      rw [List.forall_mem_singleton, signed some, eq_comm]
      exact forall_prop_of_true some

/-- Over signed integers the calls are typed just if what they collect is. -/
theorem typed_iff (hs : calls.filterMap single? = singles.map readable)
    (fits : (multigraph calls singles bound).Fits) :
    Typed calls (multigraph calls singles bound) ↔
      ((multigraph calls singles bound).edges = [] ∨
        (IdArray.joined ((parts calls singles).map IdBatch.sources)).isInteger = true ∧
          (IdArray.joined ((parts calls singles).map IdBatch.targets)).isInteger = true) ∧
      (IdArray.joined (calls.filterMap declared?)).isInteger = true := by
  have ends : ∀ e ∈ singles, e.1 ∈ (multigraph calls singles bound).ids ∧
      e.2.1 ∈ (multigraph calls singles bound).ids := fun e he => by
    refine Multigraph.ends_mem_ids ?_
    rw [edges_multigraph]
    exact List.mem_append_right _ he
  have starts : singles ≠ [] → (IdBatch.ofEdges singles).sources.type = .signed := fun some =>
    IdArray.type_list (List.map_eq_nil_iff.not.mpr some)
      (List.forall_mem_map.mpr fun e he => fits.ids _ (ends e he).1)
  have stops : singles ≠ [] → (IdBatch.ofEdges singles).targets.type = .signed := fun some =>
    IdArray.type_list (List.map_eq_nil_iff.not.mpr some)
      (List.forall_mem_map.mpr fun e he => fits.ids _ (ends e he).2)
  rw [← endsTyped_iff hs starts, ← endsTyped_iff hs stops, IdArray.isInteger_joined_iff]
  simp only [List.forall_mem_filterMap]
  exact ⟨fun h => ⟨h.edges, h.declared⟩, fun h => ⟨h.1, h.2⟩⟩

theorem declaredIds_of_calls (calls : List (Supply α)) (singles : List (Int × Int × α))
    (workers : Option Int) (fits : (multigraph calls singles bound).Fits) :
    ((Builder.empty bound workers).supplyAll calls).declaredIds =
      if (IdArray.joined (calls.filterMap declared?)).isInteger = true then
        if ∀ id ∈ (multigraph calls singles bound).declared, 0 ≤ id then
          .ok (multigraph calls singles bound).declared
        else .error .idsNegative
      else .error .idsNotIntegers := by
  have declared : (multigraph calls singles bound).declared =
    (calls.filterMap declared?).flatMap IdArray.ids := rfl
  have wrapped : (multigraph calls singles bound).declared.map wrapSigned =
      (multigraph calls singles bound).declared :=
    Multigraph.map_wrapSigned fun id hid => fits.ids id (List.mem_append_right _ hid)
  rw [declared] at wrapped ⊢
  rw [Builder.declaredIds_of_arrays (calls.filterMap declared?)
    (by rw [Builder.supplyAll_eq]; rfl), wrapped]

/-- Typed calls hold what they supply. -/
theorem heldBy_of_typed (workers : Option Int)
    (hs : calls.filterMap single? = singles.map readable)
    (fits : (multigraph calls singles bound).Fits)
    (typed : Typed calls (multigraph calls singles bound)) :
    (multigraph calls singles bound).HeldBy ((Builder.empty bound workers).supplyAll calls) where
  collect := ⟨_, _, collect_of_singles hs, ((typed_iff hs fits).mp typed).1⟩
  declaredIds := by
    rw [declaredIds_of_calls calls singles workers fits,
      if_pos ((typed_iff hs fits).mp typed).2]
  bound := by
    rw [Builder.supplyAll_eq]
    rfl

/-- Other calls are refused, even if all that they supply is admissible. -/
theorem build_of_not_typed (workers : Option Int)
    (hs : calls.filterMap single? = singles.map readable)
    (fits : (multigraph calls singles bound).Fits)
    (admissible : (multigraph calls singles bound).Admissible)
    (foreign : ¬ Typed calls (multigraph calls singles bound)) :
    ((Builder.empty bound workers).supplyAll calls).build = .error .idsNotIntegers := by
  rw [typed_iff hs fits] at foreign
  rw [Builder.build, collect_of_singles hs]
  by_cases edges : (multigraph calls singles bound).edges = [] ∨
    (IdArray.joined ((parts calls singles).map IdBatch.sources)).isInteger = true ∧
      (IdArray.joined ((parts calls singles).map IdBatch.targets)).isInteger = true
  · have checked := (Multigraph.check_eq_ok_iff edges).mpr
      ⟨fun id hid => admissible.nonneg id (List.mem_append_left _ hid), admissible.weights⟩
    have declared := declaredIds_of_calls calls singles workers fits
    rw [if_neg fun integer => foreign ⟨edges, integer⟩] at declared
    simp only [bind, Except.bind, checked, declared]
  · obtain ⟨some, foreign⟩ := not_or.mp edges
    simp only [bind, Except.bind, Multigraph.check_of_not_integer some foreign]

end Supply

/-! ## Tables that list a multigraph -/

namespace Frame

variable [Scalar α] {f : Frame} {read : Cell → Except Fault α} {source target : String}
variable {weight : Option String} {m : Multigraph α} {workers : Option Int}

/-- Whether a table lists some edges: their ends in two columns, and in a third one weights that
can be read, unless there is none and all edges weigh one. -/
structure Lists (f : Frame) (read : Cell → Except Fault α) (source target : String)
    (weight : Option String) (es : List (Int × Int × α)) : Prop where
  sources : f.column? source = some (es.map fun e => .int e.1)
  targets : f.column? target = some (es.map fun e => .int e.2.1)
  weights : (∃ ws, weight.bind f.column? = some ws ∧
    ws.mapM read = .ok (es.map fun e => e.2.2)) ∨
    weight.bind f.column? = none ∧ ∀ e ∈ es, e.2.2 = 1

theorem columnType_int {zs : List Int} (nonempty : zs ≠ [])
    (fits : ∀ id ∈ zs, ElementType.minSigned ≤ id ∧ id ≤ ElementType.maxSigned) :
    columnType (zs.map .int) = .signed := by
  have signed : ∀ id ∈ zs, ElementType.ofCell (.int id) = .signed := fun id hid =>
    if_pos (fits id hid)
  obtain ⟨z, zs, rfl⟩ := List.exists_cons_of_ne_nil nonempty
  have first := signed z List.mem_cons_self
  have all : ((z :: zs).map Cell.int).all (fun c => ElementType.ofCell c == .signed) = true := by
    rw [List.all_map, List.all_eq_true]
    exact fun id hid => beq_iff_eq.mpr (signed id hid)
  rw [columnType, all]
  simp [first]

/-- The builder that a table of edges is read into. -/
def builder (m : Multigraph α) (workers : Option Int) : Builder α :=
  { Builder.empty m.bound workers with batches :=
    [m.typedBatch (columnType (m.sources.map .int)) (columnType (m.targets.map .int))] }

theorem addColumns_typed {ws : Option (Except Fault (List α))}
    (h : ws = some (.ok m.weights) ∨ ws = none ∧ m.weights = List.replicate m.sources.length 1) :
    (Builder.empty m.bound workers).addColumns (typed (m.sources.map .int))
      (typed (m.targets.map .int)) ws = .ok (builder m workers) := by
  have aligned : m.targets.length = m.sources.length := by
    simp [Multigraph.sources, Multigraph.targets]
  have weighed : m.weights.length = m.sources.length := by
    simp [Multigraph.sources, Multigraph.weights]
  rw [Builder.addColumns]
  rcases h with rfl | ⟨rfl, unit⟩
  · simp [typed, aligned, weighed, bind, Except.bind, builder, Builder.empty, Multigraph.typedBatch]
  · simp [typed, aligned, unit, bind, Except.bind, builder, Builder.empty, Multigraph.typedBatch]

theorem graph_of_lists (h : f.Lists read source target weight m.edges) :
    f.graph read source target weight m.bound workers = (builder m workers).build := by
  have starts : m.edges.map (fun e => Cell.int e.1) = m.sources.map .int := by
    rw [Multigraph.sources, List.map_map]
    rfl
  have stops : m.edges.map (fun e => Cell.int e.2.1) = m.targets.map .int := by
    rw [Multigraph.targets, List.map_map]
    rfl
  rw [graph, h.sources, h.targets, starts, stops]
  rcases h.weights with ⟨ws, found, readable⟩ | ⟨none, unit⟩
  · rw [found, Option.map_some, readable]
    exact congrArg (· >>= Builder.build) (addColumns_typed (.inl rfl))
  · have weights : m.weights = List.replicate m.sources.length 1 := by
      rw [Multigraph.weights, Multigraph.sources, List.length_map]
      exact List.map_eq_replicate_iff.mpr unit
    rw [none, Option.map_none]
    exact congrArg (· >>= Builder.build) (addColumns_typed (.inr ⟨rfl, weights⟩))

omit [Scalar α] in
/-- A table holds the edges that it lists. -/
theorem heldBy_builder (workers : Option Int) (fits : m.Fits) (declared : m.declared = []) :
    m.HeldBy (builder m workers) where
  collect := by
    refine ⟨columnType (m.sources.map .int), columnType (m.targets.map .int), ?_, ?_⟩
    · exact congrArg (fun ws => Except.ok (EdgeBatch.mk _ _ ws)) (List.append_nil m.weights)
    · refine or_iff_not_imp_left.mpr fun some => ?_
      have ends := fun id hid => fits.ids id (List.mem_append_left _ hid)
      have starts : columnType (m.sources.map .int) = .signed :=
        columnType_int (List.map_eq_nil_iff.not.mpr some) fun id hid =>
          ends id (List.mem_append_left _ hid)
      have stops : columnType (m.targets.map .int) = .signed :=
        columnType_int (List.map_eq_nil_iff.not.mpr some) fun id hid =>
          ends id (List.mem_append_right _ hid)
      rw [starts, stops]
      exact ⟨rfl, rfl⟩
  declaredIds := by
    rw [declared]
    rfl
  bound := rfl

end Frame

/-! ## Every way makes the same graph -/

namespace Supply

/-- Typed calls that supply an admissible multigraph make the same graph over exact weights, in
whatever order and batches they supply it, and so does a table; calls that are not typed are all
refused.  An empty list is not typed: it counts as one of real numbers. -/
theorem build_of_supplies [ExactScalar α] {m : Multigraph α} (fits : m.Fits)
    (admissible : m.Admissible) (workers : Option Int) :
    (∀ calls, Supplies calls m →
      (Typed calls m →
        ((Builder.empty m.bound workers).supplyAll calls).build = .ok (.whole m.store workers)) ∧
      (¬ Typed calls m →
        ((Builder.empty m.bound workers).supplyAll calls).build = .error .idsNotIntegers)) ∧
    ∀ (f : Frame) read source target weight es, es.Perm m.edges → m.declared = [] →
      f.Lists read source target weight es →
        f.graph read source target weight m.bound workers = .ok (.whole m.store workers) := by
  refine ⟨fun calls supplies => ?_, fun f read source target weight es perm declared lists => ?_⟩
  · obtain ⟨singles, hs, same⟩ := supplies.exists_same
    have fits' := same.symm.fits fits
    have admissible' := same.symm.admissible admissible
    have typed_iff : Typed calls m ↔ Typed calls (multigraph calls singles m.bound) :=
      ⟨fun h => ⟨h.edges.imp_left same.edges_eq_nil.mpr, h.declared⟩,
        fun h => ⟨h.edges.imp_left same.edges_eq_nil.mp, h.declared⟩⟩
    rw [typed_iff]
    refine ⟨fun typed => ?_, build_of_not_typed workers hs fits' admissible'⟩
    rcases (heldBy_of_typed workers hs fits' typed).cases_of_build fits' with
      ⟨-, built⟩ | ⟨refused, -⟩
    · rw [built, same.store, Builder.supplyAll_eq]
      rfl
    · exact absurd admissible' refused
  · have same : (⟨es, m.declared, m.bound⟩ : Multigraph α).Same m := ⟨perm, fun id => Iff.rfl, rfl⟩
    have held := Frame.heldBy_builder workers (same.symm.fits fits) declared
    rw [Frame.graph_of_lists (m := ⟨es, m.declared, m.bound⟩) lists]
    rcases held.cases_of_build (same.symm.fits fits) with ⟨-, built⟩ | ⟨refused, -⟩
    · rw [built, same.store]
      rfl
    · exact absurd (same.symm.admissible admissible) refused

/-- Two parallel edges and a loop. -/
def small : Multigraph ℚ :=
  ⟨[(0, 3, 1), (3, 0, 2), (1, 1, 5)], [], none⟩

/-- A single edge between batches: one from a list and an array, one that fails, and an empty
array. -/
def mixed : List (Supply ℚ) :=
  [.edges (.list [1, 3]) (.signed [1, 0] (by decide)) (some (.ok [5, 2])),
    .edges (.list [0, 1]) (.list [2]) none, .edge 0 3 (.ok 1),
    .edges (.signed [] nofun) (.signed [] nofun) none]

/-- The same edges in a table, under a column of weights. -/
def table : Frame :=
  ⟨[("source", [.int 0, .int 1, .int 3]), ("target", [.int 3, .int 1, .int 0]),
    ("weight", [.int 1, .int 5, .int 2])]⟩

def readRat : Cell → Except Fault ℚ
  | .int z => .ok z
  | _ => .error .notNumeric

theorem lists_table : table.Lists readRat "source" "target" (some "weight")
    [(0, 3, 1), (1, 1, 5), (3, 0, 2)] where
  sources := rfl
  targets := rfl
  weights := .inl ⟨_, rfl, rfl⟩

theorem supplies_mixed : Supplies mixed small where
  edges := List.Perm.map readable (by decide : [(1, 1, 5), (3, 0, 2), (0, 3, 1)].Perm small.edges)
  declared := fun _ => Iff.rfl

theorem typed_mixed : Typed mixed small where
  edges := .inr ⟨⟨.signed, rfl, by decide⟩, ⟨.signed, rfl, by decide⟩⟩
  declared := ⟨.signed, rfl, by decide⟩

theorem build_of_supplies_mixed :
    ((Builder.empty none none).supplyAll mixed).build = .ok (.whole small.store none) ∧
      table.graph readRat "source" "target" (some "weight") none none =
        .ok (.whole small.store none) ∧
      ((Builder.empty none none).supplyAll (.edges (.list []) (.list []) none :: mixed)).build =
        .error .idsNotIntegers := by
  let _ := exactRat
  have fits : small.Fits := ⟨by decide, nofun⟩
  have admissible : small.Admissible := ⟨by decide, by decide, nofun⟩
  refine ⟨?_, ?_, ?_⟩
  · exact ((build_of_supplies fits admissible none).1 mixed supplies_mixed).1 typed_mixed
  · exact (build_of_supplies fits admissible none).2 table readRat _ _ _ _ (by decide) rfl
      lists_table
  · refine ((build_of_supplies fits admissible none).1 (.edges (.list []) (.list []) none :: mixed)
      ⟨supplies_mixed.edges, supplies_mixed.declared⟩).2 fun typed => ?_
    obtain ⟨⟨t, integer, types⟩, -⟩ := typed.edges.resolve_left (by decide)
    obtain rfl := (types _ List.mem_cons_self).1 _ rfl
    cases integer

/-- One edge makes a graph, but not after an empty batch. -/
theorem build_beside_empty :
    (∃ v, ((Builder.empty none none).supplyAll [(.edge 0 1 (.ok 1) : Supply ℚ)]).build = .ok v) ∧
      ((Builder.empty none none).supplyAll
        [(.edges (.list []) (.list []) none : Supply ℚ), .edge 0 1 (.ok 1)]).build =
          .error .idsNotIntegers :=
  ⟨⟨_, rfl⟩, rfl⟩

end Supply

end GraphClustering
