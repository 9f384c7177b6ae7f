import GraphClustering.Proofs.Graph.Multigraph

/-!
# Supplying a builder

A builder is supplied by calls: with one edge, with a batch of edges or with declared
vertices.  A call that fails changes nothing.  What is collected from any sequence of
calls are the edges of the batches, in order, and then the single edges
(`collect_of_singles`); the type of the ids joins those of all arrays they came in.
-/

namespace GraphClustering

/-! ## Types of integers -/

namespace ElementType

/-- Whether integers may have a type. -/
def Suits : ElementType → List Int → Prop
  | .flag, _ => False
  | .signed, ids => ∀ id ∈ ids, minSigned ≤ id ∧ id ≤ maxSigned
  | .unsigned, ids => ∀ id ∈ ids, 0 ≤ id ∧ id < Nat.pow 2 64
  | _, _ => True

variable {s t : ElementType} {xs ys : List Int}

theorem Suits.join (hs : s.Suits xs) (ht : t.Suits ys) : (s.join t).Suits (xs ++ ys) := by
  cases s <;> cases t <;> first
    | exact hs.elim
    | exact ht.elim
    | exact trivial
    | exact List.forall_mem_append.mpr ⟨hs, ht⟩

theorem suits_ofCell (id : Int) : (ofCell (.int id)).Suits [id] := by
  rw [ofCell]
  split_ifs with signed unsigned
  · exact List.forall_mem_singleton.mpr signed
  · exact List.forall_mem_singleton.mpr unsigned
  · trivial

theorem suits_ofCells (ids : List Int) : (ofCells (ids.map .int)).Suits ids := by
  have more : ∀ (ids xs : List Int) (t : ElementType), t.Suits xs →
      ((ids.map Cell.int).foldl (fun t c => t.join (ofCell c)) t).Suits (xs ++ ids) := by
    intro ids
    induction ids with
    | nil =>
        intro xs t h
        rwa [List.append_nil]
    | cons id ids ih =>
        intro xs t h
        have next := ih (xs ++ [id]) _ (h.join (suits_ofCell id))
        rwa [List.append_assoc] at next
  cases ids with
  | nil => trivial
  | cons id ids => exact more ids [id] _ (suits_ofCell id)

/-- Integers of an integer type are within 64 bits. -/
theorem Suits.lt (h : t.Suits xs) (integer : t.isInteger = true) {id : Int} (hid : id ∈ xs) :
    id < Nat.pow 2 64 := by
  cases t with
  | signed =>
      have high := (h id hid).2
      rw [maxSigned] at high
      exact high.trans_lt (by decide)
  | unsigned => exact (h id hid).2
  | flag | real | text _ | mixed => cases integer

theorem join_ne_flag (hs : s ≠ .flag) (ht : t ≠ .flag) : s.join t ≠ .flag := by
  cases s <;> cases t <;> simp [join] at hs ht ⊢

/-- Two types without flags have a common integer type only if they are the same one. -/
theorem isInteger_join_iff (hs : s ≠ .flag) (ht : t ≠ .flag) :
    (s.join t).isInteger = true ↔ s.isInteger = true ∧ t = s := by
  cases s <;> cases t <;> simp [join, isInteger] at hs ht ⊢

end ElementType

/-- Integers as they are handed over: in a list, whose type is that of its members, or in an
array of one of the integer types. -/
inductive IdArray where
  | list (ids : List Int)
  | signed (ids : List Int)
      (fits : ∀ id ∈ ids, ElementType.minSigned ≤ id ∧ id ≤ ElementType.maxSigned)
  | unsigned (ids : List Int) (fits : ∀ id ∈ ids, 0 ≤ id ∧ id < Nat.pow 2 64)

namespace IdArray

def ids : IdArray → List Int
  | .list ids | .signed ids _ | .unsigned ids _ => ids

def type : IdArray → ElementType
  | .list ids => .ofCells (ids.map .int)
  | .signed .. => .signed
  | .unsigned .. => .unsigned

def column (a : IdArray) : Column :=
  ⟨a.type, a.ids.map .int⟩

theorem suits : ∀ a : IdArray, a.type.Suits a.ids
  | .list ids => ElementType.suits_ofCells ids
  | .signed _ fits => fits
  | .unsigned _ fits => fits

/-- The type of arrays that are put one after the other. -/
def joined : List IdArray → ElementType
  | [] => .signed
  | a :: as => as.foldl (fun t a => t.join a.type) a.type

theorem concat_map_column (as : List IdArray) :
    Column.concat (as.map column) = ⟨joined as, (as.flatMap ids).map .int⟩ := by
  have more : ∀ (as : List IdArray) (t : ElementType) (xs : List Int),
      (as.map column).foldl Column.append ⟨t, xs.map .int⟩ =
        ⟨as.foldl (fun t a => t.join a.type) t, (xs ++ as.flatMap ids).map .int⟩ := by
    intro as
    induction as with
    | nil =>
        intro t xs
        rw [List.flatMap_nil, List.append_nil]
        rfl
    | cons a as ih =>
        intro t xs
        rw [List.map_cons, List.foldl_cons, List.foldl_cons, Column.append, column,
          ← List.map_append, ih, List.flatMap_cons, List.append_assoc]
  cases as with
  | nil => rfl
  | cons a as => exact more as a.type a.ids

theorem suits_joined (as : List IdArray) : (joined as).Suits (as.flatMap ids) := by
  have more : ∀ (as : List IdArray) (t : ElementType) (xs : List Int), t.Suits xs →
      (as.foldl (fun t a => t.join a.type) t).Suits (xs ++ as.flatMap ids) := by
    intro as
    induction as with
    | nil =>
        intro t xs h
        rwa [List.flatMap_nil, List.append_nil]
    | cons a as ih =>
        intro t xs h
        rw [List.flatMap_cons, ← List.append_assoc]
        exact ih _ _ (h.join a.suits)
  cases as with
  | nil => exact nofun
  | cons a as => exact more as a.type a.ids a.suits

theorem type_ne_flag (a : IdArray) : a.type ≠ .flag := fun flag => by
  have suits := a.suits
  rwa [flag] at suits

/-- Arrays have a common integer type only if each of them has it. -/
theorem isInteger_joined_iff (as : List IdArray) : (joined as).isInteger = true ↔
    ∃ t : ElementType, t.isInteger = true ∧ ∀ a ∈ as, a.type = t := by
  have more : ∀ (as : List IdArray) (t : ElementType), t ≠ .flag →
      ((as.foldl (fun t a => t.join a.type) t).isInteger = true ↔
        t.isInteger = true ∧ ∀ a ∈ as, a.type = t) := by
    intro as
    induction as with
    | nil => simp
    | cons a as ih =>
        intro t ht
        rw [List.foldl_cons, ih _ (ElementType.join_ne_flag ht a.type_ne_flag),
          ElementType.isInteger_join_iff ht a.type_ne_flag, List.forall_mem_cons, and_assoc]
        refine and_congr_right fun _ => and_congr_right fun same => ?_
        rw [same, ElementType.join_self]
  cases as with
  | nil => exact iff_of_true rfl ⟨.signed, rfl, nofun⟩
  | cons a as =>
      rw [joined, more as _ a.type_ne_flag]
      constructor
      · rintro ⟨integer, same⟩
        exact ⟨a.type, integer, List.forall_mem_cons.mpr ⟨rfl, same⟩⟩
      · rintro ⟨_, integer, same⟩
        obtain ⟨rfl, same⟩ := List.forall_mem_cons.mp same
        exact ⟨integer, same⟩

theorem type_list {ids : List Int} (nonempty : ids ≠ [])
    (fits : ∀ id ∈ ids, ElementType.minSigned ≤ id ∧ id ≤ ElementType.maxSigned) :
    (list ids).type = .signed :=
  congrArg Column.type (Multigraph.ofCells_int nonempty fits)

end IdArray

/-! ## Calls -/

/-- A batch of edges that passes: three lists of one length. -/
structure IdBatch (α : Type) where
  sources : IdArray
  targets : IdArray
  weights : List α
  length_targets : targets.ids.length = sources.ids.length
  length_weights : weights.length = sources.ids.length

namespace IdBatch

variable {α : Type}

def edges (b : IdBatch α) : List (Int × Int × α) :=
  b.sources.ids.zip (b.targets.ids.zip b.weights)

def toEdgeBatch (b : IdBatch α) : EdgeBatch α :=
  ⟨b.sources.column, b.targets.column, b.weights⟩

/-- Single edges, put together. -/
def ofEdges (es : List (Int × Int × α)) : IdBatch α where
  sources := .list (es.map fun e => e.1)
  targets := .list (es.map fun e => e.2.1)
  weights := es.map fun e => e.2.2
  length_targets := by simp [IdArray.ids]
  length_weights := by simp [IdArray.ids]

theorem edges_ofEdges (es : List (Int × Int × α)) : (ofEdges es).edges = es := by
  rw [edges, ofEdges, IdArray.ids, IdArray.ids, List.zip_map', List.zip_map']
  exact List.map_id es

theorem map_source_edges (b : IdBatch α) : (b.edges.map fun e => e.1) = b.sources.ids := by
  refine List.map_fst_zip ?_
  rw [List.length_zip, b.length_targets, b.length_weights, Nat.min_self]

theorem map_rest_edges (b : IdBatch α) :
    (b.edges.map fun e => e.2) = b.targets.ids.zip b.weights := by
  refine List.map_snd_zip ?_
  rw [List.length_zip, b.length_targets, b.length_weights, Nat.min_self]

theorem map_target_edges (b : IdBatch α) : (b.edges.map fun e => e.2.1) = b.targets.ids := by
  have rest := congrArg (List.map Prod.fst) b.map_rest_edges
  rw [List.map_map, List.map_fst_zip (by rw [b.length_targets, b.length_weights])] at rest
  exact rest

theorem map_weight_edges (b : IdBatch α) : (b.edges.map fun e => e.2.2) = b.weights := by
  have rest := congrArg (List.map Prod.snd) b.map_rest_edges
  rw [List.map_map, List.map_snd_zip (by rw [b.length_targets, b.length_weights])] at rest
  exact rest

end IdBatch

/-- A call that supplies a builder. -/
inductive Supply (α : Type) where
  | edge (source target : Int) (weight : Except Fault α)
  | edges (sources targets : IdArray) (weights : Option (Except Fault (List α)))
  | vertices (ids : IdArray)

namespace Supply

variable {α : Type} [Scalar α]

/-- The batch of edges that a call adds; without weights each edge weighs one. -/
def batch? : Supply α → Option (IdBatch α)
  | .edges us vs none =>
      if h : vs.ids.length = us.ids.length then
        some ⟨us, vs, List.replicate us.ids.length 1, h, List.length_replicate⟩
      else none
  | .edges us vs (some (.ok ws)) =>
      if h : vs.ids.length = us.ids.length ∧ ws.length = us.ids.length then
        some ⟨us, vs, ws, h.1, h.2⟩
      else none
  | _ => none

/-- The edge that a call adds by itself. -/
def single? : Supply α → Option (Int × Int × Except Fault α)
  | .edge u v w => some (u, v, w)
  | _ => none

/-- The vertices that a call declares, if there are any. -/
def declared? : Supply α → Option IdArray
  | .vertices ids => if ids.ids.isEmpty then none else some ids
  | _ => none

end Supply

namespace Builder

variable {α : Type} [Scalar α] {b : Builder α}

/-- The builder after a call; a call that fails leaves it as it was. -/
def supply (b : Builder α) : Supply α → Builder α
  | .edge u v w => b.add (.int u) (.int v) w
  | .edges us vs ws => match b.addColumns us.column vs.column ws with
      | .ok b' => b'
      | .error _ => b
  | .vertices ids => b.declare ids.column

def looseEdge (e : Int × Int × Except Fault α) : LooseEdge α :=
  ⟨.int e.1, .int e.2.1, e.2.2⟩

theorem addColumns_of_batch (b : Builder α) (us vs : IdArray)
    (ws : Option (Except Fault (List α))) :
    (∃ batch, (Supply.edges us vs ws).batch? = some batch ∧ b.addColumns us.column vs.column ws =
      .ok { b with batches := b.batches ++ [batch.toEdgeBatch] }) ∨
    (Supply.edges us vs ws).batch? = none ∧
      ∃ e, b.addColumns us.column vs.column ws = .error e := by
  have lengths : us.column.cells.length = us.ids.length ∧
      vs.column.cells.length = vs.ids.length := ⟨List.length_map _, List.length_map _⟩
  simp only [addColumns, lengths.1, lengths.2]
  by_cases shapes : vs.ids.length = us.ids.length
  · rw [if_neg (not_not.mpr shapes.symm)]
    rcases ws with _ | f | ws
    · refine .inl ⟨_, dif_pos shapes, ?_⟩
      simp [bind, Except.bind, IdBatch.toEdgeBatch]
    · exact .inr ⟨rfl, _, rfl⟩
    · by_cases aligned : ws.length = us.ids.length
      · refine .inl ⟨_, dif_pos ⟨shapes, aligned⟩, ?_⟩
        simp [bind, Except.bind, IdBatch.toEdgeBatch, aligned]
      · refine .inr ⟨dif_neg fun h => aligned h.2, .unalignedWeights, ?_⟩
        simp [bind, Except.bind, aligned]
  · rw [if_pos (Ne.symm shapes)]
    refine .inr ⟨?_, _, rfl⟩
    rcases ws with _ | f | ws
    · exact dif_neg shapes
    · rfl
    · exact dif_neg fun h => shapes h.1

/-- What a call adds. -/
theorem supply_eq (b : Builder α) (c : Supply α) : b.supply c =
    { b with
      batches := b.batches ++ c.batch?.toList.map IdBatch.toEdgeBatch
      loose := b.loose ++ c.single?.toList.map looseEdge
      declared := b.declared ++ c.declared?.toList.map IdArray.column } := by
  cases c with
  | edge u v w => simp [supply, add, Supply.batch?, Supply.single?, Supply.declared?, looseEdge]
  | edges us vs ws =>
      rcases b.addColumns_of_batch us vs ws with ⟨batch, hb, added⟩ | ⟨hb, e, failed⟩
      · simp [supply, added, hb, Supply.single?, Supply.declared?]
      · simp [supply, failed, hb, Supply.single?, Supply.declared?]
  | vertices ids =>
      rw [supply, declare, Supply.declared?, IdArray.column, List.isEmpty_map]
      by_cases none : ids.ids.isEmpty = true
      · simp [none, Supply.batch?, Supply.single?]
      · simp [none, Supply.batch?, Supply.single?, IdArray.column]

/-- The builder after calls. -/
def supplyAll (b : Builder α) (calls : List (Supply α)) : Builder α :=
  calls.foldl supply b

theorem supplyAll_eq (b : Builder α) (calls : List (Supply α)) : b.supplyAll calls =
    { b with
      batches := b.batches ++ (calls.filterMap Supply.batch?).map IdBatch.toEdgeBatch
      loose := b.loose ++ (calls.filterMap Supply.single?).map looseEdge
      declared := b.declared ++ (calls.filterMap Supply.declared?).map IdArray.column } := by
  induction calls generalizing b with
  | nil => simp [supplyAll]
  | cons c calls ih =>
      rw [supplyAll, List.foldl_cons, ← supplyAll, ih, supply_eq]
      simp only [List.filterMap_eq_flatMap_toList, List.flatMap_cons, List.map_append,
        List.append_assoc]

omit [Scalar α] in
/-- Declared vertices of an integer type, none of them negative, become signed integers. -/
theorem declaredIds_of_arrays (as : List IdArray) (h : b.declared = as.map IdArray.column) :
    b.declaredIds = if (IdArray.joined as).isInteger = true then
        if ∀ id ∈ as.flatMap IdArray.ids, 0 ≤ id then .ok ((as.flatMap IdArray.ids).map wrapSigned)
        else .error .idsNegative
      else .error .idsNotIntegers := by
  rw [declaredIds, h, List.isEmpty_map]
  by_cases none : as.isEmpty = true
  · rw [List.isEmpty_iff.mp none]
    rfl
  · have negative : ((as.flatMap IdArray.ids).any fun z => decide (z < 0)) = true ↔
        ¬ ∀ id ∈ as.flatMap IdArray.ids, 0 ≤ id := by
      simp only [List.any_eq_true, decide_eq_true_eq, not_forall, not_le, exists_prop]
    have foreign : (!(IdArray.joined as).isInteger) = true ↔
        ¬ (IdArray.joined as).isInteger = true := by
      rw [Bool.not_eq_true', Bool.not_eq_true]
    simp only [none, IdArray.concat_map_column, Multigraph.integers_int, negative, foreign,
      Bool.false_eq_true, if_false, ite_not]

end Builder

/-! ## What is collected -/

namespace IdBatch

variable {α : Type}

/-- Batches that are put one after the other. -/
def joined (bs : List (IdBatch α)) : EdgeBatch α :=
  let batches := bs.map toEdgeBatch
  ⟨.concat (batches.map EdgeBatch.sources), .concat (batches.map EdgeBatch.targets),
    batches.flatMap EdgeBatch.weights⟩

theorem map_source_flatMap_edges (bs : List (IdBatch α)) :
    ((bs.flatMap edges).map fun e => e.1) = (bs.map sources).flatMap IdArray.ids := by
  rw [List.map_flatMap, List.flatMap_map]
  exact List.flatMap_congr fun b _ => b.map_source_edges

theorem map_target_flatMap_edges (bs : List (IdBatch α)) :
    ((bs.flatMap edges).map fun e => e.2.1) = (bs.map targets).flatMap IdArray.ids := by
  rw [List.map_flatMap, List.flatMap_map]
  exact List.flatMap_congr fun b _ => b.map_target_edges

theorem joined_eq (bs : List (IdBatch α)) (declared : List Int) (bound : Option Int) :
    joined bs = (⟨bs.flatMap edges, declared, bound⟩ : Multigraph α).typedBatch
      (IdArray.joined (bs.map sources)) (IdArray.joined (bs.map targets)) := by
  have columns : ∀ (f : IdBatch α → IdArray) (g : EdgeBatch α → Column),
      (∀ b, g b.toEdgeBatch = (f b).column) → Column.concat ((bs.map toEdgeBatch).map g) =
        ⟨IdArray.joined (bs.map f), ((bs.map f).flatMap IdArray.ids).map .int⟩ := fun f g h => by
    rw [← IdArray.concat_map_column, List.map_map, List.map_map]
    exact congrArg Column.concat (List.map_congr_left fun b _ => h b)
  have weights : bs.flatMap weights = (bs.flatMap edges).map fun e => e.2.2 := by
    rw [List.map_flatMap]
    exact List.flatMap_congr fun b _ => b.map_weight_edges.symm
  rw [joined, columns sources _ fun _ => rfl, columns targets _ fun _ => rfl,
    ← map_source_flatMap_edges, ← map_target_flatMap_edges, List.flatMap_map]
  exact congrArg (EdgeBatch.mk _ _) weights

end IdBatch

namespace Supply

variable {α : Type} [Scalar α]

/-- An edge whose weight can be read. -/
def readable (e : Int × Int × α) : Int × Int × Except Fault α :=
  (e.1, e.2.1, .ok e.2.2)

/-- The batches of some calls, with the single edges as the last one if there are any. -/
def parts (calls : List (Supply α)) (singles : List (Int × Int × α)) : List (IdBatch α) :=
  calls.filterMap batch? ++ if singles.isEmpty then [] else [.ofEdges singles]

/-- The multigraph of what some calls supply. -/
def multigraph (calls : List (Supply α)) (singles : List (Int × Int × α)) (bound : Option Int) :
    Multigraph α :=
  ⟨(parts calls singles).flatMap IdBatch.edges, (calls.filterMap declared?).flatMap IdArray.ids,
    bound⟩

omit [Scalar α] in
theorem exists_readable_or_error (es : List (Int × Int × Except Fault α)) :
    (∃ singles : List (Int × Int × α), es = singles.map readable) ∨
      ∃ f, (es.map Builder.looseEdge).mapM LooseEdge.weight = .error f := by
  induction es with
  | nil => exact .inl ⟨[], rfl⟩
  | cons e es ih =>
      obtain ⟨u, v, w⟩ := e
      rw [List.map_cons, List.mapM_cons]
      cases w with
      | error f => exact .inr ⟨f, rfl⟩
      | ok w =>
          rcases ih with ⟨singles, rfl⟩ | ⟨f, failed⟩
          · exact .inl ⟨(u, v, w) :: singles, rfl⟩
          · rw [failed]
            exact .inr ⟨f, rfl⟩

variable {calls : List (Supply α)} {singles : List (Int × Int × α)} {bound workers : Option Int}

/-- All edges of the calls are collected, those of the batches first. -/
theorem collect_of_singles (hs : calls.filterMap single? = singles.map readable) :
    ((Builder.empty bound workers).supplyAll calls).collect =
      .ok ((multigraph calls singles bound).typedBatch
        (IdArray.joined ((parts calls singles).map IdBatch.sources))
        (IdArray.joined ((parts calls singles).map IdBatch.targets))) := by
  have starts : ((singles.map readable).map Builder.looseEdge).map LooseEdge.source =
      (singles.map fun e => e.1).map Cell.int := by
    rw [List.map_map, List.map_map, List.map_map]
    rfl
  have stops : ((singles.map readable).map Builder.looseEdge).map LooseEdge.target =
      (singles.map fun e => e.2.1).map Cell.int := by
    rw [List.map_map, List.map_map, List.map_map]
    rfl
  have read : ((singles.map readable).map Builder.looseEdge).mapM LooseEdge.weight =
      .ok (singles.map fun e => e.2.2) := by
    rw [List.map_map]
    exact Multigraph.mapM_weight singles
  rw [Builder.supplyAll_eq, Builder.collect, multigraph, ← IdBatch.joined_eq, IdBatch.joined, parts]
  simp only [Builder.empty, List.nil_append, hs, starts, stops, read]
  by_cases none : singles.isEmpty = true
  · rw [List.isEmpty_map, List.isEmpty_map, if_pos none, if_pos none, List.append_nil]
    rfl
  · rw [List.isEmpty_map, List.isEmpty_map, if_neg none, if_neg none, List.map_append]
    rfl

/-- The edges are collected unless the weight of a single one cannot be read. -/
theorem collect_of_calls (calls : List (Supply α)) (bound workers : Option Int) :
    (∃ singles : List (Int × Int × α), calls.filterMap single? = singles.map readable) ∨
      ∃ f, ((Builder.empty bound workers).supplyAll calls).collect = .error (.weight f) := by
  refine (exists_readable_or_error (calls.filterMap single?)).imp_right fun ⟨f, failed⟩ => ⟨f, ?_⟩
  have some : (calls.filterMap single?).isEmpty = false := by
    by_contra none
    rw [Bool.not_eq_false, List.isEmpty_iff] at none
    rw [none] at failed
    cases failed
  rw [Builder.supplyAll_eq, Builder.collect]
  simp only [Builder.empty, List.nil_append, List.isEmpty_map, some, failed]
  rfl

/-! ## What is supplied -/

/-- The edges that a call supplies, which are none if it fails. -/
def supplied (c : Supply α) : List (Int × Int × Except Fault α) :=
  (c.batch?.toList.flatMap IdBatch.edges).map readable ++ c.single?.toList

/-- The ids that a call supplies: the ends of its edges, or the vertices it declares. -/
def ids (c : Supply α) : List Int :=
  (c.supplied.flatMap fun e => [e.1, e.2.1]) ++ c.declared?.toList.flatMap IdArray.ids

omit [Scalar α] in
theorem flatMap_edges_singles (singles : List (Int × Int × α)) :
    (if singles.isEmpty then [] else [IdBatch.ofEdges singles]).flatMap IdBatch.edges =
      singles := by
  split
  · rename_i none
    rw [List.isEmpty_iff.mp none, List.flatMap_nil]
  · rw [List.flatMap_singleton, IdBatch.edges_ofEdges]

theorem edges_multigraph (calls : List (Supply α)) (singles : List (Int × Int × α))
    (bound : Option Int) : (multigraph calls singles bound).edges =
      (calls.filterMap batch?).flatMap IdBatch.edges ++ singles := by
  rw [multigraph, parts, List.flatMap_append, flatMap_edges_singles]

/-- The edges of the multigraph are those that the calls supply. -/
theorem supplied_perm (bound : Option Int)
    (hs : calls.filterMap single? = singles.map readable) :
    (calls.flatMap supplied).Perm ((multigraph calls singles bound).edges.map readable) := by
  have batches : (calls.flatMap fun c => (c.batch?.toList.flatMap IdBatch.edges).map readable) =
      ((calls.filterMap batch?).flatMap IdBatch.edges).map readable := by
    rw [List.filterMap_eq_flatMap_toList, List.flatMap_assoc, List.map_flatMap]
  rw [edges_multigraph, List.map_append, ← hs, ← batches, List.filterMap_eq_flatMap_toList]
  exact (List.flatMap_append_perm calls _ _).symm

/-- The ids of the multigraph are those that the calls supply. -/
theorem mem_ids_multigraph (hs : calls.filterMap single? = singles.map readable) {id : Int} :
    id ∈ (multigraph calls singles bound).ids ↔ id ∈ calls.flatMap ids := by
  have same : ∀ e, e ∈ calls.flatMap supplied ↔
      e ∈ (multigraph calls singles bound).edges.map readable := fun _ =>
    (supplied_perm bound hs).mem_iff
  have ends : (∃ e ∈ calls.flatMap supplied, id = e.1 ∨ id = e.2.1) ↔
      id ∈ (multigraph calls singles bound).sources ∨
        id ∈ (multigraph calls singles bound).targets := by
    simp only [same, Multigraph.sources, Multigraph.targets, List.mem_map, readable,
      exists_exists_and_eq_and, and_or_left, exists_or, eq_comm (a := id)]
  have declared : id ∈ (multigraph calls singles bound).declared ↔
      ∃ c ∈ calls, id ∈ c.declared?.toList.flatMap IdArray.ids := by
    rw [multigraph, List.filterMap_eq_flatMap_toList, List.flatMap_assoc, List.mem_flatMap]
  have mem_ids : ∀ c : Supply α, id ∈ c.ids ↔
      (∃ e ∈ c.supplied, id = e.1 ∨ id = e.2.1) ∨ id ∈ c.declared?.toList.flatMap IdArray.ids := by
    simp only [ids, List.mem_append, List.mem_flatMap, List.mem_cons, List.not_mem_nil, or_false,
      implies_true]
  rw [Multigraph.ids, List.mem_append, List.mem_append, ← ends, declared, List.mem_flatMap]
  constructor
  · rintro (⟨e, he, hid⟩ | ⟨c, hc, hid⟩)
    · obtain ⟨c, hc, he⟩ := List.mem_flatMap.mp he
      exact ⟨c, hc, (mem_ids c).mpr (.inl ⟨e, he, hid⟩)⟩
    · exact ⟨c, hc, (mem_ids c).mpr (.inr hid)⟩
  · rintro ⟨c, hc, hid⟩
    rcases (mem_ids c).mp hid with ⟨e, he, hid⟩ | hid
    · exact .inl ⟨e, List.mem_flatMap.mpr ⟨c, hc, he⟩, hid⟩
    · exact .inr ⟨c, hc, hid⟩

end Supply

end GraphClustering
