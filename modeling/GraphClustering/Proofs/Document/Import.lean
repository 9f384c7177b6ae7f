import GraphClustering.Cluster.Document
import GraphClustering.Proofs.Forest.Planting
import GraphClustering.Proofs.Graph.Unaltered
import GraphClustering.Proofs.Number

/-!
# Reading a tree from a document

An entry that names its cluster and its parent by whole numbers adds one cluster to the
tree (`readEntry_eq`).  If every entry but the first has its parent before it, then the tree
is the one that is planted from the latest such parents and the remainders, and otherwise an
entry is refused (`foldlM_readEntry`).  Entries that are numbered as they come are planted as
they are (`parse_of_numbered`).
-/

namespace GraphClustering

namespace TreeDocument

/-! ## One entry -/

/-- What an entry tells. -/
structure Line where
  id : Int
  parent : Option Int
  remainder : List Int

/-- Whether an entry tells something, in whole numbers and with vertices of 64 bits. -/
structure Tells (e : Json) (x : Line) : Prop where
  id : field "id" e = .ok (.int x.id)
  parent : field "parent" e = .ok (x.parent.elim .null .int)
  remainder : field "remainder" e = .ok (.arr (x.remainder.map .int))
  fits : ∀ v ∈ x.remainder, ElementType.minSigned ≤ v ∧ v ≤ ElementType.maxSigned

namespace Reading

/-- The latest cluster of a number. -/
def cluster? (r : Reading) (n : Int) : Option ClusterId :=
  (r.known.find? fun k => k.1.same (.number (.int n))).map Prod.snd

/-- A tree with one more cluster, which is the root if it has no parent. -/
def grow (r : Reading) (x : Line) (parent : Option ClusterId) : Reading where
  forest := r.forest.sprout ⟨parent, x.remainder⟩
  root := if parent.isNone then some r.forest.size else r.root
  known := (.number (.int x.id), r.forest.size) :: r.known

end Reading

variable {r : Reading} {e : Json} {x : Line}

theorem cells_int (ids : List Int) : (ids.map Json.int).map cell = ids.map .int := by
  rw [List.map_map]
  rfl

/-- The rest of an entry is read if its cluster has a place. -/
theorem readEntry_of_place (tells : Tells e x) {q : Option ClusterId}
    (placed : place r e = .ok ((r.forest.spawn q).1, r.forest.size,
      if q.isNone then some r.forest.size else r.root)) :
    readEntry r e = .ok (r.grow x q) := by
  have ids := vertexIds_eq tells.fits
  rw [readEntry, placed, tells.remainder, tells.id]
  simp only [bind, Except.bind, members, cells_int, ids]
  rfl

/-- An entry without a parent is the root, unless there is one.  Any other entry is a child of
the latest cluster of the number that it gives as its parent. -/
theorem readEntry_eq (tells : Tells e x) : readEntry r e =
    match x.parent with
    | none => if r.root.isSome then .error .moreThanOneRoot else .ok (r.grow x none)
    | some n => match r.cluster? n with
        | none => .error (.unknownParent (.int x.id) (.int n))
        | some p => .ok (r.grow x (some p)) := by
  have parent := tells.parent
  cases hx : x.parent with
  | none =>
      rw [hx] at parent
      by_cases root : r.root.isSome
      · rw [readEntry, place, parent]
        simp [root, bind, Except.bind]
      · rw [if_neg root]
        apply readEntry_of_place tells
        rw [place, parent]
        simp [root, bind, Except.bind]
        rfl
  | some n =>
      rw [hx] at parent
      simp only [Reading.cluster?]
      cases known : r.known.find? fun k => k.1.same (.number (.int n)) with
      | none =>
          rw [readEntry, place, parent, tells.id]
          simp [bind, Except.bind, Key.ofJson, Json.number?, known]
      | some k =>
          apply readEntry_of_place tells
          rw [place, parent]
          simp [bind, Except.bind, Key.ofJson, Json.number?, known]
          rfl

/-! ## Lines -/

variable {xs ys : List Line} {es : List Json} {n : Int}

/-- The place of the latest line with a number. -/
def latest? (xs : List Line) (n : Int) : Option Nat :=
  (xs.zipIdx.reverse.find? fun k => k.1.id = n).map Prod.snd

theorem latest?_concat (xs : List Line) (x : Line) (n : Int) :
    latest? (xs ++ [x]) n = if x.id = n then some xs.length else latest? xs n := by
  rw [latest?, List.zipIdx_append, List.reverse_append, List.zipIdx_singleton,
    List.reverse_singleton, List.singleton_append, List.find?_cons]
  by_cases own : x.id = n
  · rw [if_pos own, decide_eq_true own, Nat.zero_add]
    rfl
  · rw [if_neg own, decide_eq_false own]
    rfl

theorem latest?_eq_some_iff {j : Nat} : latest? xs n = some j ↔
    (∃ y, xs[j]? = some y ∧ y.id = n) ∧ ∀ k y, j < k → xs[k]? = some y → y.id ≠ n := by
  induction xs using List.reverseRecOn with
  | nil => exact iff_of_false nofun fun h => by cases h.1.choose_spec.1
  | append_singleton xs x ih =>
      have before {k : Nat} {y : Line} (hy : xs[k]? = some y) : k < xs.length :=
        (List.getElem?_eq_some_iff.mp hy).1
      rw [latest?_concat]
      simp only [getElem?_concat_eq_some]
      by_cases own : x.id = n
      · rw [if_pos own, Option.some_inj]
        constructor
        · rintro rfl
          refine ⟨⟨x, .inr ⟨rfl, rfl⟩, own⟩, fun k y later hy => ?_⟩
          rcases hy with hy | ⟨rfl, -⟩
          · exact absurd (before hy) later.not_gt
          · exact absurd later (lt_irrefl _)
        · rintro ⟨⟨y, hy, -⟩, last⟩
          rcases hy with hy | ⟨rfl, -⟩
          · exact absurd own (last xs.length x (before hy) (.inr ⟨rfl, rfl⟩))
          · rfl
      · rw [if_neg own, ih]
        constructor
        · rintro ⟨⟨y, hy, hn⟩, last⟩
          refine ⟨⟨y, .inl hy, hn⟩, fun k z later hz => ?_⟩
          rcases hz with hz | ⟨-, rfl⟩
          · exact last k z later hz
          · exact own
        · rintro ⟨⟨y, hy, hn⟩, last⟩
          refine ⟨⟨y, ?_, hn⟩, fun k z later hz => last k z later (.inl hz)⟩
          exact hy.resolve_right fun h => own (h.2 ▸ hn)

theorem lt_of_latest? {j : Nat} (h : latest? xs n = some j) : j < xs.length := by
  obtain ⟨⟨y, hy, -⟩, -⟩ := latest?_eq_some_iff.mp h
  exact (List.getElem?_eq_some_iff.mp hy).1

theorem exists_latest?_iff : (∃ j, latest? xs n = some j) ↔ ∃ y ∈ xs, y.id = n := by
  induction xs using List.reverseRecOn with
  | nil => exact iff_of_false nofun nofun
  | append_singleton xs x ih =>
      rw [latest?_concat]
      by_cases own : x.id = n
      · rw [if_pos own]
        exact iff_of_true ⟨_, rfl⟩ ⟨x, List.mem_append_right xs List.mem_cons_self, own⟩
      · rw [if_neg own, ih]
        simp [own]

/-- The seeds of the clusters that lines tell of, each below the latest cluster before it that has
the number of its parent. -/
def seeds (xs : List Line) : List Forest.Seed :=
  xs.mapIdx fun i x => ⟨x.parent.bind (latest? (xs.take i)), x.remainder⟩

theorem length_seeds (xs : List Line) : (seeds xs).length = xs.length :=
  List.length_mapIdx

theorem getElem?_seeds (xs : List Line) (i : Nat) : (seeds xs)[i]? = xs[i]?.map fun x =>
    ⟨x.parent.bind (latest? (xs.take i)), x.remainder⟩ :=
  List.getElem?_mapIdx

theorem seeds_concat (xs : List Line) (x : Line) :
    seeds (xs ++ [x]) = seeds xs ++ [⟨x.parent.bind (latest? xs), x.remainder⟩] := by
  rw [seeds, List.mapIdx_concat, List.take_left, seeds]
  congr 1
  refine List.ext_getElem? fun i => ?_
  rw [List.getElem?_mapIdx, List.getElem?_mapIdx]
  rcases Nat.lt_or_ge i xs.length with hi | hi
  · rw [List.take_append_of_le_length hi.le]
  · rw [List.getElem?_eq_none hi]
    rfl

theorem rising_seeds (xs : List Line) : Forest.Rising (seeds xs) := by
  intro i x hx p hp
  rw [getElem?_seeds, Option.map_eq_some_iff] at hx
  obtain ⟨y, -, rfl⟩ := hx
  obtain ⟨n, -, latest⟩ := Option.bind_eq_some_iff.mp hp
  exact (lt_of_latest? latest).trans_le (List.length_take_le i xs)

/-- The tree that lines tell of. -/
def grown (xs : List Line) : Forest :=
  Forest.plant (seeds xs)

theorem planted_grown (xs : List Line) : Forest.Planted (seeds xs) (grown xs) :=
  Forest.planted_plant (rising_seeds xs)

theorem wellFormed_grown (xs : List Line) : (grown xs).WellFormed :=
  Forest.wellFormed_plant (rising_seeds xs)

theorem size_grown (xs : List Line) : (grown xs).size = xs.length :=
  (planted_grown xs).size.trans (length_seeds xs)

/-- What has been read after some lines. -/
def reading (xs : List Line) : Reading where
  forest := grown xs
  root := if xs.isEmpty then none else some 0
  known := xs.zipIdx.reverse.map fun k => (.number (.int k.1.id), k.2)

theorem cluster?_reading (xs : List Line) (n : Int) : (reading xs).cluster? n = latest? xs n := by
  rw [Reading.cluster?, reading, List.find?_map, Option.map_map, latest?]
  simp only [Function.comp_def, Key.same, Number.same_int]

/-- Whether a line can be read after others: it has the number of one of them as its parent, or it
is the first and has none. -/
def Follows (xs : List Line) (x : Line) : Prop :=
  match x.parent with
  | none => xs = []
  | some n => ∃ y ∈ xs, y.id = n

theorem follows_iff_of_none (hx : x.parent = none) : Follows xs x ↔ xs = [] := by
  rw [Follows, hx]

theorem follows_iff_of_some (hx : x.parent = some n) :
    Follows xs x ↔ ∃ j, latest? xs n = some j := by
  rw [Follows, hx]
  exact exists_latest?_iff.symm

theorem grow_reading (follows : Follows xs x) :
    (reading xs).grow x (x.parent.bind (latest? xs)) = reading (xs ++ [x]) := by
  have root : (if (x.parent.bind (latest? xs)).isNone then some xs.length
      else (reading xs).root) = (reading (xs ++ [x])).root := by
    have nonempty : (xs ++ [x]).isEmpty = false := by simp
    rw [reading, reading, nonempty, if_neg Bool.false_ne_true]
    cases hx : x.parent with
    | none =>
        rw [Option.bind_none, Option.isNone_none, if_pos rfl, (follows_iff_of_none hx).mp follows]
        rfl
    | some n =>
        obtain ⟨j, hj⟩ := (follows_iff_of_some hx).mp follows
        rw [Option.bind_some, hj, Option.isNone_some, if_neg Bool.false_ne_true]
        cases xs with
        | nil => cases hj
        | cons y xs => rfl
  have known : (Key.number (.int x.id), xs.length) :: (reading xs).known =
      (reading (xs ++ [x])).known := by
    rw [reading, reading, List.zipIdx_append, List.reverse_append, List.zipIdx_singleton,
      List.reverse_singleton, List.singleton_append, List.map_cons, Nat.zero_add]
  have size : (reading xs).forest.size = xs.length := size_grown xs
  rw [Reading.grow, size, root, known]
  simp only [reading, grown, seeds_concat, Forest.plant_concat]

theorem readEntry_of_follows (tells : Tells e x) (follows : Follows xs x) :
    readEntry (reading xs) e = .ok (reading (xs ++ [x])) := by
  rw [← grow_reading follows, readEntry_eq tells]
  cases hx : x.parent with
  | none =>
      rw [(follows_iff_of_none hx).mp follows]
      rfl
  | some n =>
      obtain ⟨j, hj⟩ := (follows_iff_of_some hx).mp follows
      simp only [cluster?_reading, hj, Option.bind_some]

end TreeDocument

/-- The faults for which a document of entries is refused. -/
inductive ImportFault.Refusal : ImportFault → Prop
  | version {v : Json} : Refusal (.unsupportedVersion v)
  | secondRoot : Refusal .moreThanOneRoot
  | orphan {id parent : Json} : Refusal (.unknownParent id parent)
  | rootless : Refusal .noRoot

namespace TreeDocument

variable {e : Json} {x : Line} {xs ys : List Line} {es : List Json}

theorem readEntry_of_not_follows (tells : Tells e x) (strange : ¬ Follows xs x) :
    ∃ fault, readEntry (reading xs) e = .error fault ∧ fault.Refusal := by
  rw [readEntry_eq tells]
  cases hx : x.parent with
  | none =>
      rw [follows_iff_of_none hx] at strange
      have root : (reading xs).root.isSome = true := by
        rw [reading, List.isEmpty_eq_false_iff.mpr strange]
        rfl
      exact ⟨_, if_pos root, .secondRoot⟩
  | some n =>
      rw [follows_iff_of_some hx, ← Option.ne_none_iff_exists', not_not] at strange
      simp only [cluster?_reading, strange]
      exact ⟨_, rfl, .orphan⟩

/-- Whether every line can be read after those before it. -/
def Joined (xs : List Line) : Prop :=
  ∀ (i : Nat) (x : Line), xs[i]? = some x → Follows (xs.take i) x

theorem joined_nil : Joined [] :=
  nofun

theorem joined_concat : Joined (xs ++ [x]) ↔ Joined xs ∧ Follows xs x := by
  have take {i : Nat} {y : Line} (hy : xs[i]? = some y) : (xs ++ [x]).take i = xs.take i :=
    List.take_append_of_le_length (List.getElem?_eq_some_iff.mp hy).1.le
  simp only [Joined, getElem?_concat_eq_some, or_imp, forall_and]
  refine and_congr (forall₃_congr fun i y hy => by rw [take hy]) ⟨fun last => ?_, ?_⟩
  · have own := last _ x ⟨rfl, rfl⟩
    rwa [List.take_left] at own
  · rintro last i y ⟨rfl, rfl⟩
    rwa [List.take_left]

/-- Entries are read if each can be read after those before it, and refused otherwise. -/
theorem foldlM_readEntry (told : List.Forall₂ Tells es ys) (joined : Joined xs) :
    (Joined (xs ++ ys) → es.foldlM readEntry (reading xs) = .ok (reading (xs ++ ys))) ∧
      (¬ Joined (xs ++ ys) →
        ∃ fault, es.foldlM readEntry (reading xs) = .error fault ∧ fault.Refusal) := by
  induction told generalizing xs with
  | nil =>
      rw [List.append_nil]
      exact ⟨fun _ => rfl, fun strange => absurd joined strange⟩
  | @cons e y es ys tells _ ih =>
      rw [List.append_cons, List.foldlM_cons]
      by_cases follows : Follows xs y
      · rw [readEntry_of_follows tells follows]
        exact ih (joined_concat.mpr ⟨joined, follows⟩)
      · obtain ⟨fault, failed, refusal⟩ := readEntry_of_not_follows tells follows
        rw [failed]
        refine ⟨fun all => absurd ?_ follows, fun _ => ⟨fault, rfl, refusal⟩⟩
        have own := all xs.length y (by simp)
        rwa [List.append_assoc, List.take_left] at own

/-- A document of entries that can be read one after the other is read as the tree they tell. -/
theorem parse_of_joined {payload : Json} (listed : field "clusters" payload = .ok (.arr es))
    (told : List.Forall₂ Tells es xs)
    (supported : isVersion ((payload.field? "version").getD .null) = true)
    (joined : Joined xs) (inhabited : xs ≠ []) : parse payload = .ok (grown xs, 0) := by
  have read := (foldlM_readEntry told joined_nil).1 joined
  have root : (reading xs).root = some 0 := by
    rw [reading, List.isEmpty_eq_false_iff.mpr inhabited]
    rfl
  cases payload with
  | obj fields =>
      simp only [parse, listed, supported, Bool.not_true, Bool.false_eq_true, if_false]
      change (es.foldlM readEntry (reading []) >>= _) = _
      rw [read]
      simp only [bind, Except.bind, List.nil_append, root]
      rfl
  | _ => cases listed

/-- Any other document of entries is refused. -/
theorem parse_of_not_joined {payload : Json} (listed : field "clusters" payload = .ok (.arr es))
    (told : List.Forall₂ Tells es xs)
    (bad : isVersion ((payload.field? "version").getD .null) = true → Joined xs → xs = []) :
    ∃ fault, parse payload = .error fault ∧ fault.Refusal := by
  obtain ⟨read, refused⟩ := foldlM_readEntry told joined_nil
  cases payload with
  | obj fields =>
      by_cases supported : isVersion ((Json.obj fields |>.field? "version").getD .null) = true
      · simp only [parse, listed, supported, Bool.not_true, Bool.false_eq_true, if_false]
        change ∃ fault, (es.foldlM readEntry (reading []) >>= _) = _ ∧ _
        by_cases joined : Joined xs
        · rw [read joined, bad supported joined]
          exact ⟨_, rfl, .rootless⟩
        · obtain ⟨fault, failed, refusal⟩ := refused joined
          rw [failed]
          exact ⟨fault, rfl, refusal⟩
      · rw [Bool.not_eq_true] at supported
        simp only [parse, supported, Bool.not_false, if_true]
        exact ⟨_, rfl, .version⟩
  | _ => cases listed

end TreeDocument

namespace ListedCluster

/-- What an entry is read as. -/
def line (e : ListedCluster) : TreeDocument.Line where
  id := e.id
  parent := e.parent.map Nat.cast
  remainder := e.remainder

/-- What the cluster of an entry is made from. -/
def seed (e : ListedCluster) : Forest.Seed where
  parent := e.parent
  remainder := e.remainder

/-- Whether an entry has the number of its place and its parent before it; only the first entry
has none. -/
structure StandsAt (e : ListedCluster) (i : Nat) : Prop where
  id : e.id = i
  parent_none : e.parent = none ↔ i = 0
  parent_lt : ∀ p, e.parent = some p → p < i
  fits : ∀ v ∈ e.remainder, ElementType.minSigned ≤ v ∧ v ≤ ElementType.maxSigned

end ListedCluster

namespace TreeDocument

/-! ## Entries that are numbered as they come -/

/-- Whether every entry has the number of its place and its parent before it. -/
def Numbered (cs : List ListedCluster) : Prop :=
  ∀ (i : Nat) (e : ListedCluster), cs[i]? = some e → e.StandsAt i

variable {cs : List ListedCluster} {e : ListedCluster}

theorem Numbered.rising (numbered : Numbered cs) : Forest.Rising (cs.map ListedCluster.seed) := by
  intro i x hx p hp
  rw [List.getElem?_map, Option.map_eq_some_iff] at hx
  obtain ⟨e, he, rfl⟩ := hx
  exact (numbered i e he).parent_lt p hp

/-- The tree that is planted from the entries of a document. -/
def forest (d : TreeDocument) : Forest :=
  Forest.plant (d.clusters.map ListedCluster.seed)

theorem planted_forest {d : TreeDocument} (numbered : Numbered d.clusters) :
    Forest.Planted (d.clusters.map ListedCluster.seed) d.forest :=
  Forest.planted_plant numbered.rising

theorem wellFormed_forest {d : TreeDocument} (numbered : Numbered d.clusters) :
    d.forest.WellFormed :=
  Forest.wellFormed_plant numbered.rising

theorem tells_entryJson
    (fits : ∀ v ∈ e.remainder, ElementType.minSigned ≤ v ∧ v ≤ ElementType.maxSigned) :
    Tells (entryJson e) e.line where
  id := rfl
  parent := by
    have told : field "parent" (entryJson e) = .ok ((e.parent.map Json.nat).getD .null) := rfl
    rw [told, ListedCluster.line]
    cases e.parent <;> rfl
  remainder := rfl
  fits := fits

theorem Numbered.told (numbered : Numbered cs) :
    List.Forall₂ Tells (cs.map entryJson) (cs.map ListedCluster.line) := by
  rw [List.forall₂_map_left_iff, List.forall₂_map_right_iff, List.forall₂_same]
  intro e he
  obtain ⟨i, hi⟩ := List.mem_iff_getElem?.mp he
  exact tells_entryJson (numbered i e hi).fits

/-- The number of a place before another one is found there. -/
theorem Numbered.latest? (numbered : Numbered cs) {i p : Nat} (hi : i ≤ cs.length) (hp : p < i) :
    latest? ((cs.map ListedCluster.line).take i) p = some p := by
  have place {k : Nat} {y : Line} (hy : ((cs.map ListedCluster.line).take i)[k]? = some y) :
      y.id = k := by
    rw [List.getElem?_take, Option.ite_none_right_eq_some, List.getElem?_map,
      Option.map_eq_some_iff] at hy
    obtain ⟨-, e, he, rfl⟩ := hy
    exact congrArg Nat.cast (numbered k e he).id
  rw [latest?_eq_some_iff]
  have inside : p < ((cs.map ListedCluster.line).take i).length := by simp; omega
  have own := List.getElem?_eq_getElem inside
  refine ⟨⟨_, own, place own⟩, fun k y later hy same => ?_⟩
  rw [place hy, Nat.cast_inj] at same
  exact later.ne same.symm

theorem Numbered.joined (numbered : Numbered cs) : Joined (cs.map ListedCluster.line) := by
  intro i x hx
  rw [List.getElem?_map, Option.map_eq_some_iff] at hx
  obtain ⟨e, he, rfl⟩ := hx
  have inside := (List.getElem?_eq_some_iff.mp he).1
  rw [Follows, ListedCluster.line]
  cases hp : e.parent with
  | none => rw [(numbered i e he).parent_none.mp hp]; rfl
  | some p =>
      exact exists_latest?_iff.mp
        ⟨p, numbered.latest? inside.le ((numbered i e he).parent_lt p hp)⟩

theorem Numbered.seeds_eq (numbered : Numbered cs) :
    seeds (cs.map ListedCluster.line) = cs.map ListedCluster.seed := by
  refine List.ext_getElem? fun i => ?_
  rw [getElem?_seeds, List.getElem?_map, List.getElem?_map, Option.map_map]
  refine Option.map_congr fun e he => ?_
  have inside := (List.getElem?_eq_some_iff.mp he).1
  rw [Function.comp_apply, ListedCluster.seed, ListedCluster.line]
  cases hp : e.parent with
  | none => rfl
  | some p =>
      rw [Option.map_some, Option.bind_some,
        numbered.latest? inside.le ((numbered i e he).parent_lt p hp)]

/-- Entries that are numbered as they come are read as the tree that is planted from them. -/
theorem parse_of_numbered {d : TreeDocument} (numbered : Numbered d.clusters)
    (inhabited : d.clusters ≠ []) :
    parse d.toJson = .ok (d.forest, 0) := by
  have supported : isVersion (.int version) = true := by
    rw [isVersion, Json.number?]
    exact (Number.same_int _ _).trans (decide_eq_true rfl)
  rw [forest, ← numbered.seeds_eq]
  have listed : field "clusters" d.toJson = .ok (.arr _) := rfl
  exact parse_of_joined listed numbered.told supported numbered.joined
    fun none => inhabited (List.map_eq_nil_iff.mp none)

end TreeDocument

end GraphClustering
