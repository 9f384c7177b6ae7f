import GraphClustering.Proofs.Document.Import

/-!
# Documents that are trees

Of documents whose entries tell numbers, parents and remainders those are read that list the
clusters of one tree, every parent before its children, and all others are refused.  The tree has
one cluster for each entry, below the latest cluster before it that has the number of its parent
(`parse_iff`).
-/

namespace GraphClustering.TreeDocument

open Forest

variable {payload : Json} {es : List Json} {xs : List Line} {i p : Nat} {x : Line}

/-- Whether a document has the version that can be read. -/
def Supported (payload : Json) : Prop :=
  ∃ v n, payload.field? "version" = some v ∧ v.number? = some n ∧ n.same (.int 1) = true

/-- Whether lines list the clusters of a tree: the first one has no parent, and the parent of every
later one has the number of an earlier line. -/
structure Arboreal (xs : List Line) : Prop where
  inhabited : xs ≠ []
  first : ∀ x, xs[0]? = some x → x.parent = none
  later : ∀ i x, 0 < i → xs[i]? = some x →
    ∃ j < i, ∃ y, xs[j]? = some y ∧ x.parent = some y.id

/-- Whether a line is the latest before a place that has a number. -/
structure Latest (xs : List Line) (i : Nat) (n : Int) (j : Nat) : Prop where
  before : j < i
  id : ∃ y, xs[j]? = some y ∧ y.id = n
  last : ∀ k y, j < k → k < i → xs[k]? = some y → y.id ≠ n

theorem supported_iff :
    Supported payload ↔ isVersion ((payload.field? "version").getD .null) = true := by
  rw [Supported]
  cases payload.field? "version" with
  | none => exact iff_of_false nofun Bool.false_ne_true
  | some v =>
      rw [Option.getD_some, isVersion]
      cases hn : v.number? with
      | none =>
          refine iff_of_false ?_ Bool.false_ne_true
          rintro ⟨_, n, ⟨⟩, number, -⟩
          cases hn.symm.trans number
      | some n =>
          refine ⟨?_, fun same => ⟨v, n, rfl, hn, same⟩⟩
          rintro ⟨_, n', ⟨⟩, number, same⟩
          cases hn.symm.trans number
          exact same

theorem arboreal_iff : Arboreal xs ↔ xs ≠ [] ∧ Joined xs := by
  constructor
  · refine fun tree => ⟨tree.inhabited, fun i x hx => ?_⟩
    rcases Nat.eq_zero_or_pos i with rfl | later
    · exact (follows_iff_of_none (tree.first x hx)).mpr rfl
    · obtain ⟨j, lt, y, hy, parent⟩ := tree.later i x later hx
      have earlier : y ∈ xs.take i := by
        refine List.mem_of_getElem? (i := j) ?_
        rw [List.getElem?_take, if_pos lt, hy]
      rw [Follows, parent]
      exact ⟨y, earlier, rfl⟩
  · rintro ⟨inhabited, joined⟩
    refine ⟨inhabited, fun x hx => ?_, fun i x later hx => ?_⟩
    · cases hp : x.parent with
      | none => rfl
      | some n =>
          obtain ⟨j, found⟩ := (follows_iff_of_some hp).mp (joined 0 x hx)
          exact absurd (lt_of_latest? found) (Nat.not_lt_zero j)
    · have follows := joined i x hx
      cases hp : x.parent with
      | none =>
          have inside := (List.getElem?_eq_some_iff.mp hx).1
          rw [follows_iff_of_none hp, List.take_eq_nil_iff] at follows
          exact absurd follows (not_or.mpr ⟨later.ne', inhabited⟩)
      | some n =>
          obtain ⟨j, found⟩ := (follows_iff_of_some hp).mp follows
          obtain ⟨⟨y, hy, rfl⟩, -⟩ := latest?_eq_some_iff.mp found
          rw [List.getElem?_take, Option.ite_none_right_eq_some] at hy
          exact ⟨j, hy.1, y, hy.2, rfl⟩

theorem latest_of_latest? {n : Int} {j : Nat} (h : latest? (xs.take i) n = some j) :
    Latest xs i n j := by
  obtain ⟨⟨y, hy, hn⟩, last⟩ := latest?_eq_some_iff.mp h
  rw [List.getElem?_take, Option.ite_none_right_eq_some] at hy
  refine ⟨hy.1, ⟨y, hy.2, hn⟩, fun k z later before hz => last k z later ?_⟩
  rw [List.getElem?_take, if_pos before, hz]

/-! ## The tree -/

theorem parent_grown (hx : xs[i]? = some x) :
    (grown xs).parent i = x.parent.bind (latest? (xs.take i)) := by
  have seed := getElem?_seeds xs i
  rw [hx] at seed
  exact (planted_grown xs).parent i _ seed

theorem remainder_grown (hx : xs[i]? = some x) : (grown xs).remainder i = x.remainder := by
  have seed := getElem?_seeds xs i
  rw [hx] at seed
  exact (planted_grown xs).remainder i _ seed

/-- The children of a cluster are in the order of their entries. -/
theorem children_grown_ascend (xs : List Line) (p : Nat) :
    ((grown xs).children p).Pairwise (· < ·) := by
  rw [(planted_grown xs).children]
  exact List.pairwise_lt_range.filter _

section Tree

variable (tree : Arboreal xs)

include tree

theorem Arboreal.exists_parent (later : 0 < i) (hx : xs[i]? = some x) :
    ∃ n j, x.parent = some n ∧ Latest xs i n j ∧ i ∈ (grown xs).children j := by
  have follows := (arboreal_iff.mp tree).2 i x hx
  obtain ⟨_, -, y, -, parent⟩ := tree.later i x later hx
  obtain ⟨j, found⟩ := (follows_iff_of_some parent).mp follows
  refine ⟨y.id, j, parent, latest_of_latest? found, ?_⟩
  rw [(wellFormed_grown xs).mem_children_iff, parent_grown hx, parent, Option.bind_some, found]

theorem Arboreal.rooted : (grown xs).Rooted 0 where
  toWellFormed := wellFormed_grown xs
  parentless := by
    have inside := List.length_pos_iff.mpr tree.inhabited
    have first := List.getElem?_eq_getElem inside
    rw [parent_grown first, tree.first _ first, Option.bind_none]
  lt_size := by
    rw [size_grown]
    exact List.length_pos_iff.mpr tree.inhabited

/-- Every cluster is below the first one, since no other is a root. -/
theorem Arboreal.walk_perm : ((grown xs).walk 0).Perm (List.range xs.length) := by
  have hf := wellFormed_grown xs
  refine (List.perm_ext_iff_of_nodup (nodup_walk hf tree.rooted.lt_size) List.nodup_range).mpr
    fun d => ?_
  rw [List.mem_range, ← size_grown]
  refine ⟨lt_size_of_mem_walk hf tree.rooted.lt_size, fun hd => tree.rooted.mem_walk_iff.mpr ?_⟩
  by_contra other
  have inside : (grown xs).root d < xs.length := by
    rcases List.mem_cons.mp (root_mem_lineage hf d) with same | above
    · rw [same, ← size_grown]
      exact hd
    · rw [← size_grown]
      exact lt_size_of_mem_ancestors hf above
  obtain ⟨_, j, -, -, child⟩ := tree.exists_parent (Nat.pos_of_ne_zero other)
    (List.getElem?_eq_getElem inside)
  rw [hf.mem_children_iff, parent_root hf d] at child
  cases child

end Tree

/-- A document whose entries tell numbers, parents and vertices is read just if it has the
supported version and its entries list a tree, and is refused otherwise.  The cluster of an entry
is named by its place: the first one is the root, every later one is a child of the latest cluster
before it that has the number of its parent, children are in the order of their entries, and all
clusters are reached from the root, each with the remainder of its entry. -/
theorem parse_iff (listed : field "clusters" payload = .ok (.arr es))
    (told : List.Forall₂ Tells es xs) :
    ((∃ t, parse payload = .ok t) ↔ Supported payload ∧ Arboreal xs) ∧
    (∀ fault, parse payload = .error fault → fault.Refusal) ∧
    ∀ f root, parse payload = .ok (f, root) →
      root = 0 ∧ f.Rooted 0 ∧ (f.walk 0).Perm (List.range xs.length) ∧
      (∀ i x, xs[i]? = some x → f.remainder i = x.remainder) ∧
      (∀ i x, 0 < i → xs[i]? = some x →
        ∃ n j, x.parent = some n ∧ Latest xs i n j ∧ i ∈ f.children j) ∧
      ∀ p, (f.children p).Pairwise (· < ·) := by
  by_cases accepted : Supported payload ∧ Arboreal xs
  · obtain ⟨supported, tree⟩ := accepted
    obtain ⟨inhabited, joined⟩ := arboreal_iff.mp tree
    have parsed := parse_of_joined listed told (supported_iff.mp supported) joined inhabited
    rw [parsed]
    refine ⟨iff_of_true ⟨_, rfl⟩ ⟨supported, tree⟩, nofun, ?_⟩
    rintro _ _ ⟨⟩
    exact ⟨rfl, tree.rooted, tree.walk_perm, fun i x => remainder_grown,
      fun i x => tree.exists_parent, children_grown_ascend xs⟩
  · obtain ⟨fault, failed, refusal⟩ := parse_of_not_joined listed told fun supported joined => by
      by_contra inhabited
      exact accepted ⟨supported_iff.mpr supported, arboreal_iff.mpr ⟨inhabited, joined⟩⟩
    rw [failed]
    refine ⟨iff_of_false nofun accepted, ?_, nofun⟩
    rintro _ ⟨⟩
    exact refusal

/-- A document of some lines. -/
def ofLines (xs : List Line) : Json :=
  .obj [("version", .int 1), ("clusters", .arr (xs.map fun x => .obj [("id", .int x.id),
    ("parent", x.parent.elim .null .int), ("remainder", .arr (x.remainder.map .int))]))]

/-- Four clusters, two of one number. -/
def namesakes : List Line :=
  [⟨7, none, [1, 1]⟩, ⟨3, some 7, []⟩, ⟨3, some 7, [-2]⟩, ⟨5, some 3, [4]⟩]

/-- The last of four clusters is read as a child of the later one of its parent's number; without
the first cluster the document is refused. -/
theorem parse_iff_namesakes :
    (∃ f, parse (ofLines namesakes) = .ok (f, 0) ∧ (f.walk 0).Perm [0, 1, 2, 3] ∧
      f.remainder 2 = [-2] ∧ 3 ∈ f.children 2) ∧
    ∃ fault, parse (ofLines namesakes.tail) = .error fault ∧ fault.Refusal := by
  have told : ∀ xs ⊆ namesakes, List.Forall₂ Tells (xs.map fun x => .obj [("id", .int x.id),
      ("parent", x.parent.elim .null .int), ("remainder", .arr (x.remainder.map .int))]) xs := by
    intro xs known
    rw [List.forall₂_map_left_iff, List.forall₂_same]
    refine fun x hx => ⟨rfl, rfl, rfl, ?_⟩
    have fits : ∀ x ∈ namesakes, ∀ v ∈ x.remainder,
      ElementType.minSigned ≤ v ∧ v ≤ ElementType.maxSigned := by decide
    exact fits x (known hx)
  constructor
  · have supported : Supported (ofLines namesakes) :=
      ⟨.int 1, .int 1, rfl, rfl, (Number.same_int 1 1).trans (decide_eq_true rfl)⟩
    have tree : Arboreal namesakes := by
      refine ⟨List.cons_ne_nil _ _, fun x hx => by cases hx; rfl, fun i x later hx => ?_⟩
      match i with
      | 1 | 2 => cases hx; exact ⟨0, by decide, _, rfl, rfl⟩
      | 3 => cases hx; exact ⟨1, by decide, _, rfl, rfl⟩
      | i + 4 => cases hx
    have listed : field "clusters" (ofLines namesakes) = .ok (.arr _) := rfl
    obtain ⟨accepted, -, all⟩ := parse_iff listed (told namesakes (List.Subset.refl _))
    obtain ⟨⟨f, root⟩, parsed⟩ := accepted.mpr ⟨supported, tree⟩
    obtain ⟨rfl, -, walk, remainder, parent, -⟩ := all f root parsed
    obtain ⟨_, j, ⟨⟩, latest, child⟩ := parent 3 _ (by decide) rfl
    refine ⟨f, parsed, walk, remainder 2 _ rfl, ?_⟩
    have below := latest.before
    obtain ⟨y, hy, id⟩ := latest.id
    match j with
    | 0 => cases hy; cases id
    | 1 => exact absurd rfl (latest.last 2 _ (by decide) (by decide) rfl)
    | 2 => exact child
    | j + 3 => omega
  · have listed : field "clusters" (ofLines namesakes.tail) = .ok (.arr _) := rfl
    obtain ⟨accepted, refused, -⟩ := parse_iff listed (told _ (List.tail_subset _))
    cases parsed : parse (ofLines namesakes.tail) with
    | error fault => exact ⟨fault, rfl, refused fault parsed⟩
    | ok t => cases (accepted.mp ⟨t, parsed⟩).2.first _ rfl

end GraphClustering.TreeDocument
