import Mathlib
import GraphClustering.Graph.Builder
import GraphClustering.Proofs.Graph.Entries
import GraphClustering.Proofs.Graph.Weights

/-!
# Built graphs are lawful

A store made of strictly ordered entries holds just these entries, each in its row
(`mem_rowEntries_ofEntries`), so it is lawful if they are symmetric.  A builder makes
such a store, and over exact weights all its entries are positive (`build_lawful`).
-/

namespace GraphClustering

variable {α : Type} {es : List (Entry α)} {row k n p offset : Nat}

namespace Store

/-! ## Rows of a sorted list -/

/-- The number of entries of the rows before a row. -/
def startOf (es : List (Entry α)) (row : Nat) : Nat :=
  es.countP fun e => e.row < row

theorem startOf_le_length (es : List (Entry α)) (row : Nat) : startOf es row ≤ es.length :=
  List.countP_le_length

theorem startOf_append (es es' : List (Entry α)) (row : Nat) :
    startOf (es ++ es') row = startOf es row + startOf es' row :=
  List.countP_append

theorem startOf_eq_zero (h : ∀ e ∈ es, row ≤ e.row) : startOf es row = 0 := by
  rw [startOf, List.countP_eq_zero]
  simpa using h

theorem startOf_eq_length (h : ∀ e ∈ es, e.row < row) : startOf es row = es.length := by
  rw [startOf, List.countP_eq_length]
  simpa using h

theorem startOf_mono (es : List (Entry α)) (h : row ≤ k) : startOf es row ≤ startOf es k :=
  List.countP_mono_left fun _ _ below =>
    decide_eq_true ((of_decide_eq_true below).trans_le h)

/-- In a sorted list the entries of earlier rows stand before the start of a row. -/
theorem lt_startOf_iff (sorted : es.Pairwise fun a b => a.row ≤ b.row) :
    p < startOf es row ↔ ∃ e, es[p]? = some e ∧ e.row < row := by
  induction es generalizing p with
  | nil => simp [startOf]
  | cons a es ih =>
      obtain ⟨first, rest⟩ := List.pairwise_cons.mp sorted
      by_cases ha : a.row < row
      · have start : startOf (a :: es) row = startOf es row + 1 := by
          rw [startOf, List.countP_cons_of_pos (by simpa using ha), startOf]
        cases p with
        | zero => simp [start, ha]
        | succ p => simpa [start] using ih rest
      · have start : startOf (a :: es) row = 0 := by
          refine startOf_eq_zero fun e he => ?_
          rcases List.mem_cons.mp he with rfl | he
          · exact Nat.le_of_not_lt ha
          · exact (Nat.le_of_not_lt ha).trans (first e he)
        rw [start]
        refine iff_of_false (Nat.not_lt_zero _) ?_
        rintro ⟨e, he, below⟩
        rcases List.mem_cons.mp (List.mem_of_getElem? he) with rfl | he
        · exact ha below
        · exact ha ((first e he).trans_lt below)

theorem row_lt_of_mem_dropWhile (sorted : es.Pairwise fun a b => a.row ≤ b.row)
    (h : ∀ e ∈ es, row ≤ e.row) {e : Entry α} (he : e ∈ es.dropWhile fun e => e.row == row) :
    row < e.row := by
  induction es with
  | nil => cases he
  | cons a es ih =>
      obtain ⟨first, rest⟩ := List.pairwise_cons.mp sorted
      rw [List.dropWhile_cons] at he
      split at he
      · exact ih rest (fun e he => h e (List.mem_cons_of_mem _ he)) he
      · rename_i other
        have above : row < a.row :=
          lt_of_le_of_ne (h a List.mem_cons_self) fun same => other (by simp [same])
        rcases List.mem_cons.mp he with rfl | he
        · exact above
        · exact above.trans_le (first e he)

theorem length_rowStarts (row offset : Nat) (es : List (Entry α)) (n : Nat) :
    (rowStarts row offset es n).length = n + 1 := by
  induction n generalizing row offset es with
  | zero => rfl
  | succ n ih => rw [rowStarts, List.length_cons, ih]

theorem drop_length_takeWhile (es : List (Entry α)) (row : Nat) :
    es.drop (es.takeWhile fun e => e.row == row).length = es.dropWhile fun e => e.row == row := by
  conv_lhs =>
    enter [2]
    rw [← List.takeWhile_append_dropWhile (p := fun e => e.row == row) (l := es)]
  exact List.drop_left

/-- The entries of a row, and those of later rows, are counted one after the other. -/
theorem startOf_split (es : List (Entry α)) (row k : Nat) : startOf es (row + (k + 1)) =
    (es.takeWhile fun e => e.row == row).length +
      startOf (es.dropWhile fun e => e.row == row) (row + 1 + k) := by
  have own : ∀ e ∈ es.takeWhile fun e => e.row == row, e.row < row + (k + 1) := by
    intro e he
    have same : e.row = row := by simpa using List.mem_takeWhile_imp he
    omega
  rw [← startOf_eq_length own, Nat.add_right_comm row 1 k, Nat.add_assoc, ← startOf_append,
    List.takeWhile_append_dropWhile]

/-- The starts of the rows of a sorted list. -/
theorem getElem?_rowStarts (sorted : es.Pairwise fun a b => a.row ≤ b.row)
    (h : ∀ e ∈ es, row ≤ e.row) (hk : k ≤ n) :
    (rowStarts row offset es n)[k]? = some (offset + startOf es (row + k)) := by
  induction n generalizing row offset es k with
  | zero =>
      obtain rfl := Nat.le_zero.mp hk
      rw [rowStarts, Nat.add_zero, startOf_eq_zero h]
      rfl
  | succ n ih =>
      rw [rowStarts]
      cases k with
      | zero => simp [startOf_eq_zero h]
      | succ k =>
          have later := sorted.sublist (List.dropWhile_sublist fun e => e.row == row)
          rw [List.getElem?_cons_succ, drop_length_takeWhile, startOf_split, ← Nat.add_assoc]
          exact ih later (fun e he => row_lt_of_mem_dropWhile sorted h he)
            (Nat.le_of_succ_le_succ hk)

/-! ## Stores of ordered entries -/

section OfEntries

variable {labels : Array Int} (strict : es.Pairwise Entry.Precedes)
variable (inRange : ∀ e ∈ es, e.row < labels.size)

theorem order_ofEntries (labels : Array Int) (es : List (Entry α)) :
    (ofEntries labels es).order = labels.size := by
  rw [order, ofEntries, List.size_toArray, length_rowStarts, Nat.add_sub_cancel]

include strict

theorem sorted_of_strict : es.Pairwise fun a b => a.row ≤ b.row :=
  strict.imp fun h => h.elim le_of_lt fun h => h.1.le

theorem getElem?_pointers_ofEntries (h : k ≤ labels.size) :
    (ofEntries labels es).pointers[k]? = some (startOf es k) := by
  rw [ofEntries, List.getElem?_toArray,
    getElem?_rowStarts (sorted_of_strict strict) (fun e _ => Nat.zero_le _) h, Nat.zero_add,
    Nat.zero_add]

theorem span_ofEntries (h : row < labels.size) :
    (ofEntries labels es).span row = (startOf es row, startOf es (row + 1)) := by
  rw [span, Array.getD_eq_getD_getElem?, Array.getD_eq_getD_getElem?,
    getElem?_pointers_ofEntries strict h.le, getElem?_pointers_ofEntries strict h,
    Option.getD_some, Option.getD_some]

/-- Positions in the span of a row are those of its entries. -/
theorem mem_span_iff (h : row < labels.size) :
    ((ofEntries labels es).span row).1 ≤ p ∧ p < ((ofEntries labels es).span row).2 ↔
      ∃ e, es[p]? = some e ∧ e.row = row := by
  rw [span_ofEntries strict h, ← not_lt, lt_startOf_iff (sorted_of_strict strict),
    lt_startOf_iff (sorted_of_strict strict)]
  constructor
  · rintro ⟨above, e, he, below⟩
    refine ⟨e, he, ?_⟩
    by_contra other
    exact above ⟨e, he, by omega⟩
  · rintro ⟨e, he, rfl⟩
    refine ⟨?_, e, he, Nat.lt_succ_self _⟩
    rintro ⟨e', he', below⟩
    rw [he] at he'
    cases he'
    exact lt_irrefl _ below

/-- A store of ordered entries has rows within its arrays whose columns ascend. -/
theorem compressed_ofEntries (ascending : labels.toList.Pairwise (· < ·)) :
    (ofEntries labels es).Compressed := by
  refine compressed_of_rows ascending (order_ofEntries labels es).symm ?_ ?_ ?_
  · simp [ofEntries]
  · intro row h
    rw [order_ofEntries] at h
    rw [span_ofEntries strict h, ofEntries, List.size_toArray, List.length_map]
    exact startOf_le_length es _
  · intro row h j hj i hij hi
    rw [order_ofEntries] at h
    obtain ⟨a, ha, row_a⟩ := (mem_span_iff strict h).mp ⟨hi, hij.trans hj⟩
    obtain ⟨b, hb, row_b⟩ := (mem_span_iff strict h).mp ⟨hi.trans hij.le, hj⟩
    obtain ⟨hi', rfl⟩ := List.getElem?_eq_some_iff.mp ha
    obtain ⟨hj', rfl⟩ := List.getElem?_eq_some_iff.mp hb
    have lt := List.pairwise_iff_getElem.mp strict i j hi' hj' hij
    rw [Entry.Precedes, row_a, row_b] at lt
    have col := (lt.resolve_left (lt_irrefl _)).2
    simpa [ofEntries, Array.getD_eq_getD_getElem?, hi', hj'] using col

include inRange

/-- The rows of a store of ordered entries hold just these entries. -/
theorem mem_rowEntries_ofEntries {c : Nat} {x : α} :
    (c, x) ∈ (ofEntries labels es).rowEntries row ↔ ⟨row, c, x⟩ ∈ es := by
  by_cases h : row < labels.size
  · have positions : ∀ p, ((ofEntries labels es).span row).1 ≤ p ∧
        p < ((ofEntries labels es).span row).2 ∧ (ofEntries labels es).edges[p]? = some c ∧
          (ofEntries labels es).weights[p]? = some x ↔ es[p]? = some ⟨row, c, x⟩ := by
      intro p
      rw [← and_assoc, mem_span_iff strict h]
      simp only [ofEntries, List.getElem?_toArray, List.getElem?_map, Option.map_eq_some_iff]
      constructor
      · rintro ⟨⟨e, he, rfl⟩, ⟨e', he', rfl⟩, ⟨e'', he'', rfl⟩⟩
        rw [he] at he' he''
        cases he'
        cases he''
        exact he
      · intro he
        exact ⟨⟨_, he, rfl⟩, ⟨_, he, rfl⟩, ⟨_, he, rfl⟩⟩
    rw [mem_rowEntries, List.mem_iff_getElem?]
    exact exists_congr positions
  · have outside : (ofEntries labels es).order ≤ row := by
      rw [order_ofEntries]
      exact Nat.le_of_not_lt h
    rw [rowEntries_of_order_le outside]
    exact iff_of_false List.not_mem_nil fun he => h (inRange _ he)

theorem lawful_ofEntries (ascending : labels.toList.Pairwise (· < ·))
    (symmetric : ∀ r c x, ⟨r, c, x⟩ ∈ es → ⟨c, r, x⟩ ∈ es) : (ofEntries labels es).Lawful := by
  refine (compressed_ofEntries strict ascending).lawful fun row c x entry => ?_
  rw [mem_rowEntries_ofEntries strict inRange] at entry ⊢
  exact symmetric row c x entry

end OfEntries

end Store

namespace Builder

theorem whole_compressed {s : Store α} (h : s.Compressed) (workers : Option Int) :
    (View.whole s workers).Compressed where
  store := h
  ascending := by
    rw [View.whole, Array.toList_range]
    exact List.pairwise_lt_range
  inRange r hr := by
    rw [View.whole, Array.toList_range] at hr
    exact List.mem_range.mp hr

theorem whole_lawful {s : Store α} (h : s.Lawful) (workers : Option Int) :
    (View.whole s workers).Lawful :=
  have compressed := whole_compressed h.compressed workers
  ⟨h, compressed.ascending, compressed.inRange⟩

variable {ids sources targets : List Int} {ws : List α} {id : Int} {b : Builder α} {v : View α}

theorem rowOf_lt (h : id ∈ ids) :
    rowOf (sortedDistinct ids).toArray id < (sortedDistinct ids).toArray.size := by
  have known : id ∈ (sortedDistinct ids).toArray :=
    List.mem_toArray.mpr (mem_sortedDistinct.mpr h)
  have ascending : (sortedDistinct ids).toArray.toList.Pairwise (· < ·) :=
    sortedDistinct_ascending ids
  obtain ⟨k, hk⟩ := Search.exists_position? ascending known
  rw [rowOf, hk]
  exact (Search.position?_eq_some hk).1

/-! ## Entries of both directions -/

/-- The entries of some edges between the vertices of a store. -/
def entriesOf (ids sources targets : List Int) (ws : List α) : List (Entry α) :=
  (sources.zip (targets.zip ws)).map fun e =>
    ⟨rowOf (sortedDistinct ids).toArray e.1, rowOf (sortedDistinct ids).toArray e.2.1, e.2.2⟩

/-- What holds of the weights of all edges holds of the entries of both directions. -/
theorem forall_weight_symmetric {P : α → Prop} (h : ∀ e ∈ sources.zip (targets.zip ws), P e.2.2) :
    ∀ e ∈ Entry.symmetric (entriesOf ids sources targets ws), P e.weight := by
  refine Entry.forall_mem_symmetric fun e he => ?_
  obtain ⟨edge, hedge, rfl⟩ := List.mem_map.mp he
  exact ⟨h edge hedge, h edge hedge⟩

theorem row_lt_of_mem_symmetric (hs : sources ⊆ ids) (ht : targets ⊆ ids) :
    ∀ e ∈ Entry.symmetric (entriesOf ids sources targets ws),
      e.row < (sortedDistinct ids).toArray.size := by
  refine Entry.forall_mem_symmetric fun e he => ?_
  obtain ⟨⟨s, t, w⟩, edge, rfl⟩ := List.mem_map.mp he
  obtain ⟨hs', rest⟩ := List.of_mem_zip edge
  exact ⟨rowOf_lt (hs hs'), rowOf_lt (ht (List.of_mem_zip rest).1)⟩

section Scalar

variable [Scalar α]

theorem assemble_eq (ids sources targets : List Int) (ws : List α) :
    assemble ids sources targets ws = .ofEntries (sortedDistinct ids).toArray
      (Entry.normalize (Entry.symmetric (entriesOf ids sources targets ws))) :=
  rfl

theorem assemble_compressed (ids sources targets : List Int) (ws : List α) :
    (assemble ids sources targets ws).Compressed :=
  Store.compressed_ofEntries (Entry.strict_normalize _) (sortedDistinct_ascending ids)

/-- A build that succeeds has checked the edges and assembled a store for their ends
and other vertices. -/
theorem exists_of_build (h : b.build = .ok v) :
    ∃ edges more, check edges = .ok () ∧ v = .whole (assemble
      (edges.sources.integers.map wrapSigned ++ (edges.targets.integers.map wrapSigned ++ more))
      (edges.sources.integers.map wrapSigned) (edges.targets.integers.map wrapSigned)
      edges.weights) b.workers := by
  simp only [build, bind, Except.bind] at h
  split at h
  · cases h
  · rename_i edges _
    split at h
    · cases h
    · rename_i checked
      split at h
      · cases h
      · rename_i declared _
        split at h
        · cases h
        · rename_i below _
          cases h
          exact ⟨edges, declared ++ below, checked, by simp only [List.append_assoc]⟩

/-- The store of a graph that is built has rows within its arrays whose columns ascend. -/
theorem build_compressed (h : b.build = .ok v) : v.store.Compressed := by
  obtain ⟨edges, more, -, rfl⟩ := exists_of_build h
  exact assemble_compressed _ _ _ _

/-- A graph that is built is the view of all rows of its store. -/
theorem build_eq_whole (h : b.build = .ok v) : v = .whole v.store b.workers := by
  obtain ⟨edges, more, -, rfl⟩ := exists_of_build h
  rfl

/-- Edges that pass the check have no negative weight. -/
theorem not_less_of_check {e : EdgeBatch α} (h : check e = .ok ()) :
    ∀ t ∈ e.sources.integers.zip (e.targets.integers.zip e.weights),
      Scalar.less t.2.2 0 = false := by
  intro t ht
  rw [check] at h
  split_ifs at h with none
  · rw [List.isEmpty_iff.mp none] at ht
    cases ht
  · split at h
    · cases h
    · rename_i found
      rw [negativeEdge?, List.find?_eq_none] at found
      exact Bool.eq_false_iff.mpr (found t ht)

/-- A graph that is built has the store of some edges between some vertices, none of them of
negative weight. -/
theorem exists_assemble_of_build (h : b.build = .ok v) : ∃ ids sources targets ws,
    v = .whole (assemble ids sources targets ws) b.workers ∧ sources ⊆ ids ∧ targets ⊆ ids ∧
      ∀ e ∈ sources.zip (targets.zip ws), Scalar.less e.2.2 0 = false := by
  obtain ⟨edges, more, checked, rfl⟩ := exists_of_build h
  refine ⟨_, _, _, _, rfl, List.subset_append_left _ _,
    List.subset_append_of_subset_right _ (List.subset_append_left _ _), ?_⟩
  rw [List.zip_map_left, List.zip_map_left, List.zip_map_right]
  intro e he
  obtain ⟨e', he', rfl⟩ := List.mem_map.mp he
  obtain ⟨t, ht, rfl⟩ := List.mem_map.mp he'
  exact not_less_of_check checked t ht

section Assemble

variable (hs : sources ⊆ ids) (ht : targets ⊆ ids)

include hs ht

/-- The rows of the store of some edges hold the normal form of their entries. -/
theorem mem_rowEntries_assemble {c : Nat} {x : α} :
    (c, x) ∈ (assemble ids sources targets ws).rowEntries row ↔
      ⟨row, c, x⟩ ∈ Entry.normalize (Entry.symmetric (entriesOf ids sources targets ws)) := by
  rw [assemble_eq]
  exact Store.mem_rowEntries_ofEntries (Entry.strict_normalize _) fun e =>
    Entry.row_lt_of_mem_normalize (row_lt_of_mem_symmetric hs ht)

end Assemble

/-- If sums of weights vanish only with all of them, the entries of a graph that is built are
mirrored, be they rounded or not. -/
theorem build_mirrored [VanishingSums α] (h : b.build = .ok v) : v.Mirrored := by
  obtain ⟨ids, sources, targets, ws, rfl, hs, ht, nonneg⟩ := exists_assemble_of_build h
  refine ⟨whole_compressed (assemble_compressed _ _ _ _) _, fun row c x entry => ?_⟩
  simp only [View.whole, mem_rowEntries_assemble hs ht] at entry ⊢
  exact Entry.exists_mem_normalize_symmetric
    (forall_weight_symmetric (P := fun w => Scalar.less w 0 = false) nonneg) entry

end Scalar

variable [ExactScalar α]

/-- Edges between given vertices, none of negative weight, make a lawful store with
positive entries. -/
theorem assemble_lawful (hs : sources ⊆ ids) (ht : targets ⊆ ids)
    (nonneg : ∀ e ∈ sources.zip (targets.zip ws), 0 ≤ e.2.2) :
    (assemble ids sources targets ws).Lawful ∧
      ∀ row, ∀ e ∈ (assemble ids sources targets ws).rowEntries row, 0 < e.2 := by
  refine ⟨(assemble_compressed _ _ _ _).lawful fun row c x entry => ?_, ?_⟩
  · rw [mem_rowEntries_assemble hs ht] at entry ⊢
    exact Entry.mem_normalize_symmetric entry
  · rintro row ⟨c, x⟩ entry
    exact Entry.weight_pos_of_mem_normalize (forall_weight_symmetric (P := fun w => 0 ≤ w) nonneg)
      ((mem_rowEntries_assemble hs ht).mp entry)

/-- A graph that is built from exact weights is lawful, and its entries are positive. -/
theorem build_lawful (h : b.build = .ok v) :
    v.Lawful ∧ v.PosEntries := by
  obtain ⟨ids, sources, targets, ws, rfl, hs, ht, nonneg⟩ := exists_assemble_of_build h
  obtain ⟨lawful, pos⟩ := assemble_lawful hs ht fun e he => less_eq_false_iff.mp (nonneg e he)
  exact ⟨whole_lawful lawful b.workers, pos⟩

end Builder

end GraphClustering
