import Mathlib
import GraphClustering.Graph.Traversal
import GraphClustering.Proofs.Exact
import GraphClustering.Proofs.Graph.Neighbours

/-!
# Weights inside a view

Over exact weights the weight of a vertex is the sum of the entries of its row
whose columns are rows of the view (`weights_of_ok`, `weightAt_eq`), however the rows
are cut into chunks.  It is no greater in a part of the view (`weightAt_mono`), and the
same in a part that holds all neighbours of the vertex (`weightAt_eq_of_closed`).

What is made of the edges of a view is refused for one reason only: a negative number of
workers, where there are more vertices than a chunk holds (`View.Understaffed`).
-/

namespace GraphClustering

variable {order : Nat} {size : Int}

/-! ## Chunks -/

theorem flatMap_range_min (s order n : Nat) :
    (List.range n).flatMap (fun k => List.range' (k * s) (min (k * s + s) order - k * s)) =
      List.range (min (n * s) order) := by
  induction n with
  | zero => simp
  | succ n ih =>
      rw [List.range_succ, List.flatMap_append, ih, List.flatMap_singleton, List.range_eq_range',
        List.range_eq_range', Nat.succ_mul]
      rcases Nat.le_total (n * s) order with h | h
      · rw [Nat.min_eq_left h, ← Nat.add_sub_cancel' (Nat.le_min.mpr ⟨Nat.le_add_right _ s, h⟩)]
        conv_rhs => rw [← List.range'_append_1, Nat.zero_add]
        rw [Nat.add_sub_cancel_left]
      · rw [Nat.min_eq_right h, Nat.min_eq_right (by omega), Nat.sub_eq_zero_of_le h,
          List.range'_zero, List.append_nil]

/-- Chunks of any positive size cover the rows in order. -/
theorem flatMap_rowChunks (hs : 0 < size) :
    (rowChunks order size).flatMap (fun c => List.range' c.1.toNat (c.2.toNat - c.1.toNat)) =
      List.range order := by
  obtain ⟨s, rfl⟩ := Int.eq_ofNat_of_zero_le hs.le
  have enough : order ≤ chunkCount order s * s := by
    have below := Int.ediv_mul_le (-(order : Int)) hs.ne'
    have count : -((-(order : Int)).fdiv s) ≤ chunkCount order s := by
      rw [chunkCount]; exact Int.self_le_toNat _
    rw [Int.fdiv_eq_ediv_of_nonneg _ hs.le] at count
    have := Int.mul_le_mul_of_nonneg_right count hs.le
    zify
    linarith
  have bounds : ∀ k : Nat, ((k : Int) * s).toNat = k * s ∧
      (min ((k : Int) * s + s) order).toNat = min (k * s + s) order := by
    intro k
    constructor
    · rw [← Int.natCast_mul, Int.toNat_natCast]
    · rw [← Int.natCast_mul, ← Int.natCast_add, ← Nat.cast_min, Int.toNat_natCast]
  rw [rowChunks, List.flatMap_map]
  simp only [bounds]
  rw [flatMap_range_min, Nat.min_eq_right enough]

namespace View

variable {α : Type} {v u w : View α} {es : List (Edge α)} {bs : List (List (Edge α))}
variable {row i n : Nat}

theorem flatten_chunks (v : View α) (hs : 0 < size) : (v.chunks size).flatten = v.edges := by
  have between : ∀ start stop, v.edgesBetween start stop =
      (List.range' start (stop - start)).flatMap fun i => v.edgesOf i i := fun _ _ => rfl
  rw [chunks, ← List.flatMap_def, edges]
  simp only [between]
  rw [← List.flatMap_assoc, flatMap_rowChunks hs, Nat.sub_zero, List.range_eq_range']

/-- The batches together are all edges, whatever the size of the chunks. -/
theorem flatten_batches {size workers : Option Int} (hs : 0 < orDefault size defaultChunk)
    (h : v.batches size workers = .ok bs) : bs.flatten = v.edges := by
  rw [batches] at h
  split at h
  · cases h
  · cases h
    rw [List.flatten_filter_not_isEmpty, flatten_chunks v hs]

theorem source_of_mem_edgesOf {source : Int} {e : Edge α}
    (he : e ∈ v.edgesOf i source) : e.source = source := by
  rw [edgesOf] at he
  split at he
  · obtain ⟨_, -, rfl⟩ := List.mem_map.mp he
    rfl
  · cases he

theorem filter_edgesOf (v : View α) (i j : Nat) :
    (v.edgesOf i i).filter (fun e => e.source.toNat = j) = if i = j then v.edgesOf i i else [] := by
  split
  · rename_i h
    exact List.filter_eq_self.mpr fun e he => by simp [source_of_mem_edgesOf he, h]
  · rename_i h
    exact List.filter_eq_nil_iff.mpr fun e he => by simp [source_of_mem_edgesOf he, h]

/-- Of lists for distinct numbers, those for all but one of the numbers left out, one remains. -/
theorem flatMap_ite_eq {β : Type} {l : List Nat} (nodup : l.Nodup) (hi : i ∈ l)
    (f : Nat → List β) : (l.flatMap fun j => if j = i then f j else []) = f i := by
  induction l with
  | nil => cases hi
  | cons j l ih =>
      obtain ⟨new, nodup⟩ := List.nodup_cons.mp nodup
      rw [List.flatMap_cons]
      rcases List.mem_cons.mp hi with rfl | hi
      · rw [if_pos rfl,
          List.flatMap_eq_nil_iff.mpr fun j hj => if_neg (ne_of_mem_of_not_mem hj new),
          List.append_nil]
      · rw [if_neg (ne_of_mem_of_not_mem hi new).symm, List.nil_append, ih nodup hi]

/-- The edges of a vertex are found by their source among those of vertices around it. -/
theorem filter_edgesBetween (v : View α) {start stop : Nat} (first : start ≤ i) (last : i < stop) :
    (v.edgesBetween start stop).filter (fun e => e.source.toNat = i) = v.edgesOf i i := by
  rw [edgesBetween, List.filter_flatMap]
  simp only [filter_edgesOf]
  exact flatMap_ite_eq List.nodup_range' (List.mem_range'_1.mpr ⟨first, by omega⟩)
    fun j => v.edgesOf j j

/-- The edges of a vertex are found among all edges by their source. -/
theorem filter_edges (v : View α) (hi : i < v.order) :
    v.edges.filter (fun e => e.source.toNat = i) = v.edgesOf i i :=
  v.filter_edgesBetween (Nat.zero_le i) hi

/-- The weights of the edges of a vertex are those of the entries of its row. -/
theorem weights_filter_edges {r : Nat} (hr : v.rows[i]? = some r) :
    (v.edges.filter fun e => e.source.toNat = i).map Edge.weight =
      (v.adjacentOf r).map Prod.snd := by
  rw [filter_edges v (Array.getElem?_eq_some_iff.mp hr).1, edgesOf, hr]
  exact List.map_map

/-! ## Workers -/

theorem one_lt_length_chunks_iff :
    1 < (v.chunks defaultChunk).length ↔ defaultChunk < v.order := by
  rw [chunks, List.length_map, rowChunks, List.length_map, List.length_range, chunkCount,
    defaultChunk, Int.fdiv_eq_ediv_of_nonneg _ (by decide)]
  omega

/-- Whether there are workers for the edges of a view, if it has more than one chunk. -/
def Staffed (v : View α) : Prop :=
  (v.order : Int) ≤ defaultChunk ∨ 0 ≤ orDefault v.workers 1

/-- Failing for want of workers: the view has more vertices than a chunk holds, and a negative
number of workers. -/
def Understaffed (v : View α) (e : Fault) : Prop :=
  e = .negativeWorkers ∧ ¬ v.Staffed

theorem Staffed.of_partOf (h : v.Staffed) (part : u.PartOf v) : u.Staffed := by
  refine h.imp (fun few => ?_) fun workers => ?_
  · exact (Int.ofNat_le.mpr part.order_le).trans few
  · rwa [part.workers]

theorem Understaffed.of_partOf {e : Fault} (h : u.Understaffed e) (part : u.PartOf v) :
    v.Understaffed e :=
  ⟨h.1, fun staffed => h.2 (staffed.of_partOf part)⟩

theorem batches_of_staffed (h : v.Staffed) :
    v.batches none v.workers = .ok ((v.chunks defaultChunk).filter fun c => !c.isEmpty) := by
  refine if_neg ?_
  change ¬ (1 < (v.chunks defaultChunk).length ∧ _)
  rw [one_lt_length_chunks_iff, not_and_or, not_lt, not_lt]
  exact h

theorem batches_of_not_staffed (h : ¬ v.Staffed) :
    v.batches none v.workers = .error .negativeWorkers := by
  rw [Staffed, not_or, not_le, not_le] at h
  refine if_pos ?_
  change 1 < (v.chunks defaultChunk).length ∧ _
  exact ⟨one_lt_length_chunks_iff.mpr h.1, h.2⟩

/-- The edges of a view are refused only for want of workers. -/
theorem failure_of_batches {e : Fault} (h : v.batches none v.workers = .error e) :
    v.Understaffed e := by
  by_cases staffed : v.Staffed
  · rw [batches_of_staffed staffed] at h
    cases h
  · rw [batches_of_not_staffed staffed] at h
    cases h
    exact ⟨rfl, staffed⟩

section Scalars

variable [Scalar α]

theorem exists_weights_of_staffed (h : v.Staffed) : ∃ ws, v.weights = .ok ws :=
  ⟨_, by rw [weights, batches_of_staffed h]; rfl⟩

theorem weights_of_not_staffed (h : ¬ v.Staffed) : v.weights = .error .negativeWorkers := by
  rw [weights, batches_of_not_staffed h]
  rfl

theorem failure_of_weights {e : Fault} (h : v.weights = .error e) : v.Understaffed e := by
  rw [weights] at h
  cases hb : v.batches none v.workers with
  | error e' =>
      rw [hb] at h
      cases h
      exact failure_of_batches hb
  | ok bs => rw [hb] at h; cases h

/-- Where the weights of a view are found, so are those of its parts. -/
theorem exists_weights_of_partOf (h : u.PartOf v) {ws : Array α} (hv : v.weights = .ok ws) :
    ∃ us, u.weights = .ok us := by
  by_cases staffed : v.Staffed
  · exact exists_weights_of_staffed (staffed.of_partOf h)
  · rw [weights_of_not_staffed staffed] at hv
    cases hv

end Scalars

/-! ## Entries inside a view -/

/-- The entries of a row that stay inside a view. -/
def insideOf (v : View α) (row : Nat) : List (Nat × α) :=
  (v.store.rowEntries row).filter fun e => e.1 ∈ v.rows.toList

theorem map_snd_adjacentOf (hv : v.rows.toList.Pairwise (· < ·)) (row : Nat) :
    (v.adjacentOf row).map Prod.snd = (v.insideOf row).map Prod.snd := by
  rw [adjacentOf, insideOf]
  induction v.store.rowEntries row with
  | nil => rfl
  | cons e es ih =>
      rw [List.filterMap_cons, List.filter_cons, ← isSome_localOf? hv]
      cases v.localOf? e.1 with
      | none => simpa using ih
      | some i => simpa using ih

/-! ## Sums -/

/-- What is collected by source comes, at each source, from the edges with this source. -/
theorem foldl_modify_source {β : Type} (f : β → Edge α → β) (es : List (Edge α)) (xs : Array β) :
    es.foldl (fun xs e => xs.modify e.source.toNat fun x => f x e) xs =
      xs.mapIdx fun i x => (es.filter fun e => e.source.toNat = i).foldl f x := by
  induction es generalizing xs with
  | nil =>
      apply Array.ext_getElem?
      intro i
      simp
  | cons e es ih =>
      rw [List.foldl_cons, ih]
      apply Array.ext_getElem?
      intro i
      rw [Array.getElem?_mapIdx, Array.getElem?_mapIdx, Array.getElem?_modify, List.filter_cons]
      by_cases own : e.source.toNat = i
      · simp only [own, if_true, decide_true, List.foldl_cons, Option.map_map, Function.comp_def]
      · simp only [own, if_false, decide_false, Bool.false_eq_true]

section Sums

variable [Scalar α]

/-- The weights of the edges with a given source, summed from left to right. -/
def sumOf (es : List (Edge α)) (i : Nat) : α :=
  (es.filter fun e => e.source.toNat = i).foldl (fun s e => s + e.weight) 0

theorem sumBySource_eq (order : Nat) (es : List (Edge α)) :
    sumBySource order es = ((List.range order).map (sumOf es)).toArray := by
  rw [sumBySource, foldl_modify_source fun s (e : Edge α) => s + e.weight]
  apply Array.ext_getElem?
  intro i
  by_cases hi : i < order <;> simp [hi, sumOf]

/-- The batches are summed one by one, vertex by vertex. -/
theorem accumulate_eq (order : Nat) (bs : List (List (Edge α))) : accumulate order bs =
    ((List.range order).map fun i => bs.foldl (fun s b => s + sumOf b i) 0).toArray := by
  have from_sums : ∀ f : Nat → α, bs.foldl (fun sums b => addVectors sums (sumBySource order b))
      ((List.range order).map f).toArray =
        ((List.range order).map fun i => bs.foldl (fun s b => s + sumOf b i) (f i)).toArray := by
    induction bs with
    | nil =>
        intro f
        rfl
    | cons b bs ih =>
        intro f
        have first : addVectors ((List.range order).map f).toArray (sumBySource order b) =
            ((List.range order).map fun i => f i + sumOf b i).toArray := by
          rw [sumBySource_eq, addVectors, List.zipWith_toArray, List.zipWith_map]
          simp [List.zipWith_self]
        rw [List.foldl_cons, first, ih]
        rfl
  have zeros : Array.replicate order (0 : α) = ((List.range order).map fun _ => 0).toArray := by
    simp
  rw [accumulate, zeros, from_sums]

/-- The weights are found row by row once the sums of the batches are known. -/
theorem weights_eq_map {ws : Array α} {f : Nat → α} (h : v.weights = .ok ws)
    (sums : ∀ bs, v.batches none v.workers = .ok bs → ∀ i r, v.rows[i]? = some r →
      bs.foldl (fun s b => s + sumOf b i) 0 = f r) : ws = v.rows.map f := by
  rw [weights] at h
  cases hb : v.batches none v.workers with
  | error e => rw [hb] at h; cases h
  | ok bs =>
      rw [hb] at h
      cases h
      rw [accumulate_eq]
      apply Array.ext_getElem?
      intro i
      rw [Array.getElem?_map, List.getElem?_toArray, List.getElem?_map]
      by_cases hi : i < v.order
      · have row : v.rows[i]? = some v.rows[i] := Array.getElem?_eq_getElem hi
        rw [row, List.getElem?_range hi, Option.map_some, Option.map_some, sums bs hb i _ row]
      · have none : v.rows[i]? = none := Array.getElem?_eq_none (Nat.le_of_not_lt hi)
        simp [none, hi]

end Sums

variable [ExactScalar α]

/-- The sum of the weights of the edges with a given source. -/
def sourceSum (es : List (Edge α)) (i : Nat) : α :=
  ((es.filter fun e => e.source.toNat = i).map Edge.weight).sum

theorem sumOf_eq_sourceSum (es : List (Edge α)) (i : Nat) : sumOf es i = sourceSum es i := by
  rw [sumOf, sourceSum, List.sum_eq_foldl, List.foldl_map]

/-- The sums of the batches add up to the sum over all edges. -/
theorem foldl_sumOf_eq (bs : List (List (Edge α))) (i : Nat) :
    bs.foldl (fun s b => s + sumOf b i) 0 = sourceSum bs.flatten i := by
  simp only [sumOf_eq_sourceSum]
  rw [← List.foldl_map, ← List.sum_eq_foldl]
  simp only [sourceSum, List.filter_flatten, List.map_flatten, List.sum_flatten, List.map_map,
    Function.comp_def]

/-- The weight of a row inside a view. -/
def weightAt (v : View α) (row : Nat) : α :=
  ((v.adjacentOf row).map Prod.snd).sum

theorem weights_of_ok {ws : Array α} (h : v.weights = .ok ws) : ws = v.rows.map v.weightAt := by
  refine weights_eq_map h fun bs hb i r hr => ?_
  rw [foldl_sumOf_eq, flatten_batches (by decide) hb, sourceSum, weightAt, weights_filter_edges hr]

/-! ## Weights of parts -/

theorem weightAt_eq (hv : v.rows.toList.Pairwise (· < ·)) (row : Nat) :
    v.weightAt row = ((v.insideOf row).map Prod.snd).sum := by
  rw [weightAt, map_snd_adjacentOf hv]

/-- Whether no stored entry is negative. -/
def NonnegEntries (v : View α) : Prop :=
  ∀ row, ∀ e ∈ v.store.rowEntries row, 0 ≤ e.2

/-- Whether all stored entries are positive. -/
def PosEntries (v : View α) : Prop :=
  ∀ row, ∀ e ∈ v.store.rowEntries row, 0 < e.2

theorem PosEntries.nonneg (h : v.PosEntries) : v.NonnegEntries := fun row e he =>
  (h row e he).le

theorem posEntries_of_weights (h : ∀ x ∈ v.store.weights.toList, 0 < x) : v.PosEntries := by
  rintro row ⟨c, x⟩ entry
  obtain ⟨k, -, -, -, weight⟩ := Store.mem_rowEntries.mp entry
  exact h x (Array.mem_toList_iff.mpr (Array.mem_of_getElem? weight))

/-- A vertex weighs no more in a part of a view. -/
theorem weightAt_mono (huw : u.PartOf w) (hwv : w.PartOf v) (nonneg : v.NonnegEntries)
    (row : Nat) : u.weightAt row ≤ w.weightAt row := by
  rw [weightAt_eq huw.ascending, weightAt_eq hwv.ascending]
  refine List.Sublist.sum_le_sum (List.Sublist.map _ ?_) ?_
  · rw [insideOf, insideOf, huw.store]
    exact List.monotone_filter_right _ fun e he => by
      rw [decide_eq_true_iff] at he ⊢
      exact huw.subset he
  · intro x hx
    obtain ⟨e, he, rfl⟩ := List.mem_map.mp hx
    rw [insideOf, hwv.store] at he
    exact nonneg row e (List.mem_filter.mp he).1

/-- A vertex weighs as much in a part that holds all its neighbours. -/
theorem weightAt_eq_of_closed (h : u.PartOf v) (hv : v.rows.toList.Pairwise (· < ·))
    (closed : ∀ e ∈ v.store.rowEntries row, e.1 ∈ v.rows.toList → e.1 ∈ u.rows.toList) :
    u.weightAt row = v.weightAt row := by
  rw [weightAt_eq h.ascending, weightAt_eq hv, insideOf, insideOf, h.store]
  congr 2
  apply List.filter_congr
  intro e he
  rw [decide_eq_decide]
  exact ⟨fun hu => h.subset hu, closed e he⟩

theorem weightAt_nonneg (hv : v.rows.toList.Pairwise (· < ·)) (nonneg : v.NonnegEntries)
    (row : Nat) : 0 ≤ v.weightAt row := by
  rw [weightAt_eq hv]
  refine List.sum_nonneg fun x hx => ?_
  obtain ⟨e, he, rfl⟩ := List.mem_map.mp hx
  exact nonneg row e (List.mem_filter.mp he).1

/-- A vertex with a neighbour in a view has weight there. -/
theorem weightAt_pos (hv : v.rows.toList.Pairwise (· < ·)) (pos : v.PosEntries) {c : Nat} {x : α}
    (entry : (c, x) ∈ v.store.rowEntries row) (hc : c ∈ v.rows.toList) : 0 < v.weightAt row := by
  rw [weightAt_eq hv]
  refine List.sum_pos _ (fun y hy => ?_) ?_
  · obtain ⟨e, he, rfl⟩ := List.mem_map.mp hy
    exact pos row e (List.mem_filter.mp he).1
  · have inside : (c, x) ∈ v.insideOf row := List.mem_filter.mpr ⟨entry, decide_eq_true hc⟩
    exact List.ne_nil_of_mem (List.mem_map_of_mem inside)

end View

end GraphClustering
