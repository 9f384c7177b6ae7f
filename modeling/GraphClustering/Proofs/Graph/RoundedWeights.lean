import GraphClustering.Proofs.Graph.Delivery

/-!
# Weights as rounded sums

The sum of rounded numbers depends on their order.  Where zero can be added without harm, the
weight of a vertex in a view is the sum of the entries of its row in their order, whatever the
chunks (`weights_of_neutral`).  It can be told from the store and the vertices of the view alone
(`Store.weightAmong`).
-/

namespace GraphClustering

variable {α : Type} {v : View α}

/-- The columns labelled with vertices of a view are its rows. -/
theorem View.Compressed.any_label (hv : v.Compressed) (c : Nat) :
    ((v.store.labels[c]?).any fun id => id ∈ v.vertexList) = decide (c ∈ v.rows.toList) := by
  rcases Nat.lt_or_ge c v.store.order with known | strange
  · have label : v.store.labels[c]? = some (v.store.labels.getD c 0) := by
      rw [Array.getD_eq_getD_getElem?, Array.getElem?_eq_getElem (hv.store.size_labels ▸ known),
        Option.getD_some]
    rw [label, Option.any_some, decide_eq_decide, mem_vertexList_iff_row]
    constructor
    · rintro ⟨r, hr, same⟩
      exact hv.store.label_inj (hv.inRange r hr) known same ▸ hr
    · exact fun hc => ⟨c, hc, rfl⟩
  · rw [Array.getElem?_eq_none (hv.store.size_labels ▸ strange), Option.any_none, eq_comm,
      decide_eq_false_iff_not]
    exact fun hc => absurd (hv.inRange c hc) strange.not_gt

variable [Scalar α]

namespace Store

variable {s : Store α} {ids ids' : List Int}

/-- The weight between a row and some vertices: the weights of its entries at these, summed from
left to right and then added to zero. -/
def weightAmong (s : Store α) (ids : List Int) (row : Nat) : α :=
  let entries := (s.rowEntries row).filter fun e => (s.labels[e.1]?).any fun id => id ∈ ids
  0 + Vector.sum (entries.map Prod.snd)

theorem weightAmong_congr (same : ∀ id, id ∈ ids ↔ id ∈ ids') :
    s.weightAmong ids = s.weightAmong ids' := by
  funext row
  simp only [weightAmong, same]

end Store

namespace View

variable {ws : Array α} {bs : List (List (Edge α))} {i r row : Nat}

/-- The weight of a row among the vertices of a view comes from its neighbours there. -/
theorem Compressed.weightAmong_vertexList (hv : v.Compressed) (row : Nat) :
    v.store.weightAmong v.vertexList row = 0 + Vector.sum ((v.adjacentOf row).map Prod.snd) := by
  rw [map_snd_adjacentOf hv.ascending, insideOf, Store.weightAmong]
  simp only [hv.any_label]

theorem sumOf_edges (hr : v.rows[i]? = some r) :
    sumOf v.edges i = Vector.sum ((v.adjacentOf r).map Prod.snd) := by
  rw [sumOf, Vector.sum, ← weights_filter_edges hr, List.foldl_map]

/-- The batches are summed as if all edges came at once. -/
theorem foldl_sumOf_batches (neutral : ZeroNeutral α) (h : v.batches none v.workers = .ok bs) :
    bs.foldl (fun s b => s + sumOf b i) 0 = 0 + sumOf v.edges i := by
  have size : 0 < orDefault none defaultChunk := by decide
  rw [← flatten_batches size h]
  have apart : bs.Pairwise Apart := by
    rw [batches] at h
    split at h
    · cases h
    · cases h
      exact (v.apart_chunks size).filter _
  by_cases none : bs = []
  · rw [none]
    exact neutral.zero.symm
  · exact foldl_sumOf_of_apart neutral apart none

/-- The weights of the vertices of a view, if they are found at all. -/
theorem weights_of_neutral (neutral : ZeroNeutral α) (hv : v.Compressed)
    (h : v.weights = .ok ws) : ws = v.rows.map (v.store.weightAmong v.vertexList) := by
  refine weights_eq_map h fun bs hb i r hr => ?_
  rw [foldl_sumOf_batches neutral hb, sumOf_edges hr, hv.weightAmong_vertexList]

end View

end GraphClustering
