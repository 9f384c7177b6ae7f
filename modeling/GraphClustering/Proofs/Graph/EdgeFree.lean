import GraphClustering.Proofs.Graph.Linked
import GraphClustering.Proofs.Graph.Weights

/-!
# Views without edges

In a view whose rows have no entries every vertex is a component of its own
(`order_of_mem_components`), and all weights are zero (`weights_eq`).
-/

namespace GraphClustering

namespace View

variable {α : Type} {u v : View α} {i : Nat}

/-- Whether no row of a view has an entry. -/
def EdgeFree (v : View α) : Prop :=
  ∀ r ∈ v.rows.toList, v.store.degree r = 0

namespace EdgeFree

theorem of_partOf (free : v.EdgeFree) (hu : u.PartOf v) : u.EdgeFree := fun r hr => by
  rw [hu.store]
  exact free r (hu.subset hr)

theorem neighbourIds_eq_nil (free : v.EdgeFree) (i : Nat) : v.neighbourIds i = [] := by
  rw [neighbourIds]
  split
  · rename_i r hr
    rw [neighboursOf, if_pos (free r (mem_rows_iff.mpr ⟨i, hr⟩))]
    rfl
  · rfl

theorem edgesOf_eq_nil (free : v.EdgeFree) (i : Nat) (source : Int) : v.edgesOf i source = [] := by
  rw [edgesOf]
  split
  · rename_i r hr
    rw [adjacentOf, Store.rowEntries, free r (mem_rows_iff.mpr ⟨i, hr⟩)]
    rfl
  · rfl

/-- Each vertex is a component. -/
theorem order_of_mem_components (free : v.EdgeFree) (hu : u ∈ v.components) : u.order = 1 := by
  have pos := order_pos_of_mem_components hu
  obtain ⟨L, hL, rfl⟩ := List.mem_map.mp hu
  obtain ⟨i, visited, rfl⟩ := exists_search_of_mem_componentIds hL
  have alone : (v.grow (v.order + 1) [i] visited [i]).2 = [i] := by
    have fresh : v.fresh visited i = [] := by rw [fresh, free.neighbourIds_eq_nil, List.filter_nil]
    rw [grow_cons, fresh]
    cases v.order <;> rfl
  rw [alone, List.reverse_singleton] at pos ⊢
  have few : (v.restrict [i]).rows.toList.Subperm [v.rows.getD i 0] := by
    refine (v.partOf_restrict [i]).nodup_rows.subperm fun r hr => ?_
    obtain ⟨j, hj, row⟩ := mem_rows_restrict.mp hr
    rw [List.mem_singleton.mp hj] at row
    rw [Array.getD_eq_getD_getElem?, row, Option.getD_some]
    exact List.mem_singleton_self r
  have le := few.length_le
  rw [Array.length_toList, List.length_singleton] at le
  exact le_antisymm le pos

/-- No vertex has any weight. -/
theorem weights_eq [Scalar α] (free : v.EdgeFree) {ws : Array α} (h : v.weights = .ok ws) :
    ws = v.rows.map fun _ => 0 := by
  have none : ∀ c ∈ v.chunks (orDefault none defaultChunk), c = [] := by
    intro c hc
    obtain ⟨bounds, -, rfl⟩ := List.mem_map.mp hc
    exact List.flatMap_eq_nil_iff.mpr fun i _ => free.edgesOf_eq_nil i i
  rw [weights, batches] at h
  split at h
  · cases h
  · rw [List.filter_eq_nil_iff.mpr fun c hc => by simp [none c hc]] at h
    cases h
    exact Array.map_const'.symm

end EdgeFree

end View

end GraphClustering
