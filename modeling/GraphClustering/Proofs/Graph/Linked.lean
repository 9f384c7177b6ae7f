import GraphClustering.Proofs.Graph.Connected

/-!
# Connected views

A view is connected if entries of the store lead from each of its rows to each other
one without leaving it.  A search adds no vertex that it has not come to from an
earlier one (`grow_linked`), so every component is connected
(`connected_of_mem_components`).  This needs neither symmetric nor sorted rows, only
that the rows lie within the arrays of the store.
-/

namespace GraphClustering.View

open Relation

variable {α : Type} {v u : View α} {i j fuel r c : Nat} {frontier members L : List Nat}
variable {visited : Array Bool}

/-- Whether two rows of a view have an entry for each other, stored in either of them. -/
def Linked (v : View α) (r c : Nat) : Prop :=
  r ∈ v.rows.toList ∧ c ∈ v.rows.toList ∧
    ∃ x, (c, x) ∈ v.store.rowEntries r ∨ (r, x) ∈ v.store.rowEntries c

/-- A view that is not empty and whose rows are all linked, through rows of the view. -/
structure Connected (v : View α) : Prop where
  order_pos : 0 < v.order
  linked : ∀ r ∈ v.rows.toList, ∀ c ∈ v.rows.toList, ReflTransGen v.Linked r c

instance (v : View α) : Std.Symm v.Linked :=
  ⟨fun _ _ ⟨hr, hc, x, entry⟩ => ⟨hc, hr, x, entry.symm⟩⟩

/-! ## Neighbours -/

theorem getElem?_of_localOf? (h : v.localOf? r = some i) : v.rows[i]? = some r := by
  obtain ⟨hi, rfl⟩ := Search.position?_eq_some h
  rw [Array.getD_eq_getD_getElem?, Array.getElem?_eq_getElem hi, Option.getD_some]

/-- A neighbour of a vertex has an entry in the row of the vertex. -/
theorem exists_entry_of_mem_neighbourIds
    (within : ∀ row, (v.store.span row).2 ≤ v.store.edges.size) (hj : j ∈ v.neighbourIds i) :
    ∃ r c x, v.rows[i]? = some r ∧ v.rows[j]? = some c ∧ (c, x) ∈ v.store.rowEntries r := by
  rw [neighbourIds] at hj
  split at hj
  · rename_i r hr
    obtain ⟨⟨j', x⟩, neighbour, rfl⟩ := List.mem_map.mp hj
    rw [neighboursOf] at neighbour
    split_ifs at neighbour
    · cases neighbour
    · obtain ⟨⟨c, y⟩, entry, at_c⟩ := List.mem_filterMap.mp neighbour
      obtain ⟨_, found, ⟨⟩⟩ := Option.map_eq_some_iff.mp at_c
      exact ⟨r, c, y, hr, getElem?_of_localOf? found, entry⟩
    · simp only [probedOf, List.mem_filterMap, Option.bind_eq_some_iff,
        Option.map_eq_some_iff] at neighbour
      obtain ⟨_, -, c, hc, k, found, _, weight, ⟨⟩⟩ := neighbour
      obtain ⟨below, rfl⟩ := Search.positionWithin?_eq_some found
      have inside : k < v.store.edges.size := below.trans_le (within r)
      refine ⟨r, _, x, hr, hc, Store.mem_rowEntries.mpr
        ⟨k, Search.le_of_positionWithin? found, below, ?_, weight⟩⟩
      rw [Array.getD_eq_getD_getElem?, Array.getElem?_eq_getElem inside, Option.getD_some]
  · cases hj

/-! ## Searches -/

/-- What a search visits it comes to from its frontier, through vertices that it visits. -/
theorem grow_linked (hj : j ∈ (v.grow fuel frontier visited members).2) :
    j ∈ members ∨ ∃ i ∈ frontier, ReflTransGen
      (fun a b => b ∈ v.neighbourIds a ∧ b ∈ (v.grow fuel frontier visited members).2) i j := by
  induction fuel generalizing frontier visited members with
  | zero => exact .inl hj
  | succ fuel ih =>
      cases frontier with
      | nil => exact .inl hj
      | cons i frontier =>
          rw [grow_cons] at hj ⊢
          obtain ⟨added, result, -⟩ := v.grow_spec fuel (frontier ++ v.fresh visited i)
            ((v.fresh visited i).foldl (fun marks j => marks.setIfInBounds j true) visited)
            ((v.fresh visited i).reverse ++ members)
          have step : ∀ k ∈ v.fresh visited i, k ∈ v.neighbourIds i ∧
              k ∈ added ++ ((v.fresh visited i).reverse ++ members) := fun k hk =>
            ⟨(mem_fresh.mp hk).1, List.mem_append_right _
              (List.mem_append_left _ (List.mem_reverse.mpr hk))⟩
          have earlier := ih hj
          rw [result] at earlier ⊢
          rcases earlier with hj | ⟨k, hk, path⟩
          · rcases List.mem_append.mp hj with hj | hj
            · exact .inr ⟨i, List.mem_cons_self, .single (step j (List.mem_reverse.mp hj))⟩
            · exact .inl hj
          · rcases List.mem_append.mp hk with hk | hk
            · exact .inr ⟨k, List.mem_cons_of_mem _ hk, path⟩
            · exact .inr ⟨i, List.mem_cons_self, path.head (step k hk)⟩

/-- Each component is what a search from one of its vertices visits. -/
theorem exists_search_of_mem_componentIds (hL : L ∈ v.componentIds) :
    ∃ i visited, L = (v.grow (v.order + 1) [i] visited [i]).2.reverse := by
  rw [componentIds, List.mem_reverse] at hL
  have found : ∀ L ∈ ((List.range v.order).foldl v.visit
      ⟨Array.replicate v.order false, []⟩).found,
      ∃ i visited, L = (v.grow (v.order + 1) [i] visited [i]).2.reverse := by
    refine List.foldlRecOn (motive := fun s : Search => ∀ L ∈ s.found,
      ∃ i visited, L = (v.grow (v.order + 1) [i] visited [i]).2.reverse) _ _ (by simp) ?_
    intro s hs i _ L hL
    rw [View.visit] at hL
    split at hL
    · exact hs L hL
    · rcases List.mem_cons.mp hL with rfl | hL
      · exact ⟨i, _, rfl⟩
      · exact hs L hL
  exact found L hL

/-! ## Components -/

section Components

variable (within : ∀ row, (v.store.span row).2 ≤ v.store.edges.size)

include within

theorem connected_of_mem_components (hu : u ∈ v.components) : u.Connected := by
  refine ⟨order_pos_of_mem_components hu, ?_⟩
  obtain ⟨L, hL, rfl⟩ := List.mem_map.mp hu
  obtain ⟨i, visited, rfl⟩ := exists_search_of_mem_componentIds hL
  set visits := (v.grow (v.order + 1) [i] visited [i]).2
  obtain ⟨added, start, -⟩ := v.grow_spec (v.order + 1) [i] visited [i]
  have first : i ∈ visits := by
    rw [show visits = added ++ [i] from start]
    exact List.mem_append_right _ List.mem_cons_self
  -- the steps of a search lead along entries
  have follow : ∀ j, ReflTransGen (fun a b => b ∈ v.neighbourIds a ∧ b ∈ visits) i j →
      j ∈ visits ∧ ∀ r c, v.rows[i]? = some r → v.rows[j]? = some c →
        ReflTransGen (v.restrict visits.reverse).Linked r c := by
    intro j path
    induction path with
    | refl =>
        refine ⟨first, fun r c hr hc => ?_⟩
        rw [Option.some_inj.mp (hr.symm.trans hc)]
    | @tail a b _ step ih =>
        refine ⟨step.2, fun r c hr hc => ?_⟩
        obtain ⟨s, c', x, hs, hc', entry⟩ := exists_entry_of_mem_neighbourIds within step.1
        obtain rfl := Option.some_inj.mp (hc'.symm.trans hc)
        exact (ih.2 r s hr hs).tail ⟨mem_rows_restrict.mpr ⟨a, List.mem_reverse.mpr ih.1, hs⟩,
          mem_rows_restrict.mpr ⟨b, List.mem_reverse.mpr step.2, hc⟩, x, .inl entry⟩
  have path : ∀ j ∈ visits, ReflTransGen (fun a b => b ∈ v.neighbourIds a ∧ b ∈ visits) i j := by
    intro j hj
    rcases grow_linked hj with hj | ⟨k, hk, path⟩
    · rw [List.mem_singleton.mp hj]
    · rwa [List.mem_singleton.mp hk] at path
  have fromStart : ∀ s, v.rows[i]? = some s → ∀ r ∈ (v.restrict visits.reverse).rows.toList,
      ReflTransGen (v.restrict visits.reverse).Linked s r := by
    intro s hs r hr
    obtain ⟨j, hj, row⟩ := mem_rows_restrict.mp hr
    exact (follow j (path j (List.mem_reverse.mp hj))).2 s r hs row
  have inside : i < v.order := ((componentIds_sound v).2.2 _ hL).2 i (List.mem_reverse.mpr first)
  have row : v.rows[i]? = some v.rows[i] := Array.getElem?_eq_getElem inside
  intro r hr c hc
  exact (Std.Symm.symm _ _ (fromStart _ row r hr)).trans (fromStart _ row c hc)

/-- A component with as many vertices as the view is its only one, and the view is connected. -/
theorem connected_of_order_eq (hv : v.vertexList.Nodup) (hu : u ∈ v.components)
    (same : u.order = v.order) : v.components = [u] ∧ v.Connected := by
  have part := partOf_of_mem_components hu
  have connected := connected_of_mem_components within hu
  have nodup : v.rows.toList.Nodup := by
    rw [vertexList_eq_map] at hv
    exact hv.of_map _
  have rows : v.rows.toList ⊆ u.rows.toList := by
    refine ((part.nodup_rows.subperm part.subset).perm_of_length_le ?_).symm.subset
    rw [Array.length_toList, Array.length_toList]
    exact same.ge
  refine ⟨?_, same ▸ connected.order_pos, fun r hr c hc => ?_⟩
  · obtain ⟨before, after, split⟩ := List.append_of_mem hu
    have count := (components_perm hv).length_eq
    have none : ∀ vs ⊆ v.components, (vs.flatMap vertexList).length = 0 → vs = [] := by
      intro vs sub empty
      refine List.eq_nil_iff_forall_not_mem.mpr fun w hw => ?_
      have pos := order_pos_of_mem_components (sub hw)
      rw [List.length_eq_zero_iff, List.flatMap_eq_nil_iff] at empty
      rw [← length_vertexList, empty w hw] at pos
      exact lt_irrefl _ pos
    rw [split, List.flatMap_append, List.flatMap_cons, List.length_append, List.length_append,
      length_vertexList, length_vertexList] at count
    have left := none before (split ▸ List.subset_append_left _ _) (by omega)
    have right := none after (split ▸ List.subset_append_of_subset_right _
      (List.subset_cons_self _ _)) (by omega)
    rw [split, left, right, List.nil_append]
  · refine ReflTransGen.mono (fun a b link => ?_) r c (connected.linked r (rows hr) c (rows hc))
    obtain ⟨ha, hb, entry⟩ := link
    rw [part.store] at entry
    exact ⟨part.subset ha, part.subset hb, entry⟩

end Components

end GraphClustering.View
