import GraphClustering.Proofs.Graph.Neighbours
import GraphClustering.Proofs.Graph.Partition

/-!
# Components are connected and closed

A search leaves the queue only when all neighbours of the visited vertices are
visited (`grow_closed`), and it visits nothing that cannot be reached
(`grow_reaches`).  As neighbours are symmetric, a component holds the neighbours of
its vertices, and each of its vertices can be reached from each other one
(`componentIds_maximal`).
-/

namespace GraphClustering.View

open Relation

variable {α : Type} {v u : View α} {i j fuel : Nat} {frontier members : List Nat}
variable {visited : Array Bool}

/-- Whether one local id is reached from another one along edges of the view. -/
abbrev Reaches (v : View α) : Nat → Nat → Prop :=
  ReflTransGen fun i j => j ∈ v.neighbourIds i

theorem Reaches.symm (h : v.Mirrored) (hij : v.Reaches i j) : v.Reaches j i := by
  induction hij with
  | refl => exact .refl
  | tail _ step ih => exact .head (neighbourIds_symm h step) ih

/-! ## One search -/

/-- Only the vertices of the frontier may have neighbours that were not visited. -/
def ClosedUpTo (v : View α) (frontier : List Nat) (visited : Array Bool) : Prop :=
  ∀ i < v.order, visited.getD i true = true → i ∉ frontier →
    ∀ j ∈ v.neighbourIds i, visited.getD j true = true

/-- The vertices that were not visited yet. -/
def unvisited (v : View α) (visited : Array Bool) : Finset Nat :=
  (Finset.range v.order).filter fun i => visited.getD i true = false

/-- The neighbours that a search puts on its queue. -/
def fresh (v : View α) (visited : Array Bool) (i : Nat) : List Nat :=
  (v.neighbourIds i).filter fun j => !visited.getD j true

theorem mem_fresh : j ∈ v.fresh visited i ↔
    j ∈ v.neighbourIds i ∧ visited.getD j true = false := by
  rw [fresh, List.mem_filter, Bool.not_eq_true']

theorem grow_cons (v : View α) (fuel i : Nat) (frontier : List Nat) (visited : Array Bool)
    (members : List Nat) : v.grow (fuel + 1) (i :: frontier) visited members =
      v.grow fuel (frontier ++ v.fresh visited i)
        ((v.fresh visited i).foldl (fun marks j => marks.setIfInBounds j true) visited)
        ((v.fresh visited i).reverse ++ members) :=
  rfl

theorem closedUpTo_step (h : v.ClosedUpTo (i :: frontier) visited) :
    v.ClosedUpTo (frontier ++ v.fresh visited i)
      ((v.fresh visited i).foldl (fun marks j => marks.setIfInBounds j true) visited) := by
  intro k hk marked hfrontier j hj
  rw [List.mem_append, not_or] at hfrontier
  rw [getD_foldl_setIfInBounds, Bool.or_eq_true, decide_eq_true_iff] at marked ⊢
  have before := marked.resolve_right hfrontier.2
  by_cases hik : k = i
  · cases hj' : visited.getD j true with
    | true => exact .inl rfl
    | false => exact .inr (mem_fresh.mpr ⟨hik ▸ hj, hj'⟩)
  · exact .inl (h k hk before (List.not_mem_cons_of_ne_of_not_mem hik hfrontier.1) j hj)

/-- What enters the queue is no longer unvisited. -/
theorem card_unvisited_step (h : v.Compressed) (visited : Array Bool) (i : Nat) :
    (v.unvisited ((v.fresh visited i).foldl (fun marks j => marks.setIfInBounds j true)
      visited)).card + (v.fresh visited i).length = (v.unvisited visited).card := by
  have nodup : (v.fresh visited i).Nodup := (nodup_neighbourIds h i).filter _
  have among : (v.fresh visited i).toFinset ⊆ v.unvisited visited := by
    intro j hj
    obtain ⟨neighbour, new⟩ := mem_fresh.mp (List.mem_toFinset.mp hj)
    exact Finset.mem_filter.mpr
      ⟨Finset.mem_range.mpr (lt_order_of_mem_neighbourIds h neighbour), new⟩
  have rest : v.unvisited ((v.fresh visited i).foldl (fun marks j => marks.setIfInBounds j true)
      visited) = v.unvisited visited \ (v.fresh visited i).toFinset := by
    ext j
    simp only [unvisited, Finset.mem_filter, Finset.mem_sdiff, List.mem_toFinset,
      getD_foldl_setIfInBounds, Bool.or_eq_false_iff, decide_eq_false_iff_not, and_assoc]
  rw [rest, ← List.toFinset_card_of_nodup nodup, Finset.card_sdiff_add_card_eq_card among]

/-- A search with enough fuel visits all neighbours of what it has visited. -/
theorem grow_closed (h : v.Compressed) (members : List Nat) (closed : v.ClosedUpTo frontier visited)
    (hfuel : frontier.length + (v.unvisited visited).card ≤ fuel) :
    v.ClosedUpTo [] (v.grow fuel frontier visited members).1 := by
  induction fuel generalizing frontier visited members with
  | zero =>
      obtain rfl : frontier = [] := List.length_eq_zero_iff.mp (by omega)
      exact closed
  | succ fuel ih =>
      cases frontier with
      | nil => exact closed
      | cons i frontier =>
          have rest := card_unvisited_step h visited i
          rw [List.length_cons] at hfuel
          rw [grow_cons]
          refine ih _ (closedUpTo_step closed) ?_
          rw [List.length_append]
          omega

/-- A search visits only what is reached from its frontier. -/
theorem grow_reaches (hj : j ∈ (v.grow fuel frontier visited members).2) :
    j ∈ members ∨ ∃ i ∈ frontier, v.Reaches i j := by
  induction fuel generalizing frontier visited members with
  | zero => exact .inl hj
  | succ fuel ih =>
      cases frontier with
      | nil => exact .inl hj
      | cons i frontier =>
          have step : ∀ k ∈ v.fresh visited i, v.Reaches i k := fun k hk =>
            .single (mem_fresh.mp hk).1
          rw [grow_cons] at hj
          rcases ih hj with hj | ⟨k, hk, reach⟩
          · rcases List.mem_append.mp hj with hj | hj
            · exact .inr ⟨i, List.mem_cons_self, step j (List.mem_reverse.mp hj)⟩
            · exact .inl hj
          · rcases List.mem_append.mp hk with hk | hk
            · exact .inr ⟨k, List.mem_cons_of_mem _ hk, reach⟩
            · exact .inr ⟨i, List.mem_cons_self, (step k hk).trans reach⟩

theorem card_unvisited_le (v : View α) (visited : Array Bool) :
    (v.unvisited visited).card ≤ v.order :=
  (Finset.card_filter_le _ _).trans (Finset.card_range _).le

/-- A search from one vertex keeps the visited vertices closed. -/
theorem grow_start_closed (h : v.Compressed) (closed : v.ClosedUpTo [] visited) (i : Nat) :
    v.ClosedUpTo [] (v.grow (v.order + 1) [i] (visited.setIfInBounds i true) [i]).1 := by
  refine grow_closed h [i] ?_ ?_
  · intro k hk marked hki j hj
    rw [List.mem_singleton] at hki
    rw [getD_setIfInBounds, Bool.or_eq_true, decide_eq_true_iff] at marked ⊢
    exact .inl (closed k hk (marked.resolve_right hki) List.not_mem_nil j hj)
  · have := v.card_unvisited_le (visited.setIfInBounds i true)
    rw [List.length_singleton]
    omega

theorem reaches_of_mem_grow_start (hj : j ∈ (v.grow fuel [i] visited [i]).2) :
    v.Reaches i j := by
  rcases grow_reaches hj with hj | ⟨k, hk, reach⟩
  · rw [List.mem_singleton.mp hj]
  · rwa [List.mem_singleton.mp hk] at reach

/-! ## All components -/

/-- The components found hold the neighbours of their vertices and are connected. -/
structure Search.Maximal (v : View α) (s : Search) : Prop where
  closed : ∀ L ∈ s.found, ∀ i ∈ L, ∀ j ∈ v.neighbourIds i, j ∈ L
  connected : ∀ L ∈ s.found, ∀ i ∈ L, ∀ j ∈ L, v.Reaches i j

/-- The visited vertices of a search hold their neighbours. -/
theorem Search.Maximal.closedUpTo {s : Search} (hs : s.Sound v) (hm : s.Maximal v) :
    v.ClosedUpTo [] s.visited := by
  intro i hi marked _ j hj
  obtain ⟨L, hL, hiL⟩ := ((hs.visited_iff i).mp marked).resolve_left (Nat.not_le.mpr hi)
  exact (hs.visited_iff j).mpr (.inr ⟨L, hL, hm.closed L hL i hiL j hj⟩)

theorem Search.Maximal.visit (h : v.Mirrored) {s : Search} (hs : s.Sound v) (hm : s.Maximal v)
    (i : Nat) : (v.visit s i).Maximal v := by
  rw [View.visit]
  split
  · exact hm
  · rename_i hi
    obtain ⟨-, new, marks⟩ := grow_start_spec v (v.order + 1) (Bool.eq_false_iff.mpr hi)
    have before := hm.closedUpTo hs
    have closed := grow_start_closed h.toCompressed before i
    refine ⟨fun L hL => ?_, fun L hL => ?_⟩ <;> rcases List.mem_cons.mp hL with rfl | hL
    · intro j hj k hk
      rw [List.mem_reverse] at hj ⊢
      have back := neighbourIds_symm h hk
      have marked := closed j (lt_order_of_mem_neighbourIds h.toCompressed back)
        (by rw [marks, decide_eq_true hj, Bool.or_true]) List.not_mem_nil k hk
      rw [marks, Bool.or_eq_true, decide_eq_true_iff] at marked
      refine marked.resolve_left fun old => ?_
      -- the neighbours of a vertex of an earlier component were all visited with it
      have inside := lt_order_of_mem_neighbourIds h.toCompressed hk
      have old' := before k inside old List.not_mem_nil j back
      rw [new j hj] at old'
      cases old'
    · exact hm.closed L hL
    · intro j hj k hk
      rw [List.mem_reverse] at hj hk
      exact ((reaches_of_mem_grow_start hj).symm h).trans (reaches_of_mem_grow_start hk)
    · exact hm.connected L hL

theorem Search.Maximal.visitAll (h : v.Mirrored) {s : Search} (hs : s.Sound v) (hm : s.Maximal v)
    (js : List Nat) : (js.foldl v.visit s).Maximal v := by
  induction js generalizing s with
  | nil => exact hm
  | cons i js ih => exact ih (hs.visit i).1 (hm.visit h hs i)

/-- The components of a view hold the neighbours of their vertices and are connected. -/
theorem componentIds_maximal (h : v.Mirrored) : ∀ L ∈ v.componentIds, ∀ i ∈ L,
    (∀ j ∈ v.neighbourIds i, j ∈ L) ∧ ∀ j ∈ L, v.Reaches i j := by
  have none : Search.Maximal v ⟨Array.replicate v.order false, []⟩ := ⟨by simp, by simp⟩
  have maximal := none.visitAll h (sound_start v) (List.range v.order)
  intro L hL i hi
  rw [componentIds, List.mem_reverse] at hL
  exact ⟨maximal.closed L hL i hi, maximal.connected L hL i hi⟩

/-! ## Rows of a component -/

/-- The row of each entry in a row of a component is in the component if it is in the view. -/
theorem closed_of_mem_components (h : v.Mirrored) (hu : u ∈ v.components) {r c : Nat} {x : α}
    (hr : r ∈ u.rows.toList) (entry : (c, x) ∈ v.store.rowEntries r) (hc : c ∈ v.rows.toList) :
    c ∈ u.rows.toList := by
  obtain ⟨L, hL, rfl⟩ := List.mem_map.mp hu
  obtain ⟨i, hi, row⟩ := mem_rows_restrict.mp hr
  obtain ⟨j, col⟩ := mem_rows_iff.mp hc
  have neighbour : j ∈ v.neighbourIds i :=
    (mem_neighbourIds h.toCompressed).mpr ⟨r, c, x, row, col, entry⟩
  exact mem_rows_restrict.mpr ⟨j, (componentIds_maximal h L hL i hi).1 j neighbour, col⟩

/-- A vertex that is not the only one of its component has a neighbour in it. -/
theorem exists_entry_of_mem_components (h : v.Mirrored) (hu : u ∈ v.components)
    (several : 2 ≤ u.order) {r : Nat} (hr : r ∈ u.rows.toList) :
    ∃ c ∈ u.rows.toList, ∃ x, (c, x) ∈ v.store.rowEntries r := by
  obtain ⟨s, hs, hne⟩ : ∃ s ∈ u.rows.toList, s ≠ r := by
    by_contra! only
    have few : u.rows.toList.Subperm [r] := (partOf_of_mem_components hu).nodup_rows.subperm
      fun s hs => List.mem_singleton.mpr (only s hs)
    have le := few.length_le
    rw [Array.length_toList, List.length_singleton] at le
    exact absurd several (Nat.not_le.mpr (Nat.lt_succ_of_le le))
  obtain ⟨L, hL, rfl⟩ := List.mem_map.mp hu
  obtain ⟨i, hi, row⟩ := mem_rows_restrict.mp hr
  obtain ⟨j, hj, row'⟩ := mem_rows_restrict.mp hs
  have reach := (componentIds_maximal h L hL i hi).2 j hj
  rcases reach.cases_head with rfl | ⟨k, neighbour, -⟩
  · rw [row] at row'
    cases row'
    exact absurd rfl hne
  · obtain ⟨r', c, x, row'', col, entry⟩ := (mem_neighbourIds h.toCompressed).mp neighbour
    rw [row] at row''
    cases row''
    exact ⟨c, mem_rows_restrict.mpr
      ⟨k, (componentIds_maximal h L hL i hi).1 k neighbour, col⟩, x, entry⟩

end GraphClustering.View
