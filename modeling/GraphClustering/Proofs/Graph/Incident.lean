import GraphClustering.Proofs.Graph.Submatrix

/-!
# The edges of one vertex

The neighbours of a vertex can be found by looking up the entries of its row in the view, or
by looking up the vertices of the view in its row, and a traversal of a slice lists them
under its row.  In a graph that is built, all of these list the same neighbours and weights
in the same ascending order, and just these are handed on (`neighbours_agree`).
-/

namespace GraphClustering.View

variable {α : Type} {v : View α} {i row : Nat}

/-- The edges from a vertex to its neighbours. -/
def edgesTo (i : Nat) (ns : List (Nat × α)) : List (Edge α) :=
  ns.map fun e => ⟨i, e.1, e.2⟩

theorem rowAt_eq (hr : v.rows[i]? = some row) : v.rowAt i = .ok row := by
  have inside : i < v.order := (Array.getElem?_eq_some_iff.mp hr).1
  have value : v.rows.getD i 0 = row := by
    rw [Array.getD_eq_getD_getElem?, hr, Option.getD_some]
  rw [rowAt, Position.resolve, Position.resolve?_ofNat inside]
  exact congrArg Except.ok value

theorem edgesOf_eq (hr : v.rows[i]? = some row) : v.edgesOf i i = edgesTo i (v.adjacentOf row) := by
  rw [edgesOf, hr]
  rfl

theorem mem_adjacentOf_iff_stores (ascending : v.rows.toList.Pairwise (· < ·))
    (hr : v.rows[i]? = some row) {j : Nat} {w : α} :
    (j, w) ∈ v.adjacentOf row ↔ v.Stores i j w := by
  rw [mem_adjacentOf ascending, Stores]
  constructor
  · rintro ⟨c, hc, entry⟩
    exact ⟨row, c, hr, hc, entry⟩
  · rintro ⟨r, c, hr', hc, entry⟩
    cases hr.symm.trans hr'
    exact ⟨c, hc, entry⟩

/-- The edges of a vertex are those of its source in any slice around it. -/
theorem filter_source (v : View α) {start stop : Nat} (first : start ≤ i) (last : i < stop) :
    (v.edgesBetween start stop).filter (fun e => e.source = (i : Int)) = v.edgesOf i i := by
  rw [← v.filter_edgesBetween first last]
  refine List.filter_congr fun e he => decide_eq_decide.mpr ?_
  obtain ⟨k, -, he⟩ := List.mem_flatMap.mp he
  rw [source_of_mem_edgesOf he]
  omega

theorem edgesBetween_succ (v : View α) (i : Nat) : v.edgesBetween i (i + 1) = v.edgesOf i i := by
  rw [edgesBetween, Nat.add_sub_cancel_left, List.range'_one, List.flatMap_singleton]

/-- A vertex without neighbours is handed on to nobody, and all neighbours together. -/
theorem traverse_eq {ns : List (Nat × α)} (found : v.neighbours i = .ok ns) :
    ∃ calls, v.traverse i = .ok calls ∧ calls.flatten = edgesTo i ns ∧ calls.length ≤ 1 ∧
      [] ∉ calls := by
  cases ns with
  | nil => exact ⟨[], by rw [traverse, found]; rfl, rfl, Nat.zero_le 1, List.not_mem_nil⟩
  | cons e ns =>
      refine ⟨[edgesTo i (e :: ns)], by rw [traverse, found]; rfl, List.append_nil _, le_rfl, ?_⟩
      exact List.mem_singleton.not.mpr nofun

/-- In every view of a graph that is built, looking up the entries of the row of a vertex and
looking up the vertices of the view come to the same: the stored weights of the row inside the
view, by ascending neighbours.  The neighbours are these whichever way is taken, the traversal of
any slice around the vertex lists them under the vertex, and they are handed on in a single call,
or in none. -/
theorem neighbours_agree [Scalar α] {b : Builder α} {g u : View α} (built : b.build = .ok g)
    (same : u.store = g.store) (ascending : u.rows.toList.Pairwise (· < ·)) (hi : i < u.order) :
    ∃ ns : List (Nat × α),
      (u.adjacent i = .ok ns ∧ u.probed i = .ok ns ∧ u.neighbours i = .ok ns) ∧
      (ns.Pairwise fun e e' => e.1 < e'.1) ∧ (∀ j w, (j, w) ∈ ns ↔ u.Stores i j w) ∧
      u.chunkEdges i (i + 1) = .ok (edgesTo i ns) ∧
      (∀ start stop : Nat, start ≤ i → i < stop → stop ≤ u.order →
        ∃ es, u.chunkEdges start stop = .ok es ∧
          es.filter (fun e => e.source = (i : Int)) = edgesTo i ns) ∧
      ∃ calls, u.traverse i = .ok calls ∧ calls.flatten = edgesTo i ns ∧ calls.length ≤ 1 ∧
        [] ∉ calls := by
  have compressed : u.store.Compressed := same ▸ Builder.build_compressed built
  obtain ⟨row, hr⟩ : ∃ row, u.rows[i]? = some row := ⟨_, Array.getElem?_eq_getElem hi⟩
  have position := rowAt_eq hr
  have adjacent : u.adjacent i = .ok (u.adjacentOf row) := by
    rw [View.adjacent, position]
    rfl
  have probed : u.probed i = .ok (u.adjacentOf row) := by
    rw [View.probed, position, ← probedOf_eq_adjacentOf compressed ascending]
    rfl
  have neighbours : u.neighbours i = .ok (u.adjacentOf row) := by
    rw [View.neighbours, if_neg (by omega), position,
      ← neighboursOf_eq_adjacentOf compressed ascending]
    rfl
  refine ⟨u.adjacentOf row, ⟨adjacent, probed, neighbours⟩,
    adjacentOf_ascend compressed ascending row,
    fun j w => mem_adjacentOf_iff_stores ascending hr, ?_, ?_, traverse_eq neighbours⟩
  · have slice := u.chunkEdges_eq (Nat.le_add_right i 1) hi
    rwa [edgesBetween_succ, edgesOf_eq hr] at slice
  · intro start stop first last inside
    refine ⟨_, u.chunkEdges_eq (first.trans last.le) inside, ?_⟩
    rw [u.filter_source first last, edgesOf_eq hr]

/-- The last vertex of the path, with its loop, in a view without the first one. -/
theorem neighbours_agree_lastTwo : ∃ g ns, pathWithLoop.build = .ok g ∧
    (lastTwo g.store).adjacent 1 = .ok ns ∧ (lastTwo g.store).probed 1 = .ok ns ∧
      (lastTwo g.store).neighbours 1 = .ok ns ∧
        (lastTwo g.store).chunkEdges 1 2 = .ok (edgesTo 1 ns) ∧
          ∃ calls, (lastTwo g.store).traverse 1 = .ok calls ∧ calls.flatten = edgesTo 1 ns := by
  obtain ⟨g, built⟩ : ∃ g, pathWithLoop.build = .ok g := ⟨_, rfl⟩
  have ascending : (lastTwo g.store).rows.toList.Pairwise (· < ·) :=
    (by decide : ([1, 2] : List Nat).Pairwise (· < ·))
  have last : 1 < (lastTwo g.store).order := (by decide : 1 < 2)
  obtain ⟨ns, ⟨adjacent, probed, neighbours⟩, -, -, slice, -, calls, delivered, all, -⟩ :=
    neighbours_agree built (u := lastTwo g.store) rfl ascending last
  exact ⟨g, ns, built, adjacent, probed, neighbours, slice, calls, delivered, all⟩

end GraphClustering.View
