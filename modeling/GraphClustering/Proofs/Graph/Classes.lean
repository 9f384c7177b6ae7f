import GraphClustering.Proofs.Graph.Derived
import GraphClustering.Proofs.Graph.Linked

/-!
# Components as classes

The search for components moves a cursor over the vertices and grows a component at each
one that was not visited yet.  Read as a loop of single steps, it comes to an end
(`exists_run`), and what it has found by then are the classes of the vertices that can be
reached from each other along stored entries, by ascending least vertex
(`components_classes`).
-/

namespace GraphClustering.View

open Relation

variable {α : Type} {v u w : View α} {i j k n : Nat} {L : List Nat}

/-! ## The loop -/

/-- The state of the loop: the cursor, the visited vertices, the queue and the members of the
component that is growing, and the components found so far.  Members and components stand
latest first. -/
structure Scan where
  cursor : Nat
  visited : Array Bool
  growing : Option (List Nat × List Nat)
  found : List (List Nat)

namespace Scan

def start (v : View α) : Scan :=
  ⟨0, Array.replicate v.order false, none, []⟩

/-- One step: a component starts at the cursor or the cursor moves on; a vertex leaves the queue
and its fresh neighbours enter it, or the queue is empty and the component is complete. -/
def next? (v : View α) (s : Scan) : Option Scan :=
  match s.growing with
  | none =>
      if v.order ≤ s.cursor then none
      else if s.visited.getD s.cursor true then some { s with cursor := s.cursor + 1 }
      else some { s with
        visited := s.visited.setIfInBounds s.cursor true
        growing := some ([s.cursor], [s.cursor]) }
  | some ([], members) => some { s with growing := none, found := members.reverse :: s.found }
  | some (i :: frontier, members) => some { s with
      visited := (v.fresh s.visited i).foldl (fun marks j => marks.setIfInBounds j true) s.visited
      growing := some (frontier ++ v.fresh s.visited i, (v.fresh s.visited i).reverse ++ members) }

abbrev Run (v : View α) : Scan → Scan → Prop :=
  ReflTransGen fun s t => s.next? v = some t

/-- A component that is growing becomes complete after finitely many steps: no vertex enters the
queue twice. -/
theorem run_grow (h : v.Compressed) (cursor fuel : Nat) (frontier members : List Nat)
    (visited : Array Bool) (found : List (List Nat))
    (enough : frontier.length + (v.unvisited visited).card ≤ fuel) :
    Run v ⟨cursor, visited, some (frontier, members), found⟩
      ⟨cursor, (v.grow fuel frontier visited members).1, none,
        (v.grow fuel frontier visited members).2.reverse :: found⟩ := by
  induction fuel generalizing frontier visited members with
  | zero =>
      obtain rfl : frontier = [] := List.length_eq_zero_iff.mp (by omega)
      exact .single rfl
  | succ fuel ih =>
      cases frontier with
      | nil => exact .single rfl
      | cons i frontier =>
          have rest := card_unvisited_step h visited i
          rw [List.length_cons] at enough
          rw [grow_cons]
          have step : next? v ⟨cursor, visited, some (i :: frontier, members), found⟩ =
              some ⟨cursor,
                (v.fresh visited i).foldl (fun marks j => marks.setIfInBounds j true) visited,
                some (frontier ++ v.fresh visited i, (v.fresh visited i).reverse ++ members),
                found⟩ := rfl
          refine .head step (ih _ _ _ ?_)
          rw [List.length_append]
          omega

/-- Visiting the vertex at the cursor takes finitely many steps. -/
theorem run_visit (h : v.Compressed) (s : Search) (hk : k < v.order)
    (marked : (v.visit s k).visited.getD k true = true) :
    Run v ⟨k, s.visited, none, s.found⟩
      ⟨k + 1, (v.visit s k).visited, none, (v.visit s k).found⟩ := by
  have move : ∀ t : Search, t.visited.getD k true = true →
      next? v ⟨k, t.visited, none, t.found⟩ = some ⟨k + 1, t.visited, none, t.found⟩ := by
    intro t ht
    rw [next?, if_neg (Nat.not_le.mpr hk), if_pos ht]
  rw [View.visit] at marked ⊢
  split
  · rename_i old
    exact .single (move s old)
  · rename_i new
    rw [if_neg new] at marked
    have enough := v.card_unvisited_le (s.visited.setIfInBounds k true)
    have begin : next? v ⟨k, s.visited, none, s.found⟩ =
        some ⟨k, s.visited.setIfInBounds k true, some ([k], [k]), s.found⟩ := by
      rw [next?, if_neg (Nat.not_le.mpr hk), if_neg new]
    refine .head begin ((run_grow h k (v.order + 1) [k] [k] _ s.found ?_).tail (move _ marked))
    rw [List.length_singleton]
    omega

end Scan

/-- The state after visiting the first vertices. -/
def searchUpTo (v : View α) (n : Nat) : Search :=
  (List.range n).foldl v.visit ⟨Array.replicate v.order false, []⟩

theorem searchUpTo_succ (v : View α) (n : Nat) :
    v.searchUpTo (n + 1) = v.visit (v.searchUpTo n) n := by
  rw [searchUpTo, List.range_succ, List.foldl_append]
  rfl

theorem searchUpTo_sound (v : View α) (n : Nat) : (v.searchUpTo n).Sound v ∧
    ∀ i < n, (v.searchUpTo n).visited.getD i true = true := by
  obtain ⟨sound, marked, -⟩ := (sound_start v).visitAll (List.range n)
  exact ⟨sound, fun i hi => marked i (List.mem_range.mpr hi)⟩

/-- The loop ends, and has found the components. -/
theorem exists_run (h : v.Compressed) :
    ∃ s, Scan.Run v (.start v) s ∧ s.next? v = none ∧ s.found.reverse = v.componentIds := by
  have upTo : ∀ n ≤ v.order, Scan.Run v (.start v)
      ⟨n, (v.searchUpTo n).visited, none, (v.searchUpTo n).found⟩ := by
    intro n hn
    induction n with
    | zero => exact .refl
    | succ n ih =>
        refine (ih (Nat.le_of_succ_le hn)).trans ?_
        rw [searchUpTo_succ]
        refine Scan.run_visit h _ hn ?_
        rw [← searchUpTo_succ]
        exact (v.searchUpTo_sound (n + 1)).2 n (Nat.lt_succ_self n)
  exact ⟨_, upTo v.order le_rfl, if_pos le_rfl, rfl⟩

/-! ## The order of the components -/

/-- The components found among the first vertices, each with one of these and the earlier ones
with a vertex below all of the later ones. -/
structure Search.Ascending (s : Search) (n : Nat) : Prop where
  started : ∀ L ∈ s.found, ∃ i ∈ L, i < n
  later : s.found.Pairwise fun L M => ∃ i ∈ M, ∀ j ∈ L, i < j

theorem Search.Ascending.visit {s : Search} (h : s.Ascending n)
    (before : ∀ i < n, s.visited.getD i true = true) : (v.visit s n).Ascending (n + 1) := by
  have started : ∀ L ∈ s.found, ∃ i ∈ L, i < n + 1 := fun L hL =>
    let ⟨i, hi, lt⟩ := h.started L hL
    ⟨i, hi, Nat.lt_succ_of_lt lt⟩
  rw [View.visit]
  split
  · exact ⟨started, h.later⟩
  · rename_i new
    obtain ⟨first, fresh, -⟩ := grow_start_spec v (v.order + 1) (Bool.eq_false_iff.mpr new)
    refine ⟨List.forall_mem_cons.mpr ⟨⟨n, List.mem_reverse.mpr first, Nat.lt_succ_self n⟩, started⟩,
      List.pairwise_cons.mpr ⟨fun M hM => ?_, h.later⟩⟩
    -- the vertices before the cursor were all visited
    obtain ⟨i, hi, lt⟩ := h.started M hM
    refine ⟨i, hi, fun j hj => lt_of_lt_of_le lt (Nat.le_of_not_lt fun below => ?_)⟩
    have unseen := fresh j (List.mem_reverse.mp hj)
    rw [before j below] at unseen
    cases unseen

theorem searchUpTo_ascending (v : View α) (n : Nat) : (v.searchUpTo n).Ascending n := by
  induction n with
  | zero => exact ⟨List.forall_mem_nil _, List.Pairwise.nil⟩
  | succ n ih =>
      rw [searchUpTo_succ]
      exact ih.visit (v.searchUpTo_sound n).2

/-- Each component has a vertex below all vertices of later ones. -/
theorem componentIds_ascending (v : View α) :
    v.componentIds.Pairwise fun L M => ∃ i ∈ L, ∀ j ∈ M, i < j :=
  List.pairwise_reverse.mpr (v.searchUpTo_ascending v.order).later

theorem exists_isLeast (h : u.vertexList.Pairwise (· < ·)) (pos : 0 < u.order) :
    ∃ a, IsLeast {id | id ∈ u.vertexList} a := by
  rw [← length_vertexList] at pos
  obtain ⟨a, rest, split⟩ := List.exists_cons_of_length_pos pos
  rw [split] at h ⊢
  refine ⟨a, List.mem_cons_self, fun id hid => ?_⟩
  rcases List.mem_cons.mp hid with rfl | hid
  · exact le_rfl
  · exact ((List.pairwise_cons.mp h).1 id hid).le

/-- The view of a vertex that precedes others precedes theirs. -/
theorem exists_vertex_lt (h : v.Compressed) {M : List Nat} (hi : i < v.order) (hL : i ∈ L)
    (before : ∀ j ∈ M, i < j) :
    ∃ a ∈ (v.restrict L).vertexList, ∀ b ∈ (v.restrict M).vertexList, a < b := by
  have vertex := getElem?_vertices hi
  refine ⟨_, mem_vertexList_restrict.mpr ⟨i, hL, vertex⟩, fun b hb => ?_⟩
  obtain ⟨j, hj, other⟩ := mem_vertexList_restrict.mp hb
  rw [← Array.getElem?_toList] at vertex other
  obtain ⟨hi', at_i⟩ := List.getElem?_eq_some_iff.mp vertex
  obtain ⟨hj', at_j⟩ := List.getElem?_eq_some_iff.mp other
  have lt := List.pairwise_iff_getElem.mp h.vertexList_ascend i j hi' hj' (before j hj)
  exact at_i ▸ at_j ▸ lt

/-! ## Classes -/

/-- Whether one local id is reached from another one along stored entries between vertices of the
view. -/
def Joined (v : View α) : Nat → Nat → Prop :=
  ReflTransGen fun i j => ∃ x, v.Stores i j x

theorem joined_eq_reaches (h : v.Compressed) : v.Joined = v.Reaches := by
  have step : (fun i j => ∃ x, v.Stores i j x) = fun i j => j ∈ v.neighbourIds i := by
    funext i j
    refine propext (Iff.trans ?_ (mem_neighbourIds h).symm)
    exact ⟨fun ⟨x, r, c, rest⟩ => ⟨r, c, x, rest⟩, fun ⟨r, c, x, rest⟩ => ⟨x, r, c, rest⟩⟩
  rw [Joined, step]

/-- Whether a view has just the vertices that are joined to the vertex at a local id. -/
def IsClassOf (u v : View α) (i : Nat) : Prop :=
  ∀ id, id ∈ u.vertexList ↔ ∃ j, v.vertices[j]? = some id ∧ v.Joined i j

/-- Whether some views are the classes of the joined vertices of a view, by ascending least
vertex. -/
structure AreClasses (v : View α) (parts : List (View α)) : Prop where
  equivalence : Equivalence v.Joined
  store : ∀ u ∈ parts, u.store = v.store
  ascending : ∀ u ∈ parts, u.vertexList.Pairwise (· < ·)
  connected : ∀ u ∈ parts, u.Connected
  isClass : ∀ u ∈ parts, ∃ i < v.order, u.IsClassOf v i
  class_mem : ∀ i < v.order, ∃ u ∈ parts, u.IsClassOf v i
  shared : (parts.flatMap vertexList).Perm v.vertexList
  nodup : (parts.flatMap vertexList).Nodup
  apart : parts.Pairwise fun u w => ∀ r ∈ u.rows.toList, ∀ c ∈ w.rows.toList, ¬ v.Linked r c
  least : parts.Pairwise fun u w => ∃ a b, IsLeast {id | id ∈ u.vertexList} a ∧
    IsLeast {id | id ∈ w.vertexList} b ∧ a < b

theorem Mirrored.joined_equivalence (h : v.Mirrored) : Equivalence v.Joined := by
  rw [joined_eq_reaches h.toCompressed]
  exact ⟨fun i => .refl, Reaches.symm h, ReflTransGen.trans⟩

/-- A component holds what is reached from its vertices. -/
theorem mem_of_reaches (h : v.Mirrored) (hL : L ∈ v.componentIds) (hi : i ∈ L)
    (reach : v.Reaches i j) : j ∈ L := by
  induction reach with
  | refl => exact hi
  | tail _ step ih => exact (componentIds_maximal h L hL _ ih).1 _ step

theorem isClassOf_restrict (h : v.Mirrored) (hL : L ∈ v.componentIds) (hi : i ∈ L) :
    (v.restrict L).IsClassOf v i := by
  intro id
  rw [mem_vertexList_restrict, joined_eq_reaches h.toCompressed]
  refine exists_congr fun j =>
    ⟨fun ⟨hj, vertex⟩ => ⟨vertex, ?_⟩, fun ⟨vertex, reach⟩ => ⟨?_, vertex⟩⟩
  · exact (componentIds_maximal h L hL i hi).2 j hj
  · exact mem_of_reaches h hL hi reach

/-- No entry of the view leads from a component to a disjoint one. -/
theorem not_linked_of_disjoint (h : v.Mirrored) (hu : u ∈ v.components) (hw : w ∈ v.components)
    (disjoint : u.rows.toList.Disjoint w.rows.toList) {r c : Nat} (hr : r ∈ u.rows.toList)
    (hc : c ∈ w.rows.toList) : ¬ v.Linked r c := by
  rintro ⟨inside, inside', x, entry | entry⟩
  · exact disjoint (closed_of_mem_components h hu hr entry inside') hc
  · exact disjoint hr (closed_of_mem_components h hw hc entry inside)

theorem disjoint_rows_restrict (h : v.rows.toList.Nodup) {M : List Nat} (disjoint : L.Disjoint M) :
    (v.restrict L).rows.toList.Disjoint (v.restrict M).rows.toList := by
  intro r hr hr'
  obtain ⟨i, hi, row⟩ := mem_rows_restrict.mp hr
  obtain ⟨j, hj, row'⟩ := mem_rows_restrict.mp hr'
  rw [← Array.getElem?_toList] at row row'
  obtain ⟨hi', at_i⟩ := List.getElem?_eq_some_iff.mp row
  obtain ⟨hj', at_j⟩ := List.getElem?_eq_some_iff.mp row'
  exact disjoint hi ((h.getElem_inj_iff.mp (at_i.trans at_j.symm)) ▸ hj)

theorem Mirrored.components_areClasses (h : v.Mirrored) : v.AreClasses v.components where
  equivalence := h.joined_equivalence
  store u hu := (partOf_of_mem_components hu).store
  ascending u hu := ((partOf_of_mem_components hu).compressed h.toCompressed).vertexList_ascend
  connected u hu := connected_of_mem_components h.store.span_le hu
  isClass u hu := by
    obtain ⟨L, hL, rfl⟩ := List.mem_map.mp hu
    obtain ⟨nonempty, inside⟩ := (componentIds_sound v).2.2 L hL
    obtain ⟨i, hi⟩ := List.exists_mem_of_ne_nil L nonempty
    exact ⟨i, inside i hi, isClassOf_restrict h hL hi⟩
  class_mem i hi := by
    obtain ⟨L, hL, hiL⟩ := (componentIds_sound v).2.1 i hi
    exact ⟨v.restrict L, List.mem_map_of_mem hL, isClassOf_restrict h hL hiL⟩
  shared := components_perm h.nodup_vertexList
  nodup := (components_perm h.nodup_vertexList).nodup_iff.mpr h.nodup_vertexList
  apart := by
    refine List.pairwise_map.mpr ((componentIds_sound v).1.imp_of_mem fun hL hM disjoint => ?_)
    intro r hr c hc
    exact not_linked_of_disjoint h (List.mem_map_of_mem hL) (List.mem_map_of_mem hM)
      (disjoint_rows_restrict (h.ascending.imp ne_of_lt) disjoint) hr hc
  least := by
    refine List.pairwise_map.mpr (v.componentIds_ascending.imp_of_mem ?_)
    rintro L M hL hM ⟨i, hi, before⟩
    have leastOf : ∀ K ∈ v.componentIds, ∃ a, IsLeast {id | id ∈ (v.restrict K).vertexList} a :=
      fun K hK => exists_isLeast ((v.partOf_restrict K).compressed h.toCompressed).vertexList_ascend
        (order_pos_of_mem_components (List.mem_map_of_mem hK))
    obtain ⟨a, ha⟩ := leastOf L hL
    obtain ⟨b, hb⟩ := leastOf M hM
    obtain ⟨c, hc, below⟩ := exists_vertex_lt h.toCompressed
      (((componentIds_sound v).2.2 L hL).2 i hi) hi before
    exact ⟨a, b, ha, hb, (ha.2 hc).trans_lt (below b hb.1)⟩

section Built

variable [Scalar α] [VanishingSums α] {b : Builder α} {g : View α}

/-- The search for the components of a view of a graph that is built comes to an end, and
delivers the classes of the vertices joined by edges of the view. -/
theorem components_classes (built : b.build = .ok g) (same : v.store = g.store)
    (ascending : v.rows.toList.Pairwise (· < ·)) (inside : v.rows.toList ⊆ g.rows.toList) :
    (∃ s, Scan.Run v (.start v) s ∧ s.next? v = none ∧
      v.components = s.found.reverse.map v.restrict) ∧ v.AreClasses v.components := by
  have whole := Builder.build_mirrored built
  have mirrored : v.Mirrored :=
    ⟨⟨same ▸ whole.store, ascending, fun r hr => same ▸ whole.inRange r (inside hr)⟩,
      same ▸ whole.mirrored⟩
  obtain ⟨s, run, done, found⟩ := exists_run mirrored.toCompressed
  exact ⟨⟨s, run, done, by rw [found, components]⟩, mirrored.components_areClasses⟩

end Built

/-- The ends of a path, whose middle is outside the view, are two classes. -/
theorem components_classes_ends : ∃ g ends : View ℚ, pathWithLoop.build = .ok g ∧
    ends.store = g.store ∧ ends.vertexList = [4, 9] ∧
    (∃ s, Scan.Run ends (.start ends) s ∧ s.next? ends = none ∧
      ends.components = s.found.reverse.map ends.restrict) ∧ ends.AreClasses ends.components := by
  obtain ⟨g, ends, built, hends, two⟩ := exists_ends
  have part := (Derived.graph.induced hends).partOf_of_build built
  exact ⟨g, ends, built, part.store, two,
    components_classes built part.store part.ascending part.subset⟩

end GraphClustering.View
