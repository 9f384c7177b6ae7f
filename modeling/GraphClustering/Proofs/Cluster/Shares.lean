import GraphClustering.Proofs.Cluster.RelativeWeight
import GraphClustering.Proofs.Graph.Derived
import GraphClustering.Proofs.Graph.Multigraph

/-!
# Shares of weight in nested views

Of views within one another, a vertex has no more weight in the inner one, and no greater a
share of what it has in the outermost one.  All shares lie between zero and one, and a vertex
keeps all of its weight just if it has some and loses no neighbour.  The shares are refused
just where the view is no part of the other one, or where that one has too many vertices for
the workers there are (`relativeWeights_nested`).
-/

namespace GraphClustering

namespace View

variable {α : Type} {v u : View α} {ids : List Int}

/-! ## Containment -/

/-- The look-up of ids fails for one of them just if it is no vertex of the view. -/
theorem any_isNone_localIds_iff (ascending : u.vertexList.Pairwise (· < ·)) :
    (u.localIds ids).any Option.isNone = true ↔ ¬ ids ⊆ u.vertexList := by
  have found : ∀ id, Search.position? u.vertices id = none ↔ id ∉ u.vertexList := by
    intro id
    refine ⟨fun none hid => ?_, fun hid => ?_⟩
    · obtain ⟨i, hi⟩ := Search.exists_position? ascending (Array.mem_toList_iff.mp hid)
      cases none.symm.trans hi
    · refine Option.eq_none_iff_forall_ne_some.mpr fun i hi => hid ?_
      obtain ⟨lt, rfl⟩ := Search.position?_eq_some hi
      rw [Array.getD_eq_getD_getElem?, Array.getElem?_eq_getElem lt]
      exact Array.mem_toList_iff.mpr (Array.getElem_mem lt)
  simp only [localIds, List.any_map, List.any_eq_true, Function.comp_apply,
    Option.isNone_iff_eq_none, found, List.subset_def, not_forall, exists_prop]

/-! ## Values of vertices -/

/-- Whether values for the vertices of a view give one to a vertex. -/
def Assigns {β : Type} (v : View α) (xs : Array β) (id : Int) (x : β) : Prop :=
  ∃ i : Nat, v.vertices[i]? = some id ∧ xs[i]? = some x

/-- Whether there is a stored entry between two vertices of a view. -/
def Adjoins (v : View α) (id id' : Int) : Prop :=
  ∃ (i j : Nat) (w : α), v.vertices[i]? = some id ∧ v.vertices[j]? = some id' ∧ v.Stores i j w

theorem getElem?_vertices_of_rows {i r : Nat} (hr : v.rows[i]? = some r) :
    v.vertices[i]? = some (v.store.labels.getD r 0) := by
  rw [vertices, Array.getElem?_map, hr, Option.map_some]

theorem assigns_map {β : Type} {r : Nat} (hr : r ∈ v.rows.toList) (f : Nat → β) :
    v.Assigns (v.rows.map f) (v.store.labels.getD r 0) (f r) := by
  obtain ⟨i, hi⟩ := mem_rows_iff.mp hr
  exact ⟨i, getElem?_vertices_of_rows hi, by rw [Array.getElem?_map, hi, Option.map_some]⟩

theorem PartOf.assigns_map {β : Type} (part : u.PartOf v) {r : Nat} (hr : r ∈ u.rows.toList)
    (f : Nat → β) : v.Assigns (v.rows.map f) (u.store.labels.getD r 0) (f r) := by
  rw [part.store]
  exact View.assigns_map (part.subset hr) f

/-- All neighbours of a vertex are in a part just if the columns of its row are. -/
theorem PartOf.adjoins_subset_iff (part : u.PartOf v) (nodup : v.vertexList.Nodup) {r : Nat}
    (hr : r ∈ v.rows.toList) :
    (∀ id, v.Adjoins (v.store.labels.getD r 0) id → id ∈ u.vertexList) ↔
      ∀ e ∈ v.store.rowEntries r, e.1 ∈ v.rows.toList → e.1 ∈ u.rows.toList := by
  constructor
  · rintro inside ⟨c, w⟩ entry hc
    obtain ⟨i, hi⟩ := mem_rows_iff.mp hr
    obtain ⟨j, hj⟩ := mem_rows_iff.mp hc
    obtain ⟨d, hd, label⟩ := mem_vertexList_iff_row.mp <| inside _
      ⟨i, j, w, getElem?_vertices_of_rows hi, getElem?_vertices_of_rows hj, r, c, hi, hj, entry⟩
    rw [part.store] at label
    rwa [← eq_of_label_eq nodup (part.subset hd) hc label]
  · rintro inside id ⟨i, j, w, hi, hj, r', c, hr', hc, entry⟩
    rw [getElem?_vertices_of_rows hr', Option.some_inj] at hi
    rw [getElem?_vertices_of_rows hc, Option.some_inj] at hj
    obtain rfl := eq_of_label_eq nodup (mem_rows_iff.mpr ⟨i, hr'⟩) hr hi
    refine mem_vertexList_iff_row.mpr ⟨c, inside _ entry (mem_rows_iff.mpr ⟨j, hc⟩), ?_⟩
    rw [part.store, hj]

section Exact

variable [ExactScalar α] {g s t : View α} {a b total : α} {row : Nat}

theorem weights_of_staffed (h : v.Staffed) : v.weights = .ok (v.rows.map v.weightAt) := by
  obtain ⟨ws, found⟩ := exists_weights_of_staffed h
  rw [found, weights_of_ok found]

/-! ## Shares -/

theorem share_nonneg (h : 0 ≤ a) : 0 ≤ share a total := by
  rw [share]
  split
  · rename_i pos
    exact div_nonneg h (less_eq_true_iff.mp pos).le
  · exact le_rfl

theorem share_le_one (h : a ≤ total) : share a total ≤ 1 := by
  rw [share]
  split
  · rename_i pos
    exact (div_le_one (less_eq_true_iff.mp pos)).mpr h
  · exact zero_le_one

theorem share_eq_one_iff : share a total = 1 ↔ 0 < total ∧ a = total := by
  rw [share]
  split
  · rename_i pos
    rw [less_eq_true_iff] at pos
    rw [div_eq_one_iff_eq pos.ne', and_iff_right pos]
  · rename_i weightless
    rw [less_eq_true_iff] at weightless
    exact iff_of_false zero_ne_one fun h => weightless h.1

/-! ## Weights -/

/-- A vertex weighs less in a part that leaves out one of its neighbours. -/
theorem weightAt_lt (part : u.PartOf v) (ascending : v.rows.toList.Pairwise (· < ·))
    (pos : v.PosEntries) {c : Nat} {x : α} (entry : (c, x) ∈ v.store.rowEntries row)
    (inside : c ∈ v.rows.toList) (outside : c ∉ u.rows.toList) :
    u.weightAt row < v.weightAt row := by
  have kept : u.insideOf row = (v.insideOf row).filter fun e => e.1 ∈ u.rows.toList := by
    rw [insideOf, insideOf, part.store, List.filter_filter]
    refine List.filter_congr fun e _ => ?_
    rw [← Bool.decide_and, decide_eq_decide]
    exact (and_iff_left_of_imp fun hu => part.subset hu).symm
  have lost : (c, x) ∈ (v.insideOf row).filter fun e => !decide (e.1 ∈ u.rows.toList) :=
    List.mem_filter.mpr ⟨List.mem_filter.mpr ⟨entry, decide_eq_true inside⟩, by simpa using outside⟩
  have parts := ((List.filter_append_perm (fun e : Nat × α => decide (e.1 ∈ u.rows.toList))
    (v.insideOf row)).map Prod.snd).sum_eq
  rw [weightAt_eq part.ascending, weightAt_eq ascending, kept, ← parts, List.map_append,
    List.sum_append]
  refine lt_add_of_pos_right _ (List.sum_pos _ (fun y hy => ?_) ?_)
  · obtain ⟨e, he, rfl⟩ := List.mem_map.mp hy
    exact pos row e (List.mem_filter.mp (List.mem_filter.mp he).1).1
  · exact List.ne_nil_of_mem (List.mem_map_of_mem lost)

/-- A vertex keeps its weight in a part just if the part holds all its neighbours. -/
theorem weightAt_eq_iff_closed (part : u.PartOf v) (ascending : v.rows.toList.Pairwise (· < ·))
    (pos : v.PosEntries) : u.weightAt row = v.weightAt row ↔
      ∀ e ∈ v.store.rowEntries row, e.1 ∈ v.rows.toList → e.1 ∈ u.rows.toList := by
  refine ⟨fun same e entry inside => ?_, weightAt_eq_of_closed part ascending⟩
  by_contra outside
  exact (weightAt_lt part ascending pos entry inside outside).ne same

/-! ## Relative weights -/

theorem relativeWeights_of_not_subset (ascending : u.vertexList.Pairwise (· < ·))
    (h : ¬ v.vertexList ⊆ u.vertexList) : v.relativeWeights u = .error .notContained := by
  rw [relativeWeights, if_pos ((any_isNone_localIds_iff ascending).mpr h)]

theorem relativeWeights_of_staffed (part : v.PartOf u) (ascending : u.vertexList.Pairwise (· < ·))
    (h : u.Staffed) :
    v.relativeWeights u = .ok (v.rows.map fun r => share (v.weightAt r) (u.weightAt r)) :=
  part.relativeWeights_of_weights ascending (weights_of_staffed (h.of_partOf part))
    (weights_of_staffed h)

theorem relativeWeights_of_not_staffed (part : v.PartOf u)
    (ascending : u.vertexList.Pairwise (· < ·)) (h : ¬ u.Staffed) :
    v.relativeWeights u = .error .negativeWorkers := by
  rw [relativeWeights_eq part ascending, weights_of_not_staffed h]
  by_cases staffed : v.Staffed
  · rw [weights_of_staffed staffed]
    rfl
  · rw [weights_of_not_staffed staffed]
    rfl

/-- In a graph that is built from exact weights, none of them negative, the shares of a view in
another one are refused just if it is not contained in it, or if the other one has more than
one chunk of vertices and a negative number of workers.  Where they are found, for views within
one another, a vertex weighs no more in the inner view than in the middle one, and its share of
the weight in the outer view is no greater; the share lies between zero and one, and is one
just if the vertex has weight in the outer view and all its neighbours there are in the inner
one. -/
theorem relativeWeights_nested {b : Builder α} (built : b.build = .ok g) :
    (∀ v u : View α, v.PartOf g → u.PartOf g →
      ((∃ e, v.relativeWeights u = .error e) ↔ ¬ v.vertexList ⊆ u.vertexList ∨ ¬ u.Staffed) ∧
      (v.relativeWeights u = .error .notContained ↔ ¬ v.vertexList ⊆ u.vertexList)) ∧
    ∀ s t u : View α, s.PartOf g → t.PartOf g → u.PartOf g → s.vertexList ⊆ t.vertexList →
      t.vertexList ⊆ u.vertexList → u.Staffed →
      ∃ ws wt wu ps pt, s.weights = .ok ws ∧ t.weights = .ok wt ∧ u.weights = .ok wu ∧
        s.relativeWeights u = .ok ps ∧ t.relativeWeights u = .ok pt ∧ ps.size = s.order ∧
        ∀ id ∈ s.vertexList, ∃ x y z p q, s.Assigns ws id x ∧ t.Assigns wt id y ∧
          u.Assigns wu id z ∧ s.Assigns ps id p ∧ t.Assigns pt id q ∧ x ≤ y ∧ p ≤ q ∧
          0 ≤ p ∧ p ≤ 1 ∧ (p = 1 ↔ 0 < z ∧ ∀ id', u.Adjoins id id' → id' ∈ s.vertexList) := by
  obtain ⟨lawful, pos⟩ := Builder.build_lawful built
  have nodup := lawful.nodup_vertexList
  have ascend : ∀ {u : View α}, u.PartOf g → u.vertexList.Pairwise (· < ·) := fun hu =>
    (hu.lawful lawful).vertexList_ascend
  refine ⟨fun v u hv hu => ?_, fun s t u hs ht hu hst htu staffed => ?_⟩
  · by_cases inside : v.vertexList ⊆ u.vertexList
    · have part := PartOf.of_vertexList_subset nodup hv hu inside
      by_cases staffed : u.Staffed
      · rw [relativeWeights_of_staffed part (ascend hu) staffed]
        simp [inside, staffed]
      · rw [relativeWeights_of_not_staffed part (ascend hu) staffed]
        simp [inside, staffed]
    · rw [relativeWeights_of_not_subset (ascend hu) inside]
      simp [inside]
  · have inner := PartOf.of_vertexList_subset nodup hs ht hst
    have outer := PartOf.of_vertexList_subset nodup ht hu htu
    have whole := inner.trans outer
    have posIn : u.PosEntries := fun row e he => pos row e (hu.store ▸ he)
    refine ⟨_, _, _, _, _, weights_of_staffed (staffed.of_partOf whole),
      weights_of_staffed (staffed.of_partOf outer), weights_of_staffed staffed,
      relativeWeights_of_staffed whole (ascend hu) staffed,
      relativeWeights_of_staffed outer (ascend hu) staffed, Array.size_map, fun id hid => ?_⟩
    obtain ⟨r, hr, rfl⟩ := mem_vertexList_iff_row.mp hid
    have inU := whole.subset hr
    have less := weightAt_mono inner ht pos.nonneg r
    have within := less.trans (weightAt_mono outer hu pos.nonneg r)
    have kept := whole.adjoins_subset_iff (hu.nodup_vertexList nodup) inU
    rw [← whole.store] at kept
    refine ⟨_, _, _, _, _, assigns_map hr _, inner.assigns_map hr _, whole.assigns_map hr _,
      assigns_map hr _, inner.assigns_map hr _, less, share_le_share less _,
      share_nonneg (weightAt_nonneg hs.ascending ?_ r), share_le_one within, ?_⟩
    · exact fun row e he => pos.nonneg row e (hs.store ▸ he)
    · rw [share_eq_one_iff, weightAt_eq_iff_closed whole hu.ascending posIn, kept, whole.store]

end Exact

/-- The ends of a path have a share of their weight in the path, and the path is not contained
in its ends. -/
theorem relativeWeights_nested_ends : ∃ g ends : View ℚ, pathWithLoop.build = .ok g ∧
    g.induced [9, 4, 9] = .ok ends ∧ g.relativeWeights ends = .error .notContained ∧
    ∃ ws ps, g.weights = .ok ws ∧ ends.relativeWeights g = .ok ps ∧ ps.size = 2 ∧
      ∀ id ∈ [4, 9], ∃ z p, g.Assigns ws id z ∧ ends.Assigns ps id p ∧ 0 ≤ p ∧ p ≤ 1 ∧
        (p = 1 ↔ 0 < z ∧ ∀ id', g.Adjoins id id' → id' ∈ [4, 9]) := by
  let _ := exactRat
  obtain ⟨g, ends, built, hends, two⟩ := exists_ends
  have inside := (Derived.graph.induced hends).partOf_of_build built
  have path := PartOf.refl (compressed_of_build built).ascending
  have alone : g.workers = none := by
    rw [Builder.build_eq_whole built]
    rfl
  have staffed : g.Staffed := .inr (by rw [alone]; decide)
  obtain ⟨refused, nested⟩ := relativeWeights_nested built
  obtain ⟨_, _, ws, ps, _, -, -, weights, found, -, size, shares⟩ :=
    nested ends g g inside path path inside.vertexList_subset (List.Subset.refl _) staffed
  refine ⟨g, ends, built, hends, (refused g ends path inside).2.mpr fun sub => ?_, ws, ps, weights,
    found, ?_, fun id hid => ?_⟩
  · have middle : (7 : Int) ∈ g.vertexList := by
      rw [Builder.build_eq_whole built, mem_vertexList_whole (Builder.build_compressed built)]
      cases built
      exact List.mem_toArray.mpr (mem_sortedDistinct.mpr (by decide))
    have absent : (7 : Int) ∉ [4, 9] := by decide
    exact absent (two ▸ sub middle)
  · rw [size, ← ends.length_vertexList, two]
    rfl
  · obtain ⟨_, _, z, p, _, -, -, weight, share, -, -, -, low, high, one⟩ := shares id (two ▸ hid)
    rw [two] at one
    exact ⟨z, p, weight, share, low, high, one⟩

/-- So many vertices, without an edge. -/
def crowd (n : Nat) : Multigraph ℚ :=
  ⟨[], [], some n⟩

theorem order_crowd (n : Nat) (workers : Option Int) :
    (whole (crowd n).store workers).order = n := by
  have below : (crowd n).ids ++ (crowd n).below =
      (List.range n).map fun (k : Nat) => (k : Int) := by
    rw [Multigraph.below, crowd, Option.elim_some, Int.toNat_natCast]
    rfl
  have labels : sortedDistinct ((crowd n).ids ++ (crowd n).below) =
      (crowd n).ids ++ (crowd n).below := by
    refine List.Pairwise.eq_of_mem_iff (sortedDistinct_ascending _) ?_ fun id => mem_sortedDistinct
    rw [below]
    exact List.pairwise_map.mpr (List.pairwise_lt_range.imp Int.ofNat_lt.mpr)
  rw [order, whole, Array.size_range, Multigraph.store_eq, Store.order_ofEntries,
    Multigraph.labels, List.size_toArray, labels, below, List.length_map, List.length_range]

/-- With a negative number of workers, the shares of more vertices than a chunk holds are refused,
also in the view itself. -/
theorem relativeWeights_crowd : ∃ g, ((crowd 4097).builder (some (-1))).build = .ok g ∧
    g.PartOf g ∧ g.vertexList ⊆ g.vertexList ∧ g.relativeWeights g = .error .negativeWorkers := by
  let _ := exactRat
  have fits : (crowd 4097).Fits := ⟨by decide, by rintro b ⟨⟩; decide⟩
  have admissible : (crowd 4097).Admissible := ⟨by decide, by decide, by decide⟩
  have built := ((Multigraph.cases_of_build fits (some (-1))).resolve_right
    fun refused => refused.1 admissible).2
  have many : ¬ (whole (crowd 4097).store (some (-1))).Staffed := by
    rw [Staffed, order_crowd]
    decide
  have compressed := compressed_of_build built
  exact ⟨_, built, PartOf.refl compressed.ascending, List.Subset.refl _,
    relativeWeights_of_not_staffed (PartOf.refl compressed.ascending) compressed.vertexList_ascend
      many⟩

end View

end GraphClustering
