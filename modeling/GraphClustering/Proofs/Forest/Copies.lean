import GraphClustering.Proofs.Forest.Ancestry

/-!
# Positions in the walk, and copies of a tree

The walk meets a cluster and its descendants one after the other, and the children of a
cluster in their order.  A copy of a tree has the same clusters under other names: the same
children in the same order, and the same remainders.  The walks of a tree and of its copy
are then the same but for the names (`Copies.walk`).
-/

namespace GraphClustering.Forest

variable {f g : Forest} {c d e p r : ClusterId}

/-! ## Positions -/

section Positions

variable {l s : List ClusterId}

theorem map_idxOf (nodup : l.Nodup) : l.map l.idxOf = List.range l.length := by
  refine List.ext_getElem (by simp) fun i h _ => ?_
  rw [List.getElem_map, List.getElem_range]
  exact nodup.idxOf_getElem i _

/-- The members of a sublist have ascending positions. -/
theorem ascending_idxOf (nodup : l.Nodup) (sub : s.Sublist l) :
    (s.map l.idxOf).Pairwise (· < ·) := by
  have places := sub.map l.idxOf
  rw [map_idxOf nodup] at places
  exact List.pairwise_lt_range.sublist places

/-- The members of a part have consecutive positions. -/
theorem consecutive_idxOf (nodup : l.Nodup) (part : d :: s <:+: l) :
    (d :: s).map l.idxOf = List.range' (l.idxOf d) (s.length + 1) := by
  obtain ⟨before, after, rfl⟩ := part
  have place : ∀ x ∈ d :: s, (before ++ d :: s ++ after).idxOf x =
      before.length + (d :: s).idxOf x := by
    intro x hx
    have new : x ∉ before := fun old =>
      List.disjoint_of_nodup_append nodup.of_append_left old hx
    rw [List.append_assoc, List.idxOf_append_of_notMem new, List.idxOf_append_of_mem hx]
  rw [List.map_congr_left place, place d List.mem_cons_self, List.idxOf_cons_self,
    List.range'_eq_map_range, Nat.add_zero, ← List.length_cons (a := d),
    ← map_idxOf nodup.of_append_left.of_append_right, List.map_map]
  rfl

end Positions

/-! ## Parts of the walk -/

theorem walk_isInfix (hf : f.WellFormed) (hc : c < f.size) (hd : d ∈ f.walk c) :
    f.walk d <:+: f.walk c := by
  revert hd
  refine hf.induction_up (P := fun c => d ∈ f.walk c → f.walk d <:+: f.walk c) ?_ hc
  intro c hc ih hd
  rw [walk_eq hf hc] at hd ⊢
  rcases List.mem_cons.mp hd with rfl | hd
  · rw [walk_eq hf hc]
  · obtain ⟨e, he, hd⟩ := List.mem_flatMap.mp hd
    calc f.walk d
      _ <:+: f.walk e := ih e he hd
      _ <:+: (f.children c).flatMap f.walk := List.infix_flatMap_of_mem he f.walk
      _ <:+: c :: (f.children c).flatMap f.walk := (List.suffix_cons _ _).isInfix

theorem children_sublist_walk (hf : f.WellFormed) (hc : c < f.size) :
    (f.children c).Sublist (f.walk c) := by
  rw [walk_eq hf hc]
  apply List.Sublist.cons
  calc f.children c
    _ = (f.children c).flatMap fun d => [d] := (List.flatMap_singleton' _).symm
    List.Sublist _ ((f.children c).flatMap f.walk) := by
        apply List.Sublist.flatMap_right
        intro d hd
        exact List.singleton_sublist.mpr (mem_walk_self hf (hf.child_lt_size hd))

theorem child_mem_walk (hf : f.WellFormed) (hc : c < f.size) (hp : p ∈ f.walk c)
    (hd : d ∈ f.children p) : d ∈ f.walk c := by
  have below := children_sublist_walk hf (lt_size_of_mem_walk hf hc hp)
  exact (walk_isInfix hf hc hp).subset (below.subset hd)

/-- Below the top of a walk every cluster has its parent in the walk. -/
theorem parent_mem_walk (hf : f.WellFormed) (hc : c < f.size) (hd : d ∈ f.walk c)
    (ne : d ≠ c) : ∃ p ∈ f.walk c, f.parent d = some p := by
  rw [mem_walk_iff hf hc, List.mem_cons, or_iff_right (Ne.symm ne)] at hd
  cases hp : f.parent d with
  | none => rw [ancestors_of_root hp] at hd; cases hd
  | some p =>
      rw [ancestors_of_parent hf hp] at hd
      exact ⟨p, (mem_walk_iff hf hc).mpr hd, rfl⟩

theorem depth_le_of_mem_walk (hf : f.WellFormed) (hc : c < f.size) (hd : d ∈ f.walk c) :
    f.depth c ≤ f.depth d := by
  rcases List.mem_cons.mp ((mem_walk_iff hf hc).mp hd) with rfl | above
  · exact le_rfl
  · exact (depth_lt_of_mem_ancestors hf above).le

/-- No cluster of a walk has its top among the children. -/
theorem top_notMem_children (hf : f.WellFormed) (hc : c < f.size) (hp : p ∈ f.walk c) :
    c ∉ f.children p := by
  intro hcp
  have deeper := depth_of_parent hf ((hf.mem_children_iff c p).mp hcp)
  have := depth_le_of_mem_walk hf hc hp
  omega

/-- Induction over a walk from its top down. -/
theorem walk_induction (hf : f.WellFormed) (hc : c < f.size) {P : ClusterId → Prop} (top : P c)
    (child : ∀ p ∈ f.walk c, ∀ d ∈ f.children p, P p → P d) (hd : d ∈ f.walk c) : P d := by
  induction d using hf.induction_down with
  | step d ih =>
      by_cases ne : d = c
      · exact ne ▸ top
      · obtain ⟨p, hp, parent⟩ := parent_mem_walk hf hc hd ne
        exact child p hp d ((hf.mem_children_iff d p).mpr parent) (ih p parent hp)

/-- A cluster and its descendants have consecutive positions. -/
theorem map_idxOf_walk (hf : f.WellFormed) (hc : c < f.size) (hd : d ∈ f.walk c) :
    (f.walk d).map (f.walk c).idxOf =
      List.range' ((f.walk c).idxOf d) (f.walk d).length := by
  have part := walk_isInfix hf hc hd
  rw [walk_eq hf (lt_size_of_mem_walk hf hc hd)] at part ⊢
  exact consecutive_idxOf (nodup_walk hf hc) part

theorem ascending_children (hf : f.WellFormed) (hc : c < f.size) (hd : d ∈ f.walk c) :
    ((f.children d).map (f.walk c).idxOf).Pairwise (· < ·) :=
  ascending_idxOf (nodup_walk hf hc) <|
    (children_sublist_walk hf (lt_size_of_mem_walk hf hc hd)).trans
      (walk_isInfix hf hc hd).sublist

/-! ## Copies -/

/-- A tree that is another one under other names. -/
structure Copies (f : Forest) (c : ClusterId) (g : Forest) (r : ClusterId)
    (name : ClusterId → ClusterId) : Prop where
  top : name c = r
  injective : ∀ d ∈ f.walk c, ∀ e ∈ f.walk c, name d = name e → d = e
  children : ∀ d ∈ f.walk c, g.children (name d) = (f.children d).map name
  remainder : ∀ d ∈ f.walk c, g.remainder (name d) = f.remainder d

namespace Copies

variable {name : ClusterId → ClusterId}

section

variable (copies : Copies f c g r name) (hf : f.WellFormed) (hg : g.WellFormed)
  (hc : c < f.size) (hr : r < g.size)

include copies hf hg hc hr

theorem lt_size (hd : d ∈ f.walk c) : name d < g.size := by
  refine walk_induction hf hc (P := fun d => name d < g.size) ?_ ?_ hd
  · rw [copies.top]; exact hr
  · intro p hp d hd _
    refine hg.child_lt_size (p := name p) ?_
    rw [copies.children p hp]
    exact List.mem_map_of_mem hd

omit hr in
theorem exists_parent (hd : d ∈ f.walk c) (ne : d ≠ c) : ∃ p ∈ f.walk c,
    f.parent d = some p ∧ g.parent (name d) = some (name p) := by
  obtain ⟨p, hp, parent⟩ := parent_mem_walk hf hc hd ne
  refine ⟨p, hp, parent, ?_⟩
  rw [← hg.mem_children_iff, copies.children p hp]
  exact List.mem_map_of_mem ((hf.mem_children_iff d p).mpr parent)

theorem walk (hd : d ∈ f.walk c) : g.walk (name d) = (f.walk d).map name := by
  have hsize := lt_size_of_mem_walk hf hc hd
  revert hd
  refine hf.induction_up (P := fun d => d ∈ f.walk c → g.walk (name d) = (f.walk d).map name)
    ?_ hsize
  intro d hsize ih hd
  rw [walk_eq hg (copies.lt_size hf hg hc hr hd), walk_eq hf hsize, copies.children d hd,
    List.map_cons, List.flatMap_map, List.map_flatMap]
  exact congrArg (name d :: ·) (List.flatMap_congr fun e he =>
    ih e he (child_mem_walk hf hc hd he))

theorem walk_top : g.walk r = (f.walk c).map name := by
  rw [← copies.walk hf hg hc hr (mem_walk_self hf hc), copies.top]

theorem aggregate : g.aggregate r = f.aggregate c := by
  rw [Forest.aggregate, copies.walk_top hf hg hc hr, List.flatMap_map]
  exact List.flatMap_congr copies.remainder

omit hr in
/-- Below the tops the depths grow alike. -/
theorem depth (hd : d ∈ f.walk c) : g.depth (name d) + f.depth c = f.depth d + g.depth r := by
  refine walk_induction hf hc
    (P := fun d => g.depth (name d) + f.depth c = f.depth d + g.depth r) ?_ ?_ hd
  · rw [copies.top, Nat.add_comm]
  · intro p hp d hd ih
    have child : name d ∈ g.children (name p) := by
      rw [copies.children p hp]
      exact List.mem_map_of_mem hd
    rw [depth_of_parent hf ((hf.mem_children_iff d p).mp hd),
      depth_of_parent hg ((hg.mem_children_iff _ _).mp child)]
    omega

end

end Copies

end GraphClustering.Forest
