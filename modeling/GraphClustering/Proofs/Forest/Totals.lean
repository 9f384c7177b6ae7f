import GraphClustering.Proofs.Forest.Rewiring

/-!
# Totals over a tree

How often a vertex occurs in the remainders of a tree, and the potential of a
tree, which counts every cluster with its depth and every vertex with the depth
of the cluster that owns it.  Both are sums over the clusters of the tree; for
each operation there is one equation or inequality about either of them.
-/

namespace GraphClustering.Forest

variable {f f' : Forest} {a c d p r : ClusterId} {ids : List Int} {v : Int} {w : Bool}

/-- The clusters of the walk as a set. -/
def tree (f : Forest) (c : ClusterId) : Finset ClusterId :=
  (f.walk c).toFinset

theorem mem_tree : d ∈ f.tree c ↔ d ∈ f.walk c :=
  List.mem_toFinset

theorem sum_map_walk (hf : f.WellFormed) (hc : c < f.size) (g : ClusterId → Nat) :
    ((f.walk c).map g).sum = ∑ d ∈ f.tree c, g d :=
  (List.sum_toFinset g (nodup_walk hf hc)).symm

theorem SameLinks.tree_eq (h : SameLinks f f') (c : ClusterId) : f'.tree c = f.tree c := by
  rw [tree, tree, h.walk_eq]

theorem SameLinks.rooted (h : SameLinks f f') (hf : f.Rooted r) : f'.Rooted r :=
  ⟨h.wellFormed hf.toWellFormed, by rw [h.parent, hf.parentless], by rw [h.size]; exact hf.lt_size⟩

theorem rooted_single : (empty.spawn none).1.Rooted 0 :=
  ⟨wellFormed_single, rfl, Nat.one_pos⟩

namespace Rooted

theorem addToRemainder (hf : f.Rooted r) (c : ClusterId) (ids : List Int) :
    (f.addToRemainder c ids).Rooted r :=
  (SameLinks.addToRemainder f c ids).rooted hf

theorem spawn (hf : f.Rooted r) (hp : p < f.size) : (f.spawn (some p)).1.Rooted r where
  toWellFormed := wellFormed_spawn f p hf.toWellFormed hp
  parentless := by rw [parent_spawn, if_neg (ne_of_lt hf.lt_size), hf.parentless]
  lt_size := by rw [size_spawn]; exact hf.lt_size.trans (Nat.lt_succ_self _)

theorem mem_tree_iff (hf : f.Rooted r) : d ∈ f.tree r ↔ f.root d = r :=
  mem_tree.trans hf.mem_walk_iff

theorem lt_size_of_mem_tree (hf : f.Rooted r) (hd : d ∈ f.tree r) : d < f.size :=
  lt_size_of_mem_walk hf.toWellFormed hf.lt_size (mem_tree.mp hd)

theorem parent_mem_tree (hf : f.Rooted r) (hp : f.parent c = some p) (hc : c ∈ f.tree r) :
    p ∈ f.tree r := by
  rw [hf.mem_tree_iff] at hc ⊢
  rw [← root_of_parent hf.toWellFormed hp, hc]

theorem tree_subset (hf : f.Rooted r) (hc : c ∈ f.tree r) : f.tree c ⊆ f.tree r := by
  intro d hd
  rw [mem_tree, Forest.mem_walk_iff hf.toWellFormed (hf.lt_size_of_mem_tree hc)] at hd
  rw [hf.mem_tree_iff] at hc ⊢
  rcases List.mem_cons.mp hd with rfl | h
  · exact hc
  · rw [root_of_mem_ancestors hf.toWellFormed h, hc]

theorem ne_of_parent (hf : f.Rooted r) (hp : f.parent c = some p) : r ≠ c := by
  rintro rfl
  rw [hf.parentless] at hp
  cases hp

theorem absorb (hf : f.Rooted r) (hp : f.parent c = some p) (w : Bool) :
    (f.absorb p c w).Rooted r where
  toWellFormed := wellFormed_absorb hf.toWellFormed hp w
  parentless := by
    rw [parent_absorb hf.toWellFormed hp, if_neg (hf.ne_of_parent hp), hf.parentless,
      if_neg (by simp)]
  lt_size := by rw [size_absorb]; exact hf.lt_size

theorem reparent (hf : f.Rooted r) (hp : f.parent c = some p) (ha : a ∈ f.ancestors c) :
    (f.reparent c a).Rooted r where
  toWellFormed := wellFormed_reparent hf.toWellFormed hp ha
  parentless := by
    rw [parent_reparent _ _ _ _ (lt_size_of_parent hp), if_neg (hf.ne_of_parent hp), hf.parentless]
  lt_size := by rw [size_reparent]; exact hf.lt_size

theorem tree_absorb (hf : f.Rooted r) (hp : f.parent c = some p) (w : Bool) :
    (f.absorb p c w).tree r = (f.tree r).erase c := by
  ext d
  rw [(hf.absorb hp w).mem_tree_iff, Finset.mem_erase, hf.mem_tree_iff]
  by_cases hd : d = c
  · rw [hd, root_absorb_self hf.toWellFormed hp]
    exact ⟨fun h => absurd h.symm (hf.ne_of_parent hp), fun h => absurd rfl h.1⟩
  · rw [root_absorb hf.toWellFormed hp w hd]
    exact (and_iff_right hd).symm

theorem tree_reparent (hf : f.Rooted r) (hp : f.parent c = some p) (ha : a ∈ f.ancestors c) :
    (f.reparent c a).tree r = f.tree r := by
  ext d
  rw [(hf.reparent hp ha).mem_tree_iff, hf.mem_tree_iff, root_reparent hf.toWellFormed hp ha]

end Rooted

/-! ## Occurrences -/

theorem count_aggregate (hf : f.WellFormed) (hc : c < f.size) (v : Int) :
    (f.aggregate c).count v = ∑ d ∈ f.tree c, (f.remainder d).count v := by
  rw [aggregate, List.count_flatMap, ← sum_map_walk hf hc]
  rfl

theorem Rooted.count_aggregate (hf : f.Rooted r) (v : Int) :
    (f.aggregate r).count v = ∑ d ∈ f.tree r, (f.remainder d).count v :=
  Forest.count_aggregate hf.toWellFormed hf.lt_size v

namespace Rooted

/-- The vertices of a cluster and its descendants are among those of the tree. -/
theorem count_aggregate_le (hf : f.Rooted r) (hc : c ∈ f.tree r) (v : Int) :
    (f.aggregate c).count v ≤ (f.aggregate r).count v := by
  rw [hf.count_aggregate, Forest.count_aggregate hf.toWellFormed (hf.lt_size_of_mem_tree hc)]
  exact Finset.sum_le_sum_of_subset (hf.tree_subset hc)

theorem aggregate_subset (hf : f.Rooted r) (hc : c ∈ f.tree r) :
    f.aggregate c ⊆ f.aggregate r := by
  intro v hv
  rw [← List.count_pos_iff] at hv ⊢
  exact hv.trans_le (hf.count_aggregate_le hc v)

theorem count_addToRemainder (hf : f.Rooted r) (hp : p ∈ f.tree r) (ids : List Int) (v : Int) :
    ((f.addToRemainder p ids).aggregate r).count v = (f.aggregate r).count v + ids.count v := by
  have same := SameLinks.addToRemainder f p ids
  have term : ∀ d, ((f.addToRemainder p ids).remainder d).count v =
      (f.remainder d).count v + if d = p then ids.count v else 0 := by
    intro d
    rw [remainder_addToRemainder _ _ _ _ (hf.lt_size_of_mem_tree hp)]
    by_cases hd : d = p
    · rw [if_pos hd, if_pos hd, List.count_append]
    · rw [if_neg hd, if_neg hd, Nat.add_zero]
  rw [(same.rooted hf).count_aggregate, same.tree_eq, hf.count_aggregate]
  simp only [term, Finset.sum_add_distrib, Finset.sum_ite_eq', if_pos hp]

/-- Vertices taken from a cluster and its descendants are gone there and only there. -/
theorem count_removeFromAll (hf : f.Rooted r) (hc : c ∈ f.tree r) (ids : List Int) (v : Int) :
    ((f.removeFromAll (f.walk c) ids).aggregate r).count v +
        (if v ∈ ids then (f.aggregate c).count v else 0) = (f.aggregate r).count v := by
  have same := SameLinks.removeFromAll f (f.walk c) ids
  have hlt := hf.lt_size_of_mem_tree hc
  have term : ∀ d, ((f.removeFromAll (f.walk c) ids).remainder d).count v +
      (if d ∈ f.tree c then if v ∈ ids then (f.remainder d).count v else 0 else 0) =
        (f.remainder d).count v := by
    intro d
    rw [remainder_removeFromAll (fun e he => lt_size_of_mem_walk hf.toWellFormed hlt he)]
    by_cases hd : d ∈ f.walk c
    · rw [if_pos hd, if_pos (mem_tree.mpr hd)]
      by_cases hv : v ∈ ids
      · rw [if_pos hv, List.count_eq_zero.mpr (by simp [hv]), Nat.zero_add]
      · rw [if_neg hv, List.count_filter (by simpa using hv), Nat.add_zero]
    · rw [if_neg hd, if_neg fun h => hd (mem_tree.mp h), Nat.add_zero]
  have below : (∑ d ∈ f.tree r,
      if d ∈ f.tree c then if v ∈ ids then (f.remainder d).count v else 0 else 0) =
        if v ∈ ids then (f.aggregate c).count v else 0 := by
    rw [Finset.sum_ite_mem, Finset.inter_eq_right.mpr (hf.tree_subset hc)]
    split
    · rw [Forest.count_aggregate hf.toWellFormed hlt]
    · exact Finset.sum_const_zero
  rw [(same.rooted hf).count_aggregate, same.tree_eq, hf.count_aggregate, ← below,
    ← Finset.sum_add_distrib]
  exact Finset.sum_congr rfl fun d _ => term d

/-- An absorbed cluster hands its vertices over or drops them. -/
theorem count_absorb (hf : f.Rooted r) (hp : f.parent c = some p) (hc : c ∈ f.tree r) (v : Int) :
    ((f.absorb p c w).aggregate r).count v + (if w then 0 else (f.remainder c).count v) =
      (f.aggregate r).count v := by
  have hpc : p ∈ (f.tree r).erase c :=
    Finset.mem_erase.mpr ⟨hf.parent_ne_self hp, hf.parent_mem_tree hp hc⟩
  have term : ∀ d ∈ (f.tree r).erase c, ((f.absorb p c w).remainder d).count v =
      (f.remainder d).count v + if d = p then if w then (f.remainder c).count v else 0 else 0 := by
    intro d hd
    rw [remainder_absorb hf.toWellFormed hp, if_neg (Finset.ne_of_mem_erase hd)]
    by_cases hdp : d = p <;> cases w <;> simp [hdp]
  rw [(hf.absorb hp w).count_aggregate, hf.tree_absorb hp, Finset.sum_congr rfl term,
    Finset.sum_add_distrib, Finset.sum_ite_eq', if_pos hpc, hf.count_aggregate,
    ← Finset.sum_erase_add _ _ hc]
  cases w <;> simp

theorem count_reparent (hf : f.Rooted r) (hp : f.parent c = some p) (ha : a ∈ f.ancestors c)
    (v : Int) : ((f.reparent c a).aggregate r).count v = (f.aggregate r).count v := by
  rw [(hf.reparent hp ha).count_aggregate, hf.tree_reparent hp ha, hf.count_aggregate]
  simp only [remainder_reparent]

end Rooted

/-! ## The potential -/

/-- One and the depth for every cluster of the tree, and for every vertex the
depth of the cluster that owns it. -/
def potential (f : Forest) (r : ClusterId) : Nat :=
  ((f.walk r).map fun c => 1 + f.depth c).sum +
    ((f.walk r).map fun c => (f.remainder c).length * f.depth c).sum

/-- What a cluster and its vertices contribute to the potential. -/
def share (f : Forest) (c : ClusterId) : Nat :=
  1 + f.depth c + (f.remainder c).length * f.depth c

namespace Rooted

theorem potential_eq (hf : f.Rooted r) : f.potential r = ∑ c ∈ f.tree r, f.share c := by
  rw [potential, sum_map_walk hf.toWellFormed hf.lt_size, sum_map_walk hf.toWellFormed hf.lt_size,
    ← Finset.sum_add_distrib]
  rfl

theorem potential_addToRemainder (hf : f.Rooted r) (hp : p ∈ f.tree r) (ids : List Int) :
    (f.addToRemainder p ids).potential r = f.potential r + ids.length * f.depth p := by
  have same := SameLinks.addToRemainder f p ids
  have term : ∀ d, (f.addToRemainder p ids).share d =
      f.share d + if d = p then ids.length * f.depth p else 0 := by
    intro d
    rw [share, same.depth_eq, remainder_addToRemainder _ _ _ _ (hf.lt_size_of_mem_tree hp), share]
    by_cases hd : d = p
    · rw [if_pos hd, if_pos hd, List.length_append, hd, Nat.add_mul]
      exact (Nat.add_assoc _ _ _).symm
    · rw [if_neg hd, if_neg hd, Nat.add_zero]
  rw [(same.rooted hf).potential_eq, same.tree_eq, hf.potential_eq]
  simp only [term, Finset.sum_add_distrib, Finset.sum_ite_eq', if_pos hp]

/-- Taking vertices from a cluster and its descendants frees the depth of the
cluster for each of them at least. -/
theorem potential_removeFromAll (hf : f.Rooted r) (hc : c ∈ f.tree r) (hids : ids.Nodup)
    (hsub : ids ⊆ f.aggregate c) :
    (f.removeFromAll (f.walk c) ids).potential r + ids.length * f.depth c ≤ f.potential r := by
  have same := SameLinks.removeFromAll f (f.walk c) ids
  have hlt := hf.lt_size_of_mem_tree hc
  have term : ∀ d, (f.removeFromAll (f.walk c) ids).share d +
      (if d ∈ f.tree c then (f.remainder d).countP ids.contains * f.depth c else 0) ≤
        f.share d := by
    intro d
    rw [share, same.depth_eq, share,
      remainder_removeFromAll (fun e he => lt_size_of_mem_walk hf.toWellFormed hlt he)]
    by_cases hd : d ∈ f.walk c
    · rw [if_pos hd, if_pos (mem_tree.mpr hd)]
      have depth : f.depth c ≤ f.depth d := by
        rcases List.mem_cons.mp ((Forest.mem_walk_iff hf.toWellFormed hlt).mp hd) with rfl | h
        · exact le_rfl
        · exact (depth_lt_of_mem_ancestors hf.toWellFormed h).le
      have parts : ((f.remainder d).filter fun v => !ids.contains v).length +
          (f.remainder d).countP ids.contains = (f.remainder d).length := by
        rw [← List.countP_eq_length_filter, Nat.add_comm,
          List.length_eq_countP_add_countP ids.contains]
        simp
      rw [← parts, Nat.add_mul, Nat.add_assoc]
      gcongr
    · rw [if_neg hd, if_neg fun h => hd (mem_tree.mp h), Nat.add_zero]
  have freed : ids.length * f.depth c ≤ ∑ d ∈ f.tree r,
      if d ∈ f.tree c then (f.remainder d).countP ids.contains * f.depth c else 0 := by
    rw [Finset.sum_ite_mem, Finset.inter_eq_right.mpr (hf.tree_subset hc), ← Finset.sum_mul,
      ← sum_map_walk hf.toWellFormed hlt]
    apply Nat.mul_le_mul_right _
    have total : ((f.walk c).map fun d => (f.remainder d).countP ids.contains).sum =
        (f.aggregate c).countP ids.contains := by
      rw [aggregate, List.countP_flatMap]; rfl
    rw [total, List.countP_eq_length_filter]
    exact (hids.subperm fun v hv =>
      List.mem_filter.mpr ⟨hsub hv, List.contains_iff_mem.mpr hv⟩).length_le
  rw [(same.rooted hf).potential_eq, same.tree_eq, hf.potential_eq]
  calc
    _ ≤ _ := Nat.add_le_add_left freed _
    _ = _ := Finset.sum_add_distrib.symm
    _ ≤ _ := Finset.sum_le_sum fun d _ => term d

/-- An absorbed cluster frees its own depth, since nothing else gets deeper. -/
theorem potential_absorb (hf : f.Rooted r) (hp : f.parent c = some p) (hc : c ∈ f.tree r)
    (w : Bool) : (f.absorb p c w).potential r + (1 + f.depth c) ≤ f.potential r := by
  have hpc : p ∈ (f.tree r).erase c :=
    Finset.mem_erase.mpr ⟨hf.parent_ne_self hp, hf.parent_mem_tree hp hc⟩
  have depth := (lifts_absorb hf.toWellFormed hp w).depth_le hf.toWellFormed
    (wellFormed_absorb hf.toWellFormed hp w)
  have term : ∀ d ∈ (f.tree r).erase c, (f.absorb p c w).share d ≤
      f.share d + if d = p then (f.remainder c).length * f.depth p else 0 := by
    intro d hd
    rw [share, share, remainder_absorb hf.toWellFormed hp, if_neg (Finset.ne_of_mem_erase hd)]
    by_cases hdp : d = p
    · subst hdp
      rw [if_pos rfl, Nat.add_assoc (1 + f.depth d), ← Nat.add_mul]
      have length : (if d = d ∧ w then f.remainder d ++ f.remainder c else f.remainder d).length ≤
          (f.remainder d).length + (f.remainder c).length := by
        split
        · rw [List.length_append]
        · exact Nat.le_add_right _ _
      have := depth d
      gcongr
    · rw [if_neg fun h => hdp h.1, if_neg hdp, Nat.add_zero]
      have := depth d
      gcongr
  have total := Finset.sum_le_sum term
  rw [Finset.sum_add_distrib, Finset.sum_ite_eq', if_pos hpc] at total
  rw [(hf.absorb hp w).potential_eq, hf.tree_absorb hp, hf.potential_eq,
    ← Finset.sum_erase_add _ _ hc, share]
  have deeper : (f.remainder c).length * f.depth p ≤ (f.remainder c).length * f.depth c := by
    rw [depth_of_parent hf.toWellFormed hp]
    exact Nat.mul_le_mul_left _ (Nat.le_succ _)
  omega

theorem potential_reparent_lt (hf : f.Rooted r) (hp : f.parent c = some p)
    (ha : a ∈ f.ancestors p) (hc : c ∈ f.tree r) :
    (f.reparent c a).potential r < f.potential r := by
  have hac : a ∈ f.ancestors c := by
    rw [ancestors_of_parent hf.toWellFormed hp]; exact List.mem_cons_of_mem _ ha
  have hf' := wellFormed_reparent hf.toWellFormed hp hac
  have depth := (lifts_reparent hf.toWellFormed hp hac).depth_le hf.toWellFormed hf'
  have higher : (f.reparent c a).depth c < f.depth c := by
    have above : (f.reparent c a).parent c = some a := by
      rw [parent_reparent _ _ _ _ (lt_size_of_parent hp), if_pos rfl]
    rw [depth_of_parent hf' above, depth_of_parent hf.toWellFormed hp]
    exact Nat.succ_lt_succ ((depth a).trans_lt (depth_lt_of_mem_ancestors hf.toWellFormed ha))
  rw [(hf.reparent hp hac).potential_eq, hf.tree_reparent hp hac, hf.potential_eq]
  refine Finset.sum_lt_sum ?_ ⟨c, hc, ?_⟩
  · intro d _
    have := depth d
    rw [share, share, remainder_reparent]
    gcongr
  · rw [share, share, remainder_reparent]
    have := Nat.mul_le_mul_left (f.remainder c).length higher.le
    omega

end Rooted

end GraphClustering.Forest
