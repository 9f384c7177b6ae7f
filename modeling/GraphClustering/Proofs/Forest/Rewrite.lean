import GraphClustering.Proofs.Forest.Totals

/-!
# Rewriting a tree

Postprocessing changes a tree in four ways.  Each of them keeps the root where it
is (`Rewrite.rooted`), neither loses nor multiplies a vertex (`Rewrite.conserves`)
and lowers the potential of the tree (`Rewrite.potential_lt`); hence so does any
number of them.
-/

namespace GraphClustering.Forest

variable {f g h : Forest} {r : ClusterId}

/-- A change of the tree with root `r`, around one of its clusters. -/
inductive Rewrite (r : ClusterId) (f : Forest) : Forest → Prop where
  /-- A cluster is merged into its parent. -/
  | merge {c p : ClusterId} (hc : f.root c = r) (hp : f.parent c = some p) :
      Rewrite r f (f.absorb p c true)
  /-- Some vertices of a cluster and its descendants are handed to its parent. -/
  | evict {c p : ClusterId} {ids : List Int} (hc : f.root c = r) (hp : f.parent c = some p)
      (hids : ids.Nodup) (hsub : ids ⊆ f.aggregate c) (hne : ids ≠ []) :
      Rewrite r f ((f.removeFromAll (f.walk c) ids).addToRemainder p ids)
  /-- All vertices are handed to the parent, and so are the children. -/
  | dissolve {c p : ClusterId} {ids : List Int} (hc : f.root c = r) (hp : f.parent c = some p)
      (hids : ids.Nodup) (hall : ∀ v, v ∈ ids ↔ v ∈ f.aggregate c) :
      Rewrite r f (((f.removeFromAll (f.walk c) ids).absorb p c false).addToRemainder p ids)
  /-- A cluster moves up to an ancestor of its parent. -/
  | lift {c p a : ClusterId} (hc : f.root c = r) (hp : f.parent c = some p)
      (ha : a ∈ f.ancestors p) : Rewrite r f (f.reparent c a)

/-- The same vertices occur in the tree, none more often than before. -/
def Conserves (r : ClusterId) (f g : Forest) : Prop :=
  ∀ v, (g.aggregate r).count v ≤ (f.aggregate r).count v ∧ (v ∈ g.aggregate r ↔ v ∈ f.aggregate r)

namespace Conserves

theorem refl (r : ClusterId) (f : Forest) : Conserves r f f :=
  fun _ => ⟨le_rfl, Iff.rfl⟩

theorem trans (hfg : Conserves r f g) (hgh : Conserves r g h) : Conserves r f h :=
  fun v => ⟨(hgh v).1.trans (hfg v).1, (hgh v).2.trans (hfg v).2⟩

theorem of_count_eq (h : ∀ v, (g.aggregate r).count v = (f.aggregate r).count v) :
    Conserves r f g :=
  fun v => ⟨(h v).le, by rw [← List.count_pos_iff, ← List.count_pos_iff, h v]⟩

/-- Vertices that occur once still do. -/
theorem aggregate_perm (h : Conserves r f g) (once : (f.aggregate r).Nodup) :
    (g.aggregate r).Perm (f.aggregate r) := by
  refine (List.perm_ext_iff_of_nodup (List.nodup_iff_count_le_one.mpr fun v => ?_) once).mpr
    fun v => (h v).2
  exact (h v).1.trans (List.nodup_iff_count_le_one.mp once v)

/-- Vertices of a cluster may be replaced by one occurrence of each. -/
theorem of_count_add {ids : List Int} {c : ClusterId} (hf : f.Rooted r) (hc : c ∈ f.tree r)
    (hids : ids.Nodup) (hsub : ids ⊆ f.aggregate c)
    (h : ∀ v, (g.aggregate r).count v + (if v ∈ ids then (f.aggregate c).count v else 0) =
      (f.aggregate r).count v + ids.count v) : Conserves r f g := by
  intro v
  have total := h v
  rw [← List.count_pos_iff, ← List.count_pos_iff]
  by_cases hv : v ∈ ids
  · have once := List.count_eq_one_of_mem hids hv
    have held := List.count_pos_iff.mpr (hsub hv)
    have within := hf.count_aggregate_le hc v
    rw [if_pos hv, once] at total
    omega
  · rw [if_neg hv, List.count_eq_zero.mpr hv] at total
    omega

end Conserves

namespace Rewrite

/-! ## One rewrite -/

section Removed

variable {c p : ClusterId} (hf : f.Rooted r) (hc : f.root c = r) (hp : f.parent c = some p)
variable (ids : List Int)

include hf in
/-- Taking vertices away changes no link. -/
theorem rooted_removed : (f.removeFromAll (f.walk c) ids).Rooted r :=
  (SameLinks.removeFromAll f (f.walk c) ids).rooted hf

include hf hc in
theorem mem_tree_removed : c ∈ (f.removeFromAll (f.walk c) ids).tree r := by
  rw [(SameLinks.removeFromAll f (f.walk c) ids).tree_eq]
  exact hf.mem_tree_iff.mpr hc

include hp in
theorem parent_removed : (f.removeFromAll (f.walk c) ids).parent c = some p := by
  rw [(SameLinks.removeFromAll f (f.walk c) ids).parent, hp]

include hf hc hp in
theorem mem_tree_absorbed :
    p ∈ ((f.removeFromAll (f.walk c) ids).absorb p c false).tree r := by
  have hf' := rooted_removed (c := c) hf ids
  have hp' := parent_removed hp ids
  rw [hf'.tree_absorb hp']
  exact Finset.mem_erase.mpr
    ⟨hf'.parent_ne_self hp', hf'.parent_mem_tree hp' (mem_tree_removed hf hc ids)⟩

include hf hc in
/-- A cluster is left with no vertex if all below it are taken away. -/
theorem remainder_removed (hall : ∀ v ∈ f.aggregate c, v ∈ ids) :
    (f.removeFromAll (f.walk c) ids).remainder c = [] := by
  have hlt := hf.lt_size_of_mem_tree (hf.mem_tree_iff.mpr hc)
  have self := mem_walk_self hf.toWellFormed hlt
  rw [remainder_removeFromAll (fun d hd => lt_size_of_mem_walk hf.toWellFormed hlt hd),
    if_pos self, List.filter_eq_nil_iff]
  intro v hv
  have mem : v ∈ ids := hall v (List.mem_flatMap.mpr ⟨c, self, hv⟩)
  simpa using mem

end Removed

/-- The root of the tree stays its root. -/
theorem rooted (hf : f.Rooted r) (h : Rewrite r f g) : g.Rooted r := by
  cases h with
  | merge hc hp => exact hf.absorb hp true
  | evict hc hp hids hsub hne =>
      exact (SameLinks.addToRemainder _ _ _).rooted (rooted_removed hf _)
  | dissolve hc hp hids hall =>
      exact (SameLinks.addToRemainder _ _ _).rooted
        ((rooted_removed hf _).absorb (parent_removed hp _) false)
  | lift hc hp ha =>
      apply hf.reparent hp
      rw [ancestors_of_parent hf.toWellFormed hp]
      exact List.mem_cons_of_mem _ ha

/-- No vertex is lost and none is multiplied. -/
theorem conserves (hf : f.Rooted r) (h : Rewrite r f g) : Conserves r f g := by
  cases h with
  | merge hc hp =>
      refine .of_count_eq ?_
      intro v
      have absorbed := hf.count_absorb (w := true) hp (hf.mem_tree_iff.mpr hc) v
      rwa [if_pos rfl, Nat.add_zero] at absorbed
  | @evict c p ids hc hp hids hsub hne =>
      have tree := hf.mem_tree_iff.mpr hc
      refine .of_count_add hf tree hids hsub ?_
      intro v
      have removed := hf.count_removeFromAll tree ids v
      have hp' := (rooted_removed hf ids).parent_mem_tree (parent_removed hp ids)
        (mem_tree_removed hf hc ids)
      rw [(rooted_removed hf ids).count_addToRemainder hp']
      omega
  | @dissolve c p ids hc hp hids hall =>
      have tree := hf.mem_tree_iff.mpr hc
      refine .of_count_add hf tree hids (fun v hv => (hall v).mp hv) ?_
      intro v
      have removed := hf.count_removeFromAll tree ids v
      have hf' := rooted_removed (c := c) hf ids
      have hp' := parent_removed hp ids
      have absorbed := hf'.count_absorb (w := false) hp' (mem_tree_removed hf hc ids) v
      rw [remainder_removed hf hc ids fun v hv => (hall v).mpr hv] at absorbed
      rw [(hf'.absorb hp' false).count_addToRemainder (mem_tree_absorbed hf hc hp ids)]
      simp only [Bool.false_eq_true, if_false, List.count_nil] at absorbed
      omega
  | lift hc hp ha =>
      refine .of_count_eq fun v => hf.count_reparent hp ?_ v
      rw [ancestors_of_parent hf.toWellFormed hp]
      exact List.mem_cons_of_mem _ ha

/-- Every rewrite lowers the potential. -/
theorem potential_lt (hf : f.Rooted r) (h : Rewrite r f g) : g.potential r < f.potential r := by
  cases h with
  | merge hc hp =>
      have := hf.potential_absorb hp (hf.mem_tree_iff.mpr hc) true
      omega
  | @evict c p ids hc hp hids hsub hne =>
      have tree := hf.mem_tree_iff.mpr hc
      have removed := hf.potential_removeFromAll tree hids hsub
      have hp' := (rooted_removed hf ids).parent_mem_tree (parent_removed hp ids)
        (mem_tree_removed hf hc ids)
      have depth := (SameLinks.removeFromAll f (f.walk c) ids).depth_eq p
      have some := List.length_pos_of_ne_nil hne
      rw [depth_of_parent hf.toWellFormed hp, Nat.mul_add, Nat.mul_one] at removed
      rw [(rooted_removed hf ids).potential_addToRemainder hp', depth]
      omega
  | @dissolve c p ids hc hp hids hall =>
      have tree := hf.mem_tree_iff.mpr hc
      have removed := hf.potential_removeFromAll tree hids fun v hv => (hall v).mp hv
      have hf' := rooted_removed (c := c) hf ids
      have hp' := parent_removed hp ids
      have absorbed := hf'.potential_absorb hp' (mem_tree_removed hf hc ids) false
      have depth := (lifts_absorb hf'.toWellFormed hp' false).depth_le hf'.toWellFormed
        (hf'.absorb hp' false).toWellFormed p
      rw [(SameLinks.removeFromAll f (f.walk c) ids).depth_eq] at depth
      have handed := Nat.mul_le_mul_left ids.length depth
      rw [depth_of_parent hf.toWellFormed hp, Nat.mul_add, Nat.mul_one] at removed
      rw [(hf'.absorb hp' false).potential_addToRemainder (mem_tree_absorbed hf hc hp ids)]
      omega
  | lift hc hp ha => exact hf.potential_reparent_lt hp ha (hf.mem_tree_iff.mpr hc)

/-- No cluster gets an ancestor that it did not have. -/
theorem lifts (hf : f.Rooted r) (h : Rewrite r f g) : Lifts f g := by
  intro d q hq
  cases h with
  | merge hc hp => exact lifts_absorb hf.toWellFormed hp true d q hq
  | @evict c p ids hc hp hids hsub hne =>
      rw [(SameLinks.addToRemainder _ p ids).parent,
        (SameLinks.removeFromAll f (f.walk c) ids).parent] at hq
      rw [ancestors_of_parent hf.toWellFormed hq]
      exact List.mem_cons_self
  | @dissolve c p ids hc hp hids hall =>
      rw [(SameLinks.addToRemainder _ p ids).parent] at hq
      rw [← (SameLinks.removeFromAll f (f.walk c) ids).ancestors_eq]
      exact lifts_absorb (rooted_removed hf ids).toWellFormed (parent_removed hp ids) false d q hq
  | @lift c p a hc hp ha =>
      refine lifts_reparent hf.toWellFormed hp ?_ d q hq
      rw [ancestors_of_parent hf.toWellFormed hp]
      exact List.mem_cons_of_mem _ ha

end Rewrite

/-! ## Any number of rewrites -/

open Relation in
theorem rooted_of_rewrites (hf : f.Rooted r) (h : ReflTransGen (Rewrite r) f g) : g.Rooted r := by
  induction h with
  | refl => exact hf
  | tail _ step ih => exact step.rooted ih

open Relation in
theorem ancestors_sublist_of_rewrites (hf : f.Rooted r) (h : ReflTransGen (Rewrite r) f g)
    (d : ClusterId) : (g.ancestors d).Sublist (f.ancestors d) := by
  induction h with
  | refl => exact .refl _
  | tail before step ih =>
      have hm := rooted_of_rewrites hf before
      exact ((step.lifts hm).ancestors_sublist hm.toWellFormed
        (step.rooted hm).toWellFormed d).trans ih

open Relation in
/-- What is in the tree after rewrites was in it before. -/
theorem root_of_rewrites (hf : f.Rooted r) (h : ReflTransGen (Rewrite r) f g) {d : ClusterId}
    (hd : g.root d = r) : f.root d = r := by
  have hg := rooted_of_rewrites hf h
  rw [← mem_lineage_iff_of_root hg.toWellFormed hg.parentless] at hd
  rw [← mem_lineage_iff_of_root hf.toWellFormed hf.parentless]
  exact ((ancestors_sublist_of_rewrites hf h d).cons_cons d).subset hd

open Relation in
theorem tree_subset_of_rewrites (hf : f.Rooted r) (h : ReflTransGen (Rewrite r) f g) :
    g.tree r ⊆ f.tree r := fun _ hd =>
  hf.mem_tree_iff.mpr <| root_of_rewrites hf h <| (rooted_of_rewrites hf h).mem_tree_iff.mp hd

open Relation in
theorem conserves_of_rewrites (hf : f.Rooted r) (h : ReflTransGen (Rewrite r) f g) :
    Conserves r f g := by
  induction h with
  | refl => exact .refl r f
  | tail before step ih => exact ih.trans (step.conserves (rooted_of_rewrites hf before))

open Relation in
theorem potential_lt_of_rewrites (hf : f.Rooted r) (h : TransGen (Rewrite r) f g) :
    g.potential r < f.potential r := by
  induction h with
  | single step => exact step.potential_lt hf
  | tail before step ih =>
      exact (step.potential_lt (rooted_of_rewrites hf before.to_reflTransGen)).trans ih

end GraphClustering.Forest
