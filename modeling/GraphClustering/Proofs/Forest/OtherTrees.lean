import GraphClustering.Proofs.Forest.Rewrite

/-!
# Other trees

A forest holds the tree that is tidied and whatever was detached from it.  A rewrite of
the tree touches only clusters of the tree: what is in another one keeps its parent, its
children and its remainder, and never comes back (`cluster_of_rewrites`).
-/

namespace GraphClustering.Forest

variable {f g : Forest} {c d p r : ClusterId}

/-! ## Single clusters -/

theorem cluster_congr (parent : g.parent d = f.parent d) (children : g.children d = f.children d)
    (remainder : g.remainder d = f.remainder d) : g.cluster d = f.cluster d := by
  change Cluster.mk (g.parent d) (g.children d) (g.remainder d) = _
  rw [parent, children, remainder]
  rfl

theorem cluster_addToRemainder_of_ne (f : Forest) (ids : List Int) (ne : d ≠ p) :
    (f.addToRemainder p ids).cluster d = f.cluster d := by
  rw [addToRemainder, cluster_modify, if_neg fun h => ne h.1]

theorem cluster_removeFromAll_of_notMem {cs : List ClusterId} (inside : ∀ c ∈ cs, c < f.size)
    (ids : List Int) (hd : d ∉ cs) : (f.removeFromAll cs ids).cluster d = f.cluster d := by
  have links := SameLinks.removeFromAll f cs ids
  refine cluster_congr (links.parent d) (links.children d) ?_
  rw [remainder_removeFromAll inside, if_neg hd]

section Move

variable (hf : f.WellFormed) (hp : f.parent c = some p) (other : f.root d ≠ f.root c)

include hf hp other

theorem ne_parent_of_root_ne : d ≠ p := fun same =>
  other (by rw [same, root_of_parent hf hp])

theorem cluster_absorb_of_root_ne (w : Bool) : (f.absorb p c w).cluster d = f.cluster d := by
  have ne : d ≠ c := fun same => other (same ▸ rfl)
  have nep := ne_parent_of_root_ne hf hp other
  refine cluster_congr ?_ ?_ ?_
  · rw [parent_absorb hf hp, if_neg ne, if_neg fun child => other (root_of_parent hf child)]
  · rw [children_absorb hf hp, if_neg nep, if_neg ne]
  · rw [remainder_absorb hf hp, if_neg ne, if_neg fun h => nep h.1]

theorem cluster_reparent_of_root_ne {a : ClusterId} (ha : a ∈ f.ancestors c) :
    (f.reparent c a).cluster d = f.cluster d := by
  have ne : d ≠ c := fun same => other (same ▸ rfl)
  have nea : d ≠ a := fun same => other (by rw [same, root_of_mem_ancestors hf ha])
  have childless : c ∉ f.children d := fun child =>
    other (root_of_parent hf ((hf.mem_children_iff c d).mp child)).symm
  refine cluster_congr ?_ ?_ (remainder_reparent f c d a)
  · rw [parent_reparent f c d a (lt_size_of_parent hp), if_neg ne]
  · rw [children_reparent f c d hf.agreeing (lt_size_of_mem_ancestors hf ha), if_neg nea,
      List.erase_of_not_mem childless]

end Move

/-! ## Rewrites -/

/-- A rewrite leaves clusters of other trees as they are. -/
theorem Rewrite.cluster_eq (hf : f.Rooted r) (h : Rewrite r f g)
    (other : f.root d ≠ r) : g.cluster d = f.cluster d := by
  have evicted : ∀ {c p} (_ : f.root c = r) (_ : f.parent c = some p) (ids : List Int),
      (f.removeFromAll (f.walk c) ids).cluster d = f.cluster d := by
    intro c p hc hp ids
    have hlt := lt_size_of_parent hp
    refine cluster_removeFromAll_of_notMem (fun e he => ?_) ids fun hd => ?_
    · exact lt_size_of_mem_walk hf.toWellFormed hlt he
    · rcases List.mem_cons.mp ((mem_walk_iff hf.toWellFormed hlt).mp hd) with rfl | below
      · exact other hc
      · exact other ((root_of_mem_ancestors hf.toWellFormed below).trans hc)
  cases h with
  | @merge c p hc hp =>
      exact cluster_absorb_of_root_ne hf.toWellFormed hp (hc ▸ other) true
  | @evict c p ids hc hp hids hsub hne =>
      have nep := ne_parent_of_root_ne hf.toWellFormed hp (hc ▸ other)
      rw [cluster_addToRemainder_of_ne _ ids nep, evicted hc hp]
  | @dissolve c p ids hc hp hids hall =>
      have nep := ne_parent_of_root_ne hf.toWellFormed hp (hc ▸ other)
      have links := SameLinks.removeFromAll f (f.walk c) ids
      rw [cluster_addToRemainder_of_ne _ ids nep, cluster_absorb_of_root_ne
        (rooted_removed hf ids).toWellFormed (parent_removed hp ids) _ false, evicted hc hp]
      rw [links.root_eq, links.root_eq, hc]
      exact other
  | @lift c p a hc hp ha =>
      refine cluster_reparent_of_root_ne hf.toWellFormed hp (hc ▸ other) ?_
      rw [ancestors_of_parent hf.toWellFormed hp]
      exact List.mem_cons_of_mem _ ha

open Relation in
/-- A cluster that is not in the tree is neither brought back nor changed. -/
theorem cluster_of_rewrites (hf : f.Rooted r) (h : ReflTransGen (Rewrite r) f g)
    (other : f.root d ≠ r) : g.root d ≠ r ∧ g.cluster d = f.cluster d := by
  refine ⟨fun hd => other (root_of_rewrites hf h hd), ?_⟩
  induction h with
  | refl => rfl
  | tail before step ih =>
      rw [step.cluster_eq (rooted_of_rewrites hf before) fun hd =>
        other (root_of_rewrites hf before hd), ih]

end GraphClustering.Forest
