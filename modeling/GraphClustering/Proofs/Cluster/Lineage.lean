import GraphClustering.Cluster.Postprocessing
import GraphClustering.Proofs.Forest.Copies
import GraphClustering.Proofs.Forest.Totals
import GraphClustering.Proofs.Graph.Lawful

/-!
# Views along a lineage

In a tree over the vertices of a view every cluster has a view of its vertices, which is a
part of the view of each of its ancestors (`aggregate_partOf_above`).
-/

namespace GraphClustering

namespace Forest

variable {f : Forest} {a b c d e r : ClusterId}

/-- Of two clusters above a third one, one is above the other. -/
theorem mem_lineage_of_notMem (hf : f.WellFormed) (hc : c ∈ e :: f.ancestors e)
    (hd : d ∈ e :: f.ancestors e) (h : d ∉ c :: f.ancestors c) : c ∈ d :: f.ancestors d := by
  have suffix : ∀ {a}, a ∈ e :: f.ancestors e → a :: f.ancestors a <:+ e :: f.ancestors e := by
    intro a ha
    rcases List.mem_cons.mp ha with rfl | ha
    · exact List.suffix_refl _
    · exact (ancestors_suffix hf ha).trans (List.suffix_cons _ _)
  rcases List.suffix_or_suffix_of_suffix (suffix hc) (suffix hd) with below | below
  · exact below.subset List.mem_cons_self
  · exact absurd (below.subset List.mem_cons_self) h

/-- An ancestor has the vertices of what is below it. -/
theorem aggregate_subset_of_mem_ancestors (hf : f.WellFormed) (h : b ∈ f.ancestors a) :
    f.aggregate a ⊆ f.aggregate b := by
  have hb := lt_size_of_mem_ancestors hf h
  have below := (mem_walk_iff hf hb).mpr (List.mem_cons_of_mem a h)
  exact ((walk_isInfix hf hb below).sublist.flatMap f.remainder).subset

theorem Rooted.isRoot_iff (hf : f.Rooted r) (hc : f.root c = r) : f.isRoot c = true ↔ c = r := by
  rw [isRoot, Option.isNone_iff_eq_none]
  constructor
  · intro top
    rw [← hc, root_of_root top]
  · rintro rfl
    exact hf.parentless

/-- Below the root no parent is a root. -/
theorem Rooted.isRoot_parent_iff (hf : f.Rooted r) (hc : f.root c = r)
    (hp : f.parent c = some b) : f.isRoot b = true ↔ b = r :=
  hf.isRoot_iff ((root_of_parent hf.toWellFormed hp).symm.trans hc)

/-- What has a parent is below the root. -/
theorem Rooted.mem_ancestors (hf : f.Rooted r) (hc : f.root c = r) (hp : f.parent c = some b) :
    r ∈ f.ancestors c := by
  have lineage := (mem_lineage_iff_of_root hf.toWellFormed hf.parentless).mpr hc
  exact (List.mem_cons.mp lineage).resolve_left (hf.ne_of_parent hp)

theorem Rooted.root_of_mem_lineage (hf : f.Rooted r) (hc : f.root c = r)
    (ha : a ∈ c :: f.ancestors c) : f.root a = r := by
  rcases List.mem_cons.mp ha with rfl | ha
  · exact hc
  · exact (root_of_mem_ancestors hf.toWellFormed ha).symm.trans hc

end Forest

namespace TreeRule

open Forest

variable {α : Type} {graph u w : View α} {f : Forest} {a c r : ClusterId}
variable (compressed : graph.Compressed) (hf : f.Rooted r)
variable (inside : ∀ id ∈ f.aggregate r, id ∈ graph.vertexList) (hc : f.root c = r)

include compressed hf inside hc

/-- The vertices of a cluster of a tree over a view induce a part of the view. -/
theorem exists_aggregate_partOf : ∃ u, aggregateView graph f c = .ok u ∧ u.PartOf graph := by
  have within : f.aggregate c ⊆ graph.vertexList := fun id hid =>
    inside id (hf.aggregate_subset (hf.mem_tree_iff.mpr hc) hid)
  exact compressed.exists_partOf_induced within

theorem aggregate_partOf (hu : aggregateView graph f c = .ok u) : u.PartOf graph := by
  obtain ⟨w, hw, part⟩ := exists_aggregate_partOf compressed hf inside hc
  rw [hu] at hw
  cases hw
  exact part

/-- The views of a cluster and its ancestors are found. -/
theorem aggregateView_ne_error {e : Fault} (ha : a ∈ c :: f.ancestors c) :
    aggregateView graph f a ≠ .error e := by
  obtain ⟨w, hw, -⟩ :=
    exists_aggregate_partOf compressed hf inside (hf.root_of_mem_lineage hc ha)
  rw [hw]
  nofun

/-- The view of a cluster is a part of the view of any of its ancestors. -/
theorem aggregate_partOf_above (ha : a ∈ f.ancestors c) (hu : aggregateView graph f c = .ok u)
    (hw : aggregateView graph f a = .ok w) : u.PartOf w := by
  have root := hf.root_of_mem_lineage hc (List.mem_cons_of_mem c ha)
  refine (aggregate_partOf compressed hf inside hc hu).of_vertexList_subset
    compressed.nodup_vertexList (aggregate_partOf compressed hf inside root hw) fun id hid => ?_
  rw [View.mem_vertexList_of_induced hu] at hid
  rw [View.mem_vertexList_of_induced hw]
  exact aggregate_subset_of_mem_ancestors hf.toWellFormed ha hid

end TreeRule

end GraphClustering
