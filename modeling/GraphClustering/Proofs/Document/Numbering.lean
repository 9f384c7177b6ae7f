import GraphClustering.Cluster.Document
import GraphClustering.Proofs.Forest.Copies

/-!
# The numbers in a document

The document of a tree numbers its clusters in pre-order, so that every cluster and its
descendants have consecutive numbers, and tells their children and depths accordingly
(`preordered_ofForest`).  It does not depend on the names of the clusters in the forest
(`ofForest_copy`).
-/

namespace GraphClustering.TreeDocument

open Forest

variable {f g : Forest} {c d p r : ClusterId}

/-! ## Numbers in the walk -/

section Numbers

variable (hf : f.WellFormed) (hc : c < f.size)

include hf hc

theorem numberIn_top : numberIn (f.walk c) c = 0 := by
  rw [numberIn, walk_eq hf hc, List.idxOf_cons_self]

theorem numberIn_eq_zero_iff (hd : d ∈ f.walk c) : numberIn (f.walk c) d = 0 ↔ d = c := by
  rw [← numberIn_top hf hc]
  exact List.idxOf_inj hd

theorem numbers_top : (f.walk c).map (numberIn (f.walk c)) = List.range (f.walk c).length :=
  map_idxOf (nodup_walk hf hc)

/-- A cluster and its descendants have consecutive numbers. -/
theorem numbers_walk (hd : d ∈ f.walk c) : (f.walk d).map (numberIn (f.walk c)) =
    List.range' (numberIn (f.walk c) d) (f.walk d).length :=
  map_idxOf_walk hf hc hd

/-- A child comes after its parent. -/
theorem numberIn_lt_of_child (hp : p ∈ f.walk c) (hd : d ∈ f.children p) :
    numberIn (f.walk c) p < numberIn (f.walk c) d := by
  have hsize := lt_size_of_mem_walk hf hc hp
  have later : numberIn (f.walk c) d ∈ (f.walk p).map (numberIn (f.walk c)) :=
    List.mem_map_of_mem ((children_sublist_walk hf hsize).subset hd)
  have ne : numberIn (f.walk c) p ≠ numberIn (f.walk c) d := fun same =>
    hf.parent_ne_self ((hf.mem_children_iff d p).mp hd) ((List.idxOf_inj hp).mp same)
  rw [numbers_walk hf hc hp, List.mem_range'_1] at later
  exact lt_of_le_of_ne later.1 ne

end Numbers

/-! ## Entries -/

theorem mem_clusters {e : ListedCluster} :
    e ∈ (ofForest f c).clusters ↔ ∃ d ∈ f.walk c, entry f c (f.walk c) d = e :=
  List.mem_map

section Entries

variable (hf : f.WellFormed) (hc : c < f.size)

include hf hc

theorem parent_entry_eq_none_iff (hd : d ∈ f.walk c) :
    (entry f c (f.walk c) d).parent = none ↔ d = c := by
  rw [entry]
  by_cases top : d = c
  · rw [if_pos top]
    exact iff_of_true rfl top
  · obtain ⟨p, -, parent⟩ := parent_mem_walk hf hc hd top
    rw [if_neg top, parent]
    exact iff_of_false nofun top

/-- Entries name the same parents as the forest. -/
theorem parent_entry_eq_some_iff (hd : d ∈ f.walk c) (hp : p ∈ f.walk c) :
    (entry f c (f.walk c) d).parent = some (numberIn (f.walk c) p) ↔ d ∈ f.children p := by
  rw [entry]
  by_cases top : d = c
  · rw [if_pos top, top]
    exact iff_of_false nofun (top_notMem_children hf hc hp)
  · obtain ⟨q, -, parent⟩ := parent_mem_walk hf hc hd top
    rw [if_neg top, parent, hf.mem_children_iff, parent, Option.map_some, Option.some_inj,
      Option.some_inj, eq_comm, eq_comm (a := q)]
    exact List.idxOf_inj hp

theorem exists_parent_entry (hd : d ∈ f.walk c) {n : Nat}
    (named : (entry f c (f.walk c) d).parent = some n) :
    ∃ p ∈ f.walk c, d ∈ f.children p ∧ n = numberIn (f.walk c) p := by
  have ne : d ≠ c := fun top => by
    rw [(parent_entry_eq_none_iff hf hc hd).mpr top] at named
    cases named
  obtain ⟨p, hp, parent⟩ := parent_mem_walk hf hc hd ne
  have child := (hf.mem_children_iff d p).mpr parent
  have known := (parent_entry_eq_some_iff hf hc hd hp).mpr child
  exact ⟨p, hp, child, Option.some_inj.mp (named.symm.trans known)⟩

end Entries

/-! ## The order of a document -/

/-- Whether a document names one cluster as the parent of another one. -/
def Above (d : TreeDocument) (p i : Nat) : Prop :=
  ∃ e ∈ d.clusters, e.id = i ∧ e.parent = some p

/-- Whether the clusters of a document are numbered in pre-order: a cluster is the first of its
subtree, whose numbers are consecutive, and its children come in their order.  The children, the
depths and the number of vertices are as the parents and the remainders have it. -/
structure Preordered (d : TreeDocument) : Prop where
  ids : d.clusters.map ListedCluster.id = List.range d.clusters.length
  root : ∀ e ∈ d.clusters, e.parent = none ↔ e.id = 0
  subtree : ∀ e ∈ d.clusters, ∃ n, ∀ i,
    Relation.ReflTransGen d.Above e.id i ↔ e.id ≤ i ∧ i < e.id + n
  ascending : ∀ e ∈ d.clusters, e.children.Pairwise (· < ·)
  mem_children_iff : ∀ e ∈ d.clusters, ∀ i, i ∈ e.children ↔ d.Above e.id i
  depth_root : ∀ e ∈ d.clusters, e.parent = none → e.depth = 0
  depth_child : ∀ e ∈ d.clusters, ∀ p, e.parent = some p →
    ∃ q ∈ d.clusters, q.id = p ∧ e.depth = q.depth + 1
  vertexCount : d.vertexCount = (d.clusters.map fun e => e.remainder.length).sum

section Order

variable (hf : f.WellFormed) (hc : c < f.size)

include hf hc

theorem above_iff (hp : p ∈ f.walk c) {i : Nat} :
    (ofForest f c).Above (numberIn (f.walk c) p) i ↔
      ∃ d ∈ f.children p, numberIn (f.walk c) d = i := by
  constructor
  · rintro ⟨e, he, rfl, named⟩
    obtain ⟨d, hd, rfl⟩ := mem_clusters.mp he
    exact ⟨d, (parent_entry_eq_some_iff hf hc hd hp).mp named, rfl⟩
  · rintro ⟨d, child, rfl⟩
    have hd := child_mem_walk hf hc hp child
    exact ⟨_, mem_clusters.mpr ⟨d, hd, rfl⟩, rfl, (parent_entry_eq_some_iff hf hc hd hp).mpr child⟩

/-- Below a cluster in the document are the clusters below it in the forest. -/
theorem reflTransGen_above_iff (hd : d ∈ f.walk c) {i : Nat} :
    Relation.ReflTransGen (ofForest f c).Above (numberIn (f.walk c) d) i ↔
      ∃ e ∈ f.walk d, numberIn (f.walk c) e = i := by
  have hsize := lt_size_of_mem_walk hf hc hd
  have within := (walk_isInfix hf hc hd).subset
  constructor
  · intro path
    induction path with
    | refl => exact ⟨d, mem_walk_self hf hsize, rfl⟩
    | tail _ above ih =>
        obtain ⟨p, hp, rfl⟩ := ih
        obtain ⟨e, child, rfl⟩ := (above_iff hf hc (within hp)).mp above
        exact ⟨e, child_mem_walk hf hsize hp child, rfl⟩
  · rintro ⟨e, he, rfl⟩
    refine walk_induction hf hsize (P := fun e => Relation.ReflTransGen (ofForest f c).Above
      (numberIn (f.walk c) d) (numberIn (f.walk c) e)) .refl ?_ he
    intro p hp e child path
    exact path.tail ((above_iff hf hc (within hp)).mpr ⟨e, child, rfl⟩)

theorem preordered_ofForest : (ofForest f c).Preordered where
  ids := by
    rw [ofForest, List.length_map, List.map_map]
    exact numbers_top hf hc
  root := by
    intro e he
    obtain ⟨d, hd, rfl⟩ := mem_clusters.mp he
    exact (parent_entry_eq_none_iff hf hc hd).trans (numberIn_eq_zero_iff hf hc hd).symm
  subtree := by
    intro e he
    obtain ⟨d, hd, rfl⟩ := mem_clusters.mp he
    refine ⟨(f.walk d).length, fun i => ?_⟩
    calc Relation.ReflTransGen (ofForest f c).Above (numberIn (f.walk c) d) i
      _ ↔ i ∈ (f.walk d).map (numberIn (f.walk c)) := by
          rw [reflTransGen_above_iff hf hc hd, List.mem_map]
      _ ↔ _ := by rw [numbers_walk hf hc hd, List.mem_range'_1]; rfl
  ascending := by
    intro e he
    obtain ⟨d, hd, rfl⟩ := mem_clusters.mp he
    exact ascending_children hf hc hd
  mem_children_iff := by
    intro e he i
    obtain ⟨d, hd, rfl⟩ := mem_clusters.mp he
    exact List.mem_map.trans (above_iff hf hc hd).symm
  depth_root := by
    intro e he named
    obtain ⟨d, hd, rfl⟩ := mem_clusters.mp he
    rw [(parent_entry_eq_none_iff hf hc hd).mp named]
    exact Nat.sub_self _
  depth_child := by
    intro e he n named
    obtain ⟨d, hd, rfl⟩ := mem_clusters.mp he
    obtain ⟨p, hp, child, rfl⟩ := exists_parent_entry hf hc hd named
    refine ⟨_, mem_clusters.mpr ⟨p, hp, rfl⟩, rfl, ?_⟩
    have deep := depth_le_of_mem_walk hf hc hp
    rw [entry, entry, depth_of_parent hf ((hf.mem_children_iff d p).mp child)]
    exact Nat.sub_add_comm deep
  vertexCount := by
    rw [ofForest, aggregate, List.length_flatMap, List.map_map]
    rfl

end Order

/-! ## Copies -/

section Copies

variable {name : ClusterId → ClusterId} (copies : Copies f c g r name) (hf : f.WellFormed)
  (hg : g.WellFormed) (hc : c < f.size) (hr : r < g.size)

include copies hf hg hc hr

/-- A cluster and its copy have the same number. -/
theorem numberIn_copy (hd : d ∈ f.walk c) :
    numberIn (g.walk r) (name d) = numberIn (f.walk c) d := by
  have numbers := numbers_top hg hr
  rw [copies.walk_top hf hg hc hr, List.map_map, List.length_map, ← numbers_top hf hc] at numbers
  rw [copies.walk_top hf hg hc hr]
  exact List.map_inj_left.mp numbers d hd

theorem entry_copy (hd : d ∈ f.walk c) :
    entry g r (g.walk r) (name d) = entry f c (f.walk c) d := by
  have number {e : ClusterId} (he : e ∈ f.walk c) := numberIn_copy copies hf hg hc hr he
  rw [entry, entry, ListedCluster.mk.injEq]
  refine ⟨number hd, ?_, ?_, copies.remainder d hd, ?_⟩
  · by_cases top : d = c
    · rw [if_pos top, if_pos (by rw [top, copies.top])]
    · have lower : name d ≠ r := fun same =>
        top (copies.injective d hd c (mem_walk_self hf hc) (same.trans copies.top.symm))
      obtain ⟨p, hp, parent, parent'⟩ := copies.exists_parent hf hg hc hd top
      rw [if_neg top, if_neg lower, parent, parent', Option.map_some, number hp, Option.map_some]
  · have depth := copies.depth hf hg hc hd
    omega
  · rw [copies.children d hd, List.map_map]
    exact List.map_congr_left fun e child => number (child_mem_walk hf hc hd child)

/-- Trees that are copies of each other have one document. -/
theorem ofForest_copy : ofForest g r = ofForest f c := by
  have walk := copies.walk_top hf hg hc hr
  have clusters : (g.walk r).map (entry g r (g.walk r)) =
      (f.walk c).map (entry f c (f.walk c)) := by
    nth_rewrite 2 [walk]
    rw [List.map_map]
    exact List.map_congr_left fun d hd => entry_copy copies hf hg hc hr hd
  rw [ofForest, ofForest, copies.aggregate hf hg hc hr, clusters]

end Copies

end GraphClustering.TreeDocument
