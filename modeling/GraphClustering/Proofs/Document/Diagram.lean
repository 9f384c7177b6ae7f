import GraphClustering.Cluster.Diagram
import GraphClustering.Proofs.Document.RoundTrip

/-!
# The graph of a tree

The graph and the document of a tree are made independently of each other.  They show the same
clusters under the same numbers, and the graph has an edge for each entry of the document but the
first one.  Along these edges the sizes of the nodes add up (`shows_ofForest`).
-/

namespace GraphClustering.Diagram

open Forest TreeDocument

/-! ## Edges by source -/

section BySource

variable {sources : List Nat} {edges : List (Nat × Nat)}

theorem mem_bySource {e : Nat × Nat} : e ∈ bySource sources edges ↔ e.1 ∈ sources ∧ e ∈ edges := by
  simp only [bySource, List.mem_flatMap, List.mem_filter, decide_eq_true_iff]
  constructor
  · rintro ⟨_, hp, he, rfl⟩
    exact ⟨hp, he⟩
  · rintro ⟨hp, he⟩
    exact ⟨_, hp, he, rfl⟩

/-- The edges from some sources are those edges, in another order. -/
theorem bySource_perm_filter (nodup : sources.Nodup) :
    (bySource sources edges).Perm (edges.filter fun e => e.1 ∈ sources) := by
  induction sources with
  | nil => simp [bySource]
  | cons p ps ih =>
      obtain ⟨new, nodup⟩ := List.nodup_cons.mp nodup
      have first : (edges.filter fun e => e.1 ∈ p :: ps).filter (fun e => e.1 = p) =
          edges.filter fun e => e.1 = p := by
        rw [List.filter_filter]
        refine List.filter_congr fun e _ => ?_
        by_cases same : e.1 = p <;> simp [same]
      have others : (edges.filter fun e => e.1 ∈ p :: ps).filter (fun e => !decide (e.1 = p)) =
          edges.filter fun e => e.1 ∈ ps := by
        rw [List.filter_filter]
        refine List.filter_congr fun e _ => ?_
        by_cases same : e.1 = p <;> simp [same, new]
      have split := List.filter_append_perm (fun e : Nat × Nat => decide (e.1 = p))
        (edges.filter fun e => e.1 ∈ p :: ps)
      rw [first, others] at split
      exact ((ih nodup).append_left _).trans split

theorem bySource_perm (nodup : sources.Nodup) (known : ∀ e ∈ edges, e.1 ∈ sources) :
    (bySource sources edges).Perm edges := by
  have all : (edges.filter fun e => e.1 ∈ sources) = edges :=
    List.filter_eq_self.mpr fun e he => decide_eq_true (known e he)
  have perm : (bySource sources edges).Perm _ := bySource_perm_filter nodup
  rwa [all] at perm

end BySource

/-! ## Edges of a tree -/

variable {f : Forest} {c d p : ClusterId}

/-- The edge to a cluster comes from the parent that its entry names. -/
theorem edge_eq : edge f c (f.walk c) d =
    (entry f c (f.walk c) d).parent.map fun p => (p, (entry f c (f.walk c) d).id) := by
  rw [edge, entry]
  by_cases top : d = c
  · rw [if_pos top, if_pos top, Option.map_none]
  · rw [if_neg top, if_neg top, Option.map_map]
    rfl

section Edges

variable (hf : f.WellFormed) (hc : c < f.size)

include hf hc

theorem exists_edge (hd : d ∈ f.walk c) {e : Nat × Nat} (he : edge f c (f.walk c) d = some e) :
    ∃ p ∈ f.walk c, d ∈ f.children p ∧
      e = (numberIn (f.walk c) p, numberIn (f.walk c) d) := by
  rw [edge_eq, Option.map_eq_some_iff] at he
  obtain ⟨n, named, rfl⟩ := he
  obtain ⟨p, hp, child, rfl⟩ := exists_parent_entry hf hc hd named
  exact ⟨p, hp, child, rfl⟩

theorem ids_ofForest : (ofForest f c).nodes.map DiagramNode.id = List.range (f.walk c).length := by
  rw [ofForest, List.map_map]
  exact numbers_top hf hc

/-- In the graph there is an edge from each cluster to each of its children. -/
theorem mem_edges_iff (hp : p ∈ f.walk c) (hd : d ∈ f.walk c) :
    (numberIn (f.walk c) p, numberIn (f.walk c) d) ∈ (ofForest f c).edges ↔ d ∈ f.children p := by
  have known : numberIn (f.walk c) p ∈ (ofForest f c).nodes.map DiagramNode.id :=
    List.mem_map_of_mem (List.mem_map_of_mem hp)
  rw [ofForest, mem_bySource]
  refine (and_iff_right known).trans (List.mem_filterMap.trans ?_)
  constructor
  · rintro ⟨x, hx, he⟩
    obtain ⟨q, hq, child, same⟩ := exists_edge hf hc hx he
    obtain ⟨parent, own⟩ := Prod.mk.inj same
    rwa [(List.idxOf_inj hp).mp parent, (List.idxOf_inj hd).mp own]
  · intro child
    have named := (parent_entry_eq_some_iff hf hc hd hp).mpr child
    exact ⟨d, hd, by rw [edge_eq, named]; rfl⟩

/-- Each edge comes from an entry other than the first one, and each of these has its edge. -/
theorem edges_perm : ((ofForest f c).edges.map fun e => (some e.1, e.2)).Perm
    ((TreeDocument.ofForest f c).clusters.tail.map fun e => (e.parent, e.id)) := by
  set rest := (f.children c).flatMap f.walk with hrest
  have walk : f.walk c = c :: rest := walk_eq hf hc
  have below {x : ClusterId} (hx : x ∈ rest) : x ∈ f.walk c ∧ x ≠ c := by
    have nodup := nodup_walk hf hc
    rw [walk, List.nodup_cons] at nodup
    rw [walk]
    exact ⟨List.mem_cons_of_mem c hx, fun top => nodup.1 (top ▸ hx)⟩
  -- the edges as they are found on the walk
  have found : ((f.walk c).filterMap (edge f c (f.walk c))).map (fun e => (some e.1, e.2)) =
      rest.map fun x => ((entry f c (f.walk c) x).parent, (entry f c (f.walk c) x).id) := by
    have top : edge f c (f.walk c) c = none := if_pos rfl
    nth_rewrite 2 [walk]
    rw [List.filterMap_cons_none top, List.map_filterMap, ← List.filterMap_eq_map]
    refine List.filterMap_congr fun x hx => ?_
    obtain ⟨n, named⟩ := Option.ne_none_iff_exists'.mp fun none =>
      (below hx).2 ((parent_entry_eq_none_iff hf hc (below hx).1).mp none)
    simp only [edge_eq, named, Option.map_some, Function.comp_apply]
  have known : ∀ e ∈ (f.walk c).filterMap (edge f c (f.walk c)),
      e.1 ∈ (ofForest f c).nodes.map DiagramNode.id := by
    intro e he
    obtain ⟨x, hx, he⟩ := List.mem_filterMap.mp he
    obtain ⟨p, hp, -, rfl⟩ := exists_edge hf hc hx he
    exact List.mem_map_of_mem (List.mem_map_of_mem hp)
  have nodup : ((ofForest f c).nodes.map DiagramNode.id).Nodup := by
    rw [ids_ofForest hf hc]
    exact List.nodup_range
  have listed : (TreeDocument.ofForest f c).clusters.tail =
      rest.map (entry f c (f.walk c)) := by
    rw [TreeDocument.ofForest]
    nth_rewrite 2 [walk]
    rw [List.map_cons, List.tail_cons]
  rw [listed, List.map_map]
  exact ((bySource_perm nodup known).map _).trans (.of_eq found)

/-! ## Sizes -/

/-- A cluster has its own vertices and those of the nodes that its edges lead to. -/
theorem size_node (hd : d ∈ f.walk c) : (f.aggregate d).length = (f.remainder d).length +
    (((ofForest f c).nodes.filter fun k =>
      (numberIn (f.walk c) d, k.id) ∈ (ofForest f c).edges).map DiagramNode.size).sum := by
  have below : ((f.walk c).filter fun x => x ∈ f.children d).Perm (f.children d) := by
    rw [List.perm_ext_iff_of_nodup ((nodup_walk hf hc).filter _) (hf.nodup_children d)]
    intro x
    rw [List.mem_filter, decide_eq_true_iff, and_iff_right_iff_imp]
    exact child_mem_walk hf hc hd
  have nodes : ((ofForest f c).nodes.filter fun k =>
      (numberIn (f.walk c) d, k.id) ∈ (ofForest f c).edges) =
        ((f.walk c).filter fun x => x ∈ f.children d).map (node f c (f.walk c)) := by
    rw [ofForest, List.filter_map]
    refine congrArg _ (List.filter_congr fun x hx => ?_)
    exact decide_eq_decide.mpr (mem_edges_iff hf hc hd hx)
  calc (f.aggregate d).length
    _ = (f.remainder d).length + ((f.children d).map fun x => (f.aggregate x).length).sum := by
        rw [aggregate_eq hf (lt_size_of_mem_walk hf hc hd), List.length_append,
          List.length_flatMap]
    _ = _ := by
        rw [nodes, List.map_map, (below.map _).sum_eq]
        rfl

end Edges

/-- Whether a graph shows the tree that a document lists: its nodes are the entries, its edges are
the links that the entries name, and the sizes add up from the remainders along the edges. -/
structure Shows (g : Diagram) (d : TreeDocument) : Prop where
  ids : g.nodes.map DiagramNode.id = List.range d.clusters.length
  nodes : (g.nodes.map fun n => (n.id, n.remainder, n.depth)) =
    d.clusters.map fun e => (e.id, e.remainder, e.depth)
  edges : (g.edges.map fun e => (some e.1, e.2)).Perm
    (d.clusters.tail.map fun e => (e.parent, e.id))
  size : ∀ n ∈ g.nodes, n.size = n.remainder.length +
    ((g.nodes.filter fun k => (n.id, k.id) ∈ g.edges).map DiagramNode.size).sum
  top : ∃ n ∈ g.nodes, n.id = 0 ∧ n.size = d.vertexCount

/-- The graph of a tree, from its root or from a cluster inside, shows what the document of the
tree lists. -/
theorem shows_ofForest (hf : f.WellFormed) (hc : c < f.size) :
    (ofForest f c).Shows (TreeDocument.ofForest f c) where
  ids := by
    rw [ids_ofForest hf hc, TreeDocument.ofForest, List.length_map]
  nodes := by
    rw [ofForest, TreeDocument.ofForest, List.map_map, List.map_map]
    rfl
  edges := edges_perm hf hc
  size := by
    intro n hn
    obtain ⟨d, hd, rfl⟩ := List.mem_map.mp hn
    exact size_node hf hc hd
  top := ⟨_, List.mem_map_of_mem (mem_walk_self hf hc), numberIn_top hf hc, rfl⟩

/-- A cluster inside a tree with three clusters below it, one of them without vertices of its
own. -/
theorem shows_ofForest_bush : (ofForest bush 1).Shows (TreeDocument.ofForest bush 1) ∧
    (ofForest bush 1).edges = [(0, 1), (0, 3), (1, 2)] ∧
      (ofForest bush 1).nodes.map DiagramNode.size = [4, 1, 1, 1] :=
  ⟨shows_ofForest wellFormed_bush (by decide), by decide, by decide⟩

end GraphClustering.Diagram
