import GraphClustering.Cluster.Document

/-! # Trees of clusters as directed graphs -/

namespace GraphClustering

/-- A cluster as a node: its number, its remainder, the number of vertices below it and its
depth. -/
structure DiagramNode where
  id : Nat
  remainder : List Int
  size : Nat
  depth : Nat

/-- The clusters of a tree and the edges from parents to children. -/
structure Diagram where
  nodes : List DiagramNode
  edges : List (Nat × Nat)

namespace Diagram

def node (f : Forest) (top : ClusterId) (walk : List ClusterId) (c : ClusterId) : DiagramNode where
  id := TreeDocument.numberIn walk c
  remainder := f.remainder c
  size := (f.aggregate c).length
  depth := f.depth c - f.depth top

/-- The edge to a cluster from its parent; none leads to the top. -/
def edge (f : Forest) (top : ClusterId) (walk : List ClusterId) (c : ClusterId) :
    Option (Nat × Nat) :=
  if c = top then none
  else (f.parent c).map fun p => (TreeDocument.numberIn walk p, TreeDocument.numberIn walk c)

/-- The edges from each of some sources, one source after the other. -/
def bySource (sources : List Nat) (edges : List (Nat × Nat)) : List (Nat × Nat) :=
  sources.flatMap fun p => edges.filter fun e => e.1 = p

/-- The graph of the tree below a cluster. -/
def ofForest (f : Forest) (top : ClusterId) : Diagram :=
  let walk := f.walk top
  let nodes := walk.map (node f top walk)
  ⟨nodes, bySource (nodes.map DiagramNode.id) (walk.filterMap (edge f top walk))⟩

end Diagram

end GraphClustering
