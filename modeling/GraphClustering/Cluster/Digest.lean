import GraphClustering.Cluster.Postprocessing

/-! # Digests: the most important vertices of a cluster -/

namespace GraphClustering

/-- A vertex of a cluster with its weight inside the cluster and the share of its weight that
this is. -/
structure Ranked (α : Type) where
  vertex : Int
  weight : α
  score : α

/-- The first vertices of a cluster, and how many vertices it has in all. -/
structure Digest (α : Type) where
  size : Nat
  vertices : List (Ranked α)

namespace Ranked

variable {α : Type} [Scalar α]

/-- Descending, with what is not a number last. -/
def above (a b : α) : Bool :=
  Scalar.less b a || (Scalar.isNan b && !Scalar.isNan a)

/-- By weight, then by score, both descending, then by vertex. -/
def atLeast (a b : Ranked α) : Bool :=
  if above a.weight b.weight then true
  else if above b.weight a.weight then false
  else if above a.score b.score then true
  else if above b.score a.score then false
  else a.vertex ≤ b.vertex

end Ranked

namespace Digest

variable {α : Type} [Scalar α]

/-- The vertices of a view with their weights and scores. -/
def rows (v : View α) (weights scores : Array α) : List (Ranked α) :=
  List.zipWith (fun id r => ⟨id, r.1, r.2⟩) v.vertexList (weights.zip scores).toList

/-- The first `limit` vertices; a limit that is not positive keeps all. -/
def truncate (limit : Int) (xs : List (Ranked α)) : List (Ranked α) :=
  if 0 < limit then xs.take limit.toNat else xs

def ofCluster (graph : View α) (f : Forest) (c : ClusterId) (limit : Int) :
    Except Fault (Digest α) := do
  let v ← TreeRule.aggregateView graph f c
  let weights ← v.weights
  let scores ← v.relativeWeights graph
  .ok ⟨v.order, truncate limit ((rows v weights scores).mergeSort Ranked.atLeast)⟩

end Digest

end GraphClustering
