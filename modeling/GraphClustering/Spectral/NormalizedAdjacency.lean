import GraphClustering.Spectral.Broadcast
import GraphClustering.Spectral.Matrix

/-! # The deflated normalised adjacency

With degrees `d` the operator is `x ↦ D^(-1/2) A D^(-1/2) x` followed by the removal of the part
along `v ~ D^(1/2) 1`, the trivial eigenvector. -/

namespace GraphClustering

structure NormalizedAdjacency (α : Type) where
  matrix : Matrix α
  /-- The inverse square roots of the degrees. -/
  inverseRoots : List α
  /-- The trivial eigenvector, of norm one. -/
  trivial : List α

namespace NormalizedAdjacency

variable {α : Type} [Scalar α]

/-- The row sums, with one in place of zero. -/
def degrees (m : Matrix α) : List α :=
  m.rowSums.toList.map fun d => if Scalar.isZero d then 1 else d

def ofMatrix (m : Matrix α) : NormalizedAdjacency α :=
  let roots := (degrees m).map Scalar.sqrt
  ⟨m, roots.map fun s => 1 / s, Vector.scale (Vector.norm roots) roots⟩

/-- A vector without its part along the trivial eigenvector. -/
def deflate (n : NormalizedAdjacency α) (x : List α) : Except Fault (List α) := do
  let c ← Vector.inner n.trivial x
  Vector.broadcast (fun a b => a - b) x (n.trivial.map fun v => v * c)

def apply (n : NormalizedAdjacency α) (x : List α) : Except Fault (List α) := do
  let scaled ← Vector.broadcast (fun a b => a * b) n.inverseRoots x
  let y ← n.matrix.mulVec scaled.toArray
  n.deflate (← Vector.broadcast (fun a b => a * b) n.inverseRoots y.toList)

end NormalizedAdjacency

end GraphClustering
