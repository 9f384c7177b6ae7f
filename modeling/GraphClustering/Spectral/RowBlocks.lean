import GraphClustering.Spectral.Matrix

/-! # Products by blocks of rows

Large matrices are multiplied by several workers, each of which writes its own part of the
product. -/

namespace GraphClustering

/-- A matrix with the blocks of rows that its workers take. -/
structure RowBlocks (α : Type) where
  matrix : Matrix α
  bounds : List (Int × Int)

namespace RowBlocks

variable {α : Type}

/-- The workers unless another number is given: one for each processor of the machine, if their
number is known, and at most eight. -/
def defaultWorkers (processors : Option Nat) : Int :=
  max 1 (min 8 (processors.getD 1))

/-- The rows of a block unless another number is given. -/
def defaultRows : Int := 16384

/-- The rows of a block: an equal share for each worker, but not below `minRows`. -/
def blockSize (n : Nat) (workers minRows : Int) : Int :=
  if n = 0 then 1 else max minRows (-((-(n : Int)).fdiv workers))

/-- The blocks of a matrix, on a machine with eight processors unless another is given. -/
def ofMatrix (m : Matrix α) (workers : Option Int) (minRows : Int)
    (processors : Option Nat := some 8) : Except Fault (RowBlocks α) := do
  let workers := View.orDefault workers (defaultWorkers processors)
  let bounds ← rowChunks? m.order (blockSize m.order workers minRows)
  if 1 < bounds.length ∧ workers < 0 then .error .negativeWorkers
  else .ok ⟨m, bounds⟩

/-- The numbers of the rows of a block. -/
def rowsOf (block : Int × Int) : List Nat :=
  List.range' block.1.toNat (block.2.toNat - block.1.toNat)

/-- The rows of a block as a matrix. -/
def part (m : Matrix α) (block : Int × Int) : Matrix α :=
  ⟨m.columns, m.rows.extract block.1.toNat block.2.toNat⟩

/-- Row blocks with the workers that wait for products, unless they have been dismissed. -/
structure Team (α : Type) where
  blocks : RowBlocks α
  waiting : Bool

/-- The workers for the blocks of a matrix; a single block needs none. -/
def team (b : RowBlocks α) : Team α :=
  ⟨b, decide (1 < b.bounds.length)⟩

def Team.dismiss (t : Team α) : Team α :=
  { t with waiting := false }

variable [Scalar α]

/-- What the worker of a block writes: the entries of the product of its rows, each with its
place. -/
def writes (m : Matrix α) (x : Array α) (block : Int × Int) : List (Nat × α) :=
  (rowsOf block).zip ((part m block).product x).toList

def writeBlock (m : Matrix α) (x out : Array α) (block : Int × Int) : Array α :=
  (writes m x block).foldl (fun out e => out.setIfInBounds e.1 e.2) out

/-- The product written block by block, in the order given. -/
def writeBlocks (m : Matrix α) (x : Array α) (blocks : List (Int × Int)) : Array α :=
  blocks.foldl (writeBlock m x) (Array.replicate m.order 0)

/-- The product with a vector: the workers write their blocks in the order given; without any
the matrix is multiplied at once. -/
def Team.mulVec (t : Team α) (order : List (Int × Int)) (x : Array α) :
    Except Fault (Array α) :=
  if x.size ≠ t.blocks.matrix.columns then .error .lengthMismatch
  else if t.waiting then .ok (writeBlocks t.blocks.matrix x order)
  else .ok (t.blocks.matrix.product x)

/-- The product with a vector, by workers that take the blocks as they come. -/
def mulVec (b : RowBlocks α) (x : Array α) : Except Fault (Array α) :=
  b.team.mulVec b.bounds x

end RowBlocks

end GraphClustering
