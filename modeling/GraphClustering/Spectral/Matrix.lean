import GraphClustering.Graph.Traversal

/-! # Sparse matrices by rows -/

namespace GraphClustering

/-- Each row lists its entries as columns with values. -/
structure Matrix (α : Type) where
  columns : Nat
  rows : Array (List (Nat × α))

namespace Matrix

variable {α : Type}

def order (m : Matrix α) : Nat :=
  m.rows.size

/-- The square matrix of edges: the entries of a row come in the order of the edges. -/
def ofEdges (order : Nat) (es : List (Edge α)) : Matrix α :=
  let scatter (rows : Array (List (Nat × α))) (e : Edge α) :=
    rows.modify e.source.toNat fun row => (e.target, e.weight) :: row
  ⟨order, (es.foldl scatter (Array.replicate order [])).map List.reverse⟩

/-- The matrix with the given rows, all of one length; every entry is stored. -/
def ofRows (rows : List (List α)) : Except Fault (Matrix α) :=
  let columns := (rows.headD []).length
  if rows.any fun r => r.length != columns then .error .lengthMismatch
  else .ok ⟨columns, (rows.map fun r => r.zipIdx.map fun e => (e.2, e.1)).toArray⟩

variable [Scalar α]

/-- The product of a row with a vector, from left to right. -/
def rowDot (row : List (Nat × α)) (x : Array α) : α :=
  row.foldl (fun s e => s + e.2 * x.getD e.1 0) 0

def product (m : Matrix α) (x : Array α) : Array α :=
  m.rows.map fun row => rowDot row x

/-- The product with a vector, which has to have an entry for each column. -/
def mulVec (m : Matrix α) (x : Array α) : Except Fault (Array α) :=
  if x.size = m.columns then .ok (m.product x) else .error .lengthMismatch

/-- The sum of a row: its first entry and the pairwise sum of the others. -/
def rowSum (row : List (Nat × α)) : α :=
  match row with
  | [] => 0
  | e :: rest => if rest.isEmpty then e.2 else e.2 + Vector.pairwiseSum (rest.map Prod.snd)

def rowSums (m : Matrix α) : Array α :=
  m.rows.map rowSum

end Matrix

/-- The weights between the vertices of a view, by local ids. -/
def View.adjacency {α : Type} (v : View α) : Except Fault (Matrix α) :=
  (v.batches none v.workers).map fun bs => .ofEdges v.order bs.flatten

end GraphClustering
