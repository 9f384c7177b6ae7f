import GraphClustering.Graph.RowChunks
import GraphClustering.Graph.View

/-! # Visiting every edge of a view

The rows of a view are cut into chunks; the edges of each chunk are handed on together, in either
direction. What is computed from them does not depend on the chunks. -/

namespace GraphClustering

/-- An edge of a view between local ids, seen from its source. -/
structure Edge (α : Type) where
  source : Int
  target : Nat
  weight : α

namespace View

variable {α : Type}

/-- The edges of the vertex at a local id, named by `source`. -/
def edgesOf (v : View α) (i : Nat) (source : Int) : List (Edge α) :=
  match v.rows[i]? with
  | some row => (v.adjacentOf row).map fun e => ⟨source, e.1, e.2⟩
  | none => []

/-- The edges of the vertices from `start` up to `stop`, in order. -/
def edgesBetween (v : View α) (start stop : Nat) : List (Edge α) :=
  (List.range' start (stop - start)).flatMap fun i => v.edgesOf i i

def edges (v : View α) : List (Edge α) :=
  v.edgesBetween 0 v.order

/-- The edges of one vertex as they are handed on: together, if there are any. -/
def traverse (v : View α) (i : Int) : Except Fault (List (List (Edge α))) :=
  (v.neighbours i).map fun found =>
    if found.isEmpty then [] else [found.map fun e => ⟨i, e.1, e.2⟩]

/-- The edges of a slice of the vertices. The ends may be counted from the end or lie outside;
the sources are numbered from `start` on, and there have to be as many numbers as vertices. -/
def chunkEdges (v : View α) (start stop : Int) : Except Fault (List (Edge α)) :=
  let first := Position.clamp v.order start
  let count := Position.clamp v.order stop - first
  let chosen := List.range' first count
  if chosen.all fun i => v.store.degree (v.rows.getD i 0) == 0 then .ok []
  else if count = (stop - start).toNat then
    .ok ((List.range count).flatMap fun (k : Nat) => v.edgesOf (first + k) (start + k))
  else if count = 1 then .error .indexOutside
  else .error .lengthMismatch

/-- The rows of a chunk unless another number is given. -/
def defaultChunk : Int := 4096

/-- A number of rows or workers; zero and none stand for the default. -/
def orDefault (n : Option Int) (default : Int) : Int :=
  match n with
  | some k => if k = 0 then default else k
  | none => default

/-- The edges chunk by chunk. -/
def chunks (v : View α) (size : Int) : List (List (Edge α)) :=
  (rowChunks v.order size).map fun c => v.edgesBetween c.1.toNat c.2.toNat

/-- The chunks with an edge, as they are handed on. Several chunks need workers; unless their
number is given there is one at least, whatever the machine. -/
def batches (v : View α) (size workers : Option Int) : Except Fault (List (List (Edge α))) :=
  let chunks := v.chunks (orDefault size defaultChunk)
  if 1 < chunks.length ∧ orDefault workers 1 < 0 then .error .negativeWorkers
  else .ok (chunks.filter fun c => !c.isEmpty)

/-- The number of undirected edges among directed ones. -/
def countEdges (batches : List (List (Edge α))) : Nat :=
  (batches.map fun b => b.countP fun e => decide (e.source ≤ e.target)).foldl (· + ·) 0

variable [Scalar α]

/-- For each vertex the weights of its edges, summed from left to right. -/
def sumBySource (order : Nat) (es : List (Edge α)) : Array α :=
  es.foldl (fun sums e => sums.modify e.source.toNat fun s => s + e.weight)
    (Array.replicate order 0)

def addVectors (xs ys : Array α) : Array α :=
  Array.zipWith (fun x y => x + y) xs ys

/-- The sums of all batches, each summed by itself first. -/
def accumulate (order : Nat) (batches : List (List (Edge α))) : Array α :=
  batches.foldl (fun sums b => addVectors sums (sumBySource order b)) (Array.replicate order 0)

/-- The number of undirected edges. -/
def size (v : View α) : Except Fault Nat :=
  (v.batches none v.workers).map countEdges

/-- For each vertex the sum of the weights of its edges inside the view. -/
def weights (v : View α) : Except Fault (Array α) :=
  (v.batches none v.workers).map (accumulate v.order)

/-- A share of a total; nothing is no share. -/
def share (own total : α) : α :=
  if Scalar.less 0 total then own / total else 0

/-- The weights of the vertices as shares of their weights in a larger view. -/
def relativeWeights (v super : View α) : Except Fault (Array α) := do
  let places := super.localIds v.vertexList
  if places.any Option.isNone then .error .notContained
  else
    let own ← v.weights
    let total ← super.weights
    .ok (Array.zipWith share own (places.filterMap fun p => p.bind fun i => total[i]?).toArray)

end View

end GraphClustering
