import GraphClustering.Graph.View

/-! # Building graphs from edges

Vertex ids are opaque integers, not negative. The vertices of a graph are the ends of its edges,
the vertices declared and, if a bound is given, all ids below it. Edges between the same two
vertices become one, with the sum of their weights. -/

namespace GraphClustering

/-- Why edges do not form a graph. -/
inductive ConstructionError (α : Type) where
  | missingColumns (names : List String)
  | shapes (sources targets : Nat)
  | unalignedWeights
  | idsNotIntegers
  | idsNegative
  | weightsNotFinite
  | weightNegative (source target : Int) (weight : α)
  | vertexBeyond (bound largest : Int)
  /-- A weight that cannot be read as a number. -/
  | weight (fault : Fault)

/-- Edges supplied together: sources, targets and weights of equal length. -/
structure EdgeBatch (α : Type) where
  sources : Column
  targets : Column
  weights : List α

/-- An edge supplied by itself; its weight is read when the graph is built. -/
structure LooseEdge (α : Type) where
  source : Cell
  target : Cell
  weight : Except Fault α

structure Builder (α : Type) where
  bound : Option Int
  workers : Option Int
  batches : List (EdgeBatch α)
  loose : List (LooseEdge α)
  declared : List Column

namespace Builder

variable {α : Type}

def empty (bound workers : Option Int) : Builder α :=
  ⟨bound, workers, [], [], []⟩

def add (b : Builder α) (source target : Cell) (weight : Except Fault α) : Builder α :=
  { b with loose := b.loose ++ [⟨source, target, weight⟩] }

/-- Declares vertices that need not have an edge. -/
def addVertices (b : Builder α) (ids : List Cell) : Builder α :=
  if ids.isEmpty then b else { b with declared := b.declared ++ [.ofCells ids] }

/-- `addVertices` for ids that come as a column of some type. -/
def declare (b : Builder α) (ids : Column) : Builder α :=
  if ids.cells.isEmpty then b else { b with declared := b.declared ++ [ids] }

theorem addVertices_eq_declare (b : Builder α) (ids : List Cell) :
    b.addVertices ids = b.declare (.ofCells ids) :=
  rfl

variable [Scalar α]

/-- Adds edges given by columns; without weights each weighs one. -/
def addColumns (b : Builder α) (sources targets : Column)
    (weights : Option (Except Fault (List α))) : Except (ConstructionError α) (Builder α) := do
  let n := sources.cells.length
  if n ≠ targets.cells.length then .error (.shapes n targets.cells.length)
  else
    let weights ← match weights with
      | none => .ok (List.replicate n 1)
      | some (.ok ws) => .ok ws
      | some (.error f) => .error (.weight f)
    if weights.length ≠ n then .error .unalignedWeights
    else .ok { b with batches := b.batches ++ [⟨sources, targets, weights⟩] }

def addEdges (b : Builder α) (sources targets : List Cell)
    (weights : Option (Except Fault (List α))) : Except (ConstructionError α) (Builder α) :=
  b.addColumns (.ofCells sources) (.ofCells targets) weights

/-- All edges as one batch, those supplied by themselves last. -/
def collect (b : Builder α) : Except (ConstructionError α) (EdgeBatch α) := do
  let batches ← if b.loose.isEmpty then .ok b.batches else
    match b.loose.mapM LooseEdge.weight with
    | .ok ws => .ok (b.batches ++
        [⟨.ofCells (b.loose.map LooseEdge.source), .ofCells (b.loose.map LooseEdge.target), ws⟩])
    | .error f => .error (.weight f)
  .ok ⟨.concat (batches.map EdgeBatch.sources), .concat (batches.map EdgeBatch.targets),
    batches.flatMap EdgeBatch.weights⟩

/-- The first edge of negative weight. -/
def negativeEdge? (sources targets : List Int) (weights : List α) : Option (Int × Int × α) :=
  (sources.zip (targets.zip weights)).find? fun e => Scalar.less e.2.2 0

/-- Integer ids, not negative, and finite weights, not negative. -/
def check (e : EdgeBatch α) : Except (ConstructionError α) Unit :=
  let sources := e.sources.integers
  let targets := e.targets.integers
  if sources.isEmpty then .ok ()
  else if !(e.sources.type.isInteger && e.targets.type.isInteger) then .error .idsNotIntegers
  else if sources.any (fun z => decide (z < 0)) || targets.any (fun z => decide (z < 0)) then
    .error .idsNegative
  else if !e.weights.all Scalar.isFinite then .error .weightsNotFinite
  else match negativeEdge? sources targets e.weights with
    | some (u, v, w) => .error (.weightNegative u v w)
    | none => .ok ()

/-- The declared vertices, as signed integers. -/
def declaredIds (b : Builder α) : Except (ConstructionError α) (List Int) :=
  if b.declared.isEmpty then .ok []
  else
    let c := Column.concat b.declared
    if !c.type.isInteger then .error .idsNotIntegers
    else if c.integers.any fun z => decide (z < 0) then .error .idsNegative
    else .ok (c.integers.map wrapSigned)

/-- The ids below the bound, provided that no other id reaches it. -/
def boundIds (b : Builder α) (ids : List Int) : Except (ConstructionError α) (List Int) :=
  match b.bound with
  | none => .ok []
  | some bound =>
      let largest := ids.foldl max (-1)
      if bound ≤ largest then .error (.vertexBeyond bound largest)
      else .ok ((List.range bound.toNat).map fun (k : Nat) => (k : Int))

/-- The row of each label. -/
def rowOf (labels : Array Int) (id : Int) : Nat :=
  (Search.position? labels id).getD 0

/-- The store of edges between the given vertices. -/
def assemble (ids : List Int) (sources targets : List Int) (weights : List α) : Store α :=
  let labels := (sortedDistinct ids).toArray
  let entries := (sources.zip (targets.zip weights)).map fun e =>
    (⟨rowOf labels e.1, rowOf labels e.2.1, e.2.2⟩ : Entry α)
  .ofEntries labels (Entry.normalize (Entry.symmetric entries))

def build (b : Builder α) : Except (ConstructionError α) (View α) := do
  let edges ← b.collect
  check edges
  let declared ← b.declaredIds
  let sources := edges.sources.integers.map wrapSigned
  let targets := edges.targets.integers.map wrapSigned
  let known := sources ++ targets ++ declared
  let below ← b.boundIds known
  .ok (.whole (assemble (known ++ below) sources targets edges.weights) b.workers)

end Builder

/-- The graph of a list of edges, with the given vertices besides. -/
def buildGraph {α : Type} [Scalar α] (edges : List (LooseEdge α)) (bound workers : Option Int)
    (vertices : List Cell) : Except (ConstructionError α) (View α) :=
  let b := ((Builder.empty bound workers).addVertices vertices : Builder α)
  { b with loose := edges }.build

namespace ConstructionError

def natText (n : Nat) : String :=
  "(" ++ Decimal.digitText n ++ ",)"

/-- What is wrong with the edges; a weight that cannot be read has no words of its own. -/
def message : ConstructionError Float → Option String
  | .missingColumns names => some ("edge frame lacks columns: " ++ ", ".intercalate names)
  | .shapes a b =>
      some ("source/target arrays differ in shape: " ++ natText a ++ " vs " ++ natText b)
  | .unalignedWeights => some "weights must be aligned with the edge endpoints"
  | .idsNotIntegers => some "vertex ids must be integers"
  | .idsNegative => some "vertex ids must be non-negative"
  | .weightsNotFinite => some "edge weights must be finite"
  | .weightNegative u v w =>
      some ("edge weights must be non-negative; edge (" ++ Number.intText u ++ ", " ++
        Number.intText v ++ ") has weight " ++ Decimal.text w)
  | .vertexBeyond bound largest =>
      some ("num_vertices=" ++ Number.intText bound ++ " but vertex " ++ Number.intText largest ++
        " was referenced")
  | .weight _ => none

end ConstructionError

end GraphClustering
