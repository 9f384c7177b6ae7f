import GraphClustering.Graph.Store
import GraphClustering.Graph.Ids

/-! # Views of a store restricted to some of its vertices

A view holds ascending rows of a store. A vertex has a local id, its position in the view, and a
global id, its label in the store. -/

namespace GraphClustering

structure View (α : Type) where
  store : Store α
  rows : Array Nat
  workers : Option Int

namespace View

variable {α : Type}

/-- The view of all rows. -/
def whole (s : Store α) (workers : Option Int) : View α :=
  ⟨s, Array.range s.order, workers⟩

/-- The view of given rows of a store, which have to exist. -/
def ofRows (s : Store α) (rows : List Int) : Except Fault (View α) := do
  let rows ← rows.mapM (Position.resolve s.labels.size)
  .ok ⟨s, rows.toArray, none⟩

def order (v : View α) : Nat :=
  v.rows.size

/-- The global ids, in the order of the rows. -/
def vertices (v : View α) : Array Int :=
  v.rows.map fun r => v.store.labels.getD r 0

def vertexList (v : View α) : List Int :=
  v.vertices.toList

def globalId (v : View α) (i : Int) : Except Fault Int :=
  (Position.resolve v.order i).map fun k => v.vertices.getD k 0

def localId (v : View α) (id : Int) : Except Fault (Option Nat) :=
  if v.order = 0 then .ok none
  else Search.interpolationSearch v.vertices id 0 (v.order - 1)

def localIds (v : View α) (ids : List Int) : List (Option Nat) :=
  ids.map fun id => Search.position? v.vertices id

/-- The rows of vertices given by global ids, if the store has them all. -/
def rowsOf (s : Store α) (ids : List Int) : Except Fault (List Nat) :=
  let unknown := ids.filter fun id => (Search.position? s.labels id).isNone
  if unknown.isEmpty then .ok (ids.filterMap fun id => Search.position? s.labels id)
  else .error (.unknownVertices unknown)

/-- The view of the same store on the given global ids. -/
def induced (v : View α) (ids : List Int) : Except Fault (View α) :=
  (rowsOf v.store (sortedDistinct ids)).map fun rows => ⟨v.store, rows.toArray, v.workers⟩

/-- The view of the same store on the given local ids, those without a vertex left out. -/
def restrict (v : View α) (locals : List Nat) : View α :=
  ⟨v.store, (sortedRows (locals.filterMap fun i => v.rows[i]?)).toArray, v.workers⟩

/-- `restrict` for local ids that may be counted from the end. -/
def localSubgraph (v : View α) (locals : List Int) : Except Fault (View α) :=
  (locals.mapM (Position.resolve v.order)).map v.restrict

/-- The local id of a row. -/
def localOf? (v : View α) (row : Nat) : Option Nat :=
  Search.position? v.rows row

/-- The neighbours of a row inside the view, found by looking up every entry of the row. -/
def adjacentOf (v : View α) (row : Nat) : List (Nat × α) :=
  (v.store.rowEntries row).filterMap fun e => (v.localOf? e.1).map fun i => (i, e.2)

/-- The neighbours of a row inside the view, found by looking up every vertex of the view. -/
def probedOf (v : View α) (row : Nat) : List (Nat × α) :=
  let span := v.store.span row
  (List.range v.order).filterMap fun i =>
    (v.rows[i]?).bind fun r =>
      (Search.positionWithin? v.store.edges r span.1 span.2).bind fun k =>
        (v.store.weights[k]?).map fun w => (i, w)

def rowAt (v : View α) (i : Int) : Except Fault Nat :=
  (Position.resolve v.order i).map fun k => v.rows.getD k 0

def adjacent (v : View α) (i : Int) : Except Fault (List (Nat × α)) :=
  (v.rowAt i).map v.adjacentOf

def probed (v : View α) (i : Int) : Except Fault (List (Nat × α)) :=
  (v.rowAt i).map v.probedOf

/-- The neighbours of a row, by whichever of the row and the view is smaller. -/
def neighboursOf (v : View α) (row : Nat) : List (Nat × α) :=
  let degree := v.store.degree row
  if degree = 0 then []
  else if degree < v.order then v.adjacentOf row
  else v.probedOf row

/-- The neighbours of a vertex with their weights, ascending; there are none below zero. -/
def neighbours (v : View α) (i : Int) : Except Fault (List (Nat × α)) :=
  if v.order = 0 ∨ i < 0 then .ok [] else (v.rowAt i).map v.neighboursOf

/-- The neighbours of a vertex of the view. -/
def neighbourIds (v : View α) (i : Nat) : List Nat :=
  match v.rows[i]? with
  | some row => (v.neighboursOf row).map Prod.fst
  | none => []

def text (v : View α) : String :=
  "Graph(order=" ++ Decimal.digitText v.order ++ ", datastore_vertices=" ++
    Decimal.digitText v.store.order ++ ")"

end View

end GraphClustering
