import GraphClustering.Graph.Builder

/-! # Graphs from tables of edges -/

namespace GraphClustering

/-- A table: named columns of equal length. -/
structure Frame where
  columns : List (String × List Cell)

namespace Frame

/-- The columns as given, short ones filled with missing cells. -/
def ofColumns (columns : List (String × List Cell)) : Frame :=
  let height := (columns.map fun c => c.2.length).foldl max 0
  ⟨columns.map fun c => (c.1, c.2 ++ List.replicate (height - c.2.length) .missing)⟩

def height (f : Frame) : Nat :=
  match f.columns with
  | [] => 0
  | c :: _ => c.2.length

/-- The cells of a column; of several with one name the last counts. -/
def column? (f : Frame) (name : String) : Option (List Cell) :=
  (f.columns.reverse.find? fun c => c.1 == name).map Prod.snd

def isUnsigned : Cell → Bool
  | .int z => decide (0 ≤ z ∧ z < Nat.pow 2 64)
  | _ => false

def isReal : Cell → Bool
  | .real _ | .missing => true
  | c => ElementType.ofCell c == .signed || ElementType.ofCell c == .unsigned

/-- The type of a table column. Missing numbers are real numbers, flags stand by themselves, and
integers that are not negative may share the unsigned type. -/
def columnType (cells : List Cell) : ElementType :=
  let isMissing : Cell → Bool := fun c => match c with
    | .missing => true
    | _ => false
  if cells.all isMissing then .mixed
  else if cells.all fun c => ElementType.ofCell c == .flag then .flag
  else if cells.all fun c => ElementType.ofCell c == .signed then .signed
  else if cells.all isUnsigned then .unsigned
  else if cells.all fun c => match c with
    | .int _ => true
    | _ => false then .mixed
  else if cells.all isReal then .real
  else .mixed

def typed (cells : List Cell) : Column :=
  ⟨columnType cells, cells⟩

/-- The graph of a table with one edge in each row, its weights read from cells. Without the
weight column all weights are one. -/
def graph {α : Type} [Scalar α] (f : Frame) (read : Cell → Except Fault α)
    (source target : String) (weight : Option String) (bound workers : Option Int) :
    Except (ConstructionError α) (View α) := do
  match f.column? source, f.column? target with
  | some us, some vs =>
      let weights := (weight.bind f.column?).map fun ws => ws.mapM read
      let b ← (Builder.empty bound workers).addColumns (typed us) (typed vs) weights
      b.build
  | _, _ => .error (.missingColumns ([source, target].filter fun c => (f.column? c).isNone))

end Frame

end GraphClustering
