import GraphClustering.Fault

/-! # Columns of raw cells and their element types

Vertex ids arrive as lists of cells of any kind. A list as a whole has one element type, the join
of the types of its cells, and its cells are vertex ids exactly if that type is an integer type. -/

namespace GraphClustering

/-- A raw value of an edge list or a table. -/
inductive Cell where
  | missing
  | flag (b : Bool)
  | int (z : Int)
  | real (x : Float)
  | text (s : String)

instance : Inhabited Cell := ⟨.missing⟩

/-- The common type of the cells of a column. -/
inductive ElementType where
  | flag
  /-- Signed integers of 64 bits. -/
  | signed
  /-- Unsigned integers of 64 bits. -/
  | unsigned
  | real
  /-- Texts of at most the given width. -/
  | text (width : Nat)
  /-- Values without a common type. -/
  | mixed
deriving DecidableEq, Repr

namespace ElementType

def name : ElementType → String
  | .flag => "bool"
  | .signed => "int64"
  | .unsigned => "uint64"
  | .real => "float64"
  | .text width => "<U" ++ Decimal.digitText width
  | .mixed => "object"

def isInteger : ElementType → Bool
  | .signed | .unsigned => true
  | _ => false

/-- The width of the longest text that a value of the type is turned into beside texts. -/
def width : ElementType → Nat
  | .flag => 5
  | .signed => 21
  | .unsigned => 20
  | .real => 32
  | .text w => w
  | .mixed => 0

/-- The type that holds the values of both types; no integer type holds signed and unsigned
ones. -/
def join : ElementType → ElementType → ElementType
  | .mixed, _ | _, .mixed => .mixed
  | .text a, t => .text (max a t.width)
  | t, .text a => .text (max t.width a)
  | .real, _ | _, .real => .real
  | .flag, t | t, .flag => t
  | .signed, .signed => .signed
  | .unsigned, .unsigned => .unsigned
  | .signed, .unsigned | .unsigned, .signed => .real

/-- The least and the greatest signed integer of 64 bits. -/
def minSigned : Int := -Nat.pow 2 63

def maxSigned : Int := Nat.pow 2 63 - 1

def ofCell : Cell → ElementType
  | .missing => .mixed
  | .flag _ => .flag
  | .int z =>
      if minSigned ≤ z ∧ z ≤ maxSigned then .signed
      else if 0 ≤ z ∧ z < Nat.pow 2 64 then .unsigned else .mixed
  | .real _ => .real
  | .text s => .text (max 1 s.length)

/-- The type of a list of cells; the empty list counts as real numbers. -/
def ofCells : List Cell → ElementType
  | [] => .real
  | c :: cs => cs.foldl (fun t c => join t (ofCell c)) (ofCell c)

theorem join_self (t : ElementType) : join t t = t := by
  cases t <;> simp [join, width]

theorem join_comm (s t : ElementType) : join s t = join t s := by
  cases s <;> cases t <;> simp [join, width, Nat.max_comm]

end ElementType

/-- An integer of 64 bits read as a signed one. -/
def wrapSigned (z : Int) : Int :=
  Int.bmod z (Nat.pow 2 64)

namespace Cell

/-- The integer of a cell in a column of an integer type. -/
def toInt : Cell → Int
  | .int z => z
  | .flag b => b.toNat
  | _ => 0

/-- The real number of a cell. -/
def toFloat : Cell → Except Fault Float
  | .missing => .ok Decimal.notANumber
  | .flag b => .ok (if b then 1.0 else 0.0)
  | .real x => .ok x
  | .int z => match (Number.int z).toFloat? with
      | some x => .ok x
      | none => .error .tooLarge
  | .text s => match Decimal.scanFloat s.toList with
      | some x => .ok x
      | none => .error .unreadable

/-- A whole number that is within the signed integers of 64 bits. -/
def fitSigned (z : Int) : Except Fault Int :=
  if ElementType.minSigned ≤ z ∧ z ≤ ElementType.maxSigned then .ok z else .error .tooLarge

/-- The whole part of a real number. -/
def truncate (x : Float) : Except Fault Int :=
  match Decimal.Binary64.ofFloat x with
  | .nan => .error .unreadable
  | .infinite _ => .error .tooLarge
  | .finite negative m e =>
      let r := Decimal.Ratio.scaled m 2 e
      let n : Int := r.num / r.den
      .ok (if negative then -n else n)

/-- The integer that a cell stands for: real numbers lose their fraction, texts are read. -/
def asInt : Cell → Except Fault Int
  | .missing => .error .notNumeric
  | .flag b => .ok b.toNat
  | .int z => .ok z
  | .real x => truncate x
  | .text s => match Decimal.scanInt s.toList with
      | some z => .ok z
      | none => .error .unreadable

end Cell

/-- Cells with their common type. -/
structure Column where
  type : ElementType
  cells : List Cell

namespace Column

def ofCells (cells : List Cell) : Column :=
  ⟨.ofCells cells, cells⟩

def append (a b : Column) : Column :=
  ⟨a.type.join b.type, a.cells ++ b.cells⟩

/-- One column after the other; no column at all is an empty column of integers. -/
def concat : List Column → Column
  | [] => ⟨.signed, []⟩
  | c :: cs => cs.foldl append c

def integers (c : Column) : List Int :=
  c.cells.map Cell.toInt

end Column

/-- The vertex ids of a list of cells, as signed integers of 64 bits. -/
def vertexIds (cells : List Cell) : Except Fault (List Int) :=
  if cells.isEmpty then .ok []
  else
    let t := ElementType.ofCells cells
    if t.isInteger then .ok (cells.map fun c => wrapSigned c.toInt)
    else .error (.idType t.name)

end GraphClustering
