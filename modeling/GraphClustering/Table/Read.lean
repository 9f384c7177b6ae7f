import GraphClustering.Graph.Frame
import GraphClustering.Table.Cells
import GraphClustering.Table.Rows

/-! # Tables from text

The first row names the columns. If the row after it has more fields than there are names, the
fields before the named ones number the rows and are no column. -/

namespace GraphClustering.Table

/-- Why a text is no table. -/
inductive TableFault where
  /-- Nothing but blank lines. -/
  | empty
  /-- A row with too many fields, or a quote that is not closed. -/
  | malformed
deriving DecidableEq, Repr

/-! ## Names -/

/-- How often each name was used. -/
abbrev Counts := List (String × Nat)

def Counts.get (counts : Counts) (name : String) : Nat :=
  ((counts.find? fun c => c.1 == name).map Prod.snd).getD 0

def Counts.set (counts : Counts) (name : String) (n : Nat) : Counts :=
  (name, n) :: counts

/-- A name with a number that no column has. -/
def numbered (names : List String) (base : String) : Nat → String → Nat → Counts → String × Counts
  | 0, name, _, counts => (name, counts)
  | fuel + 1, name, n, counts =>
      if n = 0 then (name, counts)
      else
        let counts := counts.set base (n + 1)
        let name := base ++ "." ++ Decimal.digitText n
        let n := if names.contains name then n + 1 else counts.get name
        numbered names base fuel name n counts

/-- Makes the name at a position differ from those that were handled before. -/
def distinguish (state : List String × Counts) (i : Nat) : List String × Counts :=
  let (names, counts) := state
  match names[i]? with
  | none => state
  | some base =>
      let (name, counts) := numbered names base (names.length + 1) base (counts.get base) counts
      (names.set i name, counts.set name (counts.get name + 1))

/-- The names of columns. Columns without one are named for their position, after all others. -/
def columnNames (header : List String) : List String :=
  let names := header.mapIdx fun i s =>
    if s.isEmpty then "Unnamed: " ++ Decimal.digitText i else s
  let positions := List.range header.length
  let isNamed (i : Nat) : Bool := (header[i]?).any fun s => !s.isEmpty
  let order := positions.filter isNamed ++ positions.filter fun i => !isNamed i
  (order.foldl distinguish (names, [])).1

/-! ## Columns -/

/-- Rows of equal width; shorter ones are filled with empty fields. -/
def square (width : Nat) (rows : List (List String)) : List (List String) :=
  rows.map fun r => r ++ List.replicate (width - r.length) ""

def fieldsAt (rows : List (List String)) (i : Nat) : List String :=
  rows.map fun r => (r[i]?).getD ""

/-- The table of a header and the rows below it. -/
def assemble (header : List String) (body : List (List String)) : Except TableFault Frame :=
  let width := max header.length ((body.head?.map List.length).getD 0)
  if body.any fun r => decide (width < r.length) then .error .malformed
  else
    let skipped := width - header.length
    let rows := square width body
    .ok (.ofColumns ((columnNames header).mapIdx fun i name =>
      (name, cells (fieldsAt rows (skipped + i)))))

def read (sep : Separator) (text : String) : Except TableFault Frame :=
  match rows? sep text with
  | none => .error .malformed
  | some [] => .error .empty
  | some (header :: body) => assemble header body

end GraphClustering.Table
