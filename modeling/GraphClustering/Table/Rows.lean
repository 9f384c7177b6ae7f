import GraphClustering.Table.Separator
import GraphClustering.Text.Blank

/-! # Rows of fields

A row ends with its line. A field may stand in double quotes, and then holds separators and line
breaks; a quote inside is written twice. Lines of blanks only are no rows. -/

namespace GraphClustering.Table

/-- Where in a row the next letter stands. -/
inductive Place where
  | rowStart
  /-- After blanks at the start of a row, the last one first. -/
  | margin (blanks : List Char)
  | fieldStart
  | inside
  | quoted
  /-- After a quote inside quotes. -/
  | quote
  /-- After blanks that end a field. -/
  | gap
deriving DecidableEq, Repr

/-- What has been read, everything with the last one first. -/
structure Reading where
  place : Place
  letters : List Char
  fields : List String
  rows : List (List String)

namespace Reading

def empty : Reading := ⟨.rowStart, [], [], []⟩

def isBreak (c : Char) : Bool :=
  c == '\n' || c == '\r'

def isSpace (c : Char) : Bool :=
  c == ' ' || c == '\t'

def push (r : Reading) (place : Place) (c : Char) : Reading :=
  { r with place := place, letters := c :: r.letters }

def endField (r : Reading) : Reading :=
  { r with letters := [], fields := String.ofList r.letters.reverse :: r.fields }

def endRow (r : Reading) : Reading :=
  { r with place := .rowStart, fields := [], rows := r.fields.reverse :: r.rows }

def separates (s : Separator) (c : Char) : Bool :=
  match s with
  | .letter d => c == d
  | .blanks => isSpace c
  | .letters _ => false

/-- After a separator. -/
def afterSeparator (s : Separator) (r : Reading) : Reading :=
  { r with place := if s = .blanks then .gap else .fieldStart }

/-- A letter that may end the field. -/
def onInside (s : Separator) (r : Reading) (c : Char) : Reading :=
  if isBreak c then r.endField.endRow
  else if separates s c then r.endField.afterSeparator s
  else r.push .inside c

def onFieldStart (s : Separator) (r : Reading) (c : Char) : Reading :=
  if c == '"' then { r with place := .quoted } else onInside s r c

def onGap (s : Separator) (r : Reading) (c : Char) : Reading :=
  if isBreak c then r.endRow
  else if isSpace c then { r with place := .gap }
  else onFieldStart s r c

def onMargin (s : Separator) (blanks : List Char) (r : Reading) (c : Char) : Reading :=
  if isBreak c then { r with place := .rowStart }
  else if isSpace c && (s = .blanks || !separates s c) then
    { r with place := .margin (c :: blanks) }
  else if s = .blanks then onFieldStart s r c
  else onInside s { r with letters := blanks } c

def onRowStart (s : Separator) (r : Reading) (c : Char) : Reading :=
  if isBreak c then r
  else if isSpace c && (s = .blanks || !separates s c) then { r with place := .margin [c] }
  else onFieldStart s r c

def onChar (s : Separator) (r : Reading) (c : Char) : Reading :=
  match r.place with
  | .rowStart => onRowStart s r c
  | .margin blanks => onMargin s blanks r c
  | .fieldStart => onFieldStart s r c
  | .inside => onInside s r c
  | .quoted => if c == '"' then { r with place := .quote } else r.push .quoted c
  | .quote => if c == '"' then r.push .quoted c else onInside s r c
  | .gap => onGap s r c

/-- The rows at the end of the text; quotes have to be closed. -/
def close (r : Reading) : Option (List (List String)) :=
  match r.place with
  | .rowStart | .margin _ => some r.rows.reverse
  | .fieldStart | .inside | .quote => some r.endField.endRow.rows.reverse
  | .gap => some r.endRow.rows.reverse
  | .quoted => none

end Reading

/-- A text cut at each occurrence of some letters; `fuel` bounds the number of cuts. -/
def cut (sep : List Char) : Nat → List Char → List Char → List (List Char)
  | 0, before, rest => [before.reverse ++ rest]
  | _, before, [] => [before.reverse]
  | fuel + 1, before, c :: rest =>
      if !sep.isEmpty && sep.isPrefixOf (c :: rest) then
        before.reverse :: cut sep fuel [] ((c :: rest).drop sep.length)
      else cut sep fuel (c :: before) rest

/-- The fields of a line that is cut at several letters. -/
def cutLine (sep : List Char) (line : List Char) : List String :=
  let line := Text.trim line
  (cut sep line.length [] line).map String.ofList

def lines (s : List Char) : List (List Char) :=
  cut ['\n'] s.length [] (s.map fun c => if c == '\r' then '\n' else c)

/-- The rows of a text, without a mark for the byte order at its front. -/
def rows? (sep : Separator) (text : String) : Option (List (List String)) :=
  let cs := match text.toList with
    | '\ufeff' :: rest => rest
    | cs => cs
  match sep with
  | .letters s =>
      some (((lines cs).map (cutLine s)).filter fun fields => fields != [""])
  | _ => (cs.foldl (Reading.onChar sep) .empty).close

end GraphClustering.Table
