import GraphClustering.Decimal.Shape
import GraphClustering.Graph.Ids
import GraphClustering.Json.Writer

/-! # Templates of messages

A directive starts with a percent sign and shows one value: the next one of a list, or a named one
of a record. Between the sign and the letter that says how, it may hold flags, a width and a
precision. Two percent signs stand for one. -/

namespace GraphClustering.Log

/-- Why a template cannot be filled in. -/
inductive TemplateFault where
  /-- A directive that is cut off or of no known kind, or a number that is not one. -/
  | malformed
  /-- Too few values, too many, or one of the wrong kind. -/
  | values
  | tooLarge
  | missingField (name : String)
deriving DecidableEq, Repr

/-- A width or a precision: not given, written out, or the next value. -/
inductive Extent where
  | absent
  | given (n : Nat)
  | taken
deriving DecidableEq, Repr

structure Directive where
  key : Option String := none
  left : Bool := false
  plus : Bool := false
  space : Bool := false
  alternate : Bool := false
  zero : Bool := false
  width : Extent := .absent
  precision : Extent := .absent
  /-- The letter; nothing if the template ends before it. -/
  kind : Option Char := none
deriving DecidableEq, Repr

inductive Piece where
  | letter (c : Char)
  | directive (d : Directive)
  /-- A name whose bracket is not closed. -/
  | openKey
deriving DecidableEq, Repr

namespace Template

/-! ## Reading -/

/-- Where in a directive the next character stands. -/
inductive Scan where
  | plain
  | start
  | key (depth : Nat) (name : List Char)
  | flags (d : Directive)
  | width (d : Directive)
  | point (d : Directive)
  | precision (d : Directive)
  | morePrecision (d : Directive)
  | modifier (d : Directive)
  | kind (d : Directive)

def Extent.addDigit (c : Char) : Extent → Extent
  | .given n => .given (10 * n + (c.toNat - '0'.toNat))
  | _ => .given (c.toNat - '0'.toNat)

def onKind (d : Directive) (c : Char) : Scan × List Piece :=
  (.plain, [.directive { d with kind := some c }])

/-- One letter for the size of the value may stand before the kind. -/
def onModifier (d : Directive) (c : Char) : Scan × List Piece :=
  if c == 'h' || c == 'l' || c == 'L' then (.kind d, []) else onKind d c

def onMorePrecision (d : Directive) (c : Char) : Scan × List Piece :=
  if c.isDigit then (.morePrecision { d with precision := Extent.addDigit c d.precision }, [])
  else onModifier d c

def onPrecision (d : Directive) (c : Char) : Scan × List Piece :=
  if c == '*' then (.modifier { d with precision := .taken }, []) else onMorePrecision d c

def onPoint (d : Directive) (c : Char) : Scan × List Piece :=
  if c == '.' then (.precision { d with precision := .given 0 }, []) else onModifier d c

def onMoreWidth (d : Directive) (c : Char) : Scan × List Piece :=
  if c.isDigit then (.width { d with width := Extent.addDigit c d.width }, []) else onPoint d c

def onWidth (d : Directive) (c : Char) : Scan × List Piece :=
  if c == '*' then (.point { d with width := .taken }, []) else onMoreWidth d c

def onFlags (d : Directive) (c : Char) : Scan × List Piece :=
  match c with
  | '-' => (.flags { d with left := true }, [])
  | '+' => (.flags { d with plus := true }, [])
  | ' ' => (.flags { d with space := true }, [])
  | '#' => (.flags { d with alternate := true }, [])
  | '0' => (.flags { d with zero := true }, [])
  | c => onWidth d c

/-- A name may hold brackets in pairs. -/
def onKey (depth : Nat) (name : List Char) (c : Char) : Scan × List Piece :=
  if c == ')' then
    if depth = 0 then (.flags { key := some (String.ofList name.reverse) }, [])
    else (.key (depth - 1) (c :: name), [])
  else (.key (if c == '(' then depth + 1 else depth) (c :: name), [])

def onChar (c : Char) : Scan → Scan × List Piece
  | .plain => if c == '%' then (.start, []) else (.plain, [.letter c])
  | .start =>
      if c == '%' then (.plain, [.letter c])
      else if c == '(' then (.key 0 [], []) else onFlags {} c
  | .key depth name => onKey depth name c
  | .flags d => onFlags d c
  | .width d => onMoreWidth d c
  | .point d => onPoint d c
  | .precision d => onPrecision d c
  | .morePrecision d => onMorePrecision d c
  | .modifier d => onModifier d c
  | .kind d => onKind d c

def atEnd : Scan → List Piece
  | .plain => []
  | .start => [.directive {}]
  | .key .. => [.openKey]
  | .flags d | .width d | .point d | .precision d | .morePrecision d | .modifier d | .kind d =>
      [.directive d]

def scan : Scan → List Char → List Piece
  | s, [] => atEnd s
  | s, c :: rest =>
      let r := onChar c s
      r.2 ++ scan r.1 rest

def pieces (s : String) : List Piece :=
  scan .plain s.toList

/-! ## Showing values -/

/-- What is shown: a text, or the parts of a number. -/
inductive Shown where
  | text (s : String)
  | number (negative : Bool) (mark digits : String)

def blanks (n : Nat) : String :=
  String.ofList (List.replicate n ' ')

def signOf (d : Directive) (negative : Bool) : String :=
  if negative then "-" else if d.plus then "+" else if d.space then " " else ""

/-- Fills up to the width: with zeros behind the sign of a number, or with blanks. -/
def place (d : Directive) (width : Nat) : Shown → String
  | .text s =>
      let gap := blanks (width - s.length)
      if d.left then s ++ gap else gap ++ s
  | .number negative mark digits =>
      let head := signOf d negative ++ mark
      let free := width - (head.length + digits.length)
      if d.left then head ++ digits ++ blanks free
      else if d.zero then head ++ Decimal.zeros free ++ digits
      else blanks free ++ head ++ digits

/-- The integer of a value, without the fraction of a real number. -/
def wholeOf : Json → Except TemplateFault Int
  | .int z => .ok z
  | .bool b => .ok b.toNat
  | .real x => match Cell.truncate x with
      | .ok z => .ok z
      | .error .tooLarge => .error .tooLarge
      | .error _ => .error .malformed
  | _ => .error .values

def integerOf : Json → Except TemplateFault Int
  | .int z => .ok z
  | .bool b => .ok b.toNat
  | _ => .error .values

def realOf (v : Json) : Except TemplateFault Float :=
  match v.number? with
  | none => .error .values
  | some n => match n.toFloat? with
      | some x => .ok x
      | none => .error .tooLarge

def integerShown (base : Nat) (mark : String) (precision : Option Nat) (z : Int) : Shown :=
  let digits := String.ofList (Nat.toDigits base z.natAbs)
  .number (decide (z < 0)) mark (Decimal.padLeft (precision.getD 0) '0' digits)

def realShown (form : Decimal.Form) (full : Bool) (precision : Option Nat) (x : Float) : Shown :=
  match Decimal.Binary64.ofFloat x with
  | .nan => .number false "" "nan"
  | .infinite negative => .number negative "" "inf"
  | .finite negative m e =>
      .number negative "" (Decimal.Shape.text ⟨form, precision.getD 6, full⟩ (.scaled m 2 e))

def Shown.upper : Shown → Shown
  | .text s => .text s
  | .number negative mark digits => .number negative mark.toUpper digits.toUpper

def clip (precision : Option Nat) (s : String) : Shown :=
  .text (match precision with
    | some n => String.ofList (s.toList.take n)
    | none => s)

/-- A single character, given as such or by its number. -/
def characterOf : Json → Except TemplateFault String
  | .str s => if s.length = 1 then .ok s else .error .values
  | .int z => if 0 ≤ z ∧ z ≤ 0x10ffff then .ok (String.singleton (Char.ofNat z.toNat))
      else .error .tooLarge
  | .bool b => .ok (String.singleton (Char.ofNat b.toNat))
  | _ => .error .values

/-- A value in quotes where it is a text, all in ASCII. -/
def asciiLiteral (v : Json) : String :=
  String.join (v.literal.toList.map fun c =>
    let n := c.toNat
    if n < 0x80 then String.singleton c
    else if n < 0x100 then "\\x" ++ Text.hexDigits 2 n
    else if n < 0x10000 then "\\u" ++ Text.hexDigits 4 n
    else "\\U" ++ Text.hexDigits 8 n)

/-- A value in the way a letter asks for. -/
def shown (kind : Char) (full : Bool) (precision : Option Nat) (v : Json) :
    Except TemplateFault Shown :=
  let mark (m : String) : String := if full then m else ""
  match kind with
  | 's' => .ok (clip precision v.plain)
  | 'r' => .ok (clip precision v.literal)
  | 'a' => .ok (clip precision (asciiLiteral v))
  | 'c' => (characterOf v).map .text
  | 'd' | 'i' | 'u' => (wholeOf v).map (integerShown 10 "" precision)
  | 'o' => (integerOf v).map (integerShown 8 (mark "0o") precision)
  | 'x' => (integerOf v).map (integerShown 16 (mark "0x") precision)
  | 'X' => (integerOf v).map fun z => (integerShown 16 (mark "0x") precision z).upper
  | 'f' => (realOf v).map (realShown .fixed full precision)
  | 'F' => (realOf v).map fun x => (realShown .fixed full precision x).upper
  | 'e' => (realOf v).map (realShown .scientific full precision)
  | 'E' => (realOf v).map fun x => (realShown .scientific full precision x).upper
  | 'g' => (realOf v).map (realShown .general full precision)
  | 'G' => (realOf v).map fun x => (realShown .general full precision x).upper
  | _ => .error .malformed

/-! ## Filling in -/

/-- What the directives show. -/
inductive Values where
  | items (values : List Json)
  | fields (values : List (String × Json))

def Values.pending : Values → List Json
  | .items vs => vs
  | .fields fs => [.obj fs]

def takeNext : List Json → Except TemplateFault (Json × List Json)
  | [] => .error .values
  | v :: rest => .ok (v, rest)

/-- A named value becomes the next one. -/
def select (vs : Values) : Option String → List Json → Except TemplateFault (List Json)
  | none, pending => .ok pending
  | some name, _ => match vs with
      | .items _ => .error .values
      | .fields fs => match (Json.obj fs).field? name with
          | some v => .ok [v]
          | none => .error (.missingField name)

/-- The greatest width and the greatest precision. -/
def mostWidth : Nat := 9223372036854775807
def mostPrecision : Nat := 2147483647

/-- The integer for a width or precision, if there is one, and the values that are left. -/
def extent (most : Nat) (pending : List Json) :
    Extent → Except TemplateFault (Option Int × List Json)
  | .absent => .ok (none, pending)
  | .given n => if n ≤ most then .ok (some n, pending) else .error .malformed
  | .taken => do
      let (v, rest) ← takeNext pending
      let z ← integerOf v
      if z.natAbs ≤ most then .ok (some z, rest) else .error .tooLarge

/-- The text of a directive and the values that are left. -/
def fillDirective (vs : Values) (d : Directive) (pending : List Json) :
    Except TemplateFault (String × List Json) := do
  let pending ← select vs d.key pending
  let (width, pending) ← extent mostWidth pending d.width
  let (precision, pending) ← extent mostPrecision pending d.precision
  let width := width.getD 0
  let d := if width < 0 then { d with left := true } else d
  match d.kind with
  | none => .error .malformed
  | some kind =>
      let (v, rest) ← takeNext pending
      .ok (place d width.natAbs (← shown kind d.alternate (precision.map Int.toNat) v), rest)

/-- No value of a list may be left over. -/
def fillPieces (vs : Values) : List Piece → List Json → Except TemplateFault String
  | [], pending => match vs with
      | .items _ => if pending.isEmpty then .ok "" else .error .values
      | .fields _ => .ok ""
  | .letter c :: rest, pending => do
      .ok (String.singleton c ++ (← fillPieces vs rest pending))
  | .openKey :: _, _ => match vs with
      | .items _ => .error .values
      | .fields _ => .error .malformed
  | .directive d :: rest, pending => do
      let (s, pending) ← fillDirective vs d pending
      .ok (s ++ (← fillPieces vs rest pending))

end Template

/-- The template with its values. -/
def fill (template : String) (vs : Template.Values) : Except TemplateFault String :=
  Template.fillPieces vs (Template.pieces template) vs.pending

end GraphClustering.Log
