import GraphClustering.Graph.Ids

/-! # The cells of a column

Fields are text. A column whose fields are all whole numbers holds whole numbers, and so on for
real numbers and flags; in any other column the fields stay texts. Some texts stand for nothing in
every column. -/

namespace GraphClustering.Table

/-- The texts of cells without a value. -/
def missingTexts : List String :=
  ["", "#N/A", "#N/A N/A", "#NA", "-1.#IND", "-1.#QNAN", "-NaN", "-nan", "1.#IND", "1.#QNAN",
    "<NA>", "N/A", "NA", "NULL", "NaN", "None", "n/a", "nan", "null"]

def isMissing (s : String) : Bool :=
  missingTexts.contains s

def isSpace (c : Char) : Bool :=
  c == ' ' || (9 ≤ c.toNat && c.toNat ≤ 13)

def dropSpaces (s : List Char) : List Char :=
  s.dropWhile isSpace

/-- A whole number in digits of the first 128 characters. -/
def whole? (s : List Char) : Option Int :=
  let (negative, rest) := Decimal.sign (dropSpaces s)
  let (digits, rest) := rest.span Char.isDigit
  if digits.isEmpty || !(dropSpaces rest).isEmpty then none
  else
    let n : Int := Decimal.ofDigits (digits.map fun c => c.toNat - '0'.toNat)
    some (if negative then -n else n)

/-- The number of digits of a real number that count. -/
def digitCount : Nat := 17

/-- The number with one more digit. -/
def addDigit (x : Float) (c : Char) : Float :=
  x * 10 + (c.toNat - '0'.toNat).toFloat

def digitsValue (digits : List Char) : Float :=
  digits.foldl addDigit 0

def tenTo (n : Nat) : Float :=
  Decimal.ofScientific false 1 n

/-- `x · 10 ^ e` with a single rounding where the power has a number of its own. -/
def scale (x : Float) : Int → Option Float
  | .ofNat e => if 308 < e then none else some (x * tenTo e)
  | .negSucc n =>
      let e := n + 1
      some (if e ≤ 308 then x / tenTo e
        else if e ≤ 616 then x / tenTo (e - 308) / tenTo 308 else 0)

/-- The exponent after a letter for it, and what follows it. -/
def exponent? : List Char → Option (Int × List Char)
  | c :: rest =>
      if c == 'e' || c == 'E' then
        let (negative, rest) := Decimal.sign rest
        let (digits, rest) := rest.span Char.isDigit
        if digits.isEmpty then none
        else
          let (used, unused) := digits.splitAt digitCount
          let n : Int := Decimal.ofDigits (used.map fun c => c.toNat - '0'.toNat)
          some (if negative then -n else n, unused ++ rest)
      else some (0, c :: rest)
  | [] => some (0, [])

/-- The digits before and after the point, and what follows them. -/
def decimalParts (s : List Char) : List Char × List Char × List Char :=
  let (before, rest) := s.span Char.isDigit
  match rest with
  | '.' :: rest =>
      let (after, rest) := rest.span Char.isDigit
      (before, after, rest)
  | _ => (before, [], rest)

/-- A number from its first digits and the power of ten; a value beyond all numbers is none. -/
def finite? (s : List Char) : Option Float := do
  let (negative, rest) := Decimal.sign (dropSpaces s)
  let (before, after, rest) := decimalParts rest
  if before.isEmpty && after.isEmpty then none
  let used := before.take digitCount
  let places := after.take (digitCount - used.length)
  let shift : Int := (before.length - used.length : Nat) - (places.length : Int)
  let (e, rest) ← exponent? rest
  if !(dropSpaces rest).isEmpty then none
  let x := digitsValue (used ++ places)
  let x ← scale (if negative then -x else x) (shift + e)
  if x.isInf then none else some x

def infinite? (s : String) : Option Float :=
  let word := s.toLower
  if ["inf", "+inf", "infinity", "+infinity"].contains word then
    some (Decimal.infinity false)
  else if ["-inf", "-infinity"].contains word then some (Decimal.infinity true)
  else none

def real? (s : String) : Option Float :=
  (finite? s.toList).orElse fun _ => infinite? s

def flag? (s : String) : Option Bool :=
  if ["True", "TRUE", "true"].contains s then some true
  else if ["False", "FALSE", "false"].contains s then some false
  else none

/-- Whole numbers need a common type of 64 bits. -/
def fitsInteger (zs : List Int) (complete : Bool) : Bool :=
  zs.all (fun z => ElementType.minSigned ≤ z ∧ z ≤ ElementType.maxSigned) ||
    (complete && zs.all fun z => 0 ≤ z ∧ z < Nat.pow 2 64)

/-- The cells of a column of fields. -/
def cells (fields : List String) : List Cell :=
  let present := fields.filter fun s => !isMissing s
  let fill {β : Type} (read : String → Option β) (cell : β → Cell) : List Cell :=
    fields.map fun s => if isMissing s then .missing else ((read s).map cell).getD (.text s)
  match present.mapM fun s => whole? s.toList with
  | some zs =>
      if fitsInteger zs (present.length == fields.length) then fill (fun s => whole? s.toList) .int
      else fill some .text
  | none =>
      if present.all fun s => (real? s).isSome then fill real? .real
      else if present.all fun s => (flag? s).isSome then fill flag? .flag
      else fill some .text

end GraphClustering.Table
