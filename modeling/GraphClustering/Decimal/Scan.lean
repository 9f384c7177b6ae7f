import GraphClustering.Decimal.Binary64
import GraphClustering.Text.Blank
import GraphClustering.Text.Digit

/-! # Numbers written by hand: settings, command lines, identifiers and weights

Blanks around a number are dropped, digits may come from any script, and a single underscore
may stand between two digits. -/

namespace GraphClustering.Decimal

open GraphClustering.Text

/-- The digits at the front; `inside` tells that a digit came just before. -/
def digitRun (inside : Bool) : List Char → List Nat × List Char
  | [] => ([], [])
  | '_' :: c :: rest =>
      match inside, digit? c with
      | true, some d => let r := digitRun true rest; (d :: r.1, r.2)
      | _, _ => ([], '_' :: c :: rest)
  | c :: rest =>
      match digit? c with
      | some d => let r := digitRun true rest; (d :: r.1, r.2)
      | none => ([], c :: rest)

def ofDigits (ds : List Nat) : Nat :=
  ds.foldl (fun n d => 10 * n + d) 0

/-- A leading sign, and whether it is a minus. -/
def sign : List Char → Bool × List Char
  | '-' :: rest => (true, rest)
  | '+' :: rest => (false, rest)
  | rest => (false, rest)

/-- The longest whole number that is read. -/
def digitLimit : Nat := 4300

def scanInt (s : List Char) : Option Int :=
  let (negative, rest) := sign (trim s)
  match digitRun false rest with
  | (ds, []) =>
      if ds.isEmpty || digitLimit < ds.length then none
      else some (if negative then -(ofDigits ds : Int) else ofDigits ds)
  | _ => none

/-- The exponent part, if any: `e`, a sign and digits. -/
def scanExponent : List Char → Option Int
  | [] => some 0
  | e :: rest =>
      if e == 'e' || e == 'E' then
        let (negative, rest) := sign rest
        match digitRun false rest with
        | (d :: ds, []) =>
            let n : Int := ofDigits (d :: ds)
            some (if negative then -n else n)
        | _ => none
      else none

/-- The words for numbers that are not finite. -/
def scanWord (negative : Bool) (s : List Char) : Option Float :=
  let word := String.ofList (s.map Char.toLower)
  if word == "nan" then some notANumber
  else if word == "inf" || word == "infinity" then some (infinity negative)
  else none

def scanFloat (s : List Char) : Option Float :=
  let (negative, rest) := sign (trim s)
  let (whole, afterWhole) := digitRun false rest
  let (part, afterPart) := match afterWhole with
    | '.' :: more => digitRun false more
    | more => ([], more)
  if whole.isEmpty && part.isEmpty then scanWord negative rest
  else (scanExponent afterPart).map fun e =>
    ofScientific negative (ofDigits (whole ++ part)) (e - part.length)

end GraphClustering.Decimal
