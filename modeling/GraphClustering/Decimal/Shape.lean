import GraphClustering.Decimal.Rounded

/-! # Layouts of real numbers that a template can ask for -/

namespace GraphClustering.Decimal

inductive Form where
  | fixed
  | scientific
  /-- Positional unless the exponent is small or not below the number of digits. -/
  | general
deriving DecidableEq, Repr

structure Shape where
  form : Form
  places : Nat
  /-- The point stays although nothing follows it, and so do zeros at the end. -/
  full : Bool

namespace Shape

def withPoint (s : List Char) : List Char :=
  if s.contains '.' then s else s ++ ['.']

/-- The digits after the point without zeros at the end, and no point before nothing. -/
def withoutZeros (s : List Char) : List Char :=
  if s.contains '.' then
    let kept := s.reverse.dropWhile fun c => c == '0'
    (match kept with
      | '.' :: rest => rest
      | rest => rest).reverse
  else s

/-- Applies a change to the part before the exponent. -/
def onMantissa (change : List Char → List Char) (s : String) : String :=
  let (mantissa, exponent) := s.toList.span fun c => c != 'e'
  String.ofList (change mantissa ++ exponent)

def finish (s : Shape) (text : String) : String :=
  if s.full then onMantissa withPoint text
  else if s.form = .general then onMantissa withoutZeros text else text

/-- Either layout, with the given number of digits in all. -/
def generalText (digits : Nat) (r : Ratio) : String :=
  let e := if r.num = 0 then 0 else (r.significant (digits - 1)).2
  if -4 ≤ e ∧ e < digits then r.fixed (digits - 1 - e).toNat else r.scientific (digits - 1)

def text (s : Shape) (r : Ratio) : String :=
  s.finish (match s.form with
    | .fixed => r.fixed s.places
    | .scientific => r.scientific s.places
    | .general => generalText (max 1 s.places) r)

end Shape

end GraphClustering.Decimal
