import GraphClustering.Decimal.Rounded

/-! # The fewest digits that read back as the same binary64 number -/

namespace GraphClustering.Decimal

/-- The reals that round to a number, in units of `2 ^ exponent`; an even mantissa owns its ends. -/
structure Interval where
  low : Nat
  value : Nat
  high : Nat
  exponent : Int
  closed : Bool

def Interval.ofFinite (m : Nat) (e : Int) : Interval where
  low := if m = Nat.pow 2 52 ∧ -1074 < e then 4 * m - 1 else 4 * m - 2
  value := 4 * m
  high := 4 * m + 2
  exponent := e - 2
  closed := m % 2 = 0

/-- A point `d / 10 ^ s` lies in the interval; `unit` is `2 ^ exponent · 10 ^ s`. -/
def Interval.holds (i : Interval) (unit : Ratio) (d : Nat) : Bool :=
  let p := d * unit.den
  if i.closed then decide (i.low * unit.num ≤ p ∧ p ≤ i.high * unit.num)
  else decide (i.low * unit.num < p ∧ p < i.high * unit.num)

/-- The better of the two neighbours of the value among the multiples of `10 ^ -s`. -/
def Interval.neighbour? (i : Interval) (s : Int) : Option Nat :=
  let unit := (Ratio.scaled 1 2 i.exponent).shift s
  let below := i.value * unit.num / unit.den
  match i.holds unit below, i.holds unit (below + 1) with
  | true, true =>
      let twice := 2 * i.value * unit.num
      let middle := (2 * below + 1) * unit.den
      some (if twice < middle then below
        else if middle < twice then below + 1 else below + below % 2)
  | true, false => some below
  | false, true => some (below + 1)
  | false, false => none

/-- `(d, e)` with the fewest digits in `d` such that `d · 10 ^ e` rounds to `m · 2 ^ q`. -/
def shortest (m : Nat) (q : Int) : Nat × Int :=
  let i := Interval.ofFinite m q
  let top := (Ratio.scaled m 2 q).magnitude
  let found := (List.range 17).findSome? fun (k : Nat) =>
    let s := (k : Int) - top
    (i.neighbour? s).map fun d => (d, -s)
  found.getD (m, q)

def trimZeros (digits : List Char) : List Char :=
  (digits.reverse.dropWhile fun c => c == '0').reverse

/-- How digits and the place of the point become text. -/
structure Layout where
  /-- Points further left than this number of places take an exponent. -/
  least : Int
  /-- Points further right than this number of places take an exponent. -/
  most : Int

/-- Positional from `0.0001` up to sixteen digits before the point. -/
def numberLayout : Layout := ⟨-3, 16⟩

/-- Digits with the point after the first `point` of them. -/
def Layout.text (l : Layout) (digits : List Char) (point : Int) : String :=
  if l.least ≤ point ∧ point ≤ l.most then
    match point with
    | .ofNat p =>
        if p = 0 then "0." ++ String.ofList digits
        else if digits.length ≤ p then
          String.ofList digits ++ zeros (p - digits.length) ++ ".0"
        else String.ofList (digits.take p) ++ "." ++ String.ofList (digits.drop p)
    | .negSucc p => "0." ++ zeros (p + 1) ++ String.ofList digits
  else
    let head := String.ofList (digits.take 1)
    let tail := digits.drop 1
    head ++ (if tail.isEmpty then "" else "." ++ String.ofList tail) ++ "e" ++
      exponentText (point - 1)

/-- The text of a number in messages and listings. -/
def Binary64.text : Binary64 → String
  | .nan => "nan"
  | .infinite negative => signText negative ++ "inf"
  | .finite negative m q =>
      if m = 0 then signText negative ++ "0.0" else
        let (d, e) := shortest m q
        let digits := Nat.toDigits 10 d
        signText negative ++ numberLayout.text (trimZeros digits) (digits.length + e)

def text (x : Float) : String :=
  (Binary64.ofFloat x).text

end GraphClustering.Decimal
