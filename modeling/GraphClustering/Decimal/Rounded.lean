import GraphClustering.Decimal.Binary64

/-! # Decimals of a fixed number of places or digits -/

namespace GraphClustering.Decimal

def digitText (n : Nat) : String :=
  String.ofList (Nat.toDigits 10 n)

def zeros (n : Nat) : String :=
  String.ofList (List.replicate n '0')

/-- At least `width` characters, filled with `fill` on the left. -/
def padLeft (width : Nat) (fill : Char) (s : String) : String :=
  String.ofList (List.replicate (width - s.length) fill) ++ s

def signText (negative : Bool) : String :=
  if negative then "-" else ""

/-- A ratio with exactly `places` digits after the point. -/
def Ratio.fixed (places : Nat) (r : Ratio) : String :=
  let n := roundDiv (r.num * Nat.pow 10 places) r.den
  if places = 0 then digitText n
  else
    let unit := Nat.pow 10 places
    digitText (n / unit) ++ "." ++ padLeft places '0' (digitText (n % unit))

/-- The exponent `e` with `10 ^ e ≤ num / den < 10 ^ (e + 1)`, for a positive ratio. -/
def Ratio.magnitude (r : Ratio) : Int :=
  let guess : Int := ((digitText r.num).length : Int) - (digitText r.den).length
  let below : Bool := match guess with
    | .ofNat e => decide (r.num < r.den * Nat.pow 10 e)
    | .negSucc e => decide (r.num * Nat.pow 10 (e + 1) < r.den)
  if below then guess - 1 else guess

/-- `r · 10 ^ e` as a ratio. -/
def Ratio.shift (r : Ratio) : Int → Ratio
  | .ofNat e => ⟨r.num * Nat.pow 10 e, r.den⟩
  | .negSucc e => ⟨r.num, r.den * Nat.pow 10 (e + 1)⟩

/-- The nearest `d · 10 ^ e` whose `d` has `places + 1` digits, for a positive ratio. -/
def Ratio.significant (places : Nat) (r : Ratio) : Nat × Int :=
  let e := r.magnitude
  let s := r.shift ((places : Int) - e)
  let d := roundDiv s.num s.den
  if d = Nat.pow 10 (places + 1) then (Nat.pow 10 places, e + 1) else (d, e)

/-- An exponent has a sign and at least two digits. -/
def exponentText (e : Int) : String :=
  (if e < 0 then "-" else "+") ++ padLeft 2 '0' (digitText e.natAbs)

/-- One digit, a point, `places` digits and an exponent. -/
def Ratio.scientific (places : Nat) (r : Ratio) : String :=
  let (d, e) := if r.num = 0 then (0, 0) else r.significant places
  let text := padLeft (places + 1) '0' (digitText d)
  let head := String.ofList (text.toList.take 1)
  let tail := String.ofList (text.toList.drop 1)
  (if places = 0 then head else head ++ "." ++ tail) ++ "e" ++ exponentText e

/-- Renders a number through a layout for finite magnitudes. -/
def Binary64.render (layout : Ratio → String) : Binary64 → String
  | .nan => "nan"
  | .infinite negative => signText negative ++ "inf"
  | .finite negative m e => signText negative ++ layout (Ratio.scaled m 2 e)

def fixed (places : Nat) (x : Float) : String :=
  (Binary64.ofFloat x).render (Ratio.fixed places)

def scientific (places : Nat) (x : Float) : String :=
  (Binary64.ofFloat x).render (Ratio.scientific places)

end GraphClustering.Decimal
