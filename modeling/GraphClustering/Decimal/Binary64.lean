/-! # The exact value of a binary64 number -/

namespace GraphClustering.Decimal

/-- A finite number is `± mantissa · 2 ^ exponent`; zero keeps its sign. -/
inductive Binary64 where
  | nan
  | infinite (negative : Bool)
  | finite (negative : Bool) (mantissa : Nat) (exponent : Int)
deriving DecidableEq, Repr

/-- A nonnegative ratio of whole numbers. -/
structure Ratio where
  num : Nat
  den : Nat
deriving DecidableEq, Repr

/-- `m · b ^ e` as a ratio, for an exponent of either sign. -/
def Ratio.scaled (m b : Nat) : Int → Ratio
  | .ofNat e => ⟨m * Nat.pow b e, 1⟩
  | .negSucc e => ⟨m, Nat.pow b (e + 1)⟩

namespace Binary64

def ofBits (bits : Nat) : Binary64 :=
  let negative := decide (Nat.pow 2 63 ≤ bits)
  let biased : Nat := bits / Nat.pow 2 52 % Nat.pow 2 11
  let fraction : Nat := bits % Nat.pow 2 52
  if biased = 2047 then
    if fraction = 0 then .infinite negative else .nan
  else if biased = 0 then .finite negative fraction (-1074)
  else .finite negative (Nat.pow 2 52 + fraction) ((biased : Int) - 1075)

def ofFloat (x : Float) : Binary64 :=
  ofBits x.toBits.toNat

end Binary64

/-- The quotient to the nearest whole number; a half goes to the even neighbour. -/
def roundDiv (num den : Nat) : Nat :=
  let q := num / den
  let r := num % den
  if 2 * r < den then q else if den < 2 * r then q + 1 else q + q % 2

theorem roundDiv_one (n : Nat) : roundDiv n 1 = n := by
  simp [roundDiv, Nat.mod_one]

/-- The bits of the binary64 number nearest to a ratio, a half going to the even mantissa. -/
def nearestBits (r : Ratio) : Nat :=
  if r.num = 0 then 0 else
    let gap : Int := (Nat.log2 r.num : Int) - Nat.log2 r.den
    let below : Bool := match gap with
      | .ofNat e => decide (r.num < r.den * Nat.pow 2 e)
      | .negSucc e => decide (r.num * Nat.pow 2 (e + 1) < r.den)
    let top := if below then gap - 1 else gap
    let exponent := max (top - 52) (-1074)
    let mantissa := match exponent with
      | .ofNat e => roundDiv r.num (r.den * Nat.pow 2 e)
      | .negSucc e => roundDiv (r.num * Nat.pow 2 (e + 1)) r.den
    min ((exponent + 1074).toNat * Nat.pow 2 52 + mantissa) (2047 * Nat.pow 2 52)

def withSign (negative : Bool) (bits : Nat) : Float :=
  Float.ofBits (UInt64.ofNat (bits + if negative then Nat.pow 2 63 else 0))

def nearest (negative : Bool) (r : Ratio) : Float :=
  withSign negative (nearestBits r)

def infinity (negative : Bool) : Float :=
  withSign negative (2047 * Nat.pow 2 52)

def notANumber : Float :=
  Float.ofBits 0x7ff8000000000000

/-- `± m · 10 ^ e` to the nearest number; what no number can reach is settled without powers. -/
def ofScientific (negative : Bool) (m : Nat) (e : Int) : Float :=
  let top := (Nat.log2 m : Int) / 4 + e
  if m = 0 then withSign negative 0
  else if 400 < top then infinity negative
  else if (Nat.log2 m : Int) + e < -800 then withSign negative 0
  else nearest negative (Ratio.scaled m 10 e)

end GraphClustering.Decimal
