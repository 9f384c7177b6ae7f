import GraphClustering.Decimal.Scan
import GraphClustering.Decimal.Shortest

/-! # Numbers as a caller writes them

Whole numbers, binary64 numbers and flags are told apart, since messages print them differently;
as quantities they are compared exactly. -/

namespace GraphClustering

inductive Number where
  | flag (b : Bool)
  | int (z : Int)
  | real (x : Float)

namespace Number

open Decimal

instance : Inhabited Number := ⟨.int 0⟩

def flagText (b : Bool) : String :=
  if b then "True" else "False"

def intText (z : Int) : String :=
  signText (decide (z < 0)) ++ digitText z.natAbs

def text : Number → String
  | .flag b => flagText b
  | .int z => intText z
  | .real x => Decimal.text x

/-- A whole number has an exact value; so has a finite binary64 number. -/
def exact : Number → Binary64
  | .flag b => .finite false b.toNat 0
  | .int z => .finite (decide (z < 0)) z.natAbs 0
  | .real x => .ofFloat x

/-- `± m · 2 ^ e` multiplied by `2 ^ -low`, for `low ≤ e`. -/
def aligned (low : Int) (negative : Bool) (m : Nat) (e : Int) : Int :=
  let n : Int := m * Nat.pow 2 (e - low).toNat
  if negative then -n else n

/-- The order of exact values; a value that is not a number is below nothing. -/
def lessExact : Binary64 → Binary64 → Bool
  | .nan, _ | _, .nan => false
  | .infinite a, .infinite b => a && !b
  | .infinite a, .finite .. => a
  | .finite .., .infinite b => !b
  | .finite s m e, .finite s' m' e' =>
      let low := min e e'
      decide (aligned low s m e < aligned low s' m' e')

def less (a b : Number) : Bool :=
  lessExact a.exact b.exact

def isNan (a : Number) : Bool :=
  a.exact == .nan

/-- `a ≤ b`, false where one of them is not a number. -/
def atMost (a b : Number) : Bool :=
  !a.isNan && !b.isNan && !b.less a

/-- Equal as quantities. -/
def same (a b : Number) : Bool :=
  a.atMost b && b.atMost a

/-- The nearest binary64 number, if the number is not too large for one. -/
def toFloat? : Number → Option Float
  | .flag b => some (nearest false ⟨b.toNat, 1⟩)
  | .int z =>
      let x := nearest (decide (z < 0)) ⟨z.natAbs, 1⟩
      if x.isInf then none else some x
  | .real x => some x

def isZero (a : Number) : Bool :=
  a.same (.int 0)

/-- The whole number that a whole number or a flag stands for. -/
def toInt? : Number → Option Int
  | .flag b => some b.toNat
  | .int z => some z
  | .real _ => none

end Number

end GraphClustering
