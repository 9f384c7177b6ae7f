import GraphClustering.Proofs.Exact

/-!
# Rational weights

The rationals are scalars whose order is total, so what is not below a threshold
is at least the threshold.  They are exact weights.
-/

namespace GraphClustering

/-- Exact arithmetic, with the square root of a square and a lower bound of other roots. -/
instance : Scalar ℚ where
  less a b := decide (a < b)
  isZero a := decide (a = 0)
  isNan _ := false
  isFinite _ := true
  sqrt a := mkRat (Nat.sqrt (a.num.toNat * a.den)) a.den

/-- The rationals as exact weights. -/
@[reducible]
def exactRat : ExactScalar ℚ where
  root := Scalar.sqrt

example : @ExactScalar.toScalar ℚ exactRat = (inferInstance : Scalar ℚ) := rfl

instance : VanishingSums ℚ :=
  @ExactScalar.vanishingSums ℚ exactRat

theorem less_rat_eq_false {a b : ℚ} : Scalar.less a b = false ↔ b ≤ a :=
  @less_eq_false_iff ℚ exactRat a b

end GraphClustering
