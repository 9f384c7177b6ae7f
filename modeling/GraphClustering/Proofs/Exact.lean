import Mathlib
import GraphClustering.Scalar

/-!
# Exact arithmetic

Any ordered field computes weights without rounding.  Nothing is assumed of its
square roots.  In whatever order exact numbers are added, the sum is the same
(`Vector.pairwiseSum_eq`).
-/

namespace GraphClustering

/-- Numbers that are not negative have such sums, and no sum of them is zero but of zeros.  This
is so for rounded sums too, as long as they do not round to zero. -/
class VanishingSums (α : Type) [Scalar α] : Prop where
  less_add : ∀ x y : α, Scalar.less x 0 = false → Scalar.less y 0 = false →
    Scalar.less (x + y) 0 = false
  isZero_add : ∀ x y : α, Scalar.less x 0 = false → Scalar.less y 0 = false →
    Scalar.isZero (x + y) = (Scalar.isZero x && Scalar.isZero y)

/-- An ordered field with a function to be used for square roots. -/
class ExactScalar (α : Type) extends Field α, LinearOrder α, IsStrictOrderedRing α where
  root : α → α

instance (priority := low) ExactScalar.toScalar {α : Type} [ExactScalar α] : Scalar α where
  less a b := decide (a < b)
  isZero a := decide (a = 0)
  isNan _ := false
  isFinite _ := true
  sqrt := ExactScalar.root

variable {α : Type} [ExactScalar α] {a b : α}

theorem less_eq_true_iff : Scalar.less a b = true ↔ a < b :=
  decide_eq_true_iff

theorem less_eq_false_iff : Scalar.less a b = false ↔ b ≤ a := by
  rw [← not_lt]
  exact decide_eq_false_iff_not

theorem isZero_eq_true_iff : Scalar.isZero a = true ↔ a = 0 :=
  decide_eq_true_iff

instance ExactScalar.vanishingSums : VanishingSums α where
  less_add x y hx hy := by
    rw [less_eq_false_iff] at hx hy ⊢
    exact add_nonneg hx hy
  isZero_add x y hx hy := by
    rw [less_eq_false_iff] at hx hy
    rw [Bool.eq_iff_iff, Bool.and_eq_true, isZero_eq_true_iff, isZero_eq_true_iff,
      isZero_eq_true_iff]
    exact add_eq_zero_iff_of_nonneg hx hy

/-! ## Sums -/

namespace Vector

theorem foldl_add (x : α) (xs : List α) : xs.foldl (fun s y => s + y) x = x + xs.sum := by
  rw [← List.sum_cons, List.sum_eq_foldl, List.foldl_cons, zero_add]

theorem sum_eq (xs : List α) : sum xs = xs.sum := by
  rw [sum, foldl_add, zero_add]

/-- What is added to the running sums and what stays over make up the total. -/
theorem sum_lanes {acc : List α} (xs : List α) (h : acc.length = 8) :
    (lanes acc xs).1.sum + (lanes acc xs).2.sum = acc.sum + xs.sum := by
  induction acc, xs using lanes.induct with
  | case1 acc xs enough ih =>
      have same : acc.length = (xs.take 8).length := by rw [h, List.length_take_of_le enough]
      have eight : (List.zipWith (fun s x => s + x) acc (xs.take 8)).length = 8 := by
        rw [List.length_zipWith, ← same, Nat.min_self, h]
      rw [lanes, dif_pos enough, ih eight,
        ← List.sum_add_sum_eq_sum_zipWith_of_length_eq _ _ same, add_assoc,
        List.sum_take_add_sum_drop]
  | case2 acc xs few => rw [lanes, dif_neg few]

theorem joinLanes_eq (xs : List α) : joinLanes xs = xs.sum := by
  rw [joinLanes.eq_def]
  split
  · simp only [List.sum_cons, List.sum_nil, add_zero, add_assoc]
  · exact sum_eq _

theorem blockSum_eq (xs : List α) : blockSum xs = xs.sum := by
  rw [blockSum]
  split
  · exact sum_eq xs
  · rename_i many
    have eight : (xs.take 8).length = 8 := List.length_take_of_le (Nat.le_of_not_lt many)
    dsimp only
    rw [foldl_add, joinLanes_eq, sum_lanes _ eight, List.sum_take_add_sum_drop]

theorem pairwiseSum_eq (xs : List α) : pairwiseSum xs = xs.sum := by
  induction xs using pairwiseSum.induct with
  | case1 xs few => rw [pairwiseSum, dif_pos few, blockSum_eq]
  | case2 xs many half left right =>
      rw [pairwiseSum, dif_neg many]
      dsimp only
      rw [left, right, List.sum_take_add_sum_drop]

end Vector

end GraphClustering
