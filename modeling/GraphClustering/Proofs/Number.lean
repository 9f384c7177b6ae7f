import GraphClustering.Number
import Mathlib

/-!
# The order of numbers

Whole numbers are compared as whole numbers, a whole number below another one is
below what that one is at most, and a number that is not below one is not below zero.
-/

namespace GraphClustering.Number

variable {a b : Number}

theorem aligned_int_low (low z : Int) :
    aligned low (decide (z < 0)) z.natAbs 0 = z * (Nat.pow 2 (0 - low).toNat : Nat) := by
  rw [aligned]
  by_cases hz : z < 0
  · rw [if_pos (decide_eq_true hz), ← Int.neg_mul]
    congr 1
    omega
  · rw [if_neg (by rwa [decide_eq_true_eq])]
    congr 1
    omega

theorem aligned_int (z : Int) : aligned 0 (decide (z < 0)) z.natAbs 0 = z := by
  rw [aligned_int_low]
  exact Int.mul_one z

theorem less_int (x y : Int) : less (.int x) (.int y) = decide (x < y) := by
  rw [less, exact, exact, lessExact]
  simp only [min_self, aligned_int]

theorem less_eq_false_of_atMost (h : a.atMost b = true) : b.less a = false := by
  rw [atMost, Bool.and_eq_true] at h
  simpa using h.2

theorem isNan_int (x : Int) : isNan (.int x) = false :=
  beq_eq_false_iff_ne.mpr nofun

theorem atMost_int (x y : Int) : atMost (.int x) (.int y) = decide (x ≤ y) := by
  rw [atMost, isNan_int, isNan_int, less_int]
  simp only [Bool.not_false, Bool.true_and, ← decide_not, Int.not_lt]

theorem same_int (x y : Int) : same (.int x) (.int y) = decide (x = y) := by
  rw [same, atMost_int, atMost_int, ← Bool.decide_and]
  exact decide_eq_decide.mpr Int.le_antisymm_iff.symm

/-- Whole numbers are compared with a finite one after scaling both. -/
theorem less_finite {s : Bool} {m : Nat} {e : Int} (h : a.exact = .finite s m e) :
    ∃ k z : Int, 0 < k ∧ ∀ x : Int,
      (int x).less a = decide (x * k < z) ∧ a.less (int x) = decide (z < x * k) := by
  refine ⟨(Nat.pow 2 (0 - min 0 e).toNat : Nat), aligned (min 0 e) s m e,
    Int.natCast_pos.mpr (Nat.pow_pos Nat.two_pos), fun x => ?_⟩
  rw [less, less, h, exact, lessExact, lessExact, min_comm e 0]
  simp only [aligned_int_low, and_self]

theorem less_of_le_of_less {x y : Int} (h : x ≤ y) (hy : (int y).less a = true) :
    (int x).less a = true := by
  cases hx : a.exact with
  | nan => rw [less, hx] at hy; cases hy
  | infinite s => rw [less, hx] at hy ⊢; exact hy
  | finite s m e =>
      obtain ⟨k, z, hk, scaled⟩ := less_finite hx
      rw [(scaled _).1, decide_eq_true_iff] at hy ⊢
      exact lt_of_le_of_lt (Int.mul_le_mul_of_nonneg_right h hk.le) hy

theorem less_of_lt_of_atMost {x y : Int} (h : x < y) (hy : (int y).atMost a = true) :
    (int x).less a = true := by
  rw [atMost, Bool.and_eq_true, Bool.not_eq_true'] at hy
  obtain ⟨number, hy⟩ := hy
  cases hx : a.exact with
  | nan => rw [isNan, isNan, hx] at number; simp at number
  | infinite s => rw [less, hx] at hy ⊢; exact congrArg not hy
  | finite s m e =>
      obtain ⟨k, z, hk, scaled⟩ := less_finite hx
      rw [(scaled _).2, decide_eq_false_iff_not, not_lt] at hy
      rw [(scaled _).1, decide_eq_true_iff]
      exact lt_of_lt_of_le (Int.mul_lt_mul_of_pos_right h hk) hy

theorem atMost_eq_not_less {x : Int} (h : a.isNan = false) :
    a.atMost (int x) = !(int x).less a := by
  rw [atMost, h, isNan_int, Bool.not_false, Bool.true_and, Bool.true_and]

theorem isNan_eq_false_of_atMost (h : a.atMost b = true) : b.isNan = false := by
  rw [atMost, Bool.and_eq_true, Bool.and_eq_true] at h
  simpa using h.1.2

theorem less_one_of_less_zero (h : a.less (.int 0) = true) : a.less (.int 1) = true := by
  rw [less] at h ⊢
  cases hx : a.exact with
  | nan => rw [hx] at h; cases h
  | infinite s => rw [hx] at h; exact h
  | finite s m e =>
      rw [hx] at h
      simp only [exact, lessExact, decide_eq_true_eq] at h ⊢
      apply lt_of_lt_of_le h
      change ((0 : Nat) : Int) * _ ≤ ((1 : Nat) : Int) * _
      exact Int.mul_le_mul_of_nonneg_right (by decide) (Int.natCast_nonneg _)

end GraphClustering.Number
