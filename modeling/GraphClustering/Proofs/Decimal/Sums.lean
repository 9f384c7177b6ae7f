import GraphClustering.Proofs.Decimal.Lawful

/-!
# Sums of binary64 numbers that are not negative

An exact sum of positive numbers is no less than the smallest positive number, so that rounding
cannot lose it (`Positive.add`).  Hence numbers that are not negative have a sum of zero just if
all of them are zero: weights of binary64 are `VanishingSums`.
-/

namespace GraphClustering

namespace Decimal

open Float.Model Float.Model.UnpackedFloat

/-! ## Classes -/

/-- The mantissa and the exponent that a finite number can have. -/
theorem unpack_finite {b : BitVec 64} {s : Sign} {m : Nat} {e : Int} {pos : 0 < m}
    (h : UnpackedFloat.unpack Format.binary64 b = .finite s m e pos) :
    m < 2 ^ 53 ∧ -1074 ≤ e := by
  have bias (z : Int) : z - (Format.binary64.exponentBias +
      Format.binary64.mantissaBitsWithoutImplicit) = z - 1075 := rfl
  have short : (@unpackMantissa Format.binary64 b).toNat < 2 ^ 52 := BitVec.isLt _
  have implicit := toNat_implicit (@unpackMantissa Format.binary64 b)
  rw [UnpackedFloat.unpack] at h
  dsimp only at h
  split at h
  · split at h <;> cases h
  · split at h
    · split at h
      · cases h
      · cases h
        rw [bias]
        omega
    · rename_i bottom
      cases h
      have high : 0 < (@unpackExponent Format.binary64 b).toNat :=
        Nat.pos_of_ne_zero fun none => bottom (BitVec.eq_of_toNat_eq none)
      rw [bias]
      omega

/-- What is not below zero, in its unpacked form. -/
inductive NotNegative : UnpackedFloat → Prop where
  | notANumber : NotNegative .notANumber
  | zero (s : Sign) : NotNegative (.zero s)
  | positive {x : UnpackedFloat} (h : Positive x) : NotNegative x

theorem notNegative_unpack {x : Float} (h : Scalar.less x 0 = false) :
    NotNegative x.toModel.unpack := by
  have above : ¬ x.toModel.unpack.lt (.zero .positive) = true := fun below =>
    Bool.eq_false_iff.mp h ((less_iff x 0).mpr below)
  cases hx : x.toModel.unpack with
  | notANumber => exact .notANumber
  | zero s => exact .zero s
  | infinity s =>
      rw [hx] at above
      cases s with
      | positive => exact .positive .infinity
      | negative => exact absurd rfl above
  | finite s m e pos =>
      obtain ⟨short, high⟩ := unpack_finite hx
      rw [hx] at above
      cases s with
      | positive => exact .positive (.finite pos short high)
      | negative => exact absurd rfl above

theorem NotNegative.not_less {x : Float} (h : NotNegative x.toModel.unpack) :
    Scalar.less x 0 = false := by
  rw [← Bool.not_eq_true, less_iff]
  change ¬ x.toModel.unpack.lt (.zero .positive) = true
  generalize x.toModel.unpack = u at h
  rcases h with _ | _ | _ | _ <;> exact Bool.false_ne_true

/-- Zero of either sign. -/
def IsZero (x : UnpackedFloat) : Prop :=
  ∃ s, x = .zero s

theorem isZero_iff (x : Float) : Scalar.isZero x = true ↔ IsZero x.toModel.unpack := by
  change x.toModel.unpack.beq (.zero .positive) = true ↔ _
  rcases x.toModel.unpack with ⟨_ | _⟩ | _ | _ | ⟨_ | _, m, e, pos⟩ <;>
    simp [UnpackedFloat.beq, UnpackedFloat.compare, IsZero]

theorem Positive.not_isZero {x : UnpackedFloat} (h : Positive x) : ¬ IsZero x := by
  rintro ⟨s, rfl⟩
  cases h

/-! ## Sums -/

/-- A value that is not below the smallest positive number is not lost by rounding. -/
theorem exists_round (s : Sign) {m : Nat} (e : Int) (pos : 0 < m) (high : -1074 ≤ e) :
    ∃ m' e' pos', UnpackedFloat.round Format.binary64 s m e = .finite s m' e' pos' ∧
      m' < 2 ^ 53 ∧ -1074 ≤ e' := by
  rw [UnpackedFloat.round, decreaseExponent]
  generalize (e - Format.binary64.targetExponent (totalExponent m e)).toNat = k
  have shifted : 0 < m <<< k := by
    rw [Nat.shiftLeft_eq]
    exact Nat.mul_pos pos (Nat.two_pow_pos k)
  have grows : k ≤ (m <<< k).log2 := by
    rw [Nat.le_log2 shifted.ne', Nat.shiftLeft_eq]
    exact Nat.le_mul_of_pos_left _ pos
  exact exists_roundWithAccuracy s _ shifted (by omega) .exact

theorem Positive.add {x y : UnpackedFloat} (hx : Positive x) (hy : Positive y) :
    Positive (UnpackedFloat.add Format.binary64 x y) := by
  cases hx with
  | infinity => cases hy <;> exact .infinity
  | @finite m e pos short high =>
      cases hy with
      | infinity => exact .infinity
      | @finite m' e' pos' short' high' =>
          have total : 0 < m <<< (e - min e e').toNat + m' <<< (e' - min e e').toNat := by
            rw [Nat.shiftLeft_eq, Nat.shiftLeft_eq]
            positivity
          obtain ⟨_, _, pos, rounded, short, high⟩ :=
            exists_round .positive (min e e') total (by omega)
          change Positive (UnpackedFloat.normalize Format.binary64
            ((m <<< (e - min e e').toNat : Nat) + (m' <<< (e' - min e e').toNat : Nat))
            (min e e') .positive)
          rw [← Int.natCast_add, UnpackedFloat.normalize,
            compare_gt_iff_gt.mpr (Int.natCast_pos.mpr total), Int.toNat_natCast, rounded]
          exact .finite pos short high

/-- Sums are not negative either, and zero just where both numbers are. -/
theorem NotNegative.add {x y : UnpackedFloat} (hx : NotNegative x) (hy : NotNegative y) :
    NotNegative (UnpackedFloat.add Format.binary64 x y) ∧
      (IsZero (UnpackedFloat.add Format.binary64 x y) ↔ IsZero x ∧ IsZero y) := by
  have lost : ¬ IsZero .notANumber := nofun
  cases hx with
  | notANumber => exact ⟨.notANumber, iff_of_false lost fun h => lost h.1⟩
  | zero s =>
      cases hy with
      | notANumber => exact ⟨.notANumber, iff_of_false lost fun h => lost h.2⟩
      | zero t =>
          obtain ⟨u, hu⟩ : IsZero (UnpackedFloat.add Format.binary64 (.zero s) (.zero t)) := by
            cases s <;> cases t <;> exact ⟨_, rfl⟩
          rw [hu]
          exact ⟨.zero u, iff_of_true ⟨u, rfl⟩ ⟨⟨s, rfl⟩, t, rfl⟩⟩
      | positive hy =>
          have same : UnpackedFloat.add Format.binary64 (.zero s) y = y := by cases hy <;> rfl
          rw [same]
          exact ⟨.positive hy, iff_of_false hy.not_isZero fun h => hy.not_isZero h.2⟩
  | positive hx =>
      have none : ∀ P : Prop, ¬ (IsZero x ∧ P) := fun _ h => hx.not_isZero h.1
      cases hy with
      | notANumber => cases hx <;> exact ⟨.notANumber, iff_of_false lost (none _)⟩
      | zero t =>
          have same : UnpackedFloat.add Format.binary64 x (.zero t) = x := by cases hx <;> rfl
          rw [same]
          exact ⟨.positive hx, iff_of_false hx.not_isZero (none _)⟩
      | positive hy =>
          have sum := hx.add hy
          exact ⟨.positive sum, iff_of_false sum.not_isZero (none _)⟩

/-- Storing a value keeps its class. -/
theorem NotNegative.stored {x : UnpackedFloat} (h : NotNegative x) :
    NotNegative (UnpackedFloat.unpack Format.binary64 (UnpackedFloat.pack Format.binary64 x)) ∧
      (IsZero (UnpackedFloat.unpack Format.binary64 (UnpackedFloat.pack Format.binary64 x)) ↔
        IsZero x) := by
  cases h with
  | notANumber =>
      have same : UnpackedFloat.unpack Format.binary64
          (UnpackedFloat.pack Format.binary64 .notANumber) = .notANumber := rfl
      rw [same]
      exact ⟨.notANumber, Iff.rfl⟩
  | zero s =>
      have same : UnpackedFloat.unpack Format.binary64
          (UnpackedFloat.pack Format.binary64 (.zero s)) = .zero s := by cases s <;> rfl
      rw [same]
      exact ⟨.zero s, Iff.rfl⟩
  | positive h =>
      have positive := positive_unpack h.toNat_pack.1 h.toNat_pack.2
      exact ⟨.positive positive, iff_of_false positive.not_isZero h.not_isZero⟩

theorem add_stored {x y : Float} (hx : Scalar.less x 0 = false) (hy : Scalar.less y 0 = false) :
    NotNegative (x + y).toModel.unpack ∧ (IsZero (x + y).toModel.unpack ↔
      IsZero x.toModel.unpack ∧ IsZero y.toModel.unpack) := by
  obtain ⟨sum, zero⟩ := (notNegative_unpack hx).add (notNegative_unpack hy)
  obtain ⟨stored, same⟩ := sum.stored
  exact ⟨stored, same.trans zero⟩

end Decimal

/-- Weights of binary64 vanish only if all of their summands do. -/
instance vanishingSums_float : VanishingSums Float where
  less_add _ _ hx hy := (Decimal.add_stored hx hy).1.not_less
  isZero_add x y hx hy := by
    rw [Bool.eq_iff_iff, Bool.and_eq_true, Decimal.isZero_iff, Decimal.isZero_iff,
      Decimal.isZero_iff]
    exact (Decimal.add_stored hx hy).2

end GraphClustering
