import GraphClustering.Proofs.Number

/-!
# Products of positive binary64 numbers

A positive number times one that is at least one is positive in binary64 as well: the exact
product is no less than the smallest positive number, so that rounding cannot lose it
(`mul_positive`).  The bits of positive numbers are those from one up to the bits of
infinity, and the number nearest to a positive whole number is at least one.
-/

namespace GraphClustering.Decimal

open Float.Model Float.Model.UnpackedFloat

/-! ## Rounding -/

theorem mantissa_shiftRight (em : ExtendedMantissa) (k : Nat) :
    (em >>> k).mantissa = em.mantissa / 2 ^ k := by
  induction k with
  | zero => exact (Nat.div_one _).symm
  | succ k ih =>
      change (em >>> k).mantissa / 2 = _
      rw [ih, Nat.div_div_eq_div_mul, Nat.pow_succ]

theorem le_roundedMantissa (em : ExtendedMantissa) : em.mantissa ≤ em.roundedMantissa := by
  obtain ⟨m, r, s⟩ := em
  cases r <;> cases s <;> simp [ExtendedMantissa.roundedMantissa, ExtendedMantissa.accuracy,
    Accuracy.roundToNearestEven]

/-- Shifting a mantissa to its place keeps at most 53 bits, and at least one unless the value
is below the smallest positive number. -/
theorem shiftToTargetExponent_bounds {m : Nat} (e : Int) (pos : 0 < m)
    (high : -1074 ≤ m.log2 + e) (accuracy : Accuracy) :
    let shifted := shiftToTargetExponent Format.binary64 m e accuracy
    0 < shifted.1.mantissa ∧ shifted.1.mantissa < 2 ^ 53 ∧ -1074 ≤ shifted.2 := by
  have start : (ExtendedMantissa.ofMantissaAndAccuracy m accuracy).mantissa = m := by
    cases accuracy with
    | exact => rfl
    | inexact o => cases o <;> rfl
  have target : Format.binary64.targetExponent (totalExponent m e) =
      max (m.log2 + 1 + e - 53) (-1074) := rfl
  rw [shiftToTargetExponent, shiftToExponent, target]
  dsimp only
  rw [mantissa_shiftRight, start]
  refine ⟨Nat.div_pos ?_ (Nat.two_pow_pos _), ?_, by omega⟩
  · calc 2 ^ (max (m.log2 + 1 + e - 53) (-1074) - e).toNat
      _ ≤ 2 ^ m.log2 := Nat.pow_le_pow_right Nat.two_pos (by omega)
      _ ≤ m := Nat.log2_self_le pos.ne'
  · rw [Nat.div_lt_iff_lt_mul (Nat.two_pow_pos _), ← Nat.pow_add]
    calc m
      _ < 2 ^ (m.log2 + 1) := Nat.lt_log2_self
      _ ≤ _ := Nat.pow_le_pow_right Nat.two_pos (by omega)

/-- A value that is not below the smallest positive number is not lost by rounding. -/
theorem exists_roundWithAccuracy (s : Sign) {m : Nat} (e : Int) (pos : 0 < m)
    (high : -1074 ≤ m.log2 + e) (accuracy : Accuracy) : ∃ m' e' pos',
      roundWithAccuracy Format.binary64 s m e accuracy = .finite s m' e' pos' ∧
        m' < 2 ^ 53 ∧ -1074 ≤ e' := by
  obtain ⟨pos, -, high⟩ := shiftToTargetExponent_bounds e pos high accuracy
  rw [roundWithAccuracy]
  generalize shiftToTargetExponent Format.binary64 m e accuracy = first at pos high
  have rounded := pos.trans_le (le_roundedMantissa first.1)
  obtain ⟨pos, short, high⟩ := shiftToTargetExponent_bounds first.2 rounded (by omega) .exact
  dsimp only
  rw [dif_neg pos.ne']
  exact ⟨_, _, _, rfl, short, high⟩

/-! ## Positive numbers -/

/-- A positive value in its unpacked form. -/
inductive Positive : UnpackedFloat → Prop where
  | infinity : Positive (.infinity .positive)
  | finite {m : Nat} {e : Int} (pos : 0 < m) (short : m < 2 ^ 53) (high : -1074 ≤ e) :
      Positive (.finite .positive m e pos)

/-- A value of at least one in its unpacked form. -/
inductive AtLeastOne : UnpackedFloat → Prop where
  | infinity : AtLeastOne (.infinity .positive)
  | finite {m : Nat} {e : Int} (pos : 0 < m) (long : 2 ^ 52 ≤ m) (short : m < 2 ^ 53)
      (high : -52 ≤ e) : AtLeastOne (.finite .positive m e pos)

theorem AtLeastOne.positive {x : UnpackedFloat} (h : AtLeastOne x) : Positive x := by
  cases h with
  | infinity => exact .infinity
  | finite pos long short high => exact .finite pos short (by omega)

theorem Positive.mul {x y : UnpackedFloat} (hx : Positive x) (hy : AtLeastOne y) :
    Positive (UnpackedFloat.mul Format.binary64 x y) := by
  cases hx with
  | infinity => cases hy <;> exact .infinity
  | @finite m e pos short high =>
      cases hy with
      | infinity => exact .infinity
      | @finite m' e' pos' long' short' high' =>
          have grows : m.log2 + 52 ≤ (m * m').log2 := by
            rw [Nat.le_log2 (Nat.mul_pos pos pos').ne', Nat.pow_add]
            exact Nat.mul_le_mul (Nat.log2_self_le pos.ne') long'
          obtain ⟨_, _, pos, rounded, short, high⟩ :=
            exists_roundWithAccuracy .positive (e + e') (Nat.mul_pos pos pos') (by omega) .exact
          rw [UnpackedFloat.mul]
          change Positive (roundWithAccuracy Format.binary64 .positive _ _ _)
          rw [rounded]
          exact .finite pos short high

/-! ## Bits -/

/-- The bits of infinity. -/
def infinityBits : Nat := 2047 * 2 ^ 52

/-- The bits of one. -/
def oneBits : Nat := 1023 * 2 ^ 52

theorem toNat_packComponents (e : BitVec 11) (m : BitVec 52) :
    (packComponents Format.binary64 .positive e m).toNat = e.toNat * 2 ^ 52 + m.toNat := by
  rw [packComponents, BitVec.toNat_append, BitVec.toNat_append, Sign.toBitVec,
    ← Nat.shiftLeft_add_eq_or_of_lt m.isLt, Nat.shiftLeft_eq]
  simp

theorem pack_finite (s : Sign) {m : Nat} {e : Int} (pos : 0 < m) :
    UnpackedFloat.pack Format.binary64 (.finite s m e pos) =
      if 2 ^ 11 ≤ (e + 1023 + 52).toNat + 1 then packedInfinity Format.binary64 s
      else if m.log2 + 1 = 53 then packComponents Format.binary64 s
        (BitVec.ofNat 11 (e + 1023 + 52).toNat) (BitVec.ofNat 52 m)
      else packComponents Format.binary64 s 0#11 (BitVec.ofNat 52 m) :=
  rfl

theorem Positive.toNat_pack {x : UnpackedFloat} (h : Positive x) :
    0 < (UnpackedFloat.pack Format.binary64 x).toNat ∧
      (UnpackedFloat.pack Format.binary64 x).toNat ≤ infinityBits := by
  cases h with
  | infinity => decide
  | @finite m e pos short high =>
      rw [pack_finite]
      split
      · decide
      · split
        · rw [toNat_packComponents, BitVec.toNat_ofNat, BitVec.toNat_ofNat, infinityBits]
          omega
        · rename_i few
          have short : m < 2 ^ 52 := by
            have := (Nat.log2_lt pos.ne').mpr short
            exact (Nat.log2_lt pos.ne').mp (by omega)
          rw [toNat_packComponents, BitVec.toNat_zero, BitVec.toNat_ofNat, Nat.mod_eq_of_lt short,
            infinityBits]
          omega

theorem AtLeastOne.toNat_pack {x : UnpackedFloat} (h : AtLeastOne x) :
    oneBits ≤ (UnpackedFloat.pack Format.binary64 x).toNat := by
  cases h with
  | infinity => decide
  | @finite m e pos long short high =>
      have digits : m.log2 + 1 = 53 := by
        have := (Nat.le_log2 pos.ne').mpr long
        have := (Nat.log2_lt pos.ne').mpr short
        omega
      rw [pack_finite, if_pos digits]
      split
      · decide
      · rw [toNat_packComponents, BitVec.toNat_ofNat, BitVec.toNat_ofNat, oneBits]
        omega

theorem toNat_unpackExponent (b : BitVec 64) :
    (@unpackExponent Format.binary64 b).toNat = b.toNat / 2 ^ 52 % 2 ^ 11 := by
  rw [unpackExponent, BitVec.toNat_cast, BitVec.extractLsb_toNat, Nat.shiftRight_eq_div_pow]
  rfl

theorem toNat_unpackMantissa (b : BitVec 64) :
    (@unpackMantissa Format.binary64 b).toNat = b.toNat % 2 ^ 52 := by
  rw [unpackMantissa, BitVec.toNat_cast, BitVec.extractLsb_toNat, Nat.shiftRight_zero]
  rfl

/-- The mantissa of a normal number has a leading bit that is not stored. -/
theorem toNat_implicit (m : BitVec 52) : (1#1 ++ m).toNat = 2 ^ 52 + m.toNat := by
  rw [BitVec.toNat_append, ← Nat.shiftLeft_add_eq_or_of_lt m.isLt]
  rfl

theorem unpackSign_of_lt {b : BitVec 64} (h : b.toNat < 2 ^ 63) :
    @unpackSign Format.binary64 b = 0#1 := by
  rw [← BitVec.toNat_inj, unpackSign, BitVec.toNat_cast, BitVec.extractLsb_toNat,
    Nat.shiftRight_eq_div_pow]
  exact congrArg (· % 2) (Nat.div_eq_of_lt h)

/-- What positive bits stand for. -/
theorem unpack_cases {b : BitVec 64} (pos : 0 < b.toNat) (le : b.toNat ≤ infinityBits) :
    UnpackedFloat.unpack Format.binary64 b = .infinity .positive ∨ ∃ m e pos',
      UnpackedFloat.unpack Format.binary64 b = .finite .positive m e pos' ∧
        m < 2 ^ 53 ∧ -1074 ≤ e ∧ (oneBits ≤ b.toNat → 2 ^ 52 ≤ m ∧ -52 ≤ e) := by
  rw [infinityBits] at le
  have sign : Sign.ofBitVec (@unpackSign Format.binary64 b) = .positive := by
    rw [unpackSign_of_lt (by omega)]
    rfl
  have exponent := toNat_unpackExponent b
  have mantissa := toNat_unpackMantissa b
  rw [UnpackedFloat.unpack, sign]
  dsimp only
  have bias (z : Int) : z - (Format.binary64.exponentBias +
      Format.binary64.mantissaBitsWithoutImplicit) = z - 1075 := rfl
  split
  · rename_i top
    have top : (@unpackExponent Format.binary64 b).toNat = 2047 := by rw [top]; rfl
    rw [if_pos]
    · exact .inl rfl
    · rw [← BitVec.toNat_inj, mantissa]
      change _ = 0
      omega
  · split
    · rename_i bottom
      have bottom : (@unpackExponent Format.binary64 b).toNat = 0 := by rw [bottom]; rfl
      have some : 0 < (@unpackMantissa Format.binary64 b).toNat := by omega
      split
      · rename_i none
        rw [none] at some
        cases some
      · refine .inr ⟨_, _, some, rfl, ?_, ?_, ?_⟩
        · omega
        · rw [bias]
          omega
        · rw [oneBits]
          omega
    · rename_i bottom
      have bottom : (@unpackExponent Format.binary64 b).toNat ≠ 0 := fun none =>
        bottom (BitVec.eq_of_toNat_eq none)
      have implicit : (1#1 ++ @unpackMantissa Format.binary64 b).toNat =
          2 ^ 52 + b.toNat % 2 ^ 52 := by
        rw [← mantissa]
        exact toNat_implicit _
      refine .inr ⟨_, _, implicit ▸ by omega, rfl, ?_, ?_, ?_⟩
      · rw [implicit]
        omega
      · rw [bias]
        omega
      · rw [bias, implicit, oneBits]
        omega

theorem positive_unpack {b : BitVec 64} (pos : 0 < b.toNat) (le : b.toNat ≤ infinityBits) :
    Positive (UnpackedFloat.unpack Format.binary64 b) := by
  rcases unpack_cases pos le with top | ⟨m, e, pos', finite, short, high, -⟩
  · rw [top]
    exact .infinity
  · rw [finite]
    exact .finite pos' short high

theorem atLeastOne_unpack {b : BitVec 64} (one : oneBits ≤ b.toNat)
    (le : b.toNat ≤ infinityBits) : AtLeastOne (UnpackedFloat.unpack Format.binary64 b) := by
  rcases unpack_cases ((by decide : 0 < oneBits).trans_le one) le with
    top | ⟨m, e, pos', finite, short, -, large⟩
  · rw [top]
    exact .infinity
  · rw [finite]
    exact .finite pos' (large one).1 short (large one).2

/-! ## Products -/

/-- Bits from `low` up to those of infinity, which positive numbers have. -/
def BitsFrom (low : Nat) (x : Float) : Prop :=
  low ≤ x.toBits.toNat ∧ x.toBits.toNat ≤ infinityBits

theorem bitsFrom_ofBits {b : Nat} (one : oneBits ≤ b) (le : b ≤ infinityBits) :
    BitsFrom oneBits (Float.ofBits (.ofNat b)) := by
  have bits : (UInt64.ofNat b).toBitVec.toNat = b := by
    rw [infinityBits] at le
    exact Nat.mod_eq_of_lt (by omega)
  have large := atLeastOne_unpack (b := (UInt64.ofNat b).toBitVec) (bits.symm ▸ one) (bits.symm ▸ le)
  exact ⟨large.toNat_pack, large.positive.toNat_pack.2⟩

/-- A positive number stays positive when it is multiplied by one that is at least one. -/
theorem bitsFrom_mul {x y : Float} (hx : BitsFrom 1 x) (hy : BitsFrom oneBits y) :
    BitsFrom 1 (x * y) :=
  ((positive_unpack hx.1 hx.2).mul (atLeastOne_unpack hy.1 hy.2)).toNat_pack

theorem le_roundDiv (num den : Nat) : num / den ≤ roundDiv num den := by
  rw [roundDiv]
  split
  · exact le_rfl
  · split
    · exact Nat.le_succ _
    · exact Nat.le_add_right _ _

theorem nearestBits_le (r : Ratio) : nearestBits r ≤ infinityBits := by
  rw [nearestBits]
  split
  · exact Nat.zero_le _
  · exact Nat.min_le_right _ _

/-- The number nearest to a positive whole number is at least one. -/
theorem oneBits_le_nearestBits {n : Nat} (pos : 0 < n) : oneBits ≤ nearestBits ⟨n, 1⟩ := by
  have top : 2 ^ n.log2 ≤ n := Nat.log2_self_le pos.ne'
  have gap : (Nat.log2 n : Int) - Nat.log2 1 = .ofNat n.log2 := by
    rw [show Nat.log2 1 = 0 from rfl]
    exact Int.sub_zero _
  have high : -1074 ≤ Int.ofNat n.log2 - 52 := by
    rw [Int.ofNat_eq_natCast]
    omega
  rw [nearestBits, if_neg pos.ne']
  simp only [gap]
  rw [decide_eq_false (by rw [Nat.one_mul]; exact Nat.not_lt.mpr top), if_neg Bool.false_ne_true,
    max_eq_left high]
  have reached (mantissa : Nat) (long : 2 ^ 52 ≤ mantissa) :
      oneBits ≤ (Int.ofNat n.log2 - 52 + 1074).toNat * Nat.pow 2 52 + mantissa := by
    refine le_trans ?_ (Nat.add_le_add_left long _)
    rw [oneBits, Int.ofNat_eq_natCast, Nat.pow_eq]
    omega
  refine Nat.le_min.mpr ⟨reached _ ?_, by decide⟩
  -- The mantissa has 53 bits, whether bits are rounded away or zeros added.
  rcases Nat.lt_or_ge n.log2 52 with small | large
  · obtain ⟨k, hk⟩ := Nat.exists_eq_add_of_lt small
    rw [show Int.ofNat n.log2 - 52 = .negSucc k by rw [Int.ofNat_eq_natCast]; omega]
    dsimp only
    rw [roundDiv_one, Nat.pow_eq, hk, Nat.add_assoc, Nat.pow_add]
    exact Nat.mul_le_mul_right _ top
  · obtain ⟨k, hk⟩ := Nat.exists_eq_add_of_le large
    rw [show Int.ofNat n.log2 - 52 = .ofNat k by simp only [Int.ofNat_eq_natCast]; omega]
    refine le_trans ?_ (le_roundDiv _ _)
    rw [Nat.one_mul, Nat.pow_eq, Nat.le_div_iff_mul_le (Nat.two_pow_pos k), ← Nat.pow_add, ← hk]
    exact top

theorem bitsFrom_nearest {n : Nat} (pos : 0 < n) : BitsFrom oneBits (nearest false ⟨n, 1⟩) :=
  bitsFrom_ofBits (oneBits_le_nearestBits pos) (nearestBits_le _)

end GraphClustering.Decimal

namespace GraphClustering.Number

open Decimal

/-! ## Comparison with zero -/

theorem lessExact_zero_finite (s : Bool) (m : Nat) (e : Int) :
    lessExact (.finite false 0 0) (.finite s m e) = true ↔ s = false ∧ 0 < m := by
  have scale : 0 < ((Nat.pow 2 (e - min 0 e).toNat : Nat) : Int) :=
    Int.natCast_pos.mpr (Nat.two_pow_pos _)
  rw [lessExact, decide_eq_true_iff, aligned, aligned, if_neg Bool.false_ne_true, Int.natCast_zero,
    Int.zero_mul]
  cases s with
  | true =>
      refine iff_of_false ?_ fun h => Bool.false_ne_true h.1.symm
      rw [if_pos rfl, Int.not_lt]
      exact Int.neg_nonpos_of_nonneg (Int.mul_nonneg (Int.natCast_nonneg m) scale.le)
  | false =>
      rw [if_neg Bool.false_ne_true, mul_pos_iff_of_pos_right scale, Int.natCast_pos]
      exact (and_iff_right rfl).symm

/-- The positive numbers are those above zero. -/
theorem less_zero_real_iff (x : Float) : less (.int 0) (.real x) = true ↔ BitsFrom 1 x := by
  have size : x.toBits.toNat < 2 ^ 64 := x.toBits.toNat_lt
  change lessExact (.finite false 0 0) (.ofBits x.toBits.toNat) = true ↔ _
  rw [BitsFrom, infinityBits, Binary64.ofBits]
  generalize x.toBits.toNat = b at size
  change lessExact (.finite false 0 0) (if b / 2 ^ 52 % 2 ^ 11 = 2047 then
    if b % 2 ^ 52 = 0 then .infinite (decide (2 ^ 63 ≤ b)) else .nan
    else if b / 2 ^ 52 % 2 ^ 11 = 0 then .finite (decide (2 ^ 63 ≤ b)) (b % 2 ^ 52) (-1074)
    else .finite (decide (2 ^ 63 ≤ b)) (2 ^ 52 + b % 2 ^ 52)
      ((b / 2 ^ 52 % 2 ^ 11 : Nat) - 1075)) = true ↔ _
  split
  · split
    · rw [lessExact, Bool.not_eq_true', decide_eq_false_iff_not]
      omega
    · refine iff_of_false Bool.false_ne_true ?_
      omega
  · split
    · rw [lessExact_zero_finite, decide_eq_false_iff_not]
      omega
    · rw [lessExact_zero_finite, decide_eq_false_iff_not]
      omega

end GraphClustering.Number
