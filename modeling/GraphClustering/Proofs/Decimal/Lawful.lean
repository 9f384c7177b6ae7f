import GraphClustering.Proofs.Decimal.Product
import GraphClustering.Proofs.Graph.Delivery
import GraphClustering.Proofs.Rational

/-!
# Laws that binary64 numbers keep

Sums of rounded numbers depend on their order, but comparisons of rounded numbers do not go
wrong, and zero can be added without harm.  These laws hold of exact weights and of binary64
numbers (`lawful_float`), among which there may be infinities and what is not a number.
-/

namespace GraphClustering

/-- Scalars whose comparisons are a strict weak order of what are numbers, and to whose sums zero
can be added. -/
class LawfulScalar (α : Type) [Scalar α] : Prop where
  less_asymm : ∀ a b : α, Scalar.less a b = true → Scalar.less b a = false
  less_cotrans : ∀ a b c : α, Scalar.less a c = true → Scalar.isNan b = false →
    Scalar.less a b = true ∨ Scalar.less b c = true
  isNan_of_less : ∀ a b : α, Scalar.less a b = true →
    Scalar.isNan a = false ∧ Scalar.isNan b = false
  zero_neutral : View.ZeroNeutral α

/-- Scalars are compared lawfully if they have ranks, all but what is not a number, and are
compared by these. -/
theorem LawfulScalar.of_rank {α β : Type} [Scalar α] [LinearOrder β] (rank : α → Option β)
    (less_iff : ∀ a b, Scalar.less a b = true ↔ ∃ p q, rank a = some p ∧ rank b = some q ∧ p < q)
    (isNan_iff : ∀ a, Scalar.isNan a = true ↔ rank a = none) (neutral : View.ZeroNeutral α) :
    LawfulScalar α where
  less_asymm a b h := by
    obtain ⟨p, q, hp, hq, lt⟩ := (less_iff a b).mp h
    rw [← Bool.not_eq_true, less_iff]
    rintro ⟨q', p', hq', hp', gt⟩
    obtain rfl := Option.some_inj.mp (hp.symm.trans hp')
    obtain rfl := Option.some_inj.mp (hq.symm.trans hq')
    exact lt_asymm lt gt
  less_cotrans a b c h number := by
    obtain ⟨p, r, hp, hr, lt⟩ := (less_iff a c).mp h
    rw [← Bool.not_eq_true, isNan_iff, ← ne_eq, Option.ne_none_iff_exists'] at number
    obtain ⟨q, hq⟩ := number
    rw [less_iff, less_iff]
    exact (lt_or_ge p q).imp (fun above => ⟨p, q, hp, hq, above⟩)
      fun below => ⟨q, r, hq, hr, below.trans_lt lt⟩
  isNan_of_less a b h := by
    obtain ⟨p, q, hp, hq, -⟩ := (less_iff a b).mp h
    simp only [← Bool.not_eq_true, isNan_iff, hp, hq, reduceCtorEq, not_false_eq_true, and_self]
  zero_neutral := neutral

instance ExactScalar.lawful {α : Type} [ExactScalar α] : LawfulScalar α :=
  .of_rank some (fun a b => by simp [less_eq_true_iff]) (fun a => by simp [Scalar.isNan])
    (.of_add_zero add_zero)

instance : LawfulScalar ℚ :=
  @ExactScalar.lawful ℚ exactRat

namespace Decimal

open Float.Model Float.Model.UnpackedFloat

/-! ## Comparisons -/

/-- The rank of a value: infinities outside, zeros in the middle, and other values by their
exponents first. -/
def rank : UnpackedFloat → Option (ℤ ×ₗ ℤ ×ₗ ℤ)
  | .notANumber => none
  | .infinity .negative => some (toLex (-2, toLex (0, 0)))
  | .finite .negative m e _ => some (toLex (-1, toLex (-e, -m)))
  | .zero _ => some (toLex (0, toLex (0, 0)))
  | .finite .positive m e _ => some (toLex (1, toLex (e, m)))
  | .infinity .positive => some (toLex (2, toLex (0, 0)))

theorem lt_iff (x y : UnpackedFloat) :
    x.lt y = true ↔ ∃ p q, rank x = some p ∧ rank y = some q ∧ p < q := by
  -- the classes decide unless both are infinite or both finite and of one sign
  rcases x with ⟨_ | _⟩ | _ | _ | ⟨_ | _, m, e, hm⟩ <;>
    rcases y with ⟨_ | _⟩ | _ | _ | ⟨_ | _, m', e', hm'⟩ <;>
    simp [UnpackedFloat.lt, UnpackedFloat.compare, rank, Prod.Lex.lt_iff]
  case infinity.negative.infinity.positive => rfl
  case finite.negative.finite.negative =>
    rw [Ordering.then_eq_gt, compare_gt_iff_gt, compare_gt_iff_gt, compare_eq_iff_eq]
  case finite.positive.finite.positive =>
    rw [Ordering.then_eq_lt, compare_lt_iff_lt, compare_lt_iff_lt, compare_eq_iff_eq]

theorem le_iff (x y : UnpackedFloat) :
    x.le y = true ↔ ∃ p q, rank x = some p ∧ rank y = some q ∧ p ≤ q := by
  rcases x with ⟨_ | _⟩ | _ | _ | ⟨_ | _, m, e, hm⟩ <;>
    rcases y with ⟨_ | _⟩ | _ | _ | ⟨_ | _, m', e', hm'⟩ <;>
    simp [UnpackedFloat.le, UnpackedFloat.compare, rank, Prod.Lex.le_iff]
  case finite.negative.finite.negative =>
    rw [Ordering.isGE_iff_ne_lt, Ordering.then_eq_lt, compare_lt_iff_lt, compare_lt_iff_lt,
      compare_eq_iff_eq]
    omega
  case finite.positive.finite.positive =>
    rw [Ordering.isLE_iff_ne_gt, Ordering.then_eq_gt, compare_gt_iff_gt, compare_gt_iff_gt,
      compare_eq_iff_eq]
    omega
  all_goals rfl

theorem less_iff (a b : Float) :
    Scalar.less a b = true ↔ a.toModel.unpack.lt b.toModel.unpack = true := by
  change decide (a < b) = true ↔ _
  rw [decide_eq_true_iff]
  change decide (a.toModel < b.toModel) = true ↔ _
  exact decide_eq_true_iff

theorem isNaN_iff (x : UnpackedFloat) : x.isNaN = true ↔ rank x = none := by
  rcases x with ⟨_ | _⟩ | _ | _ | ⟨_ | _, m, e, hm⟩ <;> simp [UnpackedFloat.isNaN, rank]

/-! ## Bits -/

theorem toBitVec_ofBitVec (s : BitVec 1) : (Sign.ofBitVec s).toBitVec = s := by
  rcases BitVec.eq_zero_or_eq_one s with rfl | rfl <;> rfl

/-- Bits are made of a sign, an exponent and a mantissa. -/
theorem packComponents_unpack (b : BitVec 64) : packComponents Format.binary64
    (Sign.ofBitVec (@unpackSign Format.binary64 b)) (@unpackExponent Format.binary64 b)
      (@unpackMantissa Format.binary64 b) = b := by
  have sign : (@unpackSign Format.binary64 b).toNat = b.toNat / 2 ^ 63 % 2 := by
    rw [unpackSign, BitVec.toNat_cast, BitVec.extractLsb_toNat, Nat.shiftRight_eq_div_pow]
    rfl
  have size : b.toNat < 2 ^ 64 := b.isLt
  refine BitVec.eq_of_toNat_eq ?_
  rw [packComponents, toBitVec_ofBitVec, BitVec.toNat_append, BitVec.toNat_append,
    ← Nat.shiftLeft_add_eq_or_of_lt (BitVec.isLt _),
    ← Nat.shiftLeft_add_eq_or_of_lt (BitVec.isLt _), Nat.shiftLeft_eq, Nat.shiftLeft_eq, sign,
    toNat_unpackExponent, toNat_unpackMantissa]
  change (b.toNat / 2 ^ 63 % 2 * 2 ^ 11 + b.toNat / 2 ^ 52 % 2 ^ 11) * 2 ^ 52 + b.toNat % 2 ^ 52 = _
  omega

/-- A subnormal value is stored with a zero exponent. -/
theorem pack_subnormal (s : Sign) {m : Nat} (pos : 0 < m) (short : m < 2 ^ 52) :
    UnpackedFloat.pack Format.binary64 (.finite s m (-1074) pos) =
      packComponents Format.binary64 s 0#11 (BitVec.ofNat 52 m) := by
  have few := (Nat.log2_lt pos.ne').mpr short
  rw [pack_finite, if_neg (by decide), if_neg (by omega)]

/-- A normal value is stored with its exponent and without its leading bit. -/
theorem pack_normal (s : Sign) {m k : Nat} (pos : 0 < m) (long : 2 ^ 52 ≤ m) (short : m < 2 ^ 53)
    (low : k < 2047) : UnpackedFloat.pack Format.binary64 (.finite s m (k - 1075) pos) =
      packComponents Format.binary64 s (BitVec.ofNat 11 k) (BitVec.ofNat 52 m) := by
  have digits : m.log2 + 1 = 53 := by
    have := (Nat.le_log2 pos.ne').mpr long
    have := (Nat.log2_lt pos.ne').mpr short
    omega
  have biased : ((k : Int) - 1075 + 1023 + 52).toNat = k := by omega
  rw [pack_finite, biased, if_neg (by omega), if_pos digits]

/-- What valid bits stand for is stored in the same bits. -/
theorem pack_unpack {b : BitVec 64} (valid : Format.binary64.Valid b) :
    UnpackedFloat.pack Format.binary64 (UnpackedFloat.unpack Format.binary64 b) = b := by
  have bias (z : Int) : z - (Format.binary64.exponentBias +
      Format.binary64.mantissaBitsWithoutImplicit) = z - 1075 := rfl
  have parts := packComponents_unpack b
  have short : (@unpackMantissa Format.binary64 b).toNat < 2 ^ 52 := BitVec.isLt _
  have low : (@unpackExponent Format.binary64 b).toNat < 2 ^ 11 := BitVec.isLt _
  rw [UnpackedFloat.unpack]
  dsimp only
  split
  · rename_i top
    rw [top] at parts
    split
    · rename_i none
      rw [none] at parts
      exact parts
    · rename_i some
      exact (valid.eq_packedNaN top some).symm
  · rename_i top
    split
    · rename_i bottom
      rw [bottom] at parts
      split
      · rename_i none
        rw [none] at parts
        exact parts
      · rw [bottom]
        refine (pack_subnormal _ _ short).trans ?_
        rw [BitVec.ofNat_toNat, BitVec.setWidth_eq]
        exact parts
    · have high : (@unpackExponent Format.binary64 b).toNat ≠ 2047 := fun all =>
        top (BitVec.eq_of_toNat_eq all)
      have implicit := toNat_implicit (@unpackMantissa Format.binary64 b)
      have stored : BitVec.ofNat 52 (1#1 ++ @unpackMantissa Format.binary64 b).toNat =
          @unpackMantissa Format.binary64 b := by
        rw [← BitVec.toNat_inj, BitVec.toNat_ofNat, implicit, Nat.add_mod_left,
          Nat.mod_eq_of_lt short]
      refine (pack_normal _ _ (by omega) (by omega) (by omega)).trans ?_
      rw [stored, BitVec.ofNat_toNat, BitVec.setWidth_eq]
      exact parts

theorem pack_unpack_model (x : Float.Model) : pack x.unpack = x := by
  obtain ⟨bits, valid⟩ := x
  rw [Float.Model.mk.injEq]
  exact congrArg UInt64.ofBitVec (pack_unpack valid)

/-! ## Zero -/

/-- What comes of adding to zero can be stored, and zero can be added to it again. -/
theorem zero_add_cases (x : Float.Model) :
    let sum := UnpackedFloat.add Format.binary64 (.zero .positive) x.unpack
    (pack sum).unpack = sum ∧ UnpackedFloat.add Format.binary64 sum (.zero .positive) = sum := by
  have stored : (pack x.unpack).unpack = x.unpack := by rw [pack_unpack_model]
  dsimp only
  generalize x.unpack = u at stored ⊢
  cases u with
  | zero s => cases s <;> exact ⟨rfl, rfl⟩
  | infinity s => exact ⟨stored, rfl⟩
  | notANumber => exact ⟨stored, rfl⟩
  | finite s m e pos => exact ⟨stored, rfl⟩

theorem zeroNeutral_float : View.ZeroNeutral Float where
  zero := rfl
  sum x := by
    obtain ⟨stored, again⟩ := zero_add_cases x.toModel
    change Float.ofModel (pack (UnpackedFloat.add Format.binary64 (pack (UnpackedFloat.add
      Format.binary64 (.zero .positive) x.toModel.unpack)).unpack (.zero .positive))) = _
    rw [stored, again]
    rfl

end Decimal

/-- Binary64 numbers keep the laws. -/
instance lawful_float : LawfulScalar Float :=
  .of_rank (fun x => Decimal.rank x.toModel.unpack)
    (fun a b => (Decimal.less_iff a b).trans (Decimal.lt_iff _ _))
    (fun _ => Decimal.isNaN_iff _) Decimal.zeroNeutral_float

end GraphClustering
