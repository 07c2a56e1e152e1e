import Mathlib.Algebra.Group.Nat.Defs
import PdfPrimitives.Numeral.Single
import PdfPrimitives.Proofs.Scalar.Order

/-!
Finite numbers. What a scalar type says about them by itself is kept apart from what is
expected of its functions. For binary64 numbers the former follows from their patterns: a
number is finite unless its exponent is the largest one, which no 32-bit integer comes near.
-/

namespace PdfPrimitives

/-- Scalars of which the finite ones are numbers, among them all 32-bit integers and all
numbers that have the pattern of a finite one. -/
class FiniteScalar (α : Type) [Elementary α] : Prop where
  number_of_finite : ∀ {x : α}, Scalar.isFinite x → Scalar.isNaN x = false
  zero : Scalar.isFinite (0.0 : α)
  ofInt : ∀ n : Int32, Scalar.isFinite (Scalar.ofInt n.toInt : α)
  ofBits : ∀ {bits : UInt64}, Numeral.isFiniteDouble bits →
    Scalar.isFinite (Elementary.ofBits bits : α)

/-- Functions that are finite at finite numbers, where they are defined. An angle grows when
it is turned into degrees, so that this is expected of the angles of points only. -/
class FiniteFunctions (α : Type) [Elementary α] : Prop where
  floor : ∀ {x : α}, Scalar.isFinite x → Scalar.isFinite (Scalar.floor x)
  ceiling : ∀ {x : α}, Scalar.isFinite x → Scalar.isFinite (Elementary.ceiling x)
  truncate : ∀ {x : α}, Scalar.isFinite x → Scalar.isFinite (Elementary.truncate x)
  addHalf : ∀ {x : α}, Scalar.isFinite x → Scalar.isFinite (x + 0.5)
  sqrt : ∀ {x : α}, Scalar.isFinite x → ¬x < 0.0 → Scalar.isFinite (Elementary.sqrt x)
  ln : ∀ {x : α}, Scalar.isFinite x → ¬x ≤ 0.0 → Scalar.isFinite (Elementary.ln x)
  log : ∀ {x : α}, Scalar.isFinite x → ¬x ≤ 0.0 → Scalar.isFinite (Elementary.log x)
  radians : ∀ {x : α}, Scalar.isFinite x → Scalar.isFinite (Elementary.radiansOfDegrees x)
  sin : ∀ {x : α}, Scalar.isFinite x → Scalar.isFinite (Elementary.sin x)
  cos : ∀ {x : α}, Scalar.isFinite x → Scalar.isFinite (Elementary.cos x)
  angle : ∀ {y x : α}, Scalar.isFinite y → Scalar.isFinite x →
    Scalar.isFinite (Elementary.degreesOfRadians (Elementary.atan y x))
  addTurn : ∀ {x : α}, Scalar.isFinite x → x < 0.0 → Scalar.isFinite (x + 360.0)

namespace Double

open Float.Model UnpackedFloat

def Fits (size : Nat) (limit : ℤ) : UnpackedFloat → Prop
  | .zero _ => True
  | .finite _ mantissa exponent _ => mantissa < 2 ^ size ∧ exponent ≤ limit
  | .infinity _ | .notANumber => False

section Fits

variable {size : Nat} {limit : ℤ} {x : UnpackedFloat}

theorem isFinite_of_fits (fits : Fits size limit x) : x.isFinite = true := by
  cases x with
  | infinity | notANumber => exact fits.elim
  | zero | finite => rfl

theorem isNaN_of_isFinite (finite : x.isFinite = true) : x.isNaN = false := by
  cases x with
  | infinity | notANumber => cases finite
  | zero | finite => rfl

theorem fits_neg (fits : Fits size limit x) : Fits size limit x.neg := by
  cases x with
  | infinity | notANumber => exact fits.elim
  | zero => trivial
  | finite => exact fits

theorem bias_eq : Format.binary64.exponentBias = 1023 := rfl

theorem target_eq (total : ℤ) :
    Format.binary64.targetExponent total = max (total - 53) (-1074) := rfl

/-- The exponent of a number is the one that its pattern holds, less a constant. -/
theorem fits_unpack (bits : BitVec 64)
    (unmarked : (@unpackExponent .binary64 bits).toNat ≠ 2047) (low : -1074 ≤ limit)
    (below : ((@unpackExponent .binary64 bits).toNat : ℤ) - 1075 ≤ limit) :
    Fits 53 limit (unpack .binary64 bits) := by
  have finite : @unpackExponent .binary64 bits ≠ -1#_ := by
    intro ones
    apply unmarked
    rw [ones]
    rfl
  have mantissa := (@unpackMantissa .binary64 bits).isLt
  dsimp only at mantissa
  unfold UnpackedFloat.unpack
  dsimp only
  rw [if_neg finite, bias_eq]
  by_cases subnormal : @unpackExponent .binary64 bits = 0#_
  · rw [if_pos subnormal, subnormal]
    by_cases empty : @unpackMantissa .binary64 bits = 0#_
    · rw [dif_pos empty]
      trivial
    · rw [dif_neg empty]
      exact ⟨by omega, low⟩
  · rw [if_neg subnormal]
    exact ⟨(1#1 ++ @unpackMantissa .binary64 bits).isLt, by omega⟩

theorem fits_packComponents (sign : Sign) (exponent : BitVec 11) (mantissa : BitVec 52)
    (unmarked : exponent.toNat ≠ 2047) (low : -1074 ≤ limit)
    (below : (exponent.toNat : ℤ) - 1075 ≤ limit) :
    Fits 53 limit (unpack .binary64 (packComponents .binary64 sign exponent mantissa)) := by
  apply fits_unpack
  · rwa [unpackExponent_packComponents]
  · exact low
  · rwa [unpackExponent_packComponents]

/-- Numbers with a small exponent are kept as finite ones. -/
theorem fits_pack (fits : Fits size limit x) (low : -1074 ≤ limit) (high : limit ≤ 971) :
    Fits 53 limit (unpack .binary64 (pack .binary64 x)) := by
  have least : ((0#11).toNat : ℤ) - 1075 ≤ limit := by
    rw [BitVec.toNat_zero]
    omega
  cases x with
  | infinity | notANumber => exact fits.elim
  | zero sign => exact fits_packComponents sign 0 0 (by decide) low least
  | finite sign mantissa exponent positive =>
    have below := fits.2
    unfold UnpackedFloat.pack
    dsimp only
    rw [bias_eq]
    split
    · omega
    · split
      · apply fits_packComponents _ _ _ _ low
        · rw [BitVec.toNat_ofNat]
          omega
        · rw [BitVec.toNat_ofNat]
          omega
      · exact fits_packComponents sign 0 _ (by decide) low least

end Fits

section Rounding

theorem mantissa_shifted_le (shift : Nat) (x : ExtendedMantissa) :
    (x >>> shift).mantissa ≤ x.mantissa := by
  change (shift.repeat ExtendedMantissa.shiftRightOne x).mantissa ≤ _
  induction shift with
  | zero => exact Nat.le_refl _
  | succ shift ih => exact Nat.le_trans (Nat.div_le_self _ 2) ih

theorem mantissa_rounded_le (x : ExtendedMantissa) : x.roundedMantissa ≤ x.mantissa + 1 := by
  rcases x with ⟨mantissa, _ | _, _ | _⟩
  · exact Nat.le_succ _
  · exact Nat.le_succ _
  · exact Nat.add_le_add_left (Nat.le_of_lt_succ (Nat.mod_lt _ (by decide))) _
  · exact Nat.le_refl _

variable {mantissa size : Nat} {exponent : ℤ} (limit : ℤ)

theorem shiftToTarget_le (accuracy : Accuracy) (small : mantissa < 2 ^ size)
    (below : exponent ≤ limit) (low : -1074 ≤ limit) :
    (shiftToTargetExponent .binary64 mantissa exponent accuracy).1.mantissa ≤ mantissa ∧
    (shiftToTargetExponent .binary64 mantissa exponent accuracy).2 ≤ limit + size := by
  constructor
  · apply Nat.le_trans (mantissa_shifted_le _ _)
    rcases accuracy with _ | _ | _ | _ <;> exact Nat.le_refl _
  · have digits : mantissa.log2 ≤ size := by
      rcases Nat.eq_zero_or_pos mantissa with rfl | positive
      · exact Nat.zero_le _
      · exact Nat.le_of_lt ((Nat.log2_lt positive.ne').mpr small)
    unfold shiftToTargetExponent shiftToExponent totalExponent
    simp only [target_eq]
    omega

/-- Rounding shifts a mantissa twice, each time by at most its digits. -/
theorem fits_round (sign : Sign) (accuracy : Accuracy) (small : mantissa + 1 < 2 ^ size)
    (below : exponent ≤ limit) (low : -1074 ≤ limit) :
    Fits size (limit + size + size)
      (roundWithAccuracy .binary64 sign mantissa exponent accuracy) := by
  have first := shiftToTarget_le limit accuracy (Nat.lt_of_succ_lt small) below low
  unfold roundWithAccuracy
  generalize shiftToTargetExponent .binary64 mantissa exponent accuracy = shifted at first ⊢
  have rounded : shifted.1.roundedMantissa < 2 ^ size :=
    Nat.lt_of_le_of_lt (mantissa_rounded_le _)
      (Nat.lt_of_le_of_lt (Nat.succ_le_succ first.1) small)
  have second := shiftToTarget_le _ .exact rounded first.2 (by omega)
  dsimp only
  generalize shiftToTargetExponent .binary64 shifted.1.roundedMantissa shifted.2 .exact = final
    at second ⊢
  by_cases empty : final.1.mantissa = 0
  · rw [dif_pos empty]
    trivial
  · rw [dif_neg empty]
    exact ⟨Nat.lt_of_le_of_lt second.1 rounded, second.2⟩

end Rounding

section Conversion

theorem fits_unpackedInt (n : Nat) (small : n < 2 ^ 32) :
    Fits 85 170 (UnpackedFloat.ofInt .binary64 (n : ℤ)) := by
  unfold UnpackedFloat.ofInt UnpackedFloat.normalize
  rcases Nat.eq_zero_or_pos n with rfl | positive
  · trivial
  · have above : compare (n : ℤ) 0 = .gt := compare_gt_iff_gt.mpr (by omega)
    have digits : n.log2 < 32 := (Nat.log2_lt positive.ne').mpr small
    rw [above]
    unfold UnpackedFloat.round decreaseExponent totalExponent
    simp only [target_eq, Int.toNat_natCast]
    generalize moves : (0 - max ((n.log2 : ℤ) + 1 + 0 - 53) (-1074)).toNat = places
    apply fits_round 0
    · have room : 2 ^ places ≤ 2 ^ 52 := Nat.pow_le_pow_right (by decide) (by omega)
      have product := Nat.mul_le_mul (Nat.le_of_lt small) room
      rw [Nat.shiftLeft_eq]
      omega
    · omega
    · decide

theorem one_unpacked : (Float.Model.ofBits 0x3FF0000000000000).unpack =
    .finite .positive (2 ^ 52) (-52) (by decide) := rfl

theorem fits_mul_one {x : UnpackedFloat} (fits : Fits 53 170 x) :
    Fits 106 382
      (UnpackedFloat.mul .binary64 x (Float.Model.ofBits 0x3FF0000000000000).unpack) := by
  rw [one_unpacked]
  cases x with
  | infinity | notANumber => exact fits.elim
  | zero => trivial
  | finite sign mantissa exponent positive =>
    have ⟨small, below⟩ := fits
    apply fits_round 170
    · omega
    · omega
    · decide

theorem fits_ofNat (n : Nat) (small : n < 2 ^ 32) :
    Fits 53 382 (Float.ofNat n).toModel.unpack := by
  -- The number is read as a decimal one, which is a product with a power of ten.
  have product : Float.ofNat n = n.toUInt64.toFloat * Float.ofBits 0x3FF0000000000000 := by
    change Float.ofScientific n false 0 = _
    unfold Float.ofScientific
    rw [dif_pos ⟨by omega, by decide⟩]
    rfl
  have word : n.toUInt64.toNat = n := Nat.mod_eq_of_lt (by omega)
  have factor := fits_pack (fits_unpackedInt n small) (by decide) (by decide)
  rw [← word] at factor
  rw [product]
  exact fits_pack (fits_mul_one factor) (by decide) (by decide)

theorem isFinite_ofInt (n : ℤ) (small : n.natAbs < 2 ^ 32) :
    (Float.ofInt n).isFinite = true := by
  cases n with
  | ofNat n => exact isFinite_of_fits (fits_ofNat n small)
  | negSucc n =>
    have negated := fits_neg (fits_ofNat (n + 1) small)
    exact isFinite_of_fits (fits_pack negated (by decide) (by decide))

theorem isFinite_ofBits {bits : UInt64} (finite : Numeral.isFiniteDouble bits) :
    (Float.ofBits bits).isFinite = true := by
  have exponent : (@unpackExponent .binary64 bits.toBitVec).toNat =
      bits.toNat / 2 ^ 52 % 2 ^ 11 := by
    simp [unpackExponent, Nat.shiftRight_eq_div_pow]
  have below : bits.toNat % 2 ^ 63 < 2047 * 2 ^ 52 := of_decide_eq_true finite
  have unpacked : Fits 53 971 (unpack .binary64 bits.toBitVec) :=
    fits_unpack bits.toBitVec (by omega) (by decide) (by omega)
  exact isFinite_of_fits (fits_pack unpacked (by decide) (by decide))

end Conversion

instance : FiniteScalar Float where
  number_of_finite := isNaN_of_isFinite
  zero := rfl
  ofInt n := isFinite_ofInt n.toInt (by have := n.le_toInt; have := n.toInt_lt; omega)
  ofBits := isFinite_ofBits

end Double

end PdfPrimitives
