import Mathlib.Data.Nat.Cast.Order.Field
import PdfPrimitives.Proofs.Numeral.Shortest

/-!
The text of a finite number: a sign, digits, and a point that digits may follow. The digits
are few, and the decimal they spell is rounded to the number.
-/

namespace PdfPrimitives.Numeral

namespace Single

theorem ofMagnitude_magnitude (number : Single) :
    ofMagnitude number.isNegative number.magnitude = number := by
  have small := number.bits.toNat_lt
  have same : (if number.isNegative then signWeight + number.magnitude else number.magnitude) =
      number.bits.toNat := by
    rw [isNegative, magnitude, signWeight, Nat.pow_eq]
    by_cases negative : 2 ^ 31 ≤ number.bits.toNat
    · rw [if_pos (by simpa using negative)]
      omega
    · rw [if_neg (by simpa using negative)]
      omega
  rw [ofMagnitude, same, UInt32.ofNat_toNat]

theorem length_digitsOf_finite (n : Nat) (small : (n : ℚ) < 2 ^ Format.binary32.ceiling) :
    (digitsOf n).length ≤ 39 := by
  have bound : n < 10 ^ 39 := by
    have : (n : ℚ) < (2 ^ 128 : Nat) := by
      rw [Nat.cast_pow]
      exact small
    exact Nat.lt_of_lt_of_le (Nat.cast_lt.mp this) (by decide)
  exact length_digitsOf_le n 39 (by decide) bound

structure Spelled (number : Single) (whole fraction : List UInt8) : Prop where
  whole_digits : whole.all isDigit = true
  fraction_digits : fraction.all isDigit = true
  whole_some : whole ≠ []
  short : whole.length + fraction.length ≤ 188
  rounds : Format.binary32.roundDecimal (valueOf (whole ++ fraction)) (-(fraction.length : Int)) =
    number.magnitude

variable (number : Single) (nonzero : 0 < number.magnitude)
variable (finite : number.magnitude < Format.binary32.infinity)

theorem spelled_zero (zero : number.magnitude = 0) : Spelled number (digitsOf 0) [] where
  whole_digits := digitsOf_all 0
  fraction_digits := rfl
  whole_some := digitsOf_ne_nil 0
  short := by
    have := length_digitsOf_le 0 1 (by decide) (by decide)
    rw [List.length_nil]
    omega
  rounds := by
    rw [zero, List.append_nil, valueOf_digitsOf]
    rfl

include nonzero finite

theorem spelled_integral (coefficient shift : Nat)
    (rounds : Format.binary32.roundDecimal coefficient shift = number.magnitude) :
    Spelled number (digitsOf (coefficient * 10 ^ shift)) [] where
  whole_digits := digitsOf_all _
  fraction_digits := rfl
  whole_some := digitsOf_ne_nil _
  short := by
    have small := Format.lt_of_finite (by decide) (by decide) coefficient shift
      (rounds ▸ finite) (rounds ▸ nonzero)
    rw [zpow_natCast] at small
    have := length_digitsOf_finite (coefficient * 10 ^ shift) (by push_cast; exact small)
    rw [List.length_nil]
    omega
  rounds := by
    rw [List.append_nil, valueOf_digitsOf, ← rounds]
    exact Format.roundDecimal_shift (by decide) (by decide) coefficient shift
      (rounds ▸ finite) (rounds ▸ nonzero)

theorem spelled_fractional (coefficient places : Nat) (places_pos : 0 < places)
    (few : places ≤ 149)
    (rounds : Format.binary32.roundDecimal coefficient (-(places : Int)) = number.magnitude) :
    Spelled number (digitsOf (coefficient / 10 ^ places))
      (padded places (digitsOf (coefficient % 10 ^ places))) := by
  have fraction_length : (padded places (digitsOf (coefficient % 10 ^ places))).length = places :=
    length_padded _ _ (length_digitsOf_le _ _ places_pos (Nat.mod_lt _ (by positivity)))
  refine ⟨digitsOf_all _, padded_all _ _ (digitsOf_all _), digitsOf_ne_nil _, ?_, ?_⟩
  · have small := Format.lt_of_finite (by decide) (by decide) coefficient (-(places : Int))
      (rounds ▸ finite) (rounds ▸ nonzero)
    rw [zpow_neg, zpow_natCast, ← div_eq_mul_inv] at small
    have whole_le : ((coefficient / 10 ^ places : Nat) : ℚ) ≤ coefficient / 10 ^ places := by
      have floored : ((coefficient / 10 ^ places : Nat) : ℚ) ≤
          (coefficient : ℚ) / ((10 ^ places : Nat) : ℚ) := Nat.cast_div_le
      rwa [Nat.cast_pow] at floored
    have := length_digitsOf_finite _ (lt_of_le_of_lt whole_le small)
    rw [fraction_length]
    omega
  · rw [fraction_length, valueOf_append, fraction_length, valueOf_digitsOf, valueOf_padded,
      valueOf_digitsOf, Nat.div_add_mod', rounds]

def sign (negative : Bool) : List UInt8 := if negative then [0x2d] else []

omit nonzero finite in
theorem decimal_text (decimal : Decimal) : decimal.text =
    sign decimal.negative ++ Decimal.positional decimal.coefficient decimal.exponent := by
  obtain ⟨negative, coefficient, exponent⟩ := decimal
  cases negative <;> rfl

omit nonzero in
/-- The text of a finite number is spelled digits, with a point if there is a fraction. -/
theorem text_spelled : ∃ whole fraction, Spelled number whole fraction ∧
    number.text = sign number.isNegative ++ whole ++
      if fraction = [] then [] else Byte.point :: fraction := by
  obtain ⟨reads, deep⟩ := Format.shortest_reads_back (by decide) number.magnitude finite
    (by decide)
  have notNaN : number.isNaN = false := by
    simp only [isNaN, decide_eq_false_iff_not]
    omega
  have isNumber : number.isFinite = true := by simpa [isFinite] using finite
  have text_eq : number.text = sign number.isNegative ++
      Decimal.positional (Format.binary32.shortest number.magnitude).1
        (Format.binary32.shortest number.magnitude).2 := by
    rw [text, notNaN, isNumber]
    exact decimal_text number.toDecimal
  rw [text_eq]
  rcases Nat.eq_zero_or_pos number.magnitude with zero | nonzero
  · refine ⟨_, _, spelled_zero number zero, ?_⟩
    rw [zero]
    simp [Format.shortest, Decimal.positional]
  generalize (Format.binary32.shortest number.magnitude).1 = coefficient at *
  generalize (Format.binary32.shortest number.magnitude).2 = exponent at *
  rcases le_or_gt 0 exponent with integral | fractional
  · obtain ⟨shift, rfl⟩ := Int.eq_ofNat_of_zero_le integral
    refine ⟨_, _, spelled_integral number nonzero finite coefficient shift reads, ?_⟩
    simp [Decimal.positional]
  · obtain ⟨places, places_eq⟩ := Int.eq_ofNat_of_zero_le (show 0 ≤ -exponent by omega)
    obtain rfl : exponent = -(places : Int) := by omega
    have deepest : Format.binary32.floor = -149 := by decide
    have places_pos : 0 < places := by omega
    refine ⟨_, _, spelled_fractional number nonzero finite coefficient places places_pos
      (by omega) reads, ?_⟩
    have nonempty_fraction : padded places (digitsOf (coefficient % 10 ^ places)) ≠ [] := by
      have := digitsOf_ne_nil (coefficient % 10 ^ places)
      simp [padded, this]
    rw [Decimal.positional, if_neg (by omega), if_neg nonempty_fraction, neg_neg, Int.toNat_natCast,
      List.append_assoc]
    rfl

end Single

end PdfPrimitives.Numeral
