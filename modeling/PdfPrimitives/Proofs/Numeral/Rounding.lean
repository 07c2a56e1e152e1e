import Mathlib.Algebra.Order.Field.Power
import Mathlib.Data.Int.Log
import Mathlib.Data.Rat.Floor
import Mathlib.Tactic.FieldSimp
import Mathlib.Tactic.Linarith
import Mathlib.Tactic.Positivity
import Mathlib.Tactic.Ring
import PdfPrimitives.Numeral.Single

/-!
Rounding to a binary format, on exact rationals. Magnitudes of the format are rounded to
their own patterns, and powers of two beyond the format to infinity.
-/

namespace PdfPrimitives.Numeral.Format

section Fractions

def ratio (fraction : Nat × Nat) : ℚ := fraction.1 / fraction.2

theorem scale_ratio (base numerator denominator : Nat) (exponent : Int) (nonzero : 0 < base)
    (proper : 0 < denominator) :
    ratio (scale base numerator denominator exponent) =
        (numerator / denominator : ℚ) * (base : ℚ) ^ exponent ∧
      0 < (scale base numerator denominator exponent).2 := by
  have base_ne : (base : ℚ) ≠ 0 := by positivity
  have denominator_ne : (denominator : ℚ) ≠ 0 := by positivity
  unfold scale
  split
  · next up =>
    obtain ⟨count, rfl⟩ := Int.eq_ofNat_of_zero_le up
    constructor
    · simp only [ratio, Nat.pow_eq, Int.toNat_natCast, zpow_natCast]
      push_cast
      ring
    · exact proper
  · next down =>
    obtain ⟨count, count_eq⟩ := Int.eq_ofNat_of_zero_le (show 0 ≤ -exponent by omega)
    obtain rfl : exponent = -(count : Int) := by omega
    constructor
    · simp only [ratio, Nat.pow_eq, neg_neg, Int.toNat_natCast, zpow_neg, zpow_natCast]
      push_cast
      field_simp
    · exact Nat.mul_pos proper (Nat.pow_pos nonzero)

theorem nearest_exact (count unit : Nat) (nonzero : 0 < unit) :
    nearest (count * unit) unit = count := by
  simp [nearest, Nat.mul_div_cancel _ nonzero, nonzero.ne]

theorem le_nearest (count numerator denominator : Nat) (nonzero : 0 < denominator)
    (large : count * denominator ≤ numerator) : count ≤ nearest numerator denominator := by
  have quotient : count ≤ numerator / denominator := (Nat.le_div_iff_mul_le nonzero).mpr large
  unfold nearest
  dsimp only
  split <;> omega

theorem ratio_eq_nat (fraction : Nat × Nat) (count : Nat) (proper : 0 < fraction.2)
    (same : ratio fraction = count) : fraction.1 = count * fraction.2 := by
  have proper_ne : (fraction.2 : ℚ) ≠ 0 := by positivity
  rw [ratio, div_eq_iff proper_ne] at same
  exact_mod_cast same

theorem nat_le_ratio (fraction : Nat × Nat) (count : Nat) (proper : 0 < fraction.2)
    (large : (count : ℚ) ≤ ratio fraction) : count * fraction.2 ≤ fraction.1 := by
  rw [ratio, le_div_iff₀ (by positivity)] at large
  exact_mod_cast large

end Fractions

section Logarithm

theorem log2_bounds (n : Nat) (nonzero : 0 < n) :
    (2 : ℚ) ^ (n.log2 : Int) ≤ n ∧ (n : ℚ) < 2 ^ ((n.log2 : Int) + 1) := by
  constructor
  · rw [zpow_natCast]
    exact_mod_cast Nat.log2_self_le nonzero.ne'
  · rw [show (n.log2 : Int) + 1 = ((n.log2 + 1 : Nat) : Int) from rfl, zpow_natCast]
    exact_mod_cast Nat.lt_log2_self

theorem log_lt (number : ℚ) (exponent : Int) (nonzero : 0 < number)
    (high : number < 2 ^ exponent) : Int.log 2 number < exponent :=
  (Int.lt_zpow_iff_log_lt (b := 2) (by decide) nonzero).mp (mod_cast high)

theorem le_log (number : ℚ) (exponent : Int) (nonzero : 0 < number)
    (low : 2 ^ exponent ≤ number) : exponent ≤ Int.log 2 number :=
  (Int.zpow_le_iff_le_log (b := 2) (by decide) nonzero).mp (mod_cast low)

theorem log_eq (number : ℚ) (exponent : Int) (low : 2 ^ exponent ≤ number)
    (high : number < 2 ^ (exponent + 1)) : Int.log 2 number = exponent := by
  have nonzero : 0 < number := lt_of_lt_of_le (by positivity) low
  have least := le_log number exponent nonzero low
  have greatest := log_lt number (exponent + 1) nonzero high
  omega

theorem logFloor_eq_log (numerator denominator : Nat) (nonzero : 0 < numerator)
    (proper : 0 < denominator) :
    logFloor numerator denominator = Int.log 2 (numerator / denominator : ℚ) := by
  obtain ⟨numeratorLow, numeratorHigh⟩ := log2_bounds numerator nonzero
  obtain ⟨denominatorLow, denominatorHigh⟩ := log2_bounds denominator proper
  have nonzero_q : (0 : ℚ) < numerator := by positivity
  have proper_q : (0 : ℚ) < denominator := by positivity
  obtain ⟨scaled, positive⟩ := scale_ratio 2 denominator numerator
    (numerator.log2 - denominator.log2) (by decide) nonzero
  unfold logFloor
  generalize numerator.log2 = high at *
  generalize denominator.log2 = low at *
  -- The estimate is right or one too large.
  have below : (2 : ℚ) ^ ((high : Int) - low - 1) ≤ numerator / denominator := by
    rw [le_div_iff₀ proper_q]
    calc (2 : ℚ) ^ ((high : Int) - low - 1) * denominator
        ≤ 2 ^ ((high : Int) - low - 1) * 2 ^ ((low : Int) + 1) := by gcongr
      _ = 2 ^ (high : Int) := by rw [← zpow_add₀ two_ne_zero]; congr 1; ring
      _ ≤ numerator := numeratorLow
  have above : (numerator / denominator : ℚ) < 2 ^ ((high : Int) - low + 1) := by
    rw [div_lt_iff₀ proper_q]
    calc (numerator : ℚ) < 2 ^ ((high : Int) + 1) := numeratorHigh
      _ = 2 ^ ((high : Int) - low + 1) * 2 ^ (low : Int) := by
        rw [← zpow_add₀ two_ne_zero]; congr 1; ring
      _ ≤ 2 ^ ((high : Int) - low + 1) * denominator := by gcongr
  have compared : (scale 2 denominator numerator ((high : Int) - low)).1 ≤
      (scale 2 denominator numerator ((high : Int) - low)).2 ↔
        (2 : ℚ) ^ ((high : Int) - low) ≤ numerator / denominator := by
    have parts : ratio (scale 2 denominator numerator ((high : Int) - low)) ≤ 1 ↔
        (scale 2 denominator numerator ((high : Int) - low)).1 ≤
          (scale 2 denominator numerator ((high : Int) - low)).2 := by
      rw [ratio, div_le_one (by positivity)]
      exact Nat.cast_le
    rw [← parts, scaled, div_mul_eq_mul_div, div_le_one nonzero_q, le_div_iff₀ proper_q, mul_comm]
    rfl
  dsimp only
  split
  · next fits => exact (log_eq _ _ (compared.mp fits) above).symm
  · next large =>
    refine (log_eq _ _ below ?_).symm
    rw [sub_add_cancel]
    exact not_le.mp (fun fits => large (compared.mpr fits))

end Logarithm

section Rounding

variable {format : Format} (digits : 1 ≤ format.precision) (exponents : 1 ≤ format.exponentBits)

include digits in
theorem unit_eq_zpow : (format.unit : ℚ) = 2 ^ ((format.precision : Int) - 1) := by
  have exponent : (format.precision : Int) - 1 = ((format.precision - 1 : Nat) : Int) := by omega
  rw [exponent, zpow_natCast, unit]
  norm_cast

include exponents in
theorem infinity_eq : format.infinity = (2 * format.ceiling - 1) * format.unit := by
  have double : 2 ^ format.exponentBits = 2 * format.ceiling := by
    rw [ceiling, Nat.pow_eq, ← Nat.pow_succ']
    congr 1
    omega
  rw [infinity, Nat.pow_eq, double]

def magnitude (format : Format) (pattern : Nat) : ℚ :=
  (format.split pattern).1 * 2 ^ (format.split pattern).2

def roundExponent (format : Format) (number : ℚ) : Int :=
  max format.floor (Int.log 2 number - (format.precision - 1))

/-- Rounding counts the units of the last place and takes the nearest count. -/
theorem round_counts (format : Format) (numerator denominator : Nat) (nonzero : 0 < numerator)
    (proper : 0 < denominator) :
    ∃ fraction : Nat × Nat, 0 < fraction.2 ∧
      ratio fraction = (numerator / denominator : ℚ) *
        2 ^ (-format.roundExponent (numerator / denominator)) ∧
      format.round numerator denominator = min format.infinity
        ((format.roundExponent (numerator / denominator) - format.floor).toNat * format.unit +
          nearest fraction.1 fraction.2) := by
  obtain ⟨scaled, positive⟩ := scale_ratio 2 numerator denominator
    (-format.roundExponent (numerator / denominator)) (by decide) proper
  refine ⟨_, positive, scaled, ?_⟩
  rw [round, if_neg nonzero.ne', logFloor_eq_log numerator denominator nonzero proper]
  rfl

include digits in
theorem roundExponent_magnitude (pattern : Nat) (nonzero : 0 < pattern) :
    format.roundExponent (format.magnitude pattern) = (format.split pattern).2 := by
  have unit_zpow := unit_eq_zpow digits
  have unit_pos : 0 < format.unit := Nat.pow_pos (by decide)
  have stored_lt := Nat.mod_lt pattern unit_pos
  have whole := Nat.div_add_mod pattern format.unit
  unfold magnitude roundExponent split
  generalize pattern % format.unit = stored at *
  generalize pattern / format.unit = field at *
  dsimp only
  split
  · next subnormal =>
    have stored_pos : 0 < stored := by
      rw [subnormal] at whole
      omega
    -- No leading bit is stored, so the logarithm is too small to matter.
    have small : (stored : ℚ) * 2 ^ format.floor <
        2 ^ ((format.precision : Int) - 1 + format.floor) := by
      rw [zpow_add₀ two_ne_zero, ← unit_zpow]
      gcongr
    have := log_lt _ _ (by positivity) small
    dsimp only
    omega
  · next normal =>
    have low : (2 : ℚ) ^ ((format.precision : Int) - 1 + (format.floor + field - 1)) ≤
        ((format.unit + stored : Nat) : ℚ) * 2 ^ (format.floor + field - 1) := by
      rw [zpow_add₀ two_ne_zero, ← unit_zpow]
      gcongr
      omega
    have high : ((format.unit + stored : Nat) : ℚ) * 2 ^ (format.floor + field - 1) <
        2 ^ ((format.precision : Int) - 1 + (format.floor + field - 1) + 1) := by
      rw [zpow_add_one₀ two_ne_zero, zpow_add₀ two_ne_zero, ← unit_zpow, mul_right_comm]
      gcongr
      norm_cast
      omega
    -- The leading bit is the one that the field stands for.
    rw [log_eq _ _ low high]
    dsimp only
    omega

theorem split_count (pattern : Nat) :
    ((format.split pattern).2 - format.floor).toNat * format.unit + (format.split pattern).1 =
      pattern := by
  have whole := Nat.div_add_mod pattern format.unit
  unfold split
  dsimp only
  split
  · next subnormal =>
    rw [subnormal] at whole
    simpa using whole
  · next normal =>
    obtain ⟨field, field_eq⟩ := Nat.exists_eq_succ_of_ne_zero normal
    rw [field_eq] at whole ⊢
    have places : (format.floor + ((field.succ : Nat) : Int) - 1 - format.floor).toNat = field := by
      omega
    rw [places]
    nlinarith [whole]

include digits in
/-- A magnitude of the format is rounded to its own pattern. -/
theorem round_exact (pattern numerator denominator : Nat) (nonzero : 0 < pattern)
    (finite : pattern < format.infinity) (counted : 0 < numerator) (proper : 0 < denominator)
    (same : (numerator / denominator : ℚ) = format.magnitude pattern) :
    format.round numerator denominator = pattern := by
  obtain ⟨fraction, positive, scaled, rounded⟩ :=
    round_counts format numerator denominator counted proper
  rw [same, roundExponent_magnitude digits pattern nonzero] at scaled rounded
  have count : ratio fraction = ((format.split pattern).1 : Nat) := by
    rw [scaled, magnitude, zpow_neg, mul_inv_cancel_right₀ (by positivity)]
  rw [rounded, ratio_eq_nat fraction _ positive count, nearest_exact _ _ positive,
    split_count pattern, Nat.min_eq_right finite.le]

include digits exponents in
/-- From the first power of two beyond the format on, everything is rounded to infinity. -/
theorem round_large (numerator denominator : Nat) (proper : 0 < denominator)
    (large : (2 : ℚ) ^ format.ceiling ≤ numerator / denominator) :
    format.round numerator denominator = format.infinity := by
  have proper_q : (0 : ℚ) < denominator := by positivity
  have ceiling_pos : 0 < format.ceiling := Nat.pow_pos (by decide)
  have number_pos : (0 : ℚ) < numerator / denominator := lt_of_lt_of_le (by positivity) large
  have counted : 0 < numerator := by
    rw [div_pos_iff_of_pos_right proper_q] at number_pos
    exact_mod_cast number_pos
  obtain ⟨fraction, positive, scaled, rounded⟩ :=
    round_counts format numerator denominator counted proper
  have log_le := le_log _ (format.ceiling : Int) number_pos (by rwa [zpow_natCast])
  have number_ge := Int.zpow_log_le_self (b := 2) (by decide) number_pos
  generalize (numerator / denominator : ℚ) = number at *
  have exponent : format.roundExponent number = Int.log 2 number - (format.precision - 1) := by
    rw [roundExponent, floor]
    omega
  -- At least as many units of the last place are counted as a leading bit is worth.
  have leading : ((format.unit : Nat) : ℚ) ≤ ratio fraction := by
    rw [scaled, exponent, unit_eq_zpow digits]
    calc (2 : ℚ) ^ ((format.precision : Int) - 1)
        = 2 ^ Int.log 2 number * 2 ^ (-(Int.log 2 number - ((format.precision : Int) - 1))) := by
          rw [← zpow_add₀ two_ne_zero]; congr 1; ring
      _ ≤ number * 2 ^ (-(Int.log 2 number - ((format.precision : Int) - 1))) := by
          gcongr
          exact_mod_cast number_ge
  have counts := le_nearest format.unit fraction.1 fraction.2 positive
    (nat_le_ratio fraction format.unit positive leading)
  have places : 2 * format.ceiling - 2 ≤ (format.roundExponent number - format.floor).toNat := by
    rw [exponent, floor]
    omega
  have infinity_le : format.infinity ≤
      (format.roundExponent number - format.floor).toNat * format.unit +
        nearest fraction.1 fraction.2 := by
    calc format.infinity = (2 * format.ceiling - 2) * format.unit + format.unit := by
          rw [infinity_eq exponents, ← Nat.succ_mul]
          congr 1
          omega
      _ ≤ _ := Nat.add_le_add (Nat.mul_le_mul_right _ places) counts
  rw [rounded, Nat.min_eq_left infinity_le]

end Rounding

end PdfPrimitives.Numeral.Format
