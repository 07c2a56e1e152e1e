import PdfPrimitives.Proofs.Numeral.Digits
import PdfPrimitives.Proofs.Numeral.Rounding

/-!
The shortest decimal of a number reads back as the number. On every grid but the finest it
was tried, and on the finest it is exact.
-/

namespace PdfPrimitives.Numeral

namespace Format

variable {format : Format}

theorem roundDecimal_eq_round (coefficient : Nat) (exponent : Int) (counted : 0 < coefficient)
    (small : 0 ≤ exponent → (coefficient.log2 : Int) + 3 * exponent < format.ceiling)
    (large : exponent < 0 → format.floor ≤ (coefficient.log2 : Int) + 3 * exponent + 1) :
    format.roundDecimal coefficient exponent =
      format.round (scale 10 coefficient 1 exponent).1 (scale 10 coefficient 1 exponent).2 := by
  have noOverflow : ¬(0 ≤ exponent && format.ceiling ≤ (coefficient.log2 : Int) + 3 * exponent) =
      true := by
    simpa using small
  have noUnderflow :
      ¬(exponent < 0 && (coefficient.log2 : Int) + 3 * exponent + 1 < format.floor) = true := by
    simpa using large
  rw [roundDecimal, if_neg counted.ne', if_neg noOverflow, if_neg noUnderflow]

theorem roundDecimal_within (coefficient : Nat) (exponent : Int)
    (nonzero : 0 < format.roundDecimal coefficient exponent)
    (finite : format.roundDecimal coefficient exponent < format.infinity) :
    0 < coefficient ∧ format.roundDecimal coefficient exponent =
      format.round (scale 10 coefficient 1 exponent).1 (scale 10 coefficient 1 exponent).2 := by
  have counted : coefficient ≠ 0 := by
    rintro rfl
    rw [roundDecimal, if_pos rfl] at nonzero
    contradiction
  have noOverflow : ¬(0 ≤ exponent && format.ceiling ≤ (coefficient.log2 : Int) + 3 * exponent) =
      true := by
    intro tooLarge
    rw [roundDecimal, if_neg counted, if_pos tooLarge] at finite
    exact Nat.lt_irrefl _ finite
  have noUnderflow :
      ¬(exponent < 0 && (coefficient.log2 : Int) + 3 * exponent + 1 < format.floor) = true := by
    intro tooSmall
    rw [roundDecimal, if_neg counted, if_neg noOverflow, if_pos tooSmall] at nonzero
    contradiction
  constructor
  · exact Nat.pos_of_ne_zero counted
  · rw [roundDecimal, if_neg counted, if_neg noOverflow, if_neg noUnderflow]

theorem neighbour_reads_back (pattern coefficient : Nat) (exponent : Int)
    (found : format.neighbour? pattern exponent = some coefficient) :
    format.roundDecimal coefficient exponent = pattern := by
  unfold neighbour? at found
  dsimp only at found
  split at found
  · next fits =>
    rw [Bool.and_eq_true, beq_iff_eq] at fits
    rw [← Option.some.inj found]
    exact fits.1
  · split at found
    · next fits =>
      rw [← Option.some.inj found]
      exact beq_iff_eq.mp fits
    · cases found

variable (digits : 1 ≤ format.precision) (exponents : 1 ≤ format.exponentBits)

theorem fraction_ratio (format : Format) (pattern : Nat) :
    ratio (format.fraction pattern) = format.magnitude pattern ∧
      0 < (format.fraction pattern).2 := by
  obtain ⟨scaled, positive⟩ := scale_ratio 2 (format.split pattern).1 1 (format.split pattern).2
    (by decide) (by decide)
  refine ⟨?_, positive⟩
  rw [magnitude, fraction]
  simpa using scaled

theorem floor_le_split (format : Format) (pattern : Nat) :
    format.floor ≤ (format.split pattern).2 := by
  unfold split
  generalize pattern / format.unit = field
  dsimp only
  split
  · exact Int.le_refl _
  · dsimp only
    omega

theorem split_pos (format : Format) (pattern : Nat) (nonzero : 0 < pattern) :
    0 < (format.split pattern).1 := by
  have unit_pos : 0 < format.unit := Nat.pow_pos (by decide)
  have whole := Nat.div_add_mod pattern format.unit
  unfold split
  dsimp only
  split
  · next subnormal =>
    rw [subnormal] at whole
    omega
  · exact Nat.add_pos_left unit_pos _

theorem finest_grid (pattern : Nat) (nonzero : 0 < pattern) (deep : format.floor < 0) :
    ∃ coefficient : Nat, 0 < coefficient ∧
      (coefficient : ℚ) = format.magnitude pattern * 10 ^ (-format.floor) ∧
      2 * -format.floor ≤ coefficient.log2 := by
  obtain ⟨depth, depth_eq⟩ := Int.eq_ofNat_of_zero_le (show 0 ≤ -format.floor by omega)
  obtain ⟨above, above_eq⟩ := Int.eq_ofNat_of_zero_le
    (Int.sub_nonneg_of_le (floor_le_split format pattern))
  have significand_pos := split_pos format pattern nonzero
  refine ⟨(format.split pattern).1 * 2 ^ above * 5 ^ depth, by positivity, ?_, ?_⟩
  · have exponent : (format.split pattern).2 = (above : Int) + -(depth : Int) := by omega
    rw [magnitude, exponent, depth_eq, zpow_add₀ two_ne_zero, zpow_neg, zpow_natCast, zpow_natCast,
      zpow_natCast, show (10 : ℚ) = 2 * 5 by norm_num, mul_pow]
    push_cast
    field_simp
  -- The powers of five make the coefficient too large for the number to be cut off.
  · have large : 2 ^ (2 * depth) ≤ (format.split pattern).1 * 2 ^ above * 5 ^ depth := by
      calc 2 ^ (2 * depth) = 4 ^ depth := Nat.pow_mul 2 2 depth
        _ ≤ 5 ^ depth := Nat.pow_le_pow_left (by decide) depth
        _ ≤ (format.split pattern).1 * 2 ^ above * 5 ^ depth :=
          Nat.le_mul_of_pos_left _ (by positivity)
    have := (Nat.le_log2 (by positivity)).mpr large
    omega

theorem search_zero (pattern coefficient : Nat)
    (onGrid : (coefficient : ℚ) = format.magnitude pattern * 10 ^ (-format.floor)) :
    format.search pattern 0 = (coefficient, format.floor) := by
  obtain ⟨value, proper⟩ := fraction_ratio format pattern
  obtain ⟨scaled, positive⟩ := scale_ratio 10 (format.fraction pattern).1
    (format.fraction pattern).2 (-format.floor) (by decide) proper
  have count : ratio (scale 10 (format.fraction pattern).1 (format.fraction pattern).2
      (-format.floor)) = coefficient := by
    rw [scaled, onGrid, ← value]
    rfl
  rw [search.eq_def]
  dsimp only
  rw [ratio_eq_nat _ coefficient positive count, Nat.mul_div_cancel _ positive]

include digits in
theorem search_reads_back (pattern steps : Nat) (nonzero : 0 < pattern)
    (finite : pattern < format.infinity) (deep : format.floor < 0) :
    format.roundDecimal (format.search pattern steps).1 (format.search pattern steps).2 =
        pattern ∧ format.floor ≤ (format.search pattern steps).2 := by
  induction steps with
  | zero =>
    -- On the finest grid the magnitude itself is a point, so the search ends there at the latest.
    obtain ⟨coefficient, counted, onGrid, large⟩ := finest_grid pattern nonzero deep
    obtain ⟨scaled, positive⟩ :=
      scale_ratio 10 coefficient 1 format.floor (by decide) (by decide)
    have proper : 0 < (scale 10 coefficient 1 format.floor).1 := by
      rw [scale, if_neg (by omega)]
      exact counted
    rw [search_zero pattern coefficient onGrid]
    refine ⟨?_, Int.le_refl _⟩
    rw [roundDecimal_eq_round coefficient format.floor counted (by omega) (by omega)]
    refine round_exact digits pattern _ _ nonzero finite proper positive ?_
    calc ratio (scale 10 coefficient 1 format.floor)
        = coefficient * 10 ^ format.floor := by rw [scaled]; simp
      _ = format.magnitude pattern := by
        rw [onGrid, mul_assoc, ← zpow_add₀ (by norm_num), neg_add_cancel, zpow_zero, mul_one]
  | succ steps ih =>
    rw [search.eq_def]
    dsimp only
    split
    · next coefficient found =>
      exact ⟨neighbour_reads_back pattern coefficient _ found, by omega⟩
    · exact ih

include digits in
theorem shortest_reads_back (pattern : Nat) (finite : pattern < format.infinity)
    (deep : format.floor < 0) :
    format.roundDecimal (format.shortest pattern).1 (format.shortest pattern).2 = pattern ∧
      format.floor ≤ (format.shortest pattern).2 := by
  rw [shortest]
  split
  · next zero =>
    subst zero
    exact ⟨rfl, by omega⟩
  · next nonzero =>
    have positive := Nat.pos_of_ne_zero nonzero
    exact search_reads_back digits pattern _ positive finite deep

include digits exponents in
theorem lt_of_finite (coefficient : Nat) (exponent : Int)
    (finite : format.roundDecimal coefficient exponent < format.infinity)
    (nonzero : 0 < format.roundDecimal coefficient exponent) :
    (coefficient : ℚ) * 10 ^ exponent < 2 ^ format.ceiling := by
  obtain ⟨counted, rounded⟩ := roundDecimal_within coefficient exponent nonzero finite
  obtain ⟨scaled, positive⟩ := scale_ratio 10 coefficient 1 exponent (by decide) (by decide)
  rw [← not_le]
  intro large
  rw [rounded, round_large digits exponents _ _ positive] at finite
  · exact Nat.lt_irrefl _ finite
  · calc (2 : ℚ) ^ format.ceiling ≤ coefficient * 10 ^ exponent := large
      _ = ratio (scale 10 coefficient 1 exponent) := by rw [scaled]; simp

include digits exponents in
theorem roundDecimal_shift (coefficient shift : Nat)
    (finite : format.roundDecimal coefficient shift < format.infinity)
    (nonzero : 0 < format.roundDecimal coefficient shift) :
    format.roundDecimal (coefficient * 10 ^ shift) 0 = format.roundDecimal coefficient shift := by
  have small := lt_of_finite digits exponents coefficient shift finite nonzero
  obtain ⟨counted, rounded⟩ := roundDecimal_within coefficient shift nonzero finite
  rw [zpow_natCast] at small
  have log_small : (coefficient * 10 ^ shift).log2 < format.ceiling :=
    (Nat.log2_lt (by positivity)).mpr (by exact_mod_cast small)
  rw [rounded, roundDecimal_eq_round (coefficient * 10 ^ shift) 0 (by positivity) (by omega)
    (by omega)]
  simp [scale]

end Format

end PdfPrimitives.Numeral
