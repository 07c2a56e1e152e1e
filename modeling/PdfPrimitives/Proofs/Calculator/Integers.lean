import Mathlib.Data.Rat.Floor
import PdfPrimitives.Calculator.Apply

/-!
Arithmetic of 32-bit integers. Division rounds towards zero, and it is undefined by zero and
where the quotient is too large. A shift multiplies the unsigned pattern of an integer by a
power of two, and drops what is then behind the point or above the word.
-/

namespace PdfPrimitives.Calculator.Integer

section Division

def Divisible (n divisor : Int32) : Prop :=
  divisor ≠ 0 ∧ ∃ quotient : Int32, quotient.toInt = n.toInt.tdiv divisor.toInt

structure Division (n divisor quotient remainder : Int) : Prop where
  parts : n = divisor * quotient + remainder
  small : remainder.natAbs < divisor.natAbs
  sign : remainder = 0 ∨ remainder.sign = n.sign

variable {n divisor : Int32}

theorem toInt_quotient (fits : ¬(n = Int32.minValue ∧ divisor = -1)) :
    (n / divisor).toInt = n.toInt.tdiv divisor.toInt := by
  by_cases least : n = Int32.minValue
  · exact Int32.toInt_div_of_ne_right n divisor fun minus => fits ⟨least, minus⟩
  · exact Int32.toInt_div_of_ne_left n divisor least

theorem divides_iff_fits :
    divides n divisor = true ↔ divisor ≠ 0 ∧ ¬(n = Int32.minValue ∧ divisor = -1) := by
  simp [divides, Decidable.imp_iff_not_or]

/-- Only the negated least integer is too large for a quotient. -/
theorem divides_iff : divides n divisor = true ↔ Divisible n divisor := by
  rw [divides_iff_fits]
  constructor
  · rintro ⟨nonzero, fits⟩
    exact ⟨nonzero, n / divisor, toInt_quotient fits⟩
  · rintro ⟨nonzero, quotient, value⟩
    refine ⟨nonzero, ?_⟩
    rintro ⟨rfl, rfl⟩
    have bound := quotient.toInt_lt
    rw [value] at bound
    exact absurd bound (by decide)

theorem sign_tmod (n divisor : Int) : n.tmod divisor = 0 ∨ (n.tmod divisor).sign = n.sign := by
  rcases Int.lt_trichotomy n 0 with negative | rfl | positive
  · have opposite := Int.tmod_nonneg divisor (Int.neg_nonneg_of_nonpos negative.le)
    rw [Int.neg_tmod] at opposite
    rcases Int.lt_or_eq_of_le (Int.neg_nonneg.mp opposite) with below | zero
    · exact .inr (by rw [Int.sign_eq_neg_one_of_neg below, Int.sign_eq_neg_one_of_neg negative])
    · exact .inl zero
  · exact .inl (Int.zero_tmod divisor)
  · rcases Int.lt_or_eq_of_le (Int.tmod_nonneg divisor positive.le) with above | zero
    · exact .inr (by rw [Int.sign_eq_one_of_pos above, Int.sign_eq_one_of_pos positive])
    · exact .inl zero.symm

theorem division_tdiv (n : Int) {divisor : Int} (nonzero : divisor ≠ 0) :
    Division n divisor (n.tdiv divisor) (n.tmod divisor) where
  parts := (Int.mul_tdiv_add_tmod n divisor).symm
  small := by
    rw [Int.natAbs_tmod]
    exact Nat.mod_lt _ (Int.natAbs_pos.mpr nonzero)
  sign := sign_tmod n divisor

theorem division_of_divisible (defined : Divisible n divisor) :
    quotient n divisor = .ok (n / divisor) ∧ remainder n divisor = .ok (n % divisor) ∧
      Division n.toInt divisor.toInt (n / divisor).toInt (n % divisor).toInt := by
  have divides := divides_iff.mpr defined
  refine ⟨if_pos divides, if_pos divides, ?_⟩
  rw [toInt_quotient (divides_iff_fits.mp divides).2, Int32.toInt_mod]
  apply division_tdiv
  intro zero
  exact defined.1 (Int32.toInt.inj zero)

theorem undefined_of_not_divisible (undefined : ¬Divisible n divisor) :
    quotient n divisor = .error .rangeCheck ∧ remainder n divisor = .error .rangeCheck := by
  rw [← divides_iff] at undefined
  exact ⟨if_neg undefined, if_neg undefined⟩

end Division

section Patterns

def pattern (n : Int32) : Nat := n.toUInt32.toNat

theorem pattern_lt (n : Int32) : pattern n < 2 ^ 32 := n.toUInt32.toNat_lt

variable {n amount : Int32} {places : Nat}

theorem shift_far (far : 32 ≤ amount.toInt.natAbs) : shift n amount = 0 := if_pos far

theorem pattern_shift_up (up : amount.toInt = places) :
    pattern (shift n amount) = pattern n * 2 ^ places % 2 ^ 32 := by
  have distance : amount.toInt.natAbs = places := by omega
  by_cases far : 32 ≤ places
  · rw [shift_far (by omega)]
    have multiple : 2 ^ 32 ∣ pattern n * 2 ^ places :=
      Dvd.dvd.mul_left (Nat.pow_dvd_pow 2 far) (pattern n)
    exact (Nat.mod_eq_zero_of_dvd multiple).symm
  · unfold shift
    dsimp only
    rw [if_neg (by omega), if_pos (by omega), distance]
    have word : (UInt32.ofNat places).toNat = places := UInt32.toNat_ofNat_of_lt' (by
      change places < 2 ^ 32
      omega)
    change (n.toUInt32 <<< UInt32.ofNat places).toNat = _
    rw [UInt32.toNat_shiftLeft, word, Nat.mod_eq_of_lt (by omega : places < 32),
      Nat.shiftLeft_eq]
    rfl

theorem pattern_shift_down (down : amount.toInt = -places) (some : 0 < places) :
    pattern (shift n amount) = pattern n / 2 ^ places := by
  have distance : amount.toInt.natAbs = places := by omega
  by_cases far : 32 ≤ places
  · rw [shift_far (by omega)]
    have small : pattern n < 2 ^ places :=
      Nat.lt_of_lt_of_le (pattern_lt n) (Nat.pow_le_pow_right (by decide) far)
    exact (Nat.div_eq_of_lt small).symm
  · unfold shift
    dsimp only
    rw [if_neg (by omega), if_neg (by omega), distance]
    have word : (UInt32.ofNat places).toNat = places := UInt32.toNat_ofNat_of_lt' (by
      change places < 2 ^ 32
      omega)
    change (n.toUInt32 >>> UInt32.ofNat places).toNat = _
    rw [UInt32.toNat_shiftRight, word, Nat.mod_eq_of_lt (by omega : places < 32),
      Nat.shiftRight_eq_div_pow]
    rfl

/-- A shift is a product with a power of two, from which the fraction and the bits above the
word are dropped. -/
theorem pattern_shift (n amount : Int32) :
    (pattern (shift n amount) : ℤ) = ⌊(pattern n : ℚ) * 2 ^ amount.toInt⌋ % 2 ^ 32 := by
  rcases lt_or_ge amount.toInt 0 with negative | natural
  · rcases Int.eq_ofNat_of_zero_le (Int.neg_nonneg_of_nonpos negative.le) with ⟨places, opposite⟩
    have down : amount.toInt = -places := by omega
    have floor : ⌊(pattern n : ℚ) * 2 ^ amount.toInt⌋ = (pattern n / 2 ^ places : Nat) := by
      rw [down, zpow_neg, zpow_natCast, ← div_eq_mul_inv]
      have quotient := Rat.floor_natCast_div_natCast (pattern n) (2 ^ places)
      push_cast at quotient ⊢
      exact quotient
    have small : pattern n / 2 ^ places < 2 ^ 32 :=
      Nat.lt_of_le_of_lt (Nat.div_le_self _ _) (pattern_lt n)
    rw [floor, pattern_shift_down down (by omega)]
    exact (Int.emod_eq_of_lt (Int.natCast_nonneg _) (by exact_mod_cast small)).symm
  · rcases Int.eq_ofNat_of_zero_le natural with ⟨places, up⟩
    have floor : ⌊(pattern n : ℚ) * 2 ^ amount.toInt⌋ = (pattern n * 2 ^ places : Nat) := by
      rw [up, zpow_natCast]
      exact_mod_cast Int.floor_natCast (R := ℚ) (pattern n * 2 ^ places)
    rw [floor, pattern_shift_up up]
    push_cast
    rfl

variable (m n : Int32) {place : Nat}

theorem testBit_and : (pattern (m &&& n)).testBit place =
    ((pattern m).testBit place && (pattern n).testBit place) := BitVec.getLsbD_and

theorem testBit_or : (pattern (m ||| n)).testBit place =
    ((pattern m).testBit place || (pattern n).testBit place) := BitVec.getLsbD_or

theorem testBit_xor : (pattern (m ^^^ n)).testBit place =
    ((pattern m).testBit place ^^ (pattern n).testBit place) := BitVec.getLsbD_xor

theorem testBit_not (inside : place < 32) :
    (pattern (~~~n)).testBit place = !(pattern n).testBit place := by
  have bit := BitVec.getLsbD_not (x := n.toBitVec) (i := place)
  rwa [decide_eq_true inside, Bool.true_and] at bit

theorem not_and : ~~~(m &&& n) = ~~~m ||| ~~~n :=
  Int32.toBitVec_inj.mp (BitVec.not_and (x := m.toBitVec) (y := n.toBitVec))

theorem not_or : ~~~(m ||| n) = ~~~m &&& ~~~n :=
  Int32.toBitVec_inj.mp (BitVec.not_or (x := m.toBitVec) (y := n.toBitVec))

end Patterns

end PdfPrimitives.Calculator.Integer
