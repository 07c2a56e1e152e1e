import Mathlib.Tactic.Ring
import PdfPrimitives.Bits.Field

/-!
Numbers as strings of bits, the most significant bit first, and bytes as the bits that they
hold one after the other.
-/

namespace PdfPrimitives.Bits

/-- The lowest bits of a number, the most significant one first. -/
def spell : ℕ → ℕ → List Bool
  | 0, _ => []
  | width + 1, number => number.testBit width :: spell width number

def value (bits : List Bool) : ℕ :=
  bits.foldl (fun number bit => 2 * number + bit.toNat) 0

def ofBytes (bytes : List UInt8) : List Bool :=
  bytes.flatMap fun byte => spell 8 byte.toNat

/-- The field with the given number, among fields of one width that lie close together. -/
def field (bits : List Bool) (width number : ℕ) : ℕ :=
  value ((bits.drop (number * width)).take width)

@[simp] theorem length_spell (width number : ℕ) : (spell width number).length = width := by
  induction width with
  | zero => rfl
  | succ width ih => rw [spell, List.length_cons, ih]

theorem spell_add (high low number : ℕ) :
    spell (high + low) number = spell high (number >>> low) ++ spell low number := by
  induction high with
  | zero => rw [Nat.zero_add, spell, List.nil_append]
  | succ high ih =>
    rw [Nat.succ_add, spell, ih, spell, Nat.testBit_shiftRight, Nat.add_comm low, List.cons_append]

/-- Bits above those that are spelled do not matter. -/
theorem spell_mod {width bound : ℕ} (fits : width ≤ bound) (number : ℕ) :
    spell width (number % 2 ^ bound) = spell width number := by
  induction width with
  | zero => rfl
  | succ width ih =>
    have kept : (number % 2 ^ bound).testBit width = number.testBit width := by
      simp only [Nat.testBit_mod_two_pow, Nat.lt_of_succ_le fits, decide_true, Bool.true_and]
    rw [spell, spell, kept, ih (Nat.le_of_succ_le fits)]

theorem value_spell (width number : ℕ) : value (spell width number) = number % 2 ^ width := by
  -- What was read before moves up by one place for each bit.
  have shifted (before : ℕ) :
      (spell width number).foldl (fun number bit => 2 * number + bit.toNat) before =
        2 ^ width * before + number % 2 ^ width := by
    induction width generalizing before with
    | zero => simp [spell, Nat.mod_one]
    | succ width ih =>
      rw [spell, List.foldl_cons, ih, Nat.mod_pow_succ, Nat.toNat_testBit]
      ring
  rw [value, shifted, Nat.mul_zero, Nat.zero_add]

theorem ofBytes_cons (byte : UInt8) (bytes : List UInt8) :
    ofBytes (byte :: bytes) = spell 8 byte.toNat ++ ofBytes bytes :=
  List.flatMap_cons

theorem length_ofBytes (bytes : List UInt8) : (ofBytes bytes).length = 8 * bytes.length := by
  induction bytes with
  | nil => rfl
  | cons byte bytes ih =>
    rw [ofBytes_cons, List.length_append, length_spell, ih, List.length_cons, Nat.mul_succ,
      Nat.add_comm]

theorem field_drop (bits : List Bool) (width number : ℕ) :
    field (bits.drop width) width number = field bits width (number + 1) := by
  rw [field, field, List.drop_drop, Nat.succ_mul, Nat.add_comm]

end PdfPrimitives.Bits
