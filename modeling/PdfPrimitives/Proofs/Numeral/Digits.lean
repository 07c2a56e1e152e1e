import Mathlib.Algebra.Group.Nat.Defs
import PdfPrimitives.Numeral.Decimal
import PdfPrimitives.Text.Byte

/-!
Digits and the numbers they stand for. The digits of a number read back as the number, and
so do the digits in front of and behind the point of a decimal.
-/

namespace PdfPrimitives.Numeral

section Bytes

theorem isDigit_digitByte (n : Nat) (small : n < 10) : isDigit (digitByte n) = true := by
  have low : (0x30 : UInt8) ≤ digitByte n := by
    rw [UInt8.le_iff_toNat_le, digitByte, UInt8.toNat_ofNat']
    simp only [UInt8.reduceToNat]
    omega
  have high : digitByte n ≤ (0x39 : UInt8) := by
    rw [UInt8.le_iff_toNat_le, digitByte, UInt8.toNat_ofNat']
    simp only [UInt8.reduceToNat]
    omega
  simp [isDigit, low, high]

theorem digitValue_digitByte (n : Nat) (small : n < 10) : digitValue (digitByte n) = n := by
  rw [digitValue, digitByte, UInt8.toNat_ofNat']
  omega

theorem byte_cases {P : UInt8 → Prop} (each : ∀ n : Fin 256, P (UInt8.ofFin n)) (byte : UInt8) :
    P byte := each byte.toFin

theorem isDigit_class (byte : UInt8) (digit : isDigit byte = true) :
    Byte.isRegular byte = true ∧ byte ≠ 0x2b ∧ byte ≠ 0x2d ∧ byte ≠ Byte.point := by
  revert byte
  exact byte_cases (by decide +kernel)

end Bytes

section Runs

theorem digitsOf_all (n : Nat) : (digitsOf n).all isDigit = true := by
  fun_induction digitsOf n with
  | case1 n small => simp [isDigit_digitByte n small]
  | case2 n large ih =>
    rw [List.all_append, ih]
    simp [isDigit_digitByte (n % 10) (Nat.mod_lt n (by omega))]

theorem digitsOf_ne_nil (n : Nat) : digitsOf n ≠ [] := by
  rw [digitsOf]
  split <;> simp

theorem valueOf_concat (run : List UInt8) (byte : UInt8) :
    valueOf (run ++ [byte]) = 10 * valueOf run + digitValue byte := by
  simp [valueOf]

theorem foldl_value (run : List UInt8) (start : Nat) :
    run.foldl (fun value byte => 10 * value + digitValue byte) start =
      start * 10 ^ run.length + valueOf run := by
  induction run generalizing start with
  | nil => simp [valueOf]
  | cons byte run ih =>
    rw [valueOf, List.foldl_cons, List.foldl_cons, ih, ih (10 * 0 + digitValue byte),
      List.length_cons, Nat.pow_succ, Nat.add_mul, Nat.mul_zero, Nat.zero_add,
      Nat.mul_comm 10 start, Nat.mul_assoc, Nat.mul_comm 10 (10 ^ run.length), Nat.add_assoc]

theorem valueOf_append (front back : List UInt8) :
    valueOf (front ++ back) = valueOf front * 10 ^ back.length + valueOf back := by
  rw [valueOf, List.foldl_append, foldl_value]
  rfl

theorem valueOf_digitsOf (n : Nat) : valueOf (digitsOf n) = n := by
  fun_induction digitsOf n with
  | case1 n small => simp [valueOf, digitValue_digitByte n small]
  | case2 n large ih =>
    rw [valueOf_concat, ih, digitValue_digitByte _ (Nat.mod_lt n (by omega))]
    omega

theorem length_digitsOf_le (n places : Nat) (nonzero : 0 < places) (small : n < 10 ^ places) :
    (digitsOf n).length ≤ places := by
  fun_induction digitsOf n generalizing places with
  | case1 n single => exact nonzero
  | case2 n large ih =>
    obtain _ | _ | places := places
    · contradiction
    · omega
    · have smaller : n / 10 < 10 ^ (places + 1) := by
        rw [Nat.pow_succ] at small
        omega
      have := ih (places + 1) (by omega) smaller
      rw [List.length_append, List.length_singleton]
      omega

theorem length_padded (width : Nat) (run : List UInt8) (short : run.length ≤ width) :
    (padded width run).length = width := by
  simp only [padded, List.length_append, List.length_replicate]
  omega

theorem valueOf_zeros (count : Nat) : valueOf (List.replicate count 0x30) = 0 := by
  induction count with
  | zero => rfl
  | succ count ih =>
    rw [List.replicate_succ', valueOf_concat, ih]
    rfl

theorem valueOf_padded (width : Nat) (run : List UInt8) :
    valueOf (padded width run) = valueOf run := by
  rw [padded, valueOf_append, valueOf_zeros, Nat.zero_mul, Nat.zero_add]

theorem padded_all (width : Nat) (run : List UInt8) (digits : run.all isDigit = true) :
    (padded width run).all isDigit = true := by
  have zero : isDigit 0x30 = true := rfl
  simp [padded, digits, zero]

theorem spanDigits_append (run rest : List UInt8) (digits : run.all isDigit = true)
    (stops : ∀ byte ∈ rest.head?, isDigit byte = false) :
    spanDigits (run ++ rest) = (run, rest) := by
  have taken : ∀ byte ∈ run, isDigit byte = true := List.all_eq_true.mp digits
  rw [spanDigits, List.takeWhile_append_of_pos taken, List.dropWhile_append_of_pos taken]
  cases rest with
  | nil => simp
  | cons byte rest => simp [stops byte rfl]

end Runs

end PdfPrimitives.Numeral
