import PdfPrimitives.Proofs.Scalar.Exact
import PdfPrimitives.Proofs.Scalar.Order

/-!
Counts among the numbers. Whatever is counted in 32 bits is a number, and counts are ordered like
their numbers. A number that lies before a count is rounded down to one.
-/

namespace PdfPrimitives

/-- Scalars in which counts of up to `2 ^ 32` are exact, and which are rounded down to counts. -/
class CountingScalar (α : Type) [Scalar α] : Prop extends OrderedScalar α where
  zero_beq : ((0.0 : α) == 0.0) = true
  ofInt_zero : (Scalar.ofInt 0 : α) = 0.0
  ofInt_le : ∀ {m n : ℕ}, m ≤ 2 ^ 32 → n ≤ 2 ^ 32 →
    ((Scalar.ofInt m : α) ≤ Scalar.ofInt n ↔ m ≤ n)
  toInt_floor : ∀ {x : α} {n : ℕ}, n ≤ 2 ^ 32 → 0.0 ≤ x → x < Scalar.ofInt n →
    ∃ k : ℕ, k ≤ 2 ^ 32 ∧ Scalar.toInt (Scalar.floor x) = k ∧ Scalar.ofInt k ≤ x

namespace CountingScalar

variable {α : Type} [Scalar α] [CountingScalar α]

theorem isNaN_ofInt {n : ℕ} (counted : n ≤ 2 ^ 32) :
    Scalar.isNaN (Scalar.ofInt n : α) = false :=
  (OrderedScalar.numbers_of_le ((ofInt_le counted counted).mpr n.le_refl)).1

theorem zero_le_ofInt {n : ℕ} (counted : n ≤ 2 ^ 32) : (0.0 : α) ≤ Scalar.ofInt n := by
  rw [← ofInt_zero]
  exact (ofInt_le (Nat.zero_le _) counted).mpr n.zero_le

/-- The count that a number before `n` is rounded down to lies before `n` too. -/
theorem toInt_floor_lt {x : α} {n : ℕ} (counted : n ≤ 2 ^ 32) (low : 0.0 ≤ x)
    (below : x < Scalar.ofInt n) : (Scalar.toInt (Scalar.floor x)).toNat < n := by
  obtain ⟨k, small, rounded, under⟩ := toInt_floor counted low below
  rw [rounded, Int.toNat_natCast]
  by_contra beyond
  have reached : (Scalar.ofInt n : α) ≤ Scalar.ofInt k :=
    (ofInt_le counted small).mpr (Nat.not_lt.mp beyond)
  exact (OrderedScalar.lt_iff.mp below).2 (OrderedScalar.le_trans reached under)

end CountingScalar

namespace Exact

instance ordered : OrderedScalar ℚ where
  numbers_of_le _ := ⟨rfl, rfl⟩
  le_refl _ := Rat.le_refl
  le_trans := Rat.le_trans
  le_total _ _ := Rat.le_total
  lt_iff := lt_iff_le_not_ge

instance counting : CountingScalar ℚ where
  zero_beq := beq_self_eq_true _
  ofInt_zero := by rw [ofInt_eq, zero_literal, Int.cast_zero]
  ofInt_le _ _ := by
    rw [ofInt_eq, ofInt_eq, Int.cast_le, Int.ofNat_le]
  toInt_floor := by
    intro x n counted low below
    rw [zero_literal] at low
    rw [ofInt_eq, Int.cast_natCast] at below
    obtain ⟨k, floor⟩ := Int.eq_ofNat_of_zero_le (Int.floor_nonneg.mpr low)
    have under : (k : ℚ) ≤ x := by exact_mod_cast floor ▸ Int.floor_le x
    have within : k < n := by exact_mod_cast under.trans_lt below
    refine ⟨k, by omega, ?_, under⟩
    exact (Int.floor_intCast ⌊x⌋).trans floor

end Exact

/-- Of binary64 numbers it is left to assume that they hold counts in their order and that `floor`
rounds down. The rest is found by computing. -/
theorem Double.counting
    (exact : ∀ {m n : ℕ}, m ≤ 2 ^ 32 → n ≤ 2 ^ 32 →
      ((Scalar.ofInt m : Float) ≤ Scalar.ofInt n ↔ m ≤ n))
    (down : ∀ {x : Float} {n : ℕ}, n ≤ 2 ^ 32 → 0.0 ≤ x → x < Scalar.ofInt n →
      ∃ k : ℕ, k ≤ 2 ^ 32 ∧ Scalar.toInt (Scalar.floor x) = k ∧ Scalar.ofInt k ≤ x) :
    CountingScalar Float where
  zero_beq := by decide +kernel
  ofInt_zero := rfl
  ofInt_le := exact
  toInt_floor := down

end PdfPrimitives
