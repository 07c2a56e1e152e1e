import PdfPrimitives.Calculator.Stack
import PdfPrimitives.Proofs.Scalar.Exact

/-!
Integers among the numbers. A 32-bit integer that becomes a number is read back as the integer
that it was.
-/

namespace PdfPrimitives

/-- Scalars that hold the 32-bit integers, in their order. -/
class IntegralScalar (α : Type) [Scalar α] : Prop where
  floor_ofInt : ∀ n : Int32,
    ((Scalar.ofInt n.toInt : α) == Scalar.floor (Scalar.ofInt n.toInt)) = true
  lt_iff : ∀ m n : Int32, (Scalar.ofInt m.toInt : α) < Scalar.ofInt n.toInt ↔ m.toInt < n.toInt
  toInt_ofInt : ∀ n : Int32, Scalar.toInt (Scalar.ofInt n.toInt : α) = n.toInt

namespace Calculator.Operand

variable {α : Type} [Scalar α]

def Reads (operand : Operand α) (n : Int32) : Prop := operand.toInteger = .ok n

theorem reads_ofInteger [IntegralScalar α] (n : Int32) : (ofInteger n : Operand α).Reads n := by
  have low : ¬(Scalar.ofInt n.toInt : α) < Scalar.ofInt Int32.minValue.toInt := by
    rw [IntegralScalar.lt_iff]
    exact Int.not_lt.mpr n.le_toInt
  have high : ¬(Scalar.ofInt Int32.maxValue.toInt : α) < Scalar.ofInt n.toInt := by
    rw [IntegralScalar.lt_iff]
    exact Int.not_lt.mpr (Int.le_of_lt_add_one n.toInt_lt)
  change (Except.ok (Scalar.ofInt n.toInt) >>= _) = _
  simp only [bind, Except.bind, IntegralScalar.floor_ofInt, Bool.not_true, Bool.false_eq_true,
    low, high, decide_false, Bool.or_self, ↓reduceIte, IntegralScalar.toInt_ofInt,
    Int32.ofInt_toInt]

end Calculator.Operand

instance Exact.integral : IntegralScalar ℚ where
  floor_ofInt n := by
    change ((n.toInt : ℚ) == ((⌊(n.toInt : ℚ)⌋ : ℤ) : ℚ)) = true
    rw [Int.floor_intCast, beq_self_eq_true]
  lt_iff m n := by
    change (m.toInt : ℚ) < (n.toInt : ℚ) ↔ _
    rw [Int.cast_lt]
  toInt_ofInt n := Int.floor_intCast n.toInt

end PdfPrimitives
