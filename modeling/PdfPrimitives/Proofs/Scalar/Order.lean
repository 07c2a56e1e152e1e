import Mathlib.Data.Prod.Lex
import PdfPrimitives.Scalar.Double

/-!
The order of numbers. What is no number has no place in it. Zeros of both signs have the
same place, so that numbers at one place need not be the same number.
-/

namespace PdfPrimitives

/-- Scalars that `≤` orders in a line, apart from those that are no numbers. -/
class OrderedScalar (α : Type) [Scalar α] : Prop where
  numbers_of_le : ∀ {x y : α}, x ≤ y → Scalar.isNaN x = false ∧ Scalar.isNaN y = false
  le_refl : ∀ {x : α}, Scalar.isNaN x = false → x ≤ x
  le_trans : ∀ {x y z : α}, x ≤ y → y ≤ z → x ≤ z
  le_total : ∀ {x y : α}, Scalar.isNaN x = false → Scalar.isNaN y = false → x ≤ y ∨ y ≤ x
  lt_iff : ∀ {x y : α}, x < y ↔ x ≤ y ∧ ¬y ≤ x

namespace OrderedScalar

variable {α : Type} [Scalar α] [OrderedScalar α] {x y : α}

theorem not_le (left : Scalar.isNaN x = false) (right : Scalar.isNaN y = false) :
    ¬y ≤ x ↔ x < y := by
  rw [lt_iff]
  constructor
  · intro above
    exact ⟨(le_total left right).resolve_right above, above⟩
  · exact And.right

theorem le_of_not_lt (left : Scalar.isNaN x = false) (right : Scalar.isNaN y = false)
    (above : ¬x < y) : y ≤ x :=
  Decidable.not_not.mp (mt (not_le left right).mp above)

theorem lt_irrefl (x : α) : ¬x < x := fun below => (lt_iff.mp below).2 (lt_iff.mp below).1

theorem not_lt_of_le (ordered : x ≤ y) : ¬y < x := fun below => (lt_iff.mp below).2 ordered

theorem numbers_of_lt (below : x < y) : Scalar.isNaN x = false ∧ Scalar.isNaN y = false :=
  numbers_of_le (lt_iff.mp below).1

end OrderedScalar

namespace Double

open Float.Model UnpackedFloat

def place : UnpackedFloat → ℤ ×ₗ ℤ ×ₗ ℤ
  | .infinity .negative => toLex (-2, toLex (0, 0))
  | .finite .negative mantissa exponent _ => toLex (-1, toLex (-exponent, -mantissa))
  | .zero _ | .notANumber => toLex (0, toLex (0, 0))
  | .finite .positive mantissa exponent _ => toLex (1, toLex (exponent, mantissa))
  | .infinity .positive => toLex (2, toLex (0, 0))

theorem compare_natCast (m n : Nat) : compare (m : ℤ) n = compare m n := by
  simp only [LinearOrder.compare_eq_compareOfLessAndEq, compareOfLessAndEq, Int.ofNat_lt,
    Int.ofNat_inj]

theorem compare_neg (m n : ℤ) : compare (-m) (-n) = (compare m n).swap := by
  rw [← Std.OrientedOrd.eq_swap]
  simp only [LinearOrder.compare_eq_compareOfLessAndEq, compareOfLessAndEq, Int.neg_lt_neg_iff,
    Int.neg_inj, eq_comm]

theorem compare_eq_place (x y : UnpackedFloat) (left : x.isNaN = false)
    (right : y.isNaN = false) : x.compare y = some (compare (place x) (place y)) := by
  -- Only pairs of finite numbers that are not zero and have one sign take more than a look.
  rcases x with (_ | _) | _ | (_ | _) | ⟨_ | _, mantissa, exponent, _⟩ <;>
    rcases y with (_ | _) | _ | (_ | _) | ⟨_ | _, mantissa', exponent', _⟩ <;>
    first | rfl | (cases left; done) | (cases right; done) | skip
  · change some ((compare exponent exponent').then (compare mantissa mantissa')).swap =
      some ((compare (-exponent) (-exponent')).then (compare (-mantissa : ℤ) (-mantissa')))
    rw [compare_neg, compare_neg, compare_natCast, Ordering.swap_then]
  · change some ((compare exponent exponent').then (compare mantissa mantissa')) =
      some ((compare exponent exponent').then (compare (mantissa : ℤ) mantissa'))
    rw [compare_natCast]

theorem compare_nan (x y : UnpackedFloat) (undefined : ¬(x.isNaN = false ∧ y.isNaN = false)) :
    x.compare y = none := by
  cases x <;> cases y <;> first | rfl | exact absurd ⟨rfl, rfl⟩ undefined

/-- A test of how two numbers compare is a test of how their places do. -/
theorem compare_any (test : Ordering → Bool) (x y : UnpackedFloat) :
    (x.compare y).any test = true ↔ (x.isNaN = false ∧ y.isNaN = false) ∧
      test (compare (place x) (place y)) = true := by
  by_cases numbers : x.isNaN = false ∧ y.isNaN = false
  · rw [compare_eq_place x y numbers.1 numbers.2, Option.any_some]
    exact (and_iff_right numbers).symm
  · rw [compare_nan x y numbers, Option.any_none]
    simp [numbers]

theorem le_iff_place (x y : Float) : x ≤ y ↔ (x.isNaN = false ∧ y.isNaN = false) ∧
    place x.toModel.unpack ≤ place y.toModel.unpack := by
  have compared : x ≤ y ↔ (x.toModel.unpack.compare y.toModel.unpack).any Ordering.isLE = true :=
    decide_eq_true_iff
  have places := compare_le_iff_le (a := place x.toModel.unpack) (b := place y.toModel.unpack)
  rw [compared, compare_any, Ordering.isLE_iff_ne_gt, ← places]
  rfl

theorem lt_iff_place (x y : Float) : x < y ↔ (x.isNaN = false ∧ y.isNaN = false) ∧
    place x.toModel.unpack < place y.toModel.unpack := by
  have compared :
      x < y ↔ (x.toModel.unpack.compare y.toModel.unpack).any (· == .lt) = true := by
    refine decide_eq_true_iff.trans ?_
    change (x.toModel.unpack.compare y.toModel.unpack == some .lt) = true ↔ _
    cases x.toModel.unpack.compare y.toModel.unpack <;> simp
  rw [compared, compare_any, beq_iff_eq, compare_lt_iff_lt]
  rfl

instance : OrderedScalar Float where
  numbers_of_le ordered := ((le_iff_place _ _).mp ordered).1
  le_refl number := (le_iff_place _ _).mpr ⟨⟨number, number⟩, le_refl _⟩
  le_trans first second := by
    rw [le_iff_place] at first second ⊢
    exact ⟨⟨first.1.1, second.1.2⟩, first.2.trans second.2⟩
  le_total left right := by
    rw [le_iff_place, le_iff_place]
    exact (le_total _ _).imp (⟨⟨left, right⟩, ·⟩) (⟨⟨right, left⟩, ·⟩)
  lt_iff := by
    intro x y
    rw [lt_iff_place, le_iff_place, le_iff_place, lt_iff_le_not_ge]
    constructor
    · rintro ⟨numbers, below, apart⟩
      exact ⟨⟨numbers, below⟩, fun above => apart above.2⟩
    · rintro ⟨⟨numbers, below⟩, apart⟩
      exact ⟨numbers, below, fun above => apart ⟨numbers.symm, above⟩⟩

end Double

end PdfPrimitives
