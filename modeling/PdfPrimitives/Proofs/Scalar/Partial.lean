import PdfPrimitives.Proofs.Scalar.Exact
import PdfPrimitives.Proofs.Scalar.Finite

/-!
Exact arithmetic with results that are no numbers. Beside the rational numbers stands one
element for a quotient by zero and for the patterns of infinities, which every operation
passes on and which compares with nothing.
-/

namespace PdfPrimitives

def Partial : Type := Option ℚ

namespace Partial

def map (f : ℚ → ℚ) : Partial → Partial := Option.map f

def map₂ (f : ℚ → ℚ → ℚ) : Partial → Partial → Partial := Option.map₂ f

def Related (relation : ℚ → ℚ → Prop) : Partial → Partial → Prop
  | some x, some y => relation x y
  | _, _ => False

def relatedDecidable (relation : ℚ → ℚ → Prop) (decides : ∀ x y, Decidable (relation x y)) :
    ∀ x y, Decidable (Related relation x y)
  | some x, some y => decides x y
  | some _, none | none, some _ | none, none => isFalse id

instance : Scalar Partial where
  add := map₂ (· + ·)
  sub := map₂ (· - ·)
  mul := map₂ (· * ·)
  div dividend divisor := map₂ (· / ·) dividend (Option.filter (· ≠ 0) divisor)
  neg := map (- ·)
  lt := Related (· < ·)
  le := Related (· ≤ ·)
  beq x y := (relatedDecidable (· = ·) inferInstance x y).decide
  ofScientific mantissa negative exponent :=
    some (if negative then mkRat mantissa (10 ^ exponent) else mantissa * 10 ^ exponent)
  decidableLT := relatedDecidable (· < ·) inferInstance
  decidableLE := relatedDecidable (· ≤ ·) inferInstance
  isNaN := Option.isNone
  isFinite := Option.isSome
  ofInt n := some n
  floor := map fun x => ⌊x⌋
  toInt x := x.elim 0 fun x => ⌊x⌋

theorem isFinite_map (f : ℚ → ℚ) {x : Partial} (finite : Scalar.isFinite x) :
    Scalar.isFinite (map f x) := by
  cases x with
  | none => cases finite
  | some x => rfl

theorem isFinite_map₂ (f : ℚ → ℚ → ℚ) {x y : Partial} (first : Scalar.isFinite x)
    (second : Scalar.isFinite y) : Scalar.isFinite (map₂ f x y) := by
  cases x with
  | none => cases first
  | some x => exact isFinite_map (f x) second

variable [Exact.Approximations]

instance : Elementary Partial where
  abs := map abs
  ceiling := map fun x => ⌈x⌉
  truncate := map Elementary.truncate
  sqrt := map Elementary.sqrt
  sin := map Elementary.sin
  cos := map Elementary.cos
  atan := map₂ Elementary.atan
  ln := map Elementary.ln
  log := map Elementary.log
  power := map₂ Elementary.power
  radiansOfDegrees := map Elementary.radiansOfDegrees
  degreesOfRadians := map Elementary.degreesOfRadians
  ofBits bits := if Numeral.isFiniteDouble bits then some (Elementary.ofBits bits) else none

instance : FiniteScalar Partial where
  number_of_finite {x} finite := by
    cases x with
    | none => cases finite
    | some x => rfl
  zero := rfl
  ofInt _ := rfl
  ofBits finite := by
    change Option.isSome (if _ then _ else _) = true
    rw [if_pos finite]
    rfl

instance : FiniteFunctions Partial where
  floor := isFinite_map _
  ceiling := isFinite_map _
  truncate := isFinite_map _
  addHalf finite := isFinite_map₂ _ finite rfl
  sqrt finite _ := isFinite_map _ finite
  ln finite _ := isFinite_map _ finite
  log finite _ := isFinite_map _ finite
  radians := isFinite_map _
  sin := isFinite_map _
  cos := isFinite_map _
  angle first second := isFinite_map _ (isFinite_map₂ _ first second)
  addTurn finite _ := isFinite_map₂ _ finite rfl

end Partial

end PdfPrimitives
