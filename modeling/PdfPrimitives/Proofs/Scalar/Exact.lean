import Mathlib.Data.Rat.Floor
import Mathlib.Tactic.Linarith
import Mathlib.Tactic.Ring
import PdfPrimitives.Interval

/-!
Exact arithmetic. Over the rational numbers no operation rounds and every result is a
number, so that clipping and mapping are the functions that they are meant to be.
-/

namespace PdfPrimitives

namespace Exact

instance scalar : Scalar ℚ where
  decidableLT := inferInstance
  decidableLE := inferInstance
  isNaN _ := false
  isFinite _ := true
  ofInt n := n
  floor x := ⌊x⌋
  toInt x := ⌊x⌋

/-- Functions whose values at rational numbers need not be rational. Nothing is asked of
these approximations. -/
class Approximations where
  sqrt : ℚ → ℚ
  sin : ℚ → ℚ
  cos : ℚ → ℚ
  atan : ℚ → ℚ → ℚ
  ln : ℚ → ℚ
  log : ℚ → ℚ
  power : ℚ → ℚ → ℚ
  radiansOfDegrees : ℚ → ℚ
  degreesOfRadians : ℚ → ℚ
  ofBits : UInt64 → ℚ

@[reducible] def Approximations.zero : Approximations where
  sqrt _ := 0
  sin _ := 0
  cos _ := 0
  atan _ _ := 0
  ln _ := 0
  log _ := 0
  power _ _ := 0
  radiansOfDegrees _ := 0
  degreesOfRadians _ := 0
  ofBits _ := 0

instance elementary [Approximations] : Elementary ℚ where
  abs := abs
  ceiling x := ⌈x⌉
  truncate x := if x < 0 then ⌈x⌉ else ⌊x⌋
  sqrt := Approximations.sqrt
  sin := Approximations.sin
  cos := Approximations.cos
  atan := Approximations.atan
  ln := Approximations.ln
  log := Approximations.log
  power := Approximations.power
  radiansOfDegrees := Approximations.radiansOfDegrees
  degreesOfRadians := Approximations.degreesOfRadians
  ofBits := Approximations.ofBits

@[simp] theorem zero_literal : (0.0 : ℚ) = 0 := by norm_num

@[simp] theorem one_literal : (1.0 : ℚ) = 1 := by norm_num

@[simp] theorem ofInt_eq (n : ℤ) : (Scalar.ofInt n : ℚ) = n := rfl

end Exact

namespace Interval

theorem nearest_eq_clamp (interval : Interval ℚ) (x : ℚ) :
    interval.nearest x = min (max x interval.low) interval.high := by
  have raised : (if x < interval.low then interval.low else x) = max x interval.low := by
    rw [max_def_lt]
  rw [nearest, raised, min_comm, min_def]

theorem nearest_of_mem {interval : Interval ℚ} {x : ℚ} (low : interval.low ≤ x)
    (high : x ≤ interval.high) : interval.nearest x = x := by
  rw [nearest_eq_clamp, max_eq_left low, min_eq_left high]

theorem clip_eq (interval : Interval ℚ) (x : ℚ) : interval.clip x = .ok (interval.nearest x) :=
  rfl

theorem clipAll_eq (intervals : List (Interval ℚ)) (values : List ℚ)
    (fits : values.length = intervals.length) :
    clipAll intervals values = .ok (List.zipWith nearest intervals values) := by
  induction intervals generalizing values with
  | nil =>
    obtain rfl := List.eq_nil_of_length_eq_zero fits
    rfl
  | cons interval intervals ih =>
    cases values with
    | nil => cases fits
    | cons value values =>
      rw [clipAll, clip_eq, ih values (Nat.succ.inj fits)]
      rfl

theorem clipAll_of_mem {intervals : List (Interval ℚ)} {values : List ℚ}
    (inside : List.Forall₂ (fun x interval => interval.low ≤ x ∧ x ≤ interval.high) values
      intervals) : clipAll intervals values = .ok values := by
  induction inside with
  | nil => rfl
  | cons bounds _ ih =>
    rw [clipAll, clip_eq, nearest_of_mem bounds.1 bounds.2, ih]
    rfl

def carry (source target : Interval ℚ) (x : ℚ) : ℚ :=
  target.low + (x - source.low) * ((target.high - target.low) / (source.high - source.low))

end Interval

theorem Affine.apply_between (source target : Interval ℚ) (x : ℚ) :
    (between source target).apply x = source.carry target x := by
  by_cases point : source.high - source.low = 0
  · have map : between source target = ⟨0, target.low⟩ := by simp [between, point]
    rw [map, apply, Interval.carry, point, div_zero]
    ring
  · have map : between source target =
        ⟨(target.high - target.low) / (source.high - source.low), target.low -
          source.low * ((target.high - target.low) / (source.high - source.low))⟩ := by
      simp [between, point]
    rw [map, apply, Interval.carry]
    ring

end PdfPrimitives
