import Mathlib.Analysis.Calculus.Deriv.Polynomial
import Mathlib.Topology.Algebra.Module.ModuleTopology
import Mathlib.Topology.Algebra.Polynomial
import Mathlib.Topology.ContinuousOn
import PdfPrimitives.Proofs.Function.Interpolation

/-!
Smoothness of cubic interpolation. Along one dimension the values form a curve of cubic
polynomials, one for each cell. Neighbouring polynomials have the same value and the same slope
at the sample between them, so that the curve has neither a gap nor a corner.
-/

namespace PdfPrimitives.Grid

open Polynomial

/-- A curve of polynomials of degree three at most, which passes through all samples and is
smooth at those between two others. -/
structure Smooth (size : ℕ) (value : ℕ → ℚ) (curve : ℚ → ℚ) : Prop where
  pieces : ∀ index, index + 1 < size → ∃ piece : ℚ[X], piece.natDegree ≤ 3 ∧
    ∀ x ∈ Set.Icc (index : ℚ) (index + 1), curve x = piece.eval x
  continuous : ContinuousOn curve (Set.Icc 0 (size - 1))
  passes : ∀ index < size, curve index = value index
  slopes : ∀ index, 0 < index → index + 1 < size →
    HasDerivWithinAt curve ((value (index + 1) - value (index - 1)) / 2) (Set.Iic index) index ∧
    HasDerivWithinAt curve ((value (index + 1) - value (index - 1)) / 2) (Set.Ici index) index

section Pieces

/-- A curve has the slopes of a polynomial at the ends of an interval that it shares with it. -/
theorem hasDerivWithinAt_ends {curve : ℚ → ℚ} {piece : ℚ[X]} {low high : ℚ} (apart : low < high)
    (agrees : ∀ x ∈ Set.Icc low high, curve x = piece.eval x) :
    HasDerivWithinAt curve (piece.derivative.eval high) (Set.Iic high) high ∧
    HasDerivWithinAt curve (piece.derivative.eval low) (Set.Ici low) low := by
  constructor
  · apply (piece.hasDerivAt high).hasDerivWithinAt.congr_of_eventuallyEq
    · filter_upwards [Icc_mem_nhdsLE apart] using agrees
    · exact agrees high ⟨apart.le, le_rfl⟩
  · apply (piece.hasDerivAt low).hasDerivWithinAt.congr_of_eventuallyEq
    · filter_upwards [Icc_mem_nhdsGE apart] using agrees
    · exact agrees low ⟨le_rfl, apart.le⟩

noncomputable def cubicFrom (start : ℚ) (a b c d : ℚ) : ℚ[X] :=
  (C a + C b * X + C c * X ^ 2 + C d * X ^ 3).comp (X - C start)

variable (start a b c d : ℚ)

theorem natDegree_cubicFrom : (cubicFrom start a b c d).natDegree ≤ 3 := by
  have line : (X - C start).natDegree ≤ 1 := natDegree_X_sub_C_le start
  have cubic : (C a + C b * X + C c * X ^ 2 + C d * X ^ 3).natDegree ≤ 3 := by compute_degree
  calc (cubicFrom start a b c d).natDegree
      ≤ (C a + C b * X + C c * X ^ 2 + C d * X ^ 3).natDegree * (X - C start).natDegree :=
        natDegree_comp_le
    _ ≤ 3 * 1 := Nat.mul_le_mul cubic line

theorem eval_cubicFrom (v : ℚ) :
    (cubicFrom start a b c d).eval (start + v) = a + b * v + c * v ^ 2 + d * v ^ 3 := by
  simp [cubicFrom]

theorem slope_cubicFrom (v : ℚ) : (cubicFrom start a b c d).derivative.eval (start + v) =
    b + 2 * c * v + 3 * d * v ^ 2 := by
  rw [cubicFrom, derivative_comp]
  simp
  ring

noncomputable def segment (size : ℕ) (value : ℤ → ℚ) (index : ℕ) : ℚ[X] :=
  let before := value (index - 1)
  let here := value index
  let after := value (index + 1)
  let beyond := value (index + 2)
  if size - 1 ≤ index + 1 then
    cubicFrom index here ((after - before) / 2) ((before - 2 * here + after) / 2) 0
  else if 1 ≤ index then
    cubicFrom index here ((after - before) / 2) (before - 5 / 2 * here + 2 * after - beyond / 2)
      ((3 * here - before - 3 * after + beyond) / 2)
  else
    cubicFrom index here (2 * after - 3 / 2 * here - beyond / 2) ((here - 2 * after + beyond) / 2) 0

end Pieces

section Curve

variable {size : ℕ} (value : ℤ → ℚ) {index : ℕ}

def curve (size : ℕ) (value : ℤ → ℚ) (x : ℚ) : ℚ :=
  (Cell.ofCoordinate .cubic x size).average value

/-- What a polynomial has at the ends of its cell: the samples, and at an end with samples on
both sides half of their difference as its slope. -/
theorem segment_ends (size : ℕ) (index : ℕ) : ∃ b c d,
    segment size value index = cubicFrom index (value index) b c d ∧
    value index + b + c + d = value (index + 1) ∧
    (1 ≤ index → b = (value (index + 1) - value (index - 1)) / 2) ∧
    (index + 2 < size → b + 2 * c + 3 * d = (value (index + 2) - value index) / 2) := by
  unfold segment
  dsimp only
  by_cases ending : size - 1 ≤ index + 1
  · rw [if_pos ending]
    exact ⟨_, _, _, rfl, by ring, fun _ => rfl, fun within => by omega⟩
  · rw [if_neg ending]
    by_cases before : 1 ≤ index
    · rw [if_pos before]
      exact ⟨_, _, _, rfl, by ring, fun _ => rfl, fun _ => by ring⟩
    · rw [if_neg before]
      exact ⟨_, _, _, rfl, by ring, fun inner => absurd inner before, fun _ => by ring⟩

theorem curve_index (within : index < size) : curve size value index = value index := by
  have bound : (index : ℚ) + 1 ≤ size := by exact_mod_cast within
  have piece := Cell.piece_ofCoordinate .cubic size index index.cast_nonneg (by linarith)
  exact piece.average_natCast value

theorem curve_between (large : 3 ≤ size) {v : ℚ} (start : 0 ≤ v) (stop : v < 1)
    (within : index + 1 < size) :
    curve size value (index + v) = (segment size value index).eval (index + v) := by
  rw [curve, Cell.ofCoordinate_between .cubic start stop within]
  unfold segment
  dsimp only
  by_cases ending : size - 1 ≤ index + 1
  · have before : 1 ≤ index := by omega
    rw [if_pos ending, if_pos ending, if_pos before, Cell.average_cubicLast, eval_cubicFrom]
    ring
  · rw [if_neg ending, if_neg ending]
    by_cases before : 1 ≤ index
    · rw [if_pos before, if_pos before, Cell.average_cubicInner, eval_cubicFrom]
      ring
    · rw [if_neg before, if_neg before, Cell.average_cubicFirst, eval_cubicFrom]
      ring

/-- Each polynomial covers its cell with both ends. -/
theorem curve_eq_segment (large : 3 ≤ size) (within : index + 1 < size) {x : ℚ}
    (inside : x ∈ Set.Icc (index : ℚ) (index + 1)) :
    curve size value x = (segment size value index).eval x := by
  rcases inside with ⟨low, high⟩
  rcases lt_or_eq_of_le high with inner | rfl
  · have between := curve_between value large (sub_nonneg.mpr low) (by linarith) within
    rwa [add_sub_cancel] at between
  · have next := curve_index value within
    rcases segment_ends value size index with ⟨b, c, d, same, stop, -⟩
    push_cast at next
    rw [next, same, eval_cubicFrom, ← stop]
    ring

/-- One more cell is joined at each step. -/
theorem continuousOn_curve (large : 3 ≤ size) (last : ℕ) (within : last < size) :
    ContinuousOn (curve size value) (Set.Icc 0 last) := by
  induction last with
  | zero =>
    rw [Nat.cast_zero, Set.Icc_self]
    exact continuousOn_singleton _ _
  | succ last ih =>
    have cell : ContinuousOn (curve size value) (Set.Icc (last : ℚ) (last + 1)) := by
      apply (segment size value last).continuous.continuousOn.congr
      intro x inside
      exact curve_eq_segment value large within inside
    have joined : Set.Icc (0 : ℚ) (last + 1 : ℕ) =
        Set.Icc 0 (last : ℚ) ∪ Set.Icc (last : ℚ) (last + 1) := by
      rw [Set.Icc_union_Icc_eq_Icc last.cast_nonneg (by linarith)]
      push_cast
      rfl
    rw [joined]
    exact (ih (Nat.lt_of_succ_lt within)).union_of_isClosed cell isClosed_Icc isClosed_Icc

/-- The polynomials on both sides of a sample have the same slope there. -/
theorem slopes_curve (large : 3 ≤ size) (within : index + 2 < size) :
    HasDerivWithinAt (curve size value) ((value (index + 2) - value index) / 2)
      (Set.Iic (index + 1)) (index + 1) ∧
    HasDerivWithinAt (curve size value) ((value (index + 2) - value index) / 2)
      (Set.Ici (index + 1)) (index + 1) := by
  -- On the left one polynomial ends, on the right the next one starts.
  constructor
  · have cell : ∀ x ∈ Set.Icc (index : ℚ) (index + 1), curve size value x = _ :=
      fun x => curve_eq_segment value large (Nat.lt_of_succ_lt within)
    rcases segment_ends value size index with ⟨b, c, d, same, -, -, stop⟩
    rw [← stop within]
    have left := (hasDerivWithinAt_ends (by linarith) cell).1
    rw [same, slope_cubicFrom] at left
    convert left using 1
    ring
  · have cell : ∀ x ∈ Set.Icc ((index + 1 : ℕ) : ℚ) ((index + 1 : ℕ) + 1), curve size value x = _ :=
      fun x => curve_eq_segment value large within
    rcases segment_ends value size (index + 1) with ⟨b, c, d, same, -, start, -⟩
    have slope := start (Nat.le_add_left 1 index)
    have right := (hasDerivWithinAt_ends (by linarith) cell).2
    have here := slope_cubicFrom (index + 1 : ℕ) (value (index + 1 : ℕ)) b c d 0
    have shifted : value ((index + 1 : ℕ) + 1) = value (index + 2) := by
      push_cast
      rw [add_assoc]
      rfl
    rw [add_zero] at here
    rw [shifted, Nat.cast_succ, add_sub_cancel_right] at slope
    rw [same, here, slope, Nat.cast_succ] at right
    convert right using 1
    ring

theorem smooth_curve (large : 3 ≤ size) (value : ℕ → ℚ) :
    Smooth size value (curve size fun i => value i.toNat) where
  pieces index within := by
    refine ⟨segment size _ index, ?_, fun x inside => curve_eq_segment _ large within inside⟩
    rcases segment_ends (fun i => value i.toNat) size index with ⟨b, c, d, same, -⟩
    rw [same]
    exact natDegree_cubicFrom _ _ _ _ _
  continuous := by
    have whole := continuousOn_curve (fun i => value i.toNat) large (size - 1) (by omega)
    rwa [Nat.cast_sub (by omega), Nat.cast_one] at whole
  passes index within := curve_index _ within
  slopes index before within := by
    rcases Nat.exists_eq_succ_of_ne_zero before.ne' with ⟨lower, rfl⟩
    have slopes := slopes_curve (fun i => value i.toNat) large within
    push_cast at slopes ⊢
    exact slopes

end Curve

/-- Cubic interpolation of three samples or more along one dimension is smooth. -/
theorem interpolate_smooth {table : Table ℚ} {channel size : ℕ} (large : 3 ≤ size)
    {value : ℕ → ℚ} (samples : ∀ index < size, table.sample index channel = .ok (value index)) :
    ∃ curve : ℚ → ℚ,
      (∀ x : ℚ, 0 ≤ x → x ≤ size - 1 →
        interpolate table (axes 1 [size]) (cellsAround .cubic [x] [size]) channel =
          .ok (curve x)) ∧
      Smooth size value curve := by
  refine ⟨_, ?_, smooth_curve large value⟩
  intro x low high
  have box : InBox [x] [size] := .cons ⟨low, high⟩ .nil
  have blended : interpolate table (axes 1 [size]) (cellsAround .cubic [x] [size]) channel =
      .ok (mean (cellsAround .cubic [x] [size]) fun indices => value (indices.headD 0).toNat) := by
    refine interpolate_eq_mean (inside_cellsAround .cubic box) fun indices within => ?_
    rcases List.forall₂_cons_right_iff.mp within with ⟨index, _, below, rest, rfl⟩
    cases List.forall₂_nil_right_iff.mp rest
    exact samples index below
  exact blended

def bumpTable : Table ℚ := ⟨#[9, 0, 9, 4, 9, 2], 2⟩

/-- Among three samples the first and the last cell meet. -/
theorem interpolate_bump :
    (3 ≤ 3 ∧ ∀ index < 3, bumpTable.sample index 1 = .ok (([0, 4, 2] : List ℚ).getD index 0)) ∧
    ∃ curve : ℚ → ℚ,
      (∀ x : ℚ, 0 ≤ x → x ≤ 2 →
        interpolate bumpTable (axes 1 [3]) (cellsAround .cubic [x] [3]) 1 = .ok (curve x)) ∧
      curve 1 = 4 ∧ HasDerivWithinAt curve 1 (Set.Iic 1) 1 ∧
      HasDerivWithinAt curve 1 (Set.Ici 1) 1 := by
  have samples : ∀ index < 3, bumpTable.sample index 1 =
      .ok (([0, 4, 2] : List ℚ).getD index 0) := by
    intro index below
    interval_cases index <;> rfl
  rcases interpolate_smooth (by decide) samples with ⟨curve, values, smooth⟩
  have middle := smooth.passes 1 (by decide)
  have slopes := smooth.slopes 1 (by decide) (by decide)
  norm_num at values middle slopes
  exact ⟨⟨by decide, samples⟩, curve, values, middle, slopes⟩

end PdfPrimitives.Grid
