import PdfPrimitives.Function.Grid
import PdfPrimitives.Proofs.Scalar.Counting

/-!
The samples around a coordinate. Those that have a weight are samples of the axis, whichever piece
of the interpolation the coordinate falls into. No operation of the numbers has to be exact for
that but counting.
-/

namespace PdfPrimitives.Grid.Cell

variable {α : Type} [Scalar α]

def Contained (cell : Cell α) (size : ℕ) : Prop :=
  ∀ tap ∈ cell.taps, (tap.1 == (0.0 : α)) = false →
    0 ≤ (cell.index : ℤ) + tap.2 ∧ (cell.index : ℤ) + tap.2 < size

theorem contained_iff (cell : Cell α) (size : ℕ) : cell.Contained size ↔
    ((cell.before == (0.0 : α)) = false → 1 ≤ cell.index ∧ cell.index ≤ size) ∧
      ((cell.here == (0.0 : α)) = false → cell.index < size) ∧
      ((cell.after == (0.0 : α)) = false → cell.index + 1 < size) ∧
      ((cell.beyond == (0.0 : α)) = false → cell.index + 2 < size) := by
  simp only [Contained, taps, List.forall_mem_cons, List.not_mem_nil, false_implies, implies_true,
    and_true]
  refine and_congr (imp_congr_right fun _ => ?_) (and_congr (imp_congr_right fun _ => ?_)
    (and_congr (imp_congr_right fun _ => ?_) (imp_congr_right fun _ => ?_))) <;> omega

section Pieces

variable [CountingScalar α] {size index : ℕ} {v : α}

theorem unweighted {P : Prop} (weighted : ((0.0 : α) == 0.0) = false) : P := by
  rw [CountingScalar.zero_beq] at weighted
  cases weighted

theorem contained_onSample (here : index < size) : (onSample index : Cell α).Contained size :=
  (contained_iff _ _).mpr ⟨unweighted, fun _ => here, unweighted, unweighted⟩

theorem contained_linear (after : index + 1 < size) : (linear index v).Contained size :=
  (contained_iff _ _).mpr
    ⟨unweighted, fun _ => Nat.lt_of_succ_lt after, fun _ => after, unweighted⟩

theorem contained_cubicFirst (beyond : index + 2 < size) : (cubicFirst index v).Contained size := by
  have after := Nat.lt_of_succ_lt beyond
  exact (contained_iff _ _).mpr
    ⟨unweighted, fun _ => Nat.lt_of_succ_lt after, fun _ => after, fun _ => beyond⟩

theorem contained_cubicLast (before : 1 ≤ index) (after : index + 1 < size) :
    (cubicLast index v).Contained size := by
  have here := Nat.lt_of_succ_lt after
  exact (contained_iff _ _).mpr
    ⟨fun _ => ⟨before, here.le⟩, fun _ => here, fun _ => after, unweighted⟩

omit [CountingScalar α] in
theorem contained_cubicInner (before : 1 ≤ index) (beyond : index + 2 < size) :
    (cubicInner index v).Contained size := by
  have after := Nat.lt_of_succ_lt beyond
  have here := Nat.lt_of_succ_lt after
  exact (contained_iff _ _).mpr
    ⟨fun _ => ⟨before, here.le⟩, fun _ => here, fun _ => after, fun _ => beyond⟩

/-- The piece for a coordinate has weights only where the axis has samples: one that starts before
the last sample has a next one, and is cubic beyond it only if there is one more. -/
theorem contained_ofCoordinate (order : Order) {x : α} (positive : 0 < size)
    (counted : size ≤ 2 ^ 32) (low : 0.0 ≤ x) : (ofCoordinate order x size).Contained size := by
  have limit : size - 1 ≤ 2 ^ 32 := by omega
  unfold ofCoordinate
  dsimp only
  by_cases last : Scalar.ofInt (size - 1 : ℕ) ≤ x
  · rw [if_pos last]
    exact contained_onSample (by omega)
  have below : x < Scalar.ofInt (size - 1 : ℕ) :=
    (OrderedScalar.not_le (OrderedScalar.numbers_of_le low).2
      (CountingScalar.isNaN_ofInt limit)).mp last
  have inside := CountingScalar.toInt_floor_lt limit low below
  -- The index is rounded down from before the last sample, so that there is one after it.
  rw [if_neg last]
  generalize (Scalar.toInt (Scalar.floor x)).toNat = index at inside ⊢
  have after : index + 1 < size := by omega
  cases order with
  | linear => exact contained_linear after
  | cubic =>
    dsimp only
    by_cases short : size - 1 ≤ index + 1
    · rw [if_pos short]
      by_cases before : 1 ≤ index
      · rw [if_pos before]
        exact contained_cubicLast before after
      · rw [if_neg before]
        exact contained_linear after
    · have beyond : index + 2 < size := by omega
      rw [if_neg short]
      by_cases before : 1 ≤ index
      · rw [if_pos before]
        exact contained_cubicInner before beyond
      · rw [if_neg before]
        exact contained_cubicFirst beyond

end Pieces

end PdfPrimitives.Grid.Cell
