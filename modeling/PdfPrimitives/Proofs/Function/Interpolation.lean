import Mathlib.Tactic.IntervalCases
import Mathlib.Tactic.LinearCombination
import PdfPrimitives.Proofs.Function.Cells

/-!
Interpolation with exact arithmetic. The weights of a cell add up to one and balance at the
coordinate of the cell, so that a table whose values are affine along each axis is
reproduced everywhere between its grid points.
-/

namespace PdfPrimitives.Grid

namespace Cell

def average (cell : Cell ℚ) (value : ℤ → ℚ) : ℚ :=
  (cell.taps.map fun (weight, distance) => weight * value (cell.index + distance)).sum

def Inside (cell : Cell ℚ) (size : ℕ) : Prop :=
  ∀ tap ∈ cell.taps, tap.1 ≠ 0 → 0 ≤ cell.index + tap.2 ∧ cell.index + tap.2 < size

def Balanced (cell : Cell ℚ) (x : ℚ) : Prop :=
  (cell.taps.map fun (weight, _) => weight).sum = 1 ∧
    (cell.taps.map fun (weight, distance) => weight * (cell.index + distance)).sum = x

theorem average_eq (cell : Cell ℚ) (value : ℤ → ℚ) :
    cell.average value = cell.before * value (cell.index - 1) + cell.here * value cell.index +
      cell.after * value (cell.index + 1) + cell.beyond * value (cell.index + 2) := by
  simp only [average, taps, List.map_cons, List.map_nil, List.sum_cons, List.sum_nil]
  ring_nf

theorem Balanced.average_affine {cell : Cell ℚ} {x : ℚ} (balanced : cell.Balanced x)
    (offset slope : ℚ) : cell.average (fun i => offset + slope * i) = offset + slope * x := by
  obtain ⟨weights, moment⟩ := balanced
  simp only [taps, List.map_cons, List.map_nil, List.sum_cons, List.sum_nil] at weights moment
  push_cast at moment
  rw [average_eq]
  push_cast
  linear_combination offset * weights + slope * moment

inductive Piece (size : ℕ) : ℚ → Cell ℚ → Prop
  | onSample {index : ℕ} (last : index + 1 = size) : Piece size index (onSample index)
  | linear {index : ℕ} {v : ℚ} (start : 0 ≤ v) (stop : v < 1) (within : index + 1 < size) :
      Piece size (index + v) (linear index v)
  | cubicFirst {index : ℕ} {v : ℚ} (start : 0 ≤ v) (stop : v < 1)
      (within : index + 2 < size) : Piece size (index + v) (cubicFirst index v)
  | cubicInner {index : ℕ} {v : ℚ} (start : 0 ≤ v) (stop : v < 1) (before : 1 ≤ index)
      (within : index + 2 < size) : Piece size (index + v) (cubicInner index v)
  | cubicLast {index : ℕ} {v : ℚ} (start : 0 ≤ v) (stop : v < 1) (before : 1 ≤ index)
      (within : index + 1 < size) : Piece size (index + v) (cubicLast index v)

/-- A point between two samples lies in the cell of the lower one. -/
theorem ofCoordinate_between (order : Order) {size index : ℕ} {v : ℚ} (start : 0 ≤ v)
    (stop : v < 1) (within : index + 1 < size) :
    ofCoordinate order (index + v) size = match order with
      | .linear => linear index v
      | .cubic =>
        if size - 1 ≤ index + 1 then if 1 ≤ index then cubicLast index v else linear index v
        else if 1 ≤ index then cubicInner index v
        else cubicFirst index v := by
  have floor : ⌊(index : ℚ) + v⌋ = index := by
    rw [Int.floor_eq_iff, Int.cast_natCast]
    constructor <;> linarith
  have found : (Scalar.toInt (Scalar.floor ((index : ℚ) + v))).toNat = index := by
    change (⌊((⌊(index : ℚ) + v⌋ : ℤ) : ℚ)⌋).toNat = index
    rw [Int.floor_intCast, floor, Int.toNat_natCast]
  have short : ¬((size - 1 : ℕ) : ℚ) ≤ index + v := by
    have next : ((index + 1 : ℕ) : ℚ) ≤ (size - 1 : ℕ) := by
      exact_mod_cast Nat.le_sub_one_of_lt within
    push_cast at next
    linarith
  cases order <;>
    simp only [ofCoordinate, Exact.ofInt_eq, Int.cast_natCast, short, ↓reduceIte, found,
      add_sub_cancel_left]

theorem ofCoordinate_last (order : Order) {size index : ℕ} (last : index + 1 = size) :
    ofCoordinate order (index : ℚ) size = onSample index := by
  subst last
  exact if_pos le_rfl

/-- A coordinate is that of the last sample, or it lies between two samples. -/
theorem coordinate_cases {size : ℕ} {x : ℚ} (low : 0 ≤ x) (high : x ≤ size - 1) :
    (∃ index : ℕ, index + 1 = size ∧ x = index) ∨
      ∃ (index : ℕ) (v : ℚ), 0 ≤ v ∧ v < 1 ∧ index + 1 < size ∧ x = index + v := by
  rcases Int.eq_ofNat_of_zero_le (Int.floor_nonneg.mpr low) with ⟨index, floor⟩
  rcases Int.floor_eq_iff.mp floor with ⟨start, stop⟩
  rw [Int.cast_natCast] at start stop
  have bound : index + 1 ≤ size := by
    have : (index : ℚ) + 1 ≤ size := by linarith
    exact_mod_cast this
  rcases Nat.lt_or_eq_of_le bound with within | last
  · exact .inr ⟨index, x - index, by linarith, by linarith, within, by ring⟩
  · refine .inl ⟨index, last, le_antisymm ?_ start⟩
    rw [← last] at high
    push_cast at high
    linarith

theorem piece_ofCoordinate (order : Order) (size : ℕ) (x : ℚ) (low : 0 ≤ x)
    (high : x ≤ size - 1) : Piece size x (ofCoordinate order x size) := by
  rcases coordinate_cases low high with ⟨index, last, rfl⟩ | ⟨index, v, start, stop, within, rfl⟩
  · rw [ofCoordinate_last order last]
    exact .onSample last
  · rw [ofCoordinate_between order start stop within]
    cases order with
    | linear => exact .linear start stop within
    | cubic =>
      by_cases before : 1 ≤ index <;> by_cases ending : size - 1 ≤ index + 1
      · simpa only [before, ending, ↓reduceIte] using .cubicLast start stop before within
      · simpa only [before, ending, ↓reduceIte] using .cubicInner start stop before (by omega)
      · simpa only [before, ending, ↓reduceIte] using .linear start stop within
      · simpa only [before, ending, ↓reduceIte] using .cubicFirst start stop (by omega)

section Averages

variable (index : ℕ) (v : ℚ) (value : ℤ → ℚ)

theorem average_onSample : (onSample index : Cell ℚ).average value = value index := by
  simp [average_eq, onSample]

theorem average_linear :
    (linear index v).average value = (1 - v) * value index + v * value (index + 1) := by
  simp [average_eq, linear]

theorem average_cubicFirst : (cubicFirst index v).average value =
    ((v / 2 - 3 / 2) * v + 1) * value index + (2 - v) * v * value (index + 1) +
      (v - 1) * v / 2 * value (index + 2) := by
  norm_num [average_eq, cubicFirst]
  ring

theorem average_cubicInner : (cubicInner index v).average value =
    ((-v / 2 + 1) * v - 1 / 2) * v * value (index - 1) +
      ((3 * v / 2 - 5 / 2) * v * v + 1) * value index +
      ((-3 * v / 2 + 2) * v + 1 / 2) * v * value (index + 1) +
      (v / 2 - 1 / 2) * v * v * value (index + 2) := by
  norm_num [average_eq, cubicInner]
  ring

theorem average_cubicLast : (cubicLast index v).average value =
    -v / 2 * (1 - v) * value (index - 1) + (1 - v * v) * value index +
      v / 2 * (1 + v) * value (index + 1) := by
  norm_num [average_eq, cubicLast]
  ring

end Averages

theorem inside_iff_contained (cell : Cell ℚ) (size : ℕ) :
    cell.Inside size ↔ cell.Contained size := by
  simp only [Inside, Contained, Exact.zero_literal, beq_eq_false_iff_ne]

namespace Piece

variable {size : ℕ} {x : ℚ} {cell : Cell ℚ}

theorem inside (piece : Piece size x cell) : cell.Inside size := by
  rw [inside_iff_contained]
  cases piece with
  | onSample last => exact contained_onSample (Nat.lt_of_succ_le last.le)
  | linear start stop within => exact contained_linear within
  | cubicFirst start stop within => exact contained_cubicFirst within
  | cubicInner start stop before within => exact contained_cubicInner before within
  | cubicLast start stop before within => exact contained_cubicLast before within

theorem balanced (piece : Piece size x cell) : cell.Balanced x := by
  cases piece <;> constructor <;>
    norm_num [taps, Cell.onSample, Cell.linear, Cell.cubicFirst, Cell.cubicInner,
      Cell.cubicLast] <;> ring

/-- At a grid point only the sample there has a weight. -/
theorem average_natCast {place : ℕ} (piece : Piece size place cell) (value : ℤ → ℚ) :
    cell.average value = value place := by
  have whole {index : ℕ} {v : ℚ} (start : 0 ≤ v) (stop : v < 1) (same : (index + v : ℚ) = place) :
      index = place ∧ v = 0 := by
    have below : (index : ℚ) ≤ place := by linarith
    have above : (place : ℚ) < (index + 1 : ℕ) := by push_cast; linarith
    have equal : index = place :=
      le_antisymm (by exact_mod_cast below) (Nat.lt_succ_iff.mp (by exact_mod_cast above))
    subst equal
    exact ⟨rfl, by linarith⟩
  generalize coordinate : (place : ℚ) = x at piece
  cases piece with
  | onSample last => rw [average_onSample, Nat.cast_injective coordinate]
  | linear start stop within =>
    obtain ⟨rfl, rfl⟩ := whole start stop coordinate.symm
    rw [average_linear]; ring
  | cubicFirst start stop within =>
    obtain ⟨rfl, rfl⟩ := whole start stop coordinate.symm
    rw [average_cubicFirst]; ring
  | cubicInner start stop before within =>
    obtain ⟨rfl, rfl⟩ := whole start stop coordinate.symm
    rw [average_cubicInner]; ring
  | cubicLast start stop before within =>
    obtain ⟨rfl, rfl⟩ := whole start stop coordinate.symm
    rw [average_cubicLast]; ring

end Piece

end Cell

/-- The weighted sum over all combinations of samples around the cells, one for each
dimension. The first dimension is worked out first. -/
def mean : List (Cell ℚ) → (List ℤ → ℚ) → ℚ
  | [], value => value []
  | cell :: cells, value => mean cells fun indices => cell.average fun i => value (i :: indices)

/-- The number of a grid point, the first index varying fastest. -/
def place : List ℕ → List ℕ → ℕ
  | size :: sizes, index :: indices => index + size * place sizes indices
  | _, _ => 0

section Blending

variable {table : Table ℚ} {channel : ℕ}

theorem foldlM_add {ι : Type} {step : ℚ → ι → Except Fault ℚ} (term : ι → ℚ) (items : List ι)
    (adds : ∀ item ∈ items, ∀ sum, step sum item = .ok (sum + term item)) (sum : ℚ) :
    items.foldlM step sum = .ok (sum + (items.map term).sum) := by
  induction items generalizing sum with
  | nil => simp [pure, Except.pure]
  | cons item items ih =>
    rw [List.foldlM_cons, adds item List.mem_cons_self]
    change items.foldlM step (sum + term item) = _
    rw [ih fun other member => adds other (List.mem_cons_of_mem item member), List.map_cons,
      List.sum_cons, add_assoc]

theorem blend_cons (axis : Axis) {cell : Cell ℚ} {rest : List (Axis × Cell ℚ)} {offset : ℕ}
    {value : ℤ → ℚ} (inside : cell.Inside axis.size)
    (found : ∀ i < axis.size, blend table channel rest (offset + i * axis.stride) = .ok (value i)) :
    blend table channel ((axis, cell) :: rest) offset = .ok (cell.average value) := by
  rw [blend, foldlM_add fun (weight, distance) => weight * value (cell.index + distance),
    Exact.zero_literal, zero_add, Cell.average]
  intro (weight, distance) member sum
  by_cases zero : weight = 0
  · simp [zero]
  · -- A sample with a weight is one of the axis, so that a value is found there.
    obtain ⟨low, high⟩ := inside _ member zero
    obtain ⟨i, here⟩ := Int.eq_ofNat_of_zero_le low
    have within : i < axis.size := by
      rw [here] at high
      exact_mod_cast high
    simp only [here] at low high ⊢
    simp [zero, low, within, found i within, pure, Except.pure, bind, Except.bind]

theorem blend_eq_mean {sizes : List ℕ} {cells : List (Cell ℚ)}
    (inside : List.Forall₂ Cell.Inside cells sizes) {stride offset : ℕ}
    {rest : List (Axis × Cell ℚ)} {value : List ℤ → ℚ}
    (found : ∀ indices, List.Forall₂ (· < ·) indices sizes →
      blend table channel rest (offset + stride * place sizes indices) =
        .ok (value (indices.map (↑)))) :
    blend table channel (((axes stride sizes).zip cells).reverse ++ rest) offset =
      .ok (mean cells value) := by
  induction inside generalizing stride rest value with
  | nil => exact found [] .nil
  | @cons cell size cells sizes first inside ih =>
    rw [axes, List.zip_cons_cons, List.reverse_cons, List.append_assoc, List.singleton_append, mean]
    refine ih fun indices within => ?_
    refine blend_cons ⟨size, stride⟩ first fun i below => ?_
    have number : offset + stride * size * place sizes indices + i * stride =
        offset + stride * place (size :: sizes) (i :: indices) := by
      rw [place]
      ring
    rw [number]
    exact found (i :: indices) (.cons below within)

/-- Where every sample with a weight is inside the grid, the value is the weighted sum of the
samples. -/
theorem interpolate_eq_mean {sizes : List ℕ} {cells : List (Cell ℚ)} {value : List ℤ → ℚ}
    (inside : List.Forall₂ Cell.Inside cells sizes)
    (samples : ∀ indices, List.Forall₂ (· < ·) indices sizes →
      table.sample (place sizes indices) channel = .ok (value (indices.map (↑)))) :
    interpolate table (axes 1 sizes) cells channel = .ok (mean cells value) := by
  rw [interpolate, ← List.append_nil (List.reverse _)]
  refine blend_eq_mean inside fun indices within => ?_
  rw [blend, zero_add, one_mul]
  exact samples indices within

end Blending

def InBox (point : List ℚ) (sizes : List ℕ) : Prop :=
  List.Forall₂ (fun (x : ℚ) (size : ℕ) => 0 ≤ x ∧ x ≤ size - 1) point sizes

def cellsAround (order : Order) (point : List ℚ) (sizes : List ℕ) : List (Cell ℚ) :=
  List.zipWith (Cell.ofCoordinate order) point sizes

theorem pieces_cellsAround (order : Order) {point : List ℚ} {sizes : List ℕ}
    (box : InBox point sizes) :
    List.Forall₂ (fun cell (place : ℚ × ℕ) => Cell.Piece place.2 place.1 cell)
      (cellsAround order point sizes) (point.zip sizes) := by
  induction box with
  | nil => exact .nil
  | @cons x size _ _ bounds _ ih =>
    exact .cons (Cell.piece_ofCoordinate order size x bounds.1 bounds.2) ih

theorem inside_cellsAround (order : Order) {point : List ℚ} {sizes : List ℕ}
    (box : InBox point sizes) : List.Forall₂ Cell.Inside (cellsAround order point sizes) sizes := by
  have inside := (pieces_cellsAround order box).imp fun _ _ piece => piece.inside
  rwa [← List.forall₂_map_right_iff, List.map_snd_zip box.length_eq.ge] at inside

theorem balanced_cellsAround (order : Order) {point : List ℚ} {sizes : List ℕ}
    (box : InBox point sizes) :
    List.Forall₂ Cell.Balanced (cellsAround order point sizes) point := by
  have balanced := (pieces_cellsAround order box).imp fun _ _ piece => piece.balanced
  rwa [← List.forall₂_map_right_iff, List.map_fst_zip box.length_eq.le] at balanced

theorem mean_congr {cells : List (Cell ℚ)} {value other : List ℤ → ℚ}
    (same : ∀ indices, indices.length = cells.length → value indices = other indices) :
    mean cells value = mean cells other := by
  induction cells generalizing value other with
  | nil => exact same [] rfl
  | cons cell cells ih =>
    refine ih fun indices lengths => congrArg cell.average (funext fun i => ?_)
    exact same (i :: indices) (congrArg (· + 1) lengths)

theorem inBox_of_indices {indices sizes : List ℕ} (within : List.Forall₂ (· < ·) indices sizes) :
    InBox (indices.map (↑)) sizes := by
  refine List.forall₂_map_left_iff.mpr (within.imp fun index size below => ?_)
  have below : (index : ℚ) + 1 ≤ size := by exact_mod_cast below
  exact ⟨index.cast_nonneg, by linarith⟩

/-- At a grid point the value is the sample there. -/
theorem mean_index (order : Order) {indices sizes : List ℕ} {value : List ℤ → ℚ}
    (within : List.Forall₂ (· < ·) indices sizes) :
    mean (cellsAround order (indices.map (↑)) sizes) value = value (indices.map (↑)) := by
  induction within generalizing value with
  | nil => rfl
  | @cons index size indices sizes below within ih =>
    obtain ⟨bounds, -⟩ := List.forall₂_cons.mp (inBox_of_indices (.cons below within))
    have piece := Cell.piece_ofCoordinate order size index bounds.1 bounds.2
    rw [List.map_cons, cellsAround, List.zipWith_cons_cons, mean]
    simp only [piece.average_natCast]
    exact ih

/-- Affine in each of a number of arguments while the others stay. -/
def Multiaffine (count : ℕ) (f : List ℚ → ℚ) : Prop :=
  ∀ front back, front.length + back.length + 1 = count →
    ∃ offset slope, ∀ x, f (front ++ x :: back) = offset + slope * x

theorem Multiaffine.cons {count : ℕ} {f : List ℚ → ℚ} (affine : Multiaffine (count + 1) f)
    (x : ℚ) : Multiaffine count fun point => f (x :: point) := by
  intro front back lengths
  refine affine (x :: front) back ?_
  rw [List.length_cons]
  omega

theorem mean_multiaffine (order : Order) {point : List ℚ} {sizes : List ℕ} {f : List ℚ → ℚ}
    (affine : Multiaffine sizes.length f) (box : InBox point sizes) :
    mean (cellsAround order point sizes) (fun indices => f (indices.map (↑))) = f point := by
  induction box generalizing f with
  | nil => rfl
  | @cons x size point sizes bounds box ih =>
    have piece := Cell.piece_ofCoordinate order size x bounds.1 bounds.2
    rw [cellsAround, List.zipWith_cons_cons, mean, ← ih (affine.cons x)]
    refine mean_congr fun indices lengths => ?_
    obtain ⟨offset, slope, line⟩ := affine [] (indices.map (↑)) (by
      simpa [box.length_eq] using lengths)
    simp only [List.map_cons, List.nil_append] at line ⊢
    simp only [line, piece.balanced.average_affine]

/-- A table that is affine in each index is reproduced between its grid points. -/
theorem interpolate_multiaffine (order : Order) (sizes : List ℕ) {table : Table ℚ} {channel : ℕ}
    {f : List ℚ → ℚ} (affine : Multiaffine sizes.length f)
    (samples : ∀ indices, List.Forall₂ (· < ·) indices sizes →
      table.sample (place sizes indices) channel = .ok (f (indices.map (↑))))
    {point : List ℚ} (box : InBox point sizes) :
    interpolate table (axes 1 sizes) (cellsAround order point sizes) channel = .ok (f point) ∧
      List.Forall₂ Cell.Balanced (cellsAround order point sizes) point := by
  constructor
  · rw [← mean_multiaffine order affine box]
    refine interpolate_eq_mean (inside_cellsAround order box) fun indices within => ?_
    rw [samples indices within, List.map_map]
    rfl
  · exact balanced_cellsAround order box

def saddle : List ℚ → ℚ
  | [x, y] => 1 + 2 * x + 3 * y + 4 * x * y
  | _ => 0

def saddleTable : Table ℚ := ⟨#[0, 1, 0, 3, 0, 5, 0, 4, 0, 10, 0, 16], 2⟩

theorem multiaffine_saddle : Multiaffine 2 saddle := by
  intro front back lengths
  cases front with
  | nil =>
    obtain ⟨y, rfl⟩ := List.length_eq_one_iff.mp (show back.length = 1 by simpa using lengths)
    exact ⟨1 + 3 * y, 2 + 4 * y, fun x => by rw [List.nil_append, saddle]; ring⟩
  | cons x front =>
    rw [List.length_cons] at lengths
    obtain rfl := List.eq_nil_of_length_eq_zero (show front.length = 0 by omega)
    obtain rfl := List.eq_nil_of_length_eq_zero (show back.length = 0 by omega)
    exact ⟨1 + 2 * x, 3 + 4 * x, fun y => by rw [List.singleton_append, saddle]; ring⟩

theorem interpolate_saddle :
    (Multiaffine 2 saddle ∧
      (∀ indices, List.Forall₂ (· < ·) indices [3, 2] →
        saddleTable.sample (place [3, 2] indices) 1 = .ok (saddle (indices.map (↑)))) ∧
      InBox [5 / 4, 1 / 3] [3, 2]) ∧
    interpolate saddleTable (axes 1 [3, 2]) (cellsAround .cubic [5 / 4, 1 / 3] [3, 2]) 1 =
      .ok (37 / 6) ∧
    List.Forall₂ Cell.Balanced (cellsAround .cubic [5 / 4, 1 / 3] [3, 2]) [5 / 4, 1 / 3] := by
  have samples (indices : List ℕ) (within : List.Forall₂ (· < ·) indices [3, 2]) :
      saddleTable.sample (place [3, 2] indices) 1 = .ok (saddle (indices.map (↑))) := by
    obtain ⟨i, _, first, rest, rfl⟩ := List.forall₂_cons_right_iff.mp within
    obtain ⟨j, _, second, nothing, rfl⟩ := List.forall₂_cons_right_iff.mp rest
    obtain rfl := List.forall₂_nil_right_iff.mp nothing
    interval_cases i <;> interval_cases j <;>
      norm_num [saddleTable, Table.sample, place, saddle]
  have box : InBox [5 / 4, 1 / 3] [3, 2] := by
    norm_num [InBox]
  have value : saddle [5 / 4, 1 / 3] = 37 / 6 := by
    norm_num [saddle]
  have reproduced := interpolate_multiaffine .cubic [3, 2] multiaffine_saddle samples box
  exact ⟨⟨multiaffine_saddle, samples, box⟩, value ▸ reproduced⟩

end PdfPrimitives.Grid
