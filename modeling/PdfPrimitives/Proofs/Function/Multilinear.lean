import PdfPrimitives.Proofs.Function.Interpolation

/-!
Linear interpolation along each axis. The value lies between samples at corners of the cell
around a point, and it rises along an axis along which all samples rise, also from one cell to
the next.
-/

namespace PdfPrimitives

/-- Two lists that differ in one place at most, where the second one is not below the first. -/
inductive Raised {β : Type} [LE β] : ℕ → List β → List β → Prop
  | here {low high : β} (rises : low ≤ high) (rest : List β) :
    Raised 0 (low :: rest) (high :: rest)
  | there {axis : ℕ} (first : β) {low high : List β} (raised : Raised axis low high) :
    Raised (axis + 1) (first :: low) (first :: high)

theorem Raised.map {β γ : Type} [LE β] [LE γ] {f : β → γ}
    (rises : ∀ low high, low ≤ high → f low ≤ f high) {axis : ℕ} {low high : List β}
    (raised : Raised axis low high) : Raised axis (low.map f) (high.map f) := by
  induction raised with
  | here below rest => exact .here (rises _ _ below) _
  | there first _ ih => exact .there (f first) ih

namespace Grid

/-- The indices at the ends of the cell around a coordinate. There is one only at a sample. -/
def Around (x : ℚ) (i : ℤ) : Prop := ⌊x⌋ ≤ i ∧ i ≤ ⌈x⌉

def OnAxis (size : ℕ) (i : ℤ) : Prop := 0 ≤ i ∧ i < size

section Line

def line (value : ℤ → ℚ) (x : ℚ) : ℚ :=
  (1 - Int.fract x) * value ⌊x⌋ + Int.fract x * value (⌊x⌋ + 1)

variable {value other : ℤ → ℚ} {x y : ℚ} {size : ℕ}

theorem average_ofCoordinate (value : ℤ → ℚ) (low : 0 ≤ x) (high : x ≤ size - 1) :
    (Cell.ofCoordinate .linear x size).average value = line value x := by
  rcases Cell.coordinate_cases low high with
    ⟨index, last, rfl⟩ | ⟨index, v, start, stop, within, rfl⟩
  · rw [Cell.ofCoordinate_last .linear last, Cell.average_onSample, line, Int.fract_natCast,
      Int.floor_natCast]
    ring
  · have floor : ⌊(index : ℚ) + v⌋ = index := by
      rw [Int.floor_eq_iff, Int.cast_natCast]
      constructor <;> linarith
    have fraction : Int.fract ((index : ℚ) + v) = v := by
      rw [Int.fract, floor, Int.cast_natCast, add_sub_cancel_left]
    rw [Cell.ofCoordinate_between .linear start stop within, line, floor, fraction]
    exact Cell.average_linear index v value

theorem around_floor (x : ℚ) : Around x ⌊x⌋ := ⟨le_rfl, Int.floor_le_ceil x⟩

theorem around_next (behind : 0 < Int.fract x) : Around x (⌊x⌋ + 1) :=
  ⟨by omega, Int.add_one_le_iff.mpr (Int.lt_ceil.mpr (sub_pos.mp behind))⟩

theorem line_of_sample (value : ℤ → ℚ) (sample : Int.fract x = 0) : line value x = value ⌊x⌋ := by
  rw [line, sample]
  ring

theorem around_onAxis (low : 0 ≤ x) (high : x ≤ size - 1) {i : ℤ} (around : Around x i) :
    OnAxis size i := by
  have start := Int.floor_nonneg.mpr low
  have stop : ⌈x⌉ ≤ (size : ℤ) - 1 := by
    rw [Int.ceil_le]
    push_cast
    exact high
  rcases around with ⟨left, right⟩
  constructor <;> omega

/-- The corners of a cell are grid points. -/
theorem natural_onAxis {sizes : List ℕ} {corner : List ℤ}
    (inside : List.Forall₂ OnAxis sizes corner) :
    List.Forall₂ (· < ·) (corner.map Int.toNat) sizes ∧
      (corner.map Int.toNat).map (↑) = corner := by
  induction inside with
  | nil => exact ⟨.nil, rfl⟩
  | @cons size i sizes corner first _ ih =>
    rcases first with ⟨low, high⟩
    have whole : ((i.toNat : ℕ) : ℤ) = i := Int.toNat_of_nonneg low
    constructor
    · exact .cons (by omega) ih.1
    · rw [List.map_cons, List.map_cons, whole, ih.2]

/-- Higher samples around a coordinate give a higher value. -/
theorem line_le_line (below : ∀ i, Around x i → value i ≤ other i) :
    line value x ≤ line other x := by
  have first := below ⌊x⌋ (around_floor x)
  have short := Int.fract_lt_one x
  rcases (Int.fract_nonneg x).eq_or_lt with sample | behind
  · rw [line_of_sample value sample.symm, line_of_sample other sample.symm]
    exact first
  · have second := below (⌊x⌋ + 1) (around_next behind)
    exact add_le_add (mul_le_mul_of_nonneg_left first (by linarith))
      (mul_le_mul_of_nonneg_left second behind.le)

theorem line_neg (value : ℤ → ℚ) (x : ℚ) : line (fun i => -value i) x = -line value x := by
  rw [line, line]
  ring

/-- The line does not reach below the lower one of its ends. -/
theorem exists_around_le (value : ℤ → ℚ) (x : ℚ) : ∃ i, Around x i ∧ value i ≤ line value x := by
  have short := Int.fract_lt_one x
  rcases (Int.fract_nonneg x).eq_or_lt with sample | behind
  · exact ⟨⌊x⌋, around_floor x, (line_of_sample value sample.symm).ge⟩
  · rcases le_total (value ⌊x⌋) (value (⌊x⌋ + 1)) with rising | falling
    · refine ⟨⌊x⌋, around_floor x, ?_⟩
      have rest := mul_le_mul_of_nonneg_left rising behind.le
      rw [line]
      linarith
    · refine ⟨⌊x⌋ + 1, around_next behind, ?_⟩
      have rest := mul_le_mul_of_nonneg_left falling (show 0 ≤ 1 - Int.fract x by linarith)
      rw [line]
      linarith

theorem line_const (c x : ℚ) : line (fun _ => c) x = c := by
  rw [line]
  ring

/-- Within a cell the line rises with its ends. -/
theorem line_rises_within (same : ⌊x⌋ = ⌊y⌋) (below : x ≤ y)
    (ends : 0 < Int.fract y → value ⌊y⌋ ≤ value (⌊y⌋ + 1)) : line value x ≤ line value y := by
  have fractions : Int.fract x ≤ Int.fract y := by
    rw [Int.fract, Int.fract, same]
    linarith
  rcases (Int.fract_nonneg y).eq_or_lt with sample | behind
  · -- Both coordinates are that of a sample, which need not have another one behind it.
    have start : Int.fract x = 0 := le_antisymm (sample ▸ fractions) (Int.fract_nonneg x)
    rw [line_of_sample value start, line_of_sample value sample.symm, same]
  · have product := mul_le_mul_of_nonneg_right fractions (sub_nonneg.mpr (ends behind))
    rw [line, line, same]
    linarith

/-- From one cell to the next the line rises by way of the samples between them. -/
theorem line_rises_across (first : ∀ i, Around x i → value i ≤ value (⌊x⌋ + 1))
    (middle : value (⌊x⌋ + 1) ≤ value ⌊y⌋) (last : ∀ i, Around y i → value ⌊y⌋ ≤ value i) :
    line value x ≤ line value y :=
  calc line value x ≤ line (fun _ => value (⌊x⌋ + 1)) x := line_le_line first
    _ = value (⌊x⌋ + 1) := line_const _ x
    _ ≤ value ⌊y⌋ := middle
    _ = line (fun _ => value ⌊y⌋) y := (line_const _ y).symm
    _ ≤ line value y := line_le_line last

theorem line_rises (rising : ∀ i j, OnAxis size i → OnAxis size j → i ≤ j → value i ≤ value j)
    (low : 0 ≤ x) (below : x ≤ y) (high : y ≤ size - 1) : line value x ≤ line value y := by
  have onX {i : ℤ} : Around x i → OnAxis size i := around_onAxis low (below.trans high)
  have onY {i : ℤ} : Around y i → OnAxis size i := around_onAxis (low.trans below) high
  have here := onY (around_floor y)
  rcases (Int.floor_mono below).eq_or_lt with same | apart
  · apply line_rises_within same below
    intro behind
    exact rising _ _ here (onY (around_next behind)) (by omega)
  · have next : OnAxis size (⌊x⌋ + 1) := by
      rcases onX (around_floor x) with ⟨natural, -⟩
      rcases here with ⟨-, within⟩
      constructor <;> omega
    apply line_rises_across
    · intro i around
      exact rising _ _ (onX around) next (around.2.trans (Int.ceil_le_floor_add_one x))
    · exact rising _ _ next here (by omega)
    · intro i around
      exact rising _ _ here (onY around) around.1

end Line

section Multilinear

def multilinear : List ℚ → (List ℤ → ℚ) → ℚ
  | [], value => value []
  | x :: point, value => multilinear point fun indices => line (fun i => value (i :: indices)) x

variable {value other : List ℤ → ℚ} {point high : List ℚ} {sizes : List ℕ}

theorem mean_linear (value : List ℤ → ℚ) (box : InBox point sizes) :
    mean (cellsAround .linear point sizes) value = multilinear point value := by
  induction box generalizing value with
  | nil => rfl
  | @cons x size point sizes bounds _ ih =>
    rw [cellsAround, List.zipWith_cons_cons, mean, multilinear, ← ih]
    simp only [average_ofCoordinate _ bounds.1 bounds.2]
    rfl

theorem onAxis_corner (box : InBox point sizes) {corner : List ℤ}
    (around : List.Forall₂ Around point corner) : List.Forall₂ OnAxis sizes corner := by
  induction box generalizing corner with
  | nil =>
    cases around
    exact .nil
  | cons bounds _ ih =>
    cases around with
    | cons first rest => exact .cons (around_onAxis bounds.1 bounds.2 first) (ih rest)

theorem multilinear_le_multilinear
    (below : ∀ corner, List.Forall₂ Around point corner → value corner ≤ other corner) :
    multilinear point value ≤ multilinear point other := by
  induction point generalizing value other with
  | nil => exact below [] .nil
  | cons x point ih =>
    apply ih
    intro corner around
    apply line_le_line
    intro i first
    exact below (i :: corner) (.cons first around)

theorem multilinear_neg (value : List ℤ → ℚ) (point : List ℚ) :
    multilinear point (fun indices => -value indices) = -multilinear point value := by
  induction point generalizing value with
  | nil => rfl
  | cons x point ih => simp only [multilinear, line_neg, ih]

/-- The value does not fall below all samples at the corners of the cell. -/
theorem exists_corner_le (value : List ℤ → ℚ) (point : List ℚ) :
    ∃ corner, List.Forall₂ Around point corner ∧ value corner ≤ multilinear point value := by
  induction point generalizing value with
  | nil => exact ⟨[], .nil, le_rfl⟩
  | cons x point ih =>
    rcases ih fun indices => line (fun i => value (i :: indices)) x with ⟨corner, around, below⟩
    rcases exists_around_le (fun i => value (i :: corner)) x with ⟨i, first, least⟩
    exact ⟨i :: corner, .cons first around, least.trans below⟩

theorem exists_le_corner (value : List ℤ → ℚ) (point : List ℚ) :
    ∃ corner, List.Forall₂ Around point corner ∧ multilinear point value ≤ value corner := by
  rcases exists_corner_le (fun indices => -value indices) point with ⟨corner, around, below⟩
  rw [multilinear_neg] at below
  exact ⟨corner, around, neg_le_neg_iff.mp below⟩

/-- Where all samples rise along an axis, the value rises with that coordinate. -/
theorem multilinear_rises {axis : ℕ} (raised : Raised axis point high) (start : InBox point sizes)
    (stop : InBox high sizes)
    (rising : ∀ low next, List.Forall₂ OnAxis sizes low → List.Forall₂ OnAxis sizes next →
      Raised axis low next → value low ≤ value next) :
    multilinear point value ≤ multilinear high value := by
  induction raised generalizing sizes value with
  | @here x y below rest =>
    cases start with
    | @cons _ size _ sizes bounds box =>
      cases stop with
      | cons limits _ =>
        -- The line along the first axis rises at every corner of the other axes.
        rw [multilinear, multilinear]
        apply multilinear_le_multilinear
        intro corner around
        have within := onAxis_corner box around
        refine line_rises (fun i j left right up => ?_) bounds.1 below limits.2
        exact rising _ _ (.cons left within) (.cons right within) (.here up corner)
  | @there axis x point high raised ih =>
    cases start with
    | @cons _ size _ sizes bounds box =>
      cases stop with
      | cons _ limits =>
        -- The first coordinate stays, so that what it leaves to the other axes rises as well.
        apply ih box limits
        intro low next lower upper up
        apply line_le_line
        intro i around
        have first := around_onAxis bounds.1 bounds.2 around
        exact rising _ _ (.cons first lower) (.cons first upper) (.there i up)

theorem multilinear_falls {axis : ℕ} (raised : Raised axis point high) (start : InBox point sizes)
    (stop : InBox high sizes)
    (falling : ∀ low next, List.Forall₂ OnAxis sizes low → List.Forall₂ OnAxis sizes next →
      Raised axis low next → value next ≤ value low) :
    multilinear high value ≤ multilinear point value := by
  rw [← neg_le_neg_iff, ← multilinear_neg, ← multilinear_neg]
  apply multilinear_rises raised start stop
  intro low next lower upper up
  exact neg_le_neg (falling low next lower upper up)

end Multilinear

end Grid

end PdfPrimitives
