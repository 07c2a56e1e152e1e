import PdfPrimitives.Proofs.Function.GridPoints
import PdfPrimitives.Proofs.Function.Multilinear

/-!
Sampled functions of order one. For every input the number that is found in the table lies
between samples at corners of the cell of the input, and it is monotone along an axis along
which the samples are.
-/

namespace PdfPrimitives

theorem Grid.raised_clamp {axis : ℕ} {point high : List ℚ} (raised : Raised axis point high)
    {sizes : List ℕ} (length : point.length = sizes.length) :
    Raised axis (clamp sizes point) (clamp sizes high) := by
  induction raised generalizing sizes with
  | here below rest =>
    cases sizes with
    | nil => cases length
    | cons size sizes => exact .here (min_le_min_right _ (max_le_max_right _ below)) _
  | there first _ ih =>
    cases sizes with
    | nil => cases length
    | cons size sizes => exact .there _ (ih (Nat.succ.inj length))

namespace SampledDescription

variable (description : SampledDescription ℚ)

def encoded (point : List ℚ) : List ℚ :=
  description.coordinates (List.zipWith Interval.nearest description.domain point)

def located (point : List ℚ) : List ℚ :=
  Grid.clamp description.size (description.encoded point)

structure Corner (point : List ℚ) (indices : List ℕ) : Prop where
  within : List.Forall₂ (· < ·) indices description.size
  around : List.Forall₂ Grid.Around (description.located point) (indices.map (↑))

def Rises (axis output : ℕ) : Prop :=
  ∀ low high, List.Forall₂ (· < ·) low description.size →
    List.Forall₂ (· < ·) high description.size → Raised axis low high →
      description.sampleAt low output ≤ description.sampleAt high output

def Falls (axis output : ℕ) : Prop :=
  ∀ low high, List.Forall₂ (· < ·) low description.size →
    List.Forall₂ (· < ·) high description.size → Raised axis low high →
      description.sampleAt high output ≤ description.sampleAt low output

variable {description} {point high : List ℚ}

theorem Consistent.length_encoded (consistent : description.Consistent)
    (length : point.length = description.domain.length) :
    (description.encoded point).length = description.size.length := by
  have axes := consistent.size
  have maps := consistent.encoding
  simp only [encoded, coordinates, List.length_zipWith, List.length_zip]
  omega

theorem Consistent.inBox_located (consistent : description.Consistent)
    (length : point.length = description.domain.length) :
    Grid.InBox (description.located point) description.size :=
  Grid.inBox_clamp (consistent.length_encoded length) consistent.solid

/-- Corners that are found among all integers are corners of the grid. -/
theorem Consistent.corner_of_around (consistent : description.Consistent)
    (length : point.length = description.domain.length) {corner : List ℤ}
    (around : List.Forall₂ Grid.Around (description.located point) corner) :
    description.Corner point (corner.map Int.toNat) := by
  have inside := Grid.onAxis_corner (consistent.inBox_located length) around
  rcases Grid.natural_onAxis inside with ⟨within, whole⟩
  exact ⟨within, whole.symm ▸ around⟩

end SampledDescription

namespace Sampled

def interpolatedAt (function : Sampled ℚ) (point : List ℚ) (output : ℕ) : Except Fault ℚ := do
  let clipped ← Interval.clipAll (function.inputs.map (·.domain)) point
  let cells ← cellsAt function.order (function.inputs.zip clipped)
  Grid.interpolate function.table (function.inputs.map (·.axis)) cells output

section Linear

variable {description : SampledDescription ℚ} (consistent : description.Consistent)
  {points : ℕ} {samples : Array UInt32} {point high : List ℚ}

include consistent

theorem interpolate_linear (counted : points? description.size = some points)
    (unpacked : unpack description.data description.bitsPerSample points
      description.range.length = .ok samples)
    (length : point.length = description.domain.length) {output : ℕ}
    (present : output < description.range.length) :
    Grid.interpolate (description.function .linear samples).table (Grid.axes 1 description.size)
      (Grid.cellsAround .linear (description.located point) description.size) output =
        .ok (Grid.multilinear (description.located point) (description.sampleOn output)) := by
  have box := consistent.inBox_located length
  rw [interpolate_function .linear counted unpacked box present, Grid.mean_linear _ box]

/-- Whatever is made of the cells of a point is made of those around its place in the grid. -/
theorem bind_cellsAt (order : Grid.Order) (length : point.length = description.domain.length)
    {β : Type} (next : List (Grid.Cell ℚ) → Except Fault β) :
    (do
      let clipped ← Interval.clipAll ((description.function order samples).inputs.map (·.domain))
        point
      let cells ← cellsAt order ((description.function order samples).inputs.zip clipped)
      next cells) =
    next (Grid.cellsAround order (description.located point) description.size) := by
  have clipped : (List.zipWith Interval.nearest description.domain point).length =
      description.domain.length := by
    rw [List.length_zipWith, length, Nat.min_self]
  rw [consistent.domain_function, Interval.clipAll_eq _ _ length]
  change cellsAt order _ >>= next = _
  rw [cellsAt_function consistent order samples clipped]
  rfl

theorem interpolatedAt_linear (counted : points? description.size = some points)
    (unpacked : unpack description.data description.bitsPerSample points
      description.range.length = .ok samples)
    (length : point.length = description.domain.length) {output : ℕ}
    (present : output < description.range.length) :
    (description.function .linear samples).interpolatedAt point output =
      .ok (Grid.multilinear (description.located point) (description.sampleOn output)) := by
  rw [interpolatedAt, consistent.axes_function]
  exact (bind_cellsAt consistent .linear length _).trans
    (interpolate_linear consistent counted unpacked length present)

theorem evaluate_linear (counted : points? description.size = some points)
    (unpacked : unpack description.data description.bitsPerSample points
      description.range.length = .ok samples)
    (length : point.length = description.domain.length) (scratch : Scratch ℚ) :
    ((description.function .linear samples).evaluate point scratch).1 =
      .ok (description.decoded fun output =>
        Grid.multilinear (description.located point) (description.sampleOn output)) := by
  have inputs : (description.function .linear samples).inputs.length =
      description.domain.length := by
    rw [← List.length_map, consistent.domain_function]
  rw [evaluate_eq_valueAt _ _ _ (length.trans inputs.symm), valueAt]
  refine (bind_cellsAt consistent .linear length _).trans ?_
  apply values_function consistent
  intro output present
  exact interpolate_linear consistent counted unpacked length present

/-- The samples at some corners of the cell of a point are not above, and not below, the value. -/
theorem corners_linear (length : point.length = description.domain.length) (output : ℕ) :
    (∃ corner, description.Corner point corner ∧ (description.sampleAt corner output : ℚ) ≤
      Grid.multilinear (description.located point) (description.sampleOn output)) ∧
    ∃ corner, description.Corner point corner ∧
      Grid.multilinear (description.located point) (description.sampleOn output) ≤
        description.sampleAt corner output := by
  constructor
  · rcases Grid.exists_corner_le (description.sampleOn output) (description.located point) with
      ⟨corner, around, below⟩
    exact ⟨corner.map Int.toNat, consistent.corner_of_around length around, below⟩
  · rcases Grid.exists_le_corner (description.sampleOn output) (description.located point) with
      ⟨corner, around, above⟩
    exact ⟨corner.map Int.toNat, consistent.corner_of_around length around, above⟩

theorem monotone_linear (length : point.length = description.domain.length)
    (other : high.length = description.domain.length) {axis : ℕ}
    (raised : Raised axis (description.encoded point) (description.encoded high)) (output : ℕ) :
    (description.Rises axis output →
      Grid.multilinear (description.located point) (description.sampleOn output) ≤
        Grid.multilinear (description.located high) (description.sampleOn output)) ∧
    (description.Falls axis output →
      Grid.multilinear (description.located high) (description.sampleOn output) ≤
        Grid.multilinear (description.located point) (description.sampleOn output)) := by
  have start := consistent.inBox_located length
  have stop := consistent.inBox_located other
  have located := Grid.raised_clamp raised (consistent.length_encoded length)
  have index {low next : List ℤ} (up : Raised axis low next) :
      Raised axis (low.map Int.toNat) (next.map Int.toNat) :=
    up.map fun _ _ => Int.toNat_le_toNat
  constructor
  · intro rises
    apply Grid.multilinear_rises located start stop
    intro low next lower upper up
    exact Nat.cast_le.mpr
      (rises _ _ (Grid.natural_onAxis lower).1 (Grid.natural_onAxis upper).1 (index up))
  · intro falls
    apply Grid.multilinear_falls located start stop
    intro low next lower upper up
    exact Nat.cast_le.mpr
      (falls _ _ (Grid.natural_onAxis lower).1 (Grid.natural_onAxis upper).1 (index up))

end Linear

/-- Every output is decoded from a value between samples at corners of the cell of the input, and
where the samples rise or fall along an axis this value rises or falls with that coordinate. -/
theorem linear_never_overshoots {description : SampledDescription ℚ} {function : Sampled ℚ}
    (made : ofDescription description = .ok function) (linear : description.order = 1) :
    ∃ value : List ℚ → ℕ → ℚ,
      (∀ point scratch, point.length = description.domain.length →
        (function.evaluate point scratch).1 = .ok (description.decoded (value point))) ∧
      (∀ point, point.length = description.domain.length →
        ∀ output < description.range.length,
          function.interpolatedAt point output = .ok (value point output) ∧
          (∃ corner, description.Corner point corner ∧
            description.sampleAt corner output ≤ value point output) ∧
          ∃ corner, description.Corner point corner ∧
            value point output ≤ description.sampleAt corner output) ∧
      ∀ point high, point.length = description.domain.length →
        high.length = description.domain.length →
          ∀ axis, Raised axis (description.encoded point) (description.encoded high) →
            ∀ output < description.range.length,
              (description.Rises axis output → value point output ≤ value high output) ∧
              (description.Falls axis output → value high output ≤ value point output) := by
  rcases consistent_of_description made with
    ⟨consistent, order, points, samples, ordered, counted, unpacked, rfl⟩
  rw [linear] at ordered
  cases ordered
  refine ⟨fun point output =>
    Grid.multilinear (description.located point) (description.sampleOn output), ?_, ?_, ?_⟩
  · intro point scratch length
    exact evaluate_linear consistent counted unpacked length scratch
  · intro point length output present
    exact ⟨interpolatedAt_linear consistent counted unpacked length present,
      corners_linear consistent length output⟩
  · intro point high length other axis raised output _
    exact monotone_linear consistent length other raised output

def ridge : SampledDescription ℚ where
  domain := [⟨0, 1⟩, ⟨0, 1⟩]
  range := [⟨0, 1⟩]
  size := [3, 2]
  bitsPerSample := 8
  order := 1
  encode := none
  decode := none
  data := [0, 90, 30, 10, 100, 60]

theorem ridge_rises : ridge.Rises 1 0 := by
  intro low high lower upper raised
  cases raised with
  | there i raised =>
    rcases List.forall₂_cons_left_iff.mp lower with ⟨_, _, first, rest, sizes⟩
    cases sizes
    cases raised with
    | @here j k below indices =>
      rcases List.forall₂_cons_left_iff.mp rest with ⟨_, _, _, nothing, sizes⟩
      cases sizes
      cases nothing
      cases upper with
      | cons _ upper =>
        cases upper with
        | cons last _ =>
          have samples : ∀ i < 3, ∀ k < 2, ∀ j ≤ k,
              ridge.sampleAt [i, j] 0 ≤ ridge.sampleAt [i, k] 0 := by decide +kernel
          exact samples i first k last j below

theorem ridge_never_overshoots : ∃ function, ofDescription ridge = .ok function ∧
    ridge.order = 1 ∧ ridge.Rises 1 0 ∧
    Raised 1 (ridge.encoded [1 / 4, 1 / 5]) (ridge.encoded [1 / 4, 2]) ∧
    ∃ low high, function.interpolatedAt [1 / 4, 1 / 5] 0 = .ok low ∧
      function.interpolatedAt [1 / 4, 2] 0 = .ok high ∧ low ≤ high ∧
      ∃ corner, ridge.Corner [1 / 4, 2] corner ∧ high ≤ ridge.sampleAt corner 0 := by
  have done : (ofDescription ridge).isOk = true := by decide +kernel
  have raised : Raised 1 (ridge.encoded [1 / 4, 1 / 5]) (ridge.encoded [1 / 4, 2]) := by
    refine .there _ (.here ?_ [])
    decide +kernel
  cases made : ofDescription ridge with
  | error fault => rw [made] at done; cases done
  | ok function =>
    rcases linear_never_overshoots made rfl with ⟨value, -, spans, monotone⟩
    have first := spans [1 / 4, 1 / 5] rfl 0 Nat.one_pos
    have second := spans [1 / 4, 2] rfl 0 Nat.one_pos
    exact ⟨function, rfl, rfl, ridge_rises, raised, _, _, first.1, second.1,
      (monotone _ _ rfl rfl 1 raised 0 Nat.one_pos).1 ridge_rises, second.2.2⟩

end Sampled

end PdfPrimitives
