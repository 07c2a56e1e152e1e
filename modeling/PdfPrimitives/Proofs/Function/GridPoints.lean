import PdfPrimitives.Proofs.Function.Geometry
import PdfPrimitives.Proofs.Function.Interpolation
import PdfPrimitives.Proofs.Function.Outcome

/-!
Grid points of sampled functions. With exact arithmetic the cells of an input are those around
the nearest coordinates of the grid, and each output is decoded from a weighted sum of samples.
An input that lies at a grid point gets the values of the samples there, each of which is a field
of the packed data.
-/

namespace PdfPrimitives

theorem Grid.place_lt {indices sizes : List ℕ} (within : List.Forall₂ (· < ·) indices sizes) :
    place sizes indices < sizes.prod := by
  induction within with
  | nil => exact Nat.one_pos
  | @cons index size indices sizes below within ih =>
    rw [place, List.prod_cons]
    calc index + size * place sizes indices
        < size * (place sizes indices + 1) := by rw [Nat.mul_succ]; omega
      _ ≤ size * sizes.prod := Nat.mul_le_mul_left size ih

def Grid.clamp (sizes : List ℕ) (point : List ℚ) : List ℚ :=
  List.zipWith (fun (size : ℕ) x => min (max x 0) (size - 1)) sizes point

theorem Grid.clamp_of_inBox {point : List ℚ} {sizes : List ℕ} (box : InBox point sizes) :
    clamp sizes point = point := by
  induction box with
  | nil => rfl
  | cons bounds _ ih =>
    rw [clamp, List.zipWith_cons_cons, max_eq_left bounds.1, min_eq_left bounds.2]
    exact congrArg _ ih

theorem Grid.inBox_clamp {point : List ℚ} {sizes : List ℕ} (length : point.length = sizes.length)
    (solid : 0 ∉ sizes) : InBox (clamp sizes point) sizes := by
  induction sizes generalizing point with
  | nil =>
    rw [clamp, List.zipWith_nil_left]
    exact .nil
  | cons size sizes ih =>
    cases point with
    | nil => cases length
    | cons x point =>
      have positive : (1 : ℚ) ≤ size := by
        exact_mod_cast Nat.pos_of_ne_zero (Ne.symm (List.ne_of_not_mem_cons solid))
      exact .cons ⟨le_min (le_max_right x 0) (sub_nonneg.mpr positive), min_le_right _ _⟩
        (ih (Nat.succ.inj length) (List.not_mem_of_not_mem_cons solid))

namespace SampledDescription

def coordinates (description : SampledDescription ℚ) (point : List ℚ) : List ℚ :=
  List.zipWith (fun (domain, target) x => domain.carry target x)
    (description.domain.zip description.encoding) point

def sampleNumber (description : SampledDescription ℚ) (indices : List ℕ) (output : ℕ) : ℕ :=
  Grid.place description.size indices * description.range.length + output

def sampleAt (description : SampledDescription ℚ) (indices : List ℕ) (output : ℕ) : ℕ :=
  Bits.field (Bits.ofBytes description.data) description.bitsPerSample
    (description.sampleNumber indices output)

/-- The samples of an output, over indices that may be negative. -/
def sampleOn (description : SampledDescription ℚ) (output : ℕ) (indices : List ℤ) : ℚ :=
  description.sampleAt (indices.map Int.toNat) output

theorem sampleOn_natCast (description : SampledDescription ℚ) (output : ℕ) (indices : List ℕ) :
    description.sampleOn output (indices.map (↑)) = description.sampleAt indices output := by
  simp [sampleOn, Function.comp_def]

def sampleRange (description : SampledDescription ℚ) : Interval ℚ :=
  ⟨0, 2 ^ description.bitsPerSample - 1⟩

def decoded (description : SampledDescription ℚ) (value : ℕ → ℚ) : List ℚ :=
  (description.range.zip description.decoding).mapIdx fun output (range, target) =>
    range.nearest (description.sampleRange.carry target (value output))

def valuesAt (description : SampledDescription ℚ) (indices : List ℕ) : List ℚ :=
  (description.range.zip description.decoding).mapIdx fun output (range, target) =>
    range.nearest (description.sampleRange.carry target (description.sampleAt indices output))

end SampledDescription

namespace Sampled

theorem cellsAt_eq (order : Grid.Order) (point : List (SampledInput ℚ × ℚ)) :
    cellsAt order point = .ok (point.map fun (input, x) => Grid.Cell.ofCoordinate order
      ((wholeAxis input.axis.size).nearest (input.encode.apply x)) input.axis.size) := by
  induction point with
  | nil => rfl
  | cons first rest ih =>
    obtain ⟨input, x⟩ := first
    rw [cellsAt, ih]
    rfl

theorem values_of_interpolated {function : Sampled ℚ} {cells : List (Grid.Cell ℚ)} (value : ℕ → ℚ)
    (found : ∀ output < function.outputs.length, Grid.interpolate function.table
      (function.inputs.map (·.axis)) cells output = .ok (value output)) :
    function.values cells = .ok (function.outputs.mapIdx fun place output =>
      output.range.nearest (output.decode.apply (value place))) := by
  let axes := function.inputs.map (·.axis)
  let decode (item : SampledOutput ℚ × ℕ) : Except Fault ℚ := do
    let number ← Grid.interpolate function.table axes cells item.2
    return item.1.decode.apply number
  have decoded : function.outputs.zipIdx.mapM decode =
      .ok (function.outputs.zipIdx.map fun (output, place) =>
        output.decode.apply (value place)) := by
    refine mapM_ok_iff.mpr (List.forall₂_map_right_iff.mpr (List.forall₂_same.mpr ?_))
    intro (output, place) member
    have present : place < function.outputs.length := by
      simpa using (List.mem_zipIdx member).2.1
    simp only [decode, axes, found place present]
    rfl
  change (function.outputs.zipIdx.mapM decode >>= Interval.clipAll _) = _
  rw [decoded]
  change Interval.clipAll _ _ = _
  rw [Interval.clipAll_eq _ _ (by simp), List.mapIdx_eq_zipIdx_map]
  refine congrArg Except.ok (List.ext_getElem (by simp) fun k left right => ?_)
  simp

theorem nearest_wholeAxis {size : ℕ} (positive : 0 < size) (x : ℚ) :
    (wholeAxis size).nearest x = min (max x 0) (size - 1) := by
  rw [Interval.nearest_eq_clamp, wholeAxis, Exact.zero_literal, Exact.ofInt_eq, Int.cast_natCast,
    Nat.cast_sub positive, Nat.cast_one]

/-- Within the grid the value is the weighted sum of the samples. -/
theorem interpolate_function {description : SampledDescription ℚ} (order : Grid.Order)
    {points : ℕ} {samples : Array UInt32} (counted : points? description.size = some points)
    (unpacked : unpack description.data description.bitsPerSample points
      description.range.length = .ok samples)
    {point : List ℚ} (box : Grid.InBox point description.size) {output : ℕ}
    (present : output < description.range.length) :
    Grid.interpolate (description.function order samples).table (Grid.axes 1 description.size)
      (Grid.cellsAround order point description.size) output =
        .ok (Grid.mean (Grid.cellsAround order point description.size)
          (description.sampleOn output)) := by
  refine Grid.interpolate_eq_mean (Grid.inside_cellsAround order box) fun indices within => ?_
  have place := Grid.place_lt within
  rw [← points_eq_prod counted] at place
  rw [description.sampleOn_natCast, sample_function order unpacked place present]
  rfl

section Points

variable {description : SampledDescription ℚ} (consistent : description.Consistent)
  (order : Grid.Order) (samples : Array UInt32)

include consistent

/-- A point lies in the cells around the nearest coordinates of the grid. -/
theorem cellsAt_function {point : List ℚ} (length : point.length = description.domain.length) :
    cellsAt order ((description.function order samples).inputs.zip point) =
      .ok (Grid.cellsAround order (Grid.clamp description.size (description.coordinates point))
        description.size) := by
  have axes := consistent.size
  have maps := consistent.encoding
  rw [cellsAt_eq]
  refine congrArg Except.ok (List.ext_getElem ?_ fun k left right => ?_)
  · simp only [SampledDescription.function, SampledDescription.coordinates, Grid.cellsAround,
      Grid.clamp, List.length_map, List.length_zip, List.length_zipWith, Grid.length_axes]
    omega
  · simp only [SampledDescription.function, List.length_map, List.length_zip,
      Grid.length_axes] at left
    have positive : 0 < description.size[k] := by
      apply Nat.pos_of_ne_zero
      intro zero
      exact consistent.solid (zero ▸ List.getElem_mem _)
    have size := List.getElem_of_eq (Grid.size_axes 1 description.size) (i := k) (by
      simp only [List.length_map, Grid.length_axes]
      omega)
    simp only [List.getElem_map] at size
    simp only [SampledDescription.function, SampledDescription.coordinates, Grid.cellsAround,
      Grid.clamp, List.getElem_map, List.getElem_zip, List.getElem_zipWith, Affine.apply_between,
      size, nearest_wholeAxis positive]

/-- What is found in the table for each output is decoded and clipped. -/
theorem values_function {samples : Array UInt32} {cells : List (Grid.Cell ℚ)} (value : ℕ → ℚ)
    (found : ∀ output < description.range.length,
      Grid.interpolate (description.function order samples).table (Grid.axes 1 description.size)
        cells output = .ok (value output)) :
    (description.function order samples).values cells = .ok (description.decoded value) := by
  rw [values_of_interpolated value]
  · have largest : ((Bits.mask description.bitsPerSample).toNat : ℚ) =
        2 ^ description.bitsPerSample - 1 := by
      rw [Bits.toNat_mask (sampleWidth_le consistent.width), Nat.cast_sub Nat.one_le_two_pow]
      push_cast
      rfl
    refine congrArg Except.ok (List.ext_getElem ?_ fun k left right => ?_)
    · simp [SampledDescription.function, SampledDescription.decoded]
    · simp [SampledDescription.function, SampledDescription.decoded, Affine.apply_between,
        SampledDescription.sampleRange, largest]
  · intro output present
    rw [← List.length_map, consistent.range_function] at present
    rw [consistent.axes_function]
    exact found output present

theorem valueAt_gridPoint {points : ℕ} {samples : Array UInt32}
    (counted : points? description.size = some points)
    (unpacked : unpack description.data description.bitsPerSample points
      description.range.length = .ok samples)
    {point : List ℚ} {indices : List ℕ}
    (inside : List.Forall₂ (fun x interval => interval.low ≤ x ∧ x ≤ interval.high) point
      description.domain)
    (within : List.Forall₂ (· < ·) indices description.size)
    (encoded : description.coordinates point = indices.map (↑)) :
    (description.function order samples).valueAt point = .ok (description.valuesAt indices) := by
  have box := Grid.inBox_of_indices within
  rw [valueAt, consistent.domain_function, Interval.clipAll_of_mem inside]
  change cellsAt order _ >>= _ = _
  rw [cellsAt_function consistent order samples inside.length_eq, encoded, Grid.clamp_of_inBox box]
  refine values_function consistent order (fun output => description.sampleAt indices output)
    fun output present => ?_
  rw [interpolate_function order counted unpacked box present, Grid.mean_index order within,
    description.sampleOn_natCast]

end Points

end Sampled

namespace PdfFunction

/-- At a grid point the outputs are the samples there, each a field within the data, decoded and
clipped. -/
theorem evaluate_gridPoint [Exact.Approximations] {description : SampledDescription ℚ}
    {function : PdfFunction ℚ} (made : ofSampled description = .ok function) {point : List ℚ}
    {indices : List ℕ}
    (inside : List.Forall₂ (fun x interval => interval.low ≤ x ∧ x ≤ interval.high) point
      description.domain)
    (within : List.Forall₂ (· < ·) indices description.size)
    (encoded : description.coordinates point = indices.map (↑)) :
    ∃ values, function.evaluate point = .ok values ∧
      values.length = description.range.length ∧
      description.decoding.length = description.range.length ∧
      ∀ output range target, description.range[output]? = some range →
        description.decoding[output]? = some target →
          (description.sampleNumber indices output + 1) * description.bitsPerSample ≤
            (Bits.ofBytes description.data).length ∧
          values[output]? = some (min (max (description.sampleRange.carry target
            (description.sampleAt indices output)) range.low) range.high) := by
  obtain ⟨sampled, described, done⟩ := ok_of_bind (ok_of_creating made)
  obtain rfl := Except.ok.inj done
  obtain ⟨consistent, order, points, samples, -, counted, unpacked, rfl⟩ :=
    Sampled.consistent_of_description (ok_of_lift described)
  have inputs : (description.function order samples).inputs.length = description.domain.length := by
    rw [← List.length_map, consistent.domain_function]
  have value : (description.function order samples).valueAt point =
      .ok (description.valuesAt indices) :=
    Sampled.valueAt_gridPoint consistent order counted unpacked inside within encoded
  refine ⟨description.valuesAt indices, ?_, ?_, consistent.decoding, ?_⟩
  · rw [evaluate_eq_valueAt, valueAt, inputs, if_neg (not_not_intro inside.length_eq), value]
    rfl
  · simp [SampledDescription.valuesAt, consistent.decoding]
  · intro output range target ranged decoded
    have pair : (description.range.zip description.decoding)[output]? = some (range, target) :=
      List.getElem?_zip_eq_some.mpr ⟨ranged, decoded⟩
    have present := (List.getElem?_eq_some_iff.mp ranged).1
    have place := Grid.place_lt within
    rw [← Sampled.points_eq_prod counted] at place
    refine ⟨Sampled.sample_within unpacked place present, ?_⟩
    rw [SampledDescription.valuesAt, List.getElem?_mapIdx, pair]
    exact congrArg some (Interval.nearest_eq_clamp range _)

/-- Twelve bits a sample, so that every other one starts within a byte. The first axis is
reversed, and the second output is clipped. -/
def packed : SampledDescription ℚ where
  domain := [⟨-1, 1⟩, ⟨0, 10⟩]
  range := [⟨0, 4095⟩, ⟨-1 / 2, 1 / 2⟩]
  size := [3, 2]
  bitsPerSample := 12
  order := 3
  encode := some [⟨2, 0⟩, ⟨0, 1⟩]
  decode := some [⟨0, 4095⟩, ⟨-1, 1⟩]
  data := [0x00, 0x00, 0x01, 0x00, 0x20, 0x03, 0x00, 0x40, 0x05, 0x00, 0x60, 0x07, 0x00, 0x80, 0x09,
    0xAB, 0xCF, 0xFF]

theorem packed_evaluate_gridPoint : letI := Exact.Approximations.zero
    ∃ function, ofSampled packed = .ok function ∧
      (List.Forall₂ (fun x interval => interval.low ≤ x ∧ x ≤ interval.high) [-1, 10]
          packed.domain ∧
        List.Forall₂ (· < ·) [2, 1] packed.size ∧
        packed.coordinates [-1, 10] = [2, 1].map (fun index : ℕ => (index : ℚ))) ∧
      function.evaluate [-1, 10] = .ok [0xABC, 1 / 2] := by
  let _ := Exact.Approximations.zero
  have done : (ofSampled packed).isOk = true := by decide +kernel
  have inside : List.Forall₂ (fun x (interval : Interval ℚ) => interval.low ≤ x ∧
      x ≤ interval.high) [-1, 10] packed.domain := by
    norm_num [packed]
  have within : List.Forall₂ (· < ·) [2, 1] packed.size := by
    norm_num [packed]
  have encoded : packed.coordinates [-1, 10] = [2, 1].map (fun index : ℕ => (index : ℚ)) := by
    norm_num [packed, SampledDescription.coordinates, SampledDescription.encoding, Interval.carry]
  have samples : packed.sampleAt [2, 1] 0 = 0xABC ∧ packed.sampleAt [2, 1] 1 = 0xFFF := by
    decide +kernel
  cases made : ofSampled packed with
  | error failure => rw [made] at done; cases done
  | ok function =>
    obtain ⟨values, value, two, -, outputs⟩ := evaluate_gridPoint made inside within encoded
    obtain ⟨first, second, rfl⟩ := List.length_eq_two.mp two
    have whole : first = 0xABC := by
      rw [Option.some.inj (outputs 0 _ _ rfl rfl).2, samples.1]
      norm_num [SampledDescription.sampleRange, Interval.carry, packed]
    have clipped : second = 1 / 2 := by
      rw [Option.some.inj (outputs 1 _ _ rfl rfl).2, samples.2]
      norm_num [SampledDescription.sampleRange, Interval.carry, packed]
    rw [whole, clipped] at value
    exact ⟨function, rfl, ⟨inside, within, encoded⟩, value⟩

end PdfFunction

end PdfPrimitives
