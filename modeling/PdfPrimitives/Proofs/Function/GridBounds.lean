import Mathlib.Algebra.BigOperators.Group.List.Lemmas
import PdfPrimitives.Proofs.Function.Range
import PdfPrimitives.Proofs.Function.Requirements

/-!
What evaluating looks up in a table. As the cells of an input are contained in their axes, every
number of a grid point that the strides give is one of the table.
-/

namespace PdfPrimitives

variable {α : Type}

section Scalars

variable [Scalar α]

namespace Grid

/-- The grid points that are looked up in working out the given dimensions from some grid point
on, the last dimension first. -/
inductive Reads : List (Axis × Cell α) → ℕ → ℕ → Prop
  | point (offset : ℕ) : Reads [] offset offset
  | neighbour {axis : Axis} {cell : Cell α} {rest : List (Axis × Cell α)} {offset point : ℕ}
      {weight : α} {distance : ℤ} (near : (weight, distance) ∈ cell.taps)
      (weighted : (weight == (0.0 : α)) = false)
      (inner : Reads rest (offset + ((cell.index : ℤ) + distance).toNat * axis.stride) point) :
      Reads ((axis, cell) :: rest) offset point

/-- A blend of cells that are contained in their axes fails only where a sample that it looks up
is missing. -/
theorem reads_of_blend {table : Table α} {channel : ℕ} {cells : List (Axis × Cell α)}
    (contained : ∀ dimension ∈ cells, dimension.2.Contained dimension.1.size) {offset : ℕ}
    {fault : Fault} (failed : blend table channel cells offset = .error fault) :
    ∃ point, Reads cells offset point ∧ table.sample point channel = .error fault := by
  induction cells generalizing offset with
  | nil => exact ⟨offset, .point offset, failed⟩
  | cons first rest ih =>
    obtain ⟨axis, cell⟩ := first
    obtain ⟨here, others⟩ := List.forall_mem_cons.mp contained
    rw [blend] at failed
    obtain ⟨⟨weight, distance⟩, near, state, failed⟩ := error_of_foldlM failed
    dsimp only at failed
    split at failed
    · cases failed
    · next weighted =>
      -- A sample with a weight is one of the axis, so that the blend goes on from there.
      have weighted := Bool.eq_false_of_not_eq_true weighted
      obtain ⟨low, high⟩ := here _ near weighted
      rw [if_pos (by simp [low, high])] at failed
      rcases error_of_bind failed with inner | ⟨value, -, failed⟩
      · obtain ⟨point, reads, missing⟩ := ih others inner
        exact ⟨point, .neighbour near weighted reads, missing⟩
      · cases failed

/-- What is looked up through the strides is a point of the grid. -/
theorem place_of_reads {sizes : List ℕ} {cells : List (Cell α)}
    (contained : List.Forall₂ Cell.Contained cells sizes) {stride offset point : ℕ}
    {rest : List (Axis × Cell α)}
    (reads : Reads (((axes stride sizes).zip cells).reverse ++ rest) offset point) :
    ∃ indices, List.Forall₂ (· < ·) indices sizes ∧
      Reads rest (offset + stride * place sizes indices) point := by
  -- The first dimension is the last to be looked at, so that it stands at the head of the rest.
  induction contained generalizing stride rest with
  | nil => exact ⟨[], .nil, reads⟩
  | @cons cell size cells sizes first contained ih =>
    rw [axes, List.zip_cons_cons, List.reverse_cons, List.append_assoc,
      List.singleton_append] at reads
    obtain ⟨indices, within, reads⟩ := ih reads
    cases reads with
    | @neighbour _ _ _ _ _ _ distance near weighted inner =>
      obtain ⟨low, high⟩ := first _ near weighted
      obtain ⟨index, here⟩ := Int.eq_ofNat_of_zero_le low
      have number : offset + stride * size * place sizes indices +
          ((cell.index : ℤ) + distance).toNat * stride =
            offset + stride * place (size :: sizes) (index :: indices) := by
        rw [here, Int.toNat_natCast, place]
        ring
      rw [number] at inner
      exact ⟨index :: indices, .cons (by exact_mod_cast here ▸ high) within, inner⟩

theorem point_lt_of_reads {sizes : List ℕ} {cells : List (Cell α)} {point : ℕ}
    (contained : List.Forall₂ Cell.Contained cells sizes)
    (reads : Reads ((axes 1 sizes).zip cells).reverse 0 point) : point < sizes.prod := by
  rw [← List.append_nil (List.reverse _)] at reads
  obtain ⟨indices, within, reads⟩ := place_of_reads contained reads
  cases reads
  rw [Nat.zero_add, Nat.one_mul]
  exact place_lt within

theorem contained_zip {sizes : List ℕ} {cells : List (Cell α)}
    (contained : List.Forall₂ Cell.Contained cells sizes) (stride : ℕ) :
    ∀ dimension ∈ (axes stride sizes).zip cells, dimension.2.Contained dimension.1.size := by
  induction contained generalizing stride with
  | nil => nofun
  | cons first _ ih => exact List.forall_mem_cons.mpr ⟨first, ih _⟩

end Grid

namespace Sampled

def Locates (function : Sampled α) (input : List α) (scratch : Scratch α)
    (cells : List (Grid.Cell α)) : Prop :=
  ∃ clipped filled, Interval.clipAll (function.inputs.map (·.domain)) input = .ok clipped ∧
    locate function.order (function.inputs.zip clipped) 0
      (scratch.reserve function.inputs.length) = (.ok (), filled) ∧
    cells = filled.cells.toList.take function.inputs.length

theorem cellsAt_of_locates {function : Sampled α} {input : List α} {scratch : Scratch α}
    {cells : List (Grid.Cell α)} (located : function.Locates input scratch cells)
    (fits : input.length = function.inputs.length) :
    ∃ clipped, Interval.clipAll (function.inputs.map (·.domain)) input = .ok clipped ∧
      cellsAt function.order (function.inputs.zip clipped) = .ok cells := by
  obtain ⟨clipped, filled, clips, located, rfl⟩ := located
  refine ⟨clipped, clips, ?_⟩
  rw [cellsAt_eq_located function scratch ((Interval.length_clipAll clips).trans fits), located]
  rfl

/-- The axes of a function span a grid of these sizes, and the table has a sample for each of its
points and each output. -/
structure Covers (function : Sampled α) (sizes : List ℕ) : Prop where
  axes : function.inputs.map (·.axis) = Grid.axes 1 sizes
  solid : ∀ size ∈ sizes, 0 < size ∧ size < 2 ^ 32
  channels : function.outputs.length = function.table.channels
  samples : function.table.samples.size = sizes.prod * function.table.channels

theorem covers_of_description {description : SampledDescription α} {function : Sampled α}
    (made : ofDescription description = .ok function) : function.Covers description.size := by
  have tabulated := tabulated_of_description made
  obtain ⟨consistent, order, points, samples, -, -, -, rfl⟩ := consistent_of_description made
  have whole : description.size.prod < 2 ^ 32 := by
    simpa using tabulated.products description.size.length
  refine ⟨consistent.axes_function order samples, fun size member => ?solid, ?channels, ?samples⟩
  case solid =>
    have positive : 0 < size := Nat.pos_of_ne_zero fun zero => consistent.solid (zero ▸ member)
    have below : size ≤ description.size.prod :=
      Nat.le_of_dvd (Nat.pos_of_ne_zero (List.prod_ne_zero consistent.solid))
        (List.dvd_prod member)
    exact ⟨positive, below.trans_lt whole⟩
  case channels =>
    rw [tabulated.channels, ← tabulated.range, List.length_map]
  case samples =>
    rw [tabulated.samples, tabulated.channels, Nat.mul_comm]

section Cells

variable [CountingScalar α]

theorem contained_of_cellsAt {order : Grid.Order} {point : List (SampledInput α × α)}
    {cells : List (Grid.Cell α)} (found : cellsAt order point = .ok cells)
    (solid : ∀ item ∈ point, 0 < item.1.axis.size ∧ item.1.axis.size < 2 ^ 32) :
    List.Forall₂ Grid.Cell.Contained cells (point.map (·.1.axis.size)) := by
  induction point generalizing cells with
  | nil =>
    obtain rfl := Except.ok.inj found
    exact .nil
  | cons first rest ih =>
    obtain ⟨input, x⟩ := first
    obtain ⟨⟨positive, counted⟩, others⟩ := List.forall_mem_cons.mp solid
    dsimp only at positive counted
    rw [cellsAt] at found
    dsimp only at found
    split at found
    · cases found
    · next number =>
      obtain ⟨more, read, rfl⟩ := ok_of_map found
      have limit : input.axis.size - 1 ≤ 2 ^ 32 := by omega
      have clips : (wholeAxis input.axis.size).Clips
          ((wholeAxis input.axis.size).nearest (input.encode.apply x)) :=
        ⟨_, Interval.clip_number _ _ (Bool.eq_false_of_not_eq_true number)⟩
      have low := (clips.within (CountingScalar.zero_le_ofInt limit)).1
      exact .cons (Grid.Cell.contained_ofCoordinate order positive counted.le low) (ih read others)

end Cells

namespace Covers

variable {function : Sampled α} {sizes : List ℕ} {cells : List (Grid.Cell α)}

omit [Scalar α] in
theorem sizes_eq (covers : function.Covers sizes) : function.inputs.map (·.axis.size) = sizes := by
  rw [← Grid.size_axes 1 sizes, ← covers.axes, List.map_map]
  rfl

theorem number_lt (covers : function.Covers sizes)
    (contained : List.Forall₂ Grid.Cell.Contained cells sizes) {point channel : ℕ}
    (reads : Grid.Reads ((function.inputs.map (·.axis)).zip cells).reverse 0 point)
    (present : channel < function.outputs.length) :
    point * function.table.channels + channel < function.table.samples.size := by
  rw [covers.axes] at reads
  rw [covers.channels] at present
  rw [covers.samples]
  exact Sampled.number_lt (Grid.point_lt_of_reads contained reads) present

theorem fault_of_values (covers : function.Covers sizes)
    (contained : List.Forall₂ Grid.Cell.Contained cells sizes) {fault : Fault}
    (failed : function.values cells = .error fault) : fault ∈ Calculator.operandFaults := by
  rcases error_of_bind failed with decoded | ⟨values, -, failed⟩
  · obtain ⟨⟨output, channel⟩, member, decoded⟩ := error_of_mapM decoded
    rcases error_of_bind decoded with blended | ⟨value, -, decoded⟩
    · have present : channel < function.outputs.length := by
        simpa using (List.mem_zipIdx member).2.1
      have inside : ∀ dimension ∈ ((function.inputs.map (·.axis)).zip cells).reverse,
          dimension.2.Contained dimension.1.size := by
        intro dimension member
        rw [List.mem_reverse, covers.axes] at member
        exact Grid.contained_zip contained 1 dimension member
      obtain ⟨point, reads, missing⟩ := Grid.reads_of_blend inside blended
      have found := covers.number_lt contained reads present
      rw [Grid.Table.sample, Array.getElem?_eq_getElem found] at missing
      cases missing
    · cases decoded
  · exact Interval.clipAll_result _ _ fault failed

variable [CountingScalar α]

theorem contained (covers : function.Covers sizes) {input clipped : List α}
    (fits : input.length = function.inputs.length)
    (clips : Interval.clipAll (function.inputs.map (·.domain)) input = .ok clipped)
    (found : cellsAt function.order (function.inputs.zip clipped) = .ok cells) :
    List.Forall₂ Grid.Cell.Contained cells sizes := by
  have length : function.inputs.length ≤ clipped.length := by
    rw [Interval.length_clipAll clips, fits]
  have dimensions : (function.inputs.zip clipped).map (·.1.axis.size) = sizes := by
    rw [← covers.sizes_eq, ← List.map_fst_zip length, List.map_map, List.map_fst_zip length]
    rfl
  rw [← dimensions]
  refine contained_of_cellsAt found fun item member => covers.solid _ ?_
  rw [← dimensions]
  exact List.mem_map_of_mem member

theorem fault_of_valueAt (covers : function.Covers sizes) {input : List α} {fault : Fault}
    (fits : input.length = function.inputs.length)
    (failed : function.valueAt input = .error fault) : fault ∈ Calculator.operandFaults := by
  rcases error_of_bind failed with clips | ⟨clipped, clips, failed⟩
  · exact Interval.clipAll_result _ _ fault clips
  rcases error_of_bind failed with located | ⟨cells, found, failed⟩
  · exact cellsAt_result _ _ fault located
  exact covers.fault_of_values (covers.contained fits clips found) failed

end Covers

end Sampled

end Scalars

namespace PdfFunction

theorem fault_of_covers [Elementary α] [CountingScalar α] {table : Sampled α} {sizes : List ℕ}
    (covers : table.Covers sizes) {input : List α} {scratch : Scratch α} {failure : Failure}
    (failed : ((sampled table).evaluateWith input scratch).1 = .error failure) :
    failure.fault ∈ .parameter .dimensionMismatch :: Calculator.operandFaults := by
  rw [evaluateWith_eq_valueAt, valueAt] at failed
  split at failed
  · cases failed
    exact List.mem_cons_self
  · next fits =>
    cases value : table.valueAt input with
    | ok values =>
      rw [value] at failed
      cases failed
    | error fault =>
      rw [value] at failed
      cases failed
      exact List.mem_cons_of_mem _ (covers.fault_of_valueAt (Decidable.not_not.mp fits) value)

/-- No table is read outside of its grid. In each dimension the samples with a weight have indices
of the axis, and what the strides make of these indices is the number of a sample, for each output
and whatever the memory was used for before. So there is no input for which samples are missing. -/
theorem evaluate_within_grid [Elementary α] [CountingScalar α]
    {description : SampledDescription α} {function : PdfFunction α}
    (made : ofSampled description = .ok function) :
    ∃ sampled : Sampled α, function = .sampled sampled ∧
      (∀ input scratch cells, input.length = sampled.inputs.length →
        sampled.Locates input scratch cells →
          List.Forall₂ Grid.Cell.Contained cells (sampled.inputs.map (·.axis.size)) ∧
          ∀ point, Grid.Reads ((sampled.inputs.map (·.axis)).zip cells).reverse 0 point →
            ∀ channel < sampled.outputs.length,
              point * sampled.table.channels + channel < sampled.table.samples.size) ∧
      ∀ input scratch failure, (function.evaluateWith input scratch).1 = .error failure →
        failure.fault ≠ .badSampleData := by
  obtain ⟨sampled, described, done⟩ := ok_of_bind (ok_of_creating made)
  obtain rfl := Except.ok.inj done
  have covers := Sampled.covers_of_description (ok_of_lift described)
  refine ⟨sampled, rfl, ?_, ?_⟩
  · intro input scratch cells fits located
    obtain ⟨clipped, clips, found⟩ := Sampled.cellsAt_of_locates located fits
    have contained := covers.contained fits clips found
    exact ⟨covers.sizes_eq.symm ▸ contained, fun point reads channel present =>
      covers.number_lt contained reads present⟩
  · intro input scratch failure failed missing
    have fault := fault_of_covers covers failed
    rw [missing] at fault
    revert fault
    decide

def cramped : SampledDescription ℚ where
  domain := [⟨0, 1⟩, ⟨0, 1⟩, ⟨0, 1⟩]
  range := [⟨0, 255⟩]
  size := [1, 2, 3]
  bitsPerSample := 8
  order := 3
  encode := none
  decode := none
  data := [0, 10, 20, 30, 40, 50]

theorem cramped_evaluate_within_grid : letI := Exact.Approximations.zero
    ∃ sampled, ofSampled cramped = .ok (.sampled sampled) ∧
      (∀ scratch cells, sampled.Locates [1 / 2, 1 / 2, 3 / 4] scratch cells →
        List.Forall₂ Grid.Cell.Contained cells [1, 2, 3] ∧
        ∀ point, Grid.Reads ((sampled.inputs.map (·.axis)).zip cells).reverse 0 point →
          point < 6) ∧
      ∀ failure, (PdfFunction.sampled sampled).evaluate [1 / 2, 1 / 2, 3 / 4] = .error failure →
        failure.fault ≠ .badSampleData := by
  let _ := Exact.Approximations.zero
  have done : (ofSampled cramped).isOk = true := by decide +kernel
  cases made : ofSampled cramped with
  | error failure => rw [made] at done; cases done
  | ok function =>
    obtain ⟨sampled, rfl, inside, found⟩ := evaluate_within_grid made
    obtain ⟨table, described, same⟩ := ok_of_bind (ok_of_creating made)
    obtain ⟨rfl⟩ := Except.ok.inj same
    have tabulated := Sampled.tabulated_of_description (ok_of_lift described)
    have sizes := (Sampled.covers_of_description (ok_of_lift described)).sizes_eq
    have inputs : sampled.inputs.length = 3 := by
      simpa [cramped] using congrArg List.length sizes
    have outputs : sampled.outputs.length = 1 := by
      simpa [cramped] using congrArg List.length tabulated.range
    refine ⟨sampled, rfl, fun scratch cells located => ?_, fun failure => found _ _ failure⟩
    obtain ⟨contained, numbers⟩ := inside [1 / 2, 1 / 2, 3 / 4] scratch cells inputs.symm located
    rw [sizes] at contained
    refine ⟨contained, fun point reads => ?_⟩
    have number := numbers point reads 0 (by rw [outputs]; exact Nat.one_pos)
    rw [tabulated.samples, tabulated.channels] at number
    simpa [cramped] using number

end PdfFunction

end PdfPrimitives
