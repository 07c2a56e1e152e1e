import Mathlib.Algebra.BigOperators.Ring.List
import PdfPrimitives.Proofs.Bits.Packing
import PdfPrimitives.Proofs.Function.GridPoints

/-!
Which descriptions of sampled functions are accepted. What is asked of a description is a list of
requirements, looked at one after the other. A description that is refused gets the fault of the
first of them that it breaks, although the number of samples is worked out twice, and the length
of the data is compared only where samples are unpacked.
-/

namespace PdfPrimitives

inductive FirstBroken : List (Prop × Fault) → Fault → Prop
  | here {requirement : Prop} {fault : Fault} {others : List (Prop × Fault)}
      (broken : ¬requirement) : FirstBroken ((requirement, fault) :: others) fault
  | later {requirement : Prop} {other fault : Fault} {others : List (Prop × Fault)}
      (holds : requirement) (broken : FirstBroken others fault) :
      FirstBroken ((requirement, other) :: others) fault

namespace FirstBroken

variable {requirements : List (Prop × Fault)} {fault other : Fault}

theorem unique (first : FirstBroken requirements fault) (second : FirstBroken requirements other) :
    fault = other := by
  induction first with
  | here broken =>
    cases second with
    | here => rfl
    | later holds => exact absurd holds broken
  | later holds _ ih =>
    cases second with
    | here broken => exact absurd holds broken
    | later _ second => exact ih second

theorem not_fulfilled (first : FirstBroken requirements fault) :
    ¬∀ requirement ∈ requirements, requirement.1 := by
  induction first with
  | here broken => exact fun all => broken (List.forall_mem_cons.mp all).1
  | later _ _ ih => exact fun all => ih (List.forall_mem_cons.mp all).2

end FirstBroken

/-- A result that is the fault of the first broken requirement, or a value if none is broken. -/
def Enforces {β : Type} (requirements : List (Prop × Fault)) : Except Fault β → Prop
  | .ok _ => ∀ requirement ∈ requirements, requirement.1
  | .error fault => FirstBroken requirements fault

namespace Enforces

variable {β γ : Type} {requirements : List (Prop × Fault)} {result : Except Fault β}
  {requirement : Prop} {fault : Fault}

theorem fulfilled (holds : requirement) (rest : Enforces requirements result) :
    Enforces ((requirement, fault) :: requirements) result := by
  cases result with
  | ok value => exact List.forall_mem_cons.mpr ⟨holds, rest⟩
  | error other => exact .later holds rest

/-- A check that throws the fault of a requirement enforces it. What comes after the check may rely
on the requirement. -/
theorem check {condition : Prop} [Decidable condition] {next : γ → Except Fault β}
    (refused : condition ↔ ¬requirement) (rest : requirement → Enforces requirements result) :
    Enforces ((requirement, fault) :: requirements)
      (if condition then throw fault >>= next else result) := by
  by_cases met : condition
  · rw [if_pos met]
    exact .here (refused.mp met)
  · have holds : requirement := by_contra fun broken => met (refused.mpr broken)
    rw [if_neg met]
    exact fulfilled holds (rest holds)

end Enforces

variable {α : Type}

def SampledDescription.requirements (description : SampledDescription α) :
    List (Prop × Fault) :=
  let ⟨domain, range, size, bitsPerSample, order, encode, decode, data⟩ := description
  [(bitsPerSample ∈ [1, 2, 4, 8, 12, 16, 24, 32], .parameter (.bitsPerSample bitsPerSample)),
    (order = 1 ∨ order = 3, .parameter (.order order)),
    (range ≠ [], .parameter .missingRange),
    (domain ≠ [], .parameter .dimensionMismatch),
    (domain.length ≤ 12, .parameter (.tooManyInputs domain.length)),
    (size.length = domain.length, .parameter .dimensionMismatch),
    (0 ∉ size, .parameter .size),
    ((∀ targets ∈ encode, targets.length = domain.length) ∧
      ∀ targets ∈ decode, targets.length = range.length, .parameter .dimensionMismatch),
    (range.length * size.prod < 2 ^ 32, .overflow),
    (range.length * size.prod * bitsPerSample ≤ 8 * data.length, .badSampleData)]

namespace Sampled

/-- Sizes that are counted in 32 bits one after the other are all counted if and only if their
product fits: as none of them is zero, no product on the way is larger. -/
theorem points?_eq {size : List ℕ} (solid : 0 ∉ size) :
    points? size = if size.prod < 2 ^ 32 then some size.prod else none := by
  have run (size : List ℕ) (before : ℕ) (solid : 0 ∉ size) (small : before < 2 ^ 32) :
      size.foldlM (fun product count =>
        if product * count < Samples.countLimit then some (product * count) else none) before =
          if before * size.prod < 2 ^ 32 then some (before * size.prod) else none := by
    induction size generalizing before with
    | nil =>
      rw [List.prod_nil, Nat.mul_one, if_pos small]
      rfl
    | cons count size ih =>
      have positive : 0 < size.prod :=
        Nat.pos_of_ne_zero (List.prod_ne_zero (List.not_mem_of_not_mem_cons solid))
      rw [List.foldlM_cons, List.prod_cons, ← Nat.mul_assoc]
      by_cases fits : before * count < Samples.countLimit
      · rw [if_pos fits]
        exact ih (before * count) (List.not_mem_of_not_mem_cons solid) fits
      · have more : before * count ≤ before * count * size.prod :=
          Nat.le_mul_of_pos_right _ positive
        have many : ¬before * count * size.prod < 2 ^ 32 := fun whole =>
          fits (Nat.lt_of_le_of_lt more whole)
        rw [if_neg fits, if_neg many]
        rfl
  have whole := run size 1 solid (by decide)
  rwa [Nat.one_mul] at whole

section Steps

variable {β : Type} {requirements : List (Prop × Fault)}

theorem enforces_order (order : ℕ) {next : Grid.Order → Except Fault β}
    (rest : ∀ found, Enforces requirements (next found)) :
    Enforces ((order = 1 ∨ order = 3, .parameter (.order order)) :: requirements)
      (match order? order with
        | some found => pure found >>= next
        | none => throw (.parameter (.order order)) >>= next) := by
  by_cases linear : order = 1
  · subst linear
    exact .fulfilled (.inl rfl) (rest .linear)
  by_cases cubic : order = 3
  · subst cubic
    exact .fulfilled (.inr rfl) (rest .cubic)
  have unknown : order? order = none := by
    unfold order?
    split
    · contradiction
    · contradiction
    · rfl
  rw [unknown]
  exact .here (not_or.mpr ⟨linear, cubic⟩)

/-- There are two counts that can overflow, that of the grid points and that of the samples. Where
the first does the second would too, as there is a channel. -/
theorem enforces_unpack {data : List UInt8} {width channels : ℕ} {size : List ℕ}
    (field : Bits.isWidth width) (solid : 0 ∉ size) (present : 0 < channels)
    {next : Array UInt32 → β} :
    let build (points : ℕ) : Except Fault β := do
      let samples ← unpack data width points channels
      return next samples
    Enforces [(channels * size.prod < 2 ^ 32, .overflow),
        (channels * size.prod * width ≤ 8 * data.length, .badSampleData)]
      (match points? size with
        | some points => pure points >>= build
        | none => throw .overflow >>= build) := by
  intro build
  rw [points?_eq solid, Nat.mul_comm channels]
  by_cases counted : size.prod < 2 ^ 32
  · rw [if_pos counted]
    change Enforces _ (unpack data width size.prod channels >>= fun samples => pure (next samples))
    unfold unpack
    obtain ⟨many, failed⟩ | ⟨few, short, failed⟩ | ⟨few, enough, samples, done⟩ :=
      Samples.unpack_cases field data size.prod channels
    · rw [failed]
      exact .here (Nat.not_lt.mpr many)
    · rw [failed]
      exact .later few (.here (Nat.not_le.mpr short))
    · rw [done]
      exact List.forall_mem_cons.mpr ⟨few, List.forall_mem_singleton.mpr enough⟩
  · have more : size.prod ≤ size.prod * channels := Nat.le_mul_of_pos_right _ present
    rw [if_neg counted]
    exact .here fun few => counted (Nat.lt_of_le_of_lt more few)

end Steps

theorem isWidth_of_sampleWidth {width : ℕ} (sample : width ∈ [1, 2, 4, 8, 12, 16, 24, 32]) :
    Bits.isWidth width := by
  revert width
  decide

variable [Scalar α]

theorem enforces_ofDescription (description : SampledDescription α) :
    Enforces description.requirements (ofDescription description) := by
  obtain ⟨domain, range, size, bitsPerSample, order, encode, decode, data⟩ := description
  have width : (!isSampleWidth bitsPerSample) = true ↔
      bitsPerSample ∉ [1, 2, 4, 8, 12, 16, 24, 32] := by
    rw [Bool.not_eq_true', ← Bool.not_eq_true, isSampleWidth, List.contains_iff_mem]
  have empty {β : Type} (list : List β) : list.isEmpty = true ↔ ¬list ≠ [] := by
    rw [List.isEmpty_iff, Decidable.not_not]
  have solid : size.contains 0 = true ↔ ¬0 ∉ size := by
    rw [List.contains_iff_mem, Decidable.not_not]
  have targets (encoding : size.length = domain.length) :
      (decide ((encode.getD (size.map wholeAxis)).length ≠ domain.length) ||
        decide ((decode.getD range).length ≠ range.length)) = true ↔
      ¬((∀ targets ∈ encode, targets.length = domain.length) ∧
        ∀ targets ∈ decode, targets.length = range.length) := by
    cases encode <;> cases decode <;> simp [encoding, imp_iff_not_or]
  -- Each check takes one requirement off the list, and unpacking takes the last two.
  unfold ofDescription SampledDescription.requirements
  dsimp only
  refine .check width fun field => ?_
  refine enforces_order order fun _ => ?_
  refine .check (empty range) fun ranged => ?_
  refine .check (empty domain) fun _ => ?_
  refine .check Nat.not_le.symm fun _ => ?_
  refine .check Iff.rfl fun encoding => ?_
  refine .check solid fun dense => ?_
  refine .check (targets encoding) fun _ => ?_
  exact enforces_unpack (isWidth_of_sampleWidth field) dense (List.length_pos_of_ne_nil ranged)

end Sampled

theorem Grid.axes_eq_mapIdx (stride : ℕ) (sizes : List ℕ) : axes stride sizes =
    sizes.mapIdx fun k size => ⟨size, stride * (sizes.take k).prod⟩ := by
  induction sizes generalizing stride with
  | nil => rfl
  | cons size sizes ih =>
    rw [axes, ih, List.mapIdx_cons]
    simp [Nat.mul_assoc]

structure SampledDescription.Tabulated [Scalar α] (description : SampledDescription α)
    (function : Sampled α) : Prop where
  domain : function.inputs.map (·.domain) = description.domain
  range : function.outputs.map (·.range) = description.range
  order : Sampled.order? description.order = some function.order
  samples : function.table.samples.size = description.range.length * description.size.prod
  channels : function.table.channels = description.range.length
  /-- Neighbours along a dimension are as far apart as all dimensions before it have points. -/
  axes : function.inputs.map (·.axis) = description.size.mapIdx fun k count =>
    ⟨count, (description.size.take k).prod⟩
  products : ∀ k, (description.size.take k).prod < 2 ^ 32
  counted : Sampled.points? description.size = some description.size.prod
  packed : Bits.packedLength (description.range.length * description.size.prod)
    description.bitsPerSample = some
      ((description.range.length * description.size.prod * description.bitsPerSample + 7) / 8)

namespace Sampled

variable [Scalar α] {description : SampledDescription α} {function : Sampled α}

theorem unpack_few {data : List UInt8} {width points channels : ℕ} {samples : Array UInt32}
    (field : Bits.isWidth width) (unpacked : unpack data width points channels = .ok samples) :
    points * channels < 2 ^ 32 := by
  have done := unpack_ok unpacked
  obtain ⟨-, failed⟩ | ⟨few, -⟩ | ⟨few, -⟩ := Samples.unpack_cases field data points channels
  · rw [failed] at done
    cases done
  · exact few
  · exact few

theorem tabulated_of_description (made : ofDescription description = .ok function) :
    description.Tabulated function := by
  obtain ⟨consistent, order, points, samples, ordered, counted, unpacked, rfl⟩ :=
    consistent_of_description made
  obtain rfl := points_eq_prod counted
  have field : Bits.isWidth description.bitsPerSample :=
    isWidth_of_sampleWidth (List.contains_iff_mem.mp consistent.width)
  have few := unpack_few field unpacked
  have present : 0 < description.range.length := List.length_pos_of_ne_nil consistent.range
  have positive : 0 < description.size.prod :=
    Nat.pos_of_ne_zero (List.prod_ne_zero consistent.solid)
  have whole : description.size.prod ≤ description.size.prod * description.range.length :=
    Nat.le_mul_of_pos_right _ present
  have table : samples.size = description.size.prod * description.range.length := by
    simpa using congrArg List.length (Samples.unpack_fields (unpack_ok unpacked)).2
  refine ⟨consistent.domain_function order samples, consistent.range_function order samples,
    ordered, ?samples, rfl, ?axes, fun k => ?products, counted, ?packed⟩
  case samples =>
    rw [Nat.mul_comm, ← table]
    exact Array.size_map
  case axes =>
    rw [consistent.axes_function, Grid.axes_eq_mapIdx]
    simp only [Nat.one_mul]
  case products =>
    -- No size is zero, so that some of the dimensions have no more points than all of them.
    have divides : (description.size.take k).prod ∣ description.size.prod :=
      Dvd.intro _ (List.prod_take_mul_prod_drop _ k)
    have below := Nat.le_of_dvd positive divides
    omega
  case packed =>
    rw [Nat.mul_comm description.range.length]
    exact Samples.packedLength_eq field few

end Sampled

namespace PdfFunction

variable [Elementary α]

theorem ofSampled_eq (description : SampledDescription α) : ofSampled description =
    match Sampled.ofDescription description with
    | .ok function => .ok (.sampled function)
    | .error fault =>
      .error ⟨fault, ["failed to create sampled function: " ++ fault.message]⟩ := by
  rw [ofSampled]
  cases Sampled.ofDescription description with
  | ok function => rfl
  | error fault => rfl

/-- A sampled function is made of a description if and only if it fulfils all that is asked. Its
table has as many samples as the grid has points and the points have channels. A description that
is refused gets the fault of the first requirement that it breaks. -/
theorem ofSampled_accepts (description : SampledDescription α) :
    ((∃ function, ofSampled description = .ok function) ↔
      ∀ requirement ∈ description.requirements, requirement.1) ∧
    (∀ function, ofSampled description = .ok function →
      ∃ table, function = .sampled table ∧ description.Tabulated table) ∧
    ∀ failure, ofSampled description = .error failure ↔
      ∃ fault, FirstBroken description.requirements fault ∧
        failure = ⟨fault, ["failed to create sampled function: " ++ fault.message]⟩ := by
  have enforces := Sampled.enforces_ofDescription description
  rw [ofSampled_eq]
  cases made : Sampled.ofDescription description with
  | ok table =>
    rw [made] at enforces
    refine ⟨iff_of_true ⟨_, rfl⟩ enforces, ?_, fun failure => iff_of_false nofun ?_⟩
    · rintro function ⟨⟩
      exact ⟨table, rfl, Sampled.tabulated_of_description made⟩
    · rintro ⟨fault, broken, -⟩
      exact broken.not_fulfilled enforces
  | error fault =>
    rw [made] at enforces
    refine ⟨iff_of_false nofun enforces.not_fulfilled, nofun, fun failure => ?_⟩
    constructor
    · rintro ⟨⟩
      exact ⟨fault, enforces, rfl⟩
    · rintro ⟨other, broken, rfl⟩
      rw [enforces.unique broken]

/-- A description with more grid points than can be counted, of no data and an unknown order. -/
def overfull : SampledDescription ℚ :=
  { packed with size := [65536, 65536], order := 2, data := [] }

theorem packed_accepts : letI := Exact.Approximations.zero
    (∃ table, ofSampled packed = .ok (.sampled table) ∧ table.table.samples.size = 12 ∧
      table.inputs.map (·.axis) = [⟨3, 1⟩, ⟨2, 3⟩]) ∧
    ofSampled overfull = .error ⟨.parameter (.order 2),
      ["failed to create sampled function: bad parameter: invalid interpolation order 2"]⟩ ∧
    ofSampled { overfull with order := 1 } = .error ⟨.overflow,
      ["failed to create sampled function: sample table too large"]⟩ := by
  let _ := Exact.Approximations.zero
  have fulfilled : ∀ requirement ∈ packed.requirements, requirement.1 := by
    simp [SampledDescription.requirements, packed]
  have unordered : FirstBroken overfull.requirements (.parameter (.order 2)) :=
    .later (by decide) (.here (by decide))
  have uncountable : FirstBroken { overfull with order := 1 }.requirements .overflow := by
    iterate 7 refine .later (by decide) ?_
    refine .later ⟨?_, ?_⟩ (.here (by decide)) <;> simp [overfull, packed]
  obtain ⟨accepts, made, -⟩ := ofSampled_accepts packed
  obtain ⟨function, done⟩ := accepts.mpr fulfilled
  obtain ⟨table, rfl, tabulated⟩ := made function done
  obtain ⟨-, -, refused⟩ := ofSampled_accepts overfull
  obtain ⟨-, -, uncounted⟩ := ofSampled_accepts { overfull with order := 1 }
  exact ⟨⟨table, done, tabulated.samples, tabulated.axes⟩,
    (refused _).mpr ⟨_, unordered, rfl⟩, (uncounted _).mpr ⟨_, uncountable, rfl⟩⟩

end PdfFunction

end PdfPrimitives
