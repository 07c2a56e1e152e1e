import Mathlib.Algebra.BigOperators.Group.List.Basic
import PdfPrimitives.Proofs.Bits.Reading
import PdfPrimitives.Proofs.Function.Reuse

/-!
The geometry of a sampled function. What a description has to fulfil, and what is built of it
then: axes and maps for the inputs, maps for the outputs, and a table of as many samples as the
grid has points and the points have channels.
-/

namespace PdfPrimitives

@[simp] theorem Grid.length_axes (stride : ℕ) (sizes : List ℕ) :
    (axes stride sizes).length = sizes.length := by
  induction sizes generalizing stride with
  | nil => rfl
  | cons size sizes ih => rw [axes, List.length_cons, List.length_cons, ih]

theorem Grid.size_axes (stride : ℕ) (sizes : List ℕ) :
    (axes stride sizes).map (·.size) = sizes := by
  induction sizes generalizing stride with
  | nil => rfl
  | cons size sizes ih => rw [axes, List.map_cons, ih]

theorem ok_of_guard {ε β γ : Type} {condition : Prop} [Decidable condition] {fault : ε}
    {next : β → Except ε γ} {rest : Except ε γ} {result : γ}
    (done : (if condition then throw fault >>= next else rest) = .ok result) :
    ¬condition ∧ rest = .ok result := by
  by_cases broken : condition
  · rw [if_pos broken] at done
    cases done
  · rw [if_neg broken] at done
    exact ⟨broken, done⟩

variable {α : Type} [Scalar α]

namespace SampledDescription

def encoding (description : SampledDescription α) : List (Interval α) :=
  description.encode.getD (description.size.map Sampled.wholeAxis)

def decoding (description : SampledDescription α) : List (Interval α) :=
  description.decode.getD description.range

structure Consistent (description : SampledDescription α) : Prop where
  width : Sampled.isSampleWidth description.bitsPerSample
  range : description.range ≠ []
  domain : description.domain ≠ []
  limit : description.domain.length ≤ inputLimit
  size : description.size.length = description.domain.length
  solid : 0 ∉ description.size
  encoding : description.encoding.length = description.domain.length
  decoding : description.decoding.length = description.range.length

def function (description : SampledDescription α) (order : Grid.Order) (samples : Array UInt32) :
    Sampled α where
  inputs :=
    (description.domain.zip ((Grid.axes 1 description.size).zip description.encoding)).map
      fun (domain, axis, target) => ⟨domain, axis, Affine.between domain target⟩
  outputs := (description.range.zip description.decoding).map fun (range, target) =>
    ⟨range, Affine.between
      ⟨0.0, Scalar.ofInt (Bits.mask description.bitsPerSample).toNat⟩ target⟩
  order := order
  table := ⟨samples.map fun sample => Scalar.ofInt sample.toNat, description.range.length⟩

section Consistency

variable {description : SampledDescription α} (consistent : description.Consistent)
  (order : Grid.Order) (samples : Array UInt32)

include consistent

theorem Consistent.domain_function :
    (description.function order samples).inputs.map (·.domain) = description.domain := by
  rw [function, List.map_map]
  refine List.map_fst_zip ?_
  rw [List.length_zip, Grid.length_axes, consistent.size, consistent.encoding, Nat.min_self]

theorem Consistent.axes_function :
    (description.function order samples).inputs.map (·.axis) = Grid.axes 1 description.size := by
  have axes := consistent.size
  rw [← Grid.length_axes 1] at axes
  rw [function, List.map_map]
  change (description.domain.zip _).map (Prod.fst ∘ Prod.snd) = _
  rw [← List.map_map, List.map_snd_zip, List.map_fst_zip]
  · rw [axes, consistent.encoding]
  · rw [List.length_zip, axes, consistent.encoding, Nat.min_self]

theorem Consistent.range_function :
    (description.function order samples).outputs.map (·.range) = description.range := by
  rw [function, List.map_map]
  exact List.map_fst_zip consistent.decoding.ge

end Consistency

end SampledDescription

namespace Sampled

theorem consistent_of_description {description : SampledDescription α} {function : Sampled α}
    (made : ofDescription description = .ok function) :
    description.Consistent ∧ ∃ order points samples,
      order? description.order = some order ∧ points? description.size = some points ∧
      unpack description.data description.bitsPerSample points description.range.length =
        .ok samples ∧
      function = description.function order samples := by
  unfold ofDescription at made
  dsimp only at made
  obtain ⟨width, made⟩ := ok_of_guard made
  cases ordered : order? description.order with
  | none =>
    rw [ordered] at made
    cases made
  | some order =>
    rw [ordered] at made
    obtain ⟨_, ⟨⟩, made⟩ := ok_of_bind made
    obtain ⟨range, made⟩ := ok_of_guard made
    obtain ⟨domain, made⟩ := ok_of_guard made
    obtain ⟨limit, made⟩ := ok_of_guard made
    obtain ⟨size, made⟩ := ok_of_guard made
    obtain ⟨solid, made⟩ := ok_of_guard made
    obtain ⟨lengths, made⟩ := ok_of_guard made
    cases counted : points? description.size with
    | none =>
      rw [counted] at made
      cases made
    | some points =>
      rw [counted] at made
      obtain ⟨_, ⟨⟩, made⟩ := ok_of_bind made
      obtain ⟨samples, unpacked, made⟩ := ok_of_bind made
      obtain rfl := Except.ok.inj made
      simp only [Bool.not_eq_true', Bool.not_eq_false, List.isEmpty_iff, Nat.not_lt, ne_eq,
        not_not, List.contains_iff_mem, Bool.or_eq_true, decide_eq_true_eq, not_or] at *
      exact ⟨⟨width, range, domain, limit, size, solid, lengths.1, lengths.2⟩,
        order, points, samples, rfl, rfl, unpacked, rfl⟩

theorem points_eq_prod {size : List ℕ} {points : ℕ} (counted : points? size = some points) :
    points = size.prod := by
  have run (size : List ℕ) (before : ℕ) (counted : size.foldlM (fun product count =>
      if product * count < Samples.countLimit then some (product * count) else none) before =
        some points) : points = before * size.prod := by
    induction size generalizing before with
    | nil =>
      obtain rfl := Option.some.inj counted
      rw [List.prod_nil, Nat.mul_one]
    | cons count size ih =>
      rw [List.foldlM_cons] at counted
      split at counted
      · rw [ih _ counted, List.prod_cons, Nat.mul_assoc]
      · cases counted
  rw [run size 1 counted, Nat.one_mul]

theorem sampleWidth_le {width : ℕ} (sample : isSampleWidth width) : width ≤ 32 := by
  simp only [isSampleWidth, List.contains_eq_mem, decide_eq_true_eq, List.mem_cons,
    List.not_mem_nil, or_false] at sample
  omega

theorem unpack_ok {data : List UInt8} {width points channels : ℕ} {samples : Array UInt32}
    (unpacked : unpack data width points channels = .ok samples) :
    Samples.unpack data width points channels = .ok samples := by
  unfold unpack at unpacked
  split at unpacked
  · next found => rw [found, Except.ok.inj unpacked]
  · cases unpacked
  · cases unpacked

theorem number_lt {point points channel channels : ℕ} (inside : point < points)
    (present : channel < channels) : point * channels + channel < points * channels :=
  calc point * channels + channel
      < (point + 1) * channels := by rw [Nat.succ_mul]; omega
    _ ≤ points * channels := Nat.mul_le_mul_right _ inside

/-- The data reaches to the end of each sample. -/
theorem sample_within {data : List UInt8} {width points channels : ℕ} {samples : Array UInt32}
    (unpacked : unpack data width points channels = .ok samples) {point channel : ℕ}
    (inside : point < points) (present : channel < channels) :
    (point * channels + channel + 1) * width ≤ (Bits.ofBytes data).length :=
  (Nat.mul_le_mul_right _ (number_lt inside present)).trans
    (Samples.unpack_fields (unpack_ok unpacked)).1

/-- The samples of a grid point lie together, one for each channel. -/
theorem sample_function {description : SampledDescription α} (order : Grid.Order) {points : ℕ}
    {samples : Array UInt32}
    (unpacked : unpack description.data description.bitsPerSample points
      description.range.length = .ok samples)
    {point channel : ℕ} (inside : point < points) (present : channel < description.range.length) :
    (description.function order samples).table.sample point channel =
      .ok (Scalar.ofInt (Bits.field (Bits.ofBytes description.data) description.bitsPerSample
        (point * description.range.length + channel))) := by
  have found := congrArg (·[point * description.range.length + channel]?)
    (Samples.unpack_fields (unpack_ok unpacked)).2
  simp only [List.getElem?_map, List.getElem?_range (number_lt inside present), Option.map_some,
    Array.getElem?_toList] at found
  obtain ⟨sample, read, number⟩ := Option.map_eq_some_iff.mp found
  simp only [SampledDescription.function, Grid.Table.sample, Array.getElem?_map, read,
    Option.map_some, number]

end Sampled

end PdfPrimitives
