import Mathlib.Data.List.Induction
import PdfPrimitives.Proofs.Bits.Writing

/-!
Packing and unpacking of samples as inverses. Both are followed to the bits that lie in the bytes:
packed samples are the fields that spell them, and unpacked ones the numbers that fields spell.
-/

namespace PdfPrimitives

namespace Bits

theorem value_concat (bits : List Bool) (bit : Bool) :
    value (bits ++ [bit]) = 2 * value bits + bit.toNat := by
  rw [value, List.foldl_append]
  rfl

theorem spell_value (bits : List Bool) : spell bits.length (value bits) = bits := by
  induction bits using List.reverseRecOn with
  | nil => rfl
  | append_singleton bits bit ih =>
    have above : value (bits ++ [bit]) >>> 1 = value bits := by
      rw [value_concat, Nat.shiftRight_one]
      cases bit <;> simp only [Bool.toNat_false, Bool.toNat_true] <;> omega
    have lowest : spell 1 (value (bits ++ [bit])) = [bit] := by
      rw [value_concat, spell, spell]
      cases bit <;> simp
    rw [List.length_append, List.length_singleton, spell_add, above, lowest, ih]

theorem length_fields (numbers : List ℕ) (width : ℕ) :
    (numbers.flatMap (spell width)).length = numbers.length * width := by
  simp [List.length_flatMap, List.map_const']

/-- The fields that numbers were spelled in hold them, as far as the width goes. -/
theorem fields_of_spelled (numbers : List ℕ) (width : ℕ) (rest : List Bool) :
    (List.range numbers.length).map (field (numbers.flatMap (spell width) ++ rest) width) =
      numbers.map (· % 2 ^ width) := by
  induction numbers with
  | nil => rfl
  | cons number numbers ih =>
    rw [List.flatMap_cons, List.append_assoc]
    generalize numbers.flatMap (spell width) ++ rest = behind at ih
    have count := length_spell width number
    have first : field (spell width number ++ behind) width 0 = number % 2 ^ width := by
      rw [field, Nat.zero_mul, List.drop_zero, List.take_left' count, value_spell]
    have others : field (spell width number ++ behind) width ∘ Nat.succ = field behind width :=
      funext fun place => by rw [Function.comp_apply, ← field_drop, List.drop_left' count]
    rw [List.length_cons, List.range_succ_eq_map, List.map_cons, List.map_map, others, first, ih,
      List.map_cons]

/-- Fields that are spelled again are the bits that they were taken from. -/
theorem spelled_of_fields {bits : List Bool} {width count : ℕ}
    (enough : count * width ≤ bits.length) :
    ((List.range count).map (field bits width)).flatMap (spell width) =
      bits.take (count * width) := by
  induction count generalizing bits with
  | zero => rw [Nat.zero_mul]; rfl
  | succ count ih =>
    rw [Nat.succ_mul] at enough
    have whole : (bits.take width).length = width := List.length_take_of_le (by omega)
    have first : spell width (field bits width 0) = bits.take width := by
      have spelled := spell_value (bits.take width)
      rw [whole] at spelled
      rw [field, Nat.zero_mul, List.drop_zero, spelled]
    have others : field bits width ∘ Nat.succ = field (bits.drop width) width :=
      funext fun place => (field_drop bits width place).symm
    have behind : count * width ≤ (bits.drop width).length := by
      rw [List.length_drop]
      omega
    rw [List.range_succ_eq_map, List.map_cons, List.map_map, others, List.flatMap_cons, first,
      ih behind, Nat.succ_mul, Nat.add_comm, List.take_add]

theorem ofBytes_zeros (count : ℕ) :
    ofBytes (List.replicate count 0) = List.replicate (8 * count) false := by
  induction count with
  | zero => rfl
  | succ count ih =>
    rw [List.replicate_succ, ofBytes_cons, ih, Nat.mul_succ, Nat.add_comm,
      ← List.replicate_append_replicate]
    rfl

/-- Where the bits are enough for all fields no read of one fails. -/
theorem Reader.readMany_isSome {width count : ℕ} {reader : Reader} (fields : Array UInt32)
    (valid : reader.Valid) (field : isWidth width) (enough : count * width ≤ reader.bits.length) :
    (readMany width count reader fields).isSome := by
  induction count generalizing reader fields with
  | zero => rfl
  | succ count ih =>
    have yields := read_yields valid field
    rw [readMany]
    rw [Nat.succ_mul] at enough
    generalize reader.read width = outcome at yields
    cases yields with
    | nothing short kept valid => omega
    | field fits spelled behind valid =>
      refine ih _ valid ?_
      rw [behind, List.length_drop]
      omega

end Bits

namespace Samples

open Bits (isWidth isWidth_iff spell)

variable {width : ℕ}

theorem packedLength_eq {count : ℕ} (field : isWidth width) (few : count < 2 ^ 32) :
    Bits.packedLength count width = some ((count * width + 7) / 8) := by
  have narrow := ((isWidth_iff width).mp field).2
  have bound : count * width ≤ count * 32 := Nat.mul_le_mul_left count narrow
  have small : count * width < 2 ^ 64 := by omega
  exact if_pos small

/-- Samples that are written into an empty buffer, with zeros behind the last one. -/
theorem writeAll_empty (field : isWidth width) {samples : List UInt32} {length : ℕ}
    (fits : samples.length * width ≤ 8 * length) :
    let outcome := Bits.Writer.writeAll ⟨Array.replicate length 0, 0, width, field⟩ samples
    outcome.1 = true ∧ outcome.2.buffer.size = length ∧
      outcome.2.bits = (samples.map UInt32.toNat).flatMap (spell width) ++
        List.replicate (8 * length - samples.length * width) false := by
  have spelled : samples.flatMap (fun sample => spell width sample.toNat) =
      (samples.map UInt32.toNat).flatMap (spell width) :=
    (List.flatMap_map ..).symm
  have total : ((samples.map UInt32.toNat).flatMap (spell width)).length =
      samples.length * width := by
    rw [Bits.length_fields, List.length_map]
  have zeros : Bits.Writer.bits ⟨Array.replicate length 0, 0, width, field⟩ =
      List.replicate (8 * length) false := by
    rw [Bits.Writer.bits, Array.toList_replicate, Bits.ofBytes_zeros]
  have written := Bits.Writer.writeAll_overwrites samples
    ⟨Array.replicate length 0, 0, width, field⟩ (Nat.zero_le _)
  have size := written.length_bits (Nat.zero_le _)
  obtain ⟨done, bits, -, -⟩ := written
  rw [spelled, zeros, List.length_replicate, total, Nat.zero_add] at done
  rw [spelled, zeros, Bits.overwrite, total, List.length_replicate, List.take_zero,
    List.nil_append, Nat.sub_zero, Nat.zero_add, List.take_of_length_le (total.trans_le fits),
    List.drop_replicate] at bits
  rw [zeros, List.length_replicate, Bits.Writer.length_bits] at size
  exact ⟨done.trans (decide_eq_true fits), Nat.eq_of_mul_eq_mul_left (by decide) size, bits⟩

/-- Packed samples are the fields that spell them, and zeros up to the end of the last byte. -/
theorem pack_spells (field : isWidth width) {samples : List UInt32}
    (few : samples.length < 2 ^ 32) :
    ∃ data, pack samples width = some data ∧ data.length = (samples.length * width + 7) / 8 ∧
      Bits.ofBytes data = (samples.map UInt32.toNat).flatMap (spell width) ++
        List.replicate (8 * data.length - samples.length * width) false := by
  have counted := packedLength_eq field few
  generalize length_eq : (samples.length * width + 7) / 8 = length at counted ⊢
  have fits : samples.length * width ≤ 8 * length := by omega
  obtain ⟨done, size, bits⟩ := writeAll_empty field fits
  have created : Bits.Writer.new? (Array.replicate length 0) width =
      some ⟨Array.replicate length 0, 0, width, field⟩ := dif_pos field
  simp only [pack, counted, created, Option.bind_eq_bind, Option.bind_some]
  generalize Bits.Writer.writeAll _ samples = outcome at done size bits ⊢
  obtain ⟨_, written⟩ := outcome
  obtain rfl := done
  subst size
  exact ⟨written.buffer.toList, rfl, Array.length_toList, by rw [Array.length_toList]; exact bits⟩

/-- When samples are unpacked, and why not: too many are refused before the data is looked at, and
where there is data for all no read fails. -/
theorem unpack_cases (field : isWidth width) (data : List UInt8) (points channels : ℕ) :
    (2 ^ 32 ≤ points * channels ∧ unpack data width points channels = .error .overflow) ∨
      (points * channels < 2 ^ 32 ∧ 8 * data.length < points * channels * width ∧
        unpack data width points channels = .error .truncated) ∨
      (points * channels < 2 ^ 32 ∧ points * channels * width ≤ 8 * data.length ∧
        ∃ samples, unpack data width points channels = .ok samples) := by
  have valid : (!isWidth width) = false := by rw [field]; rfl
  simp only [unpack, valid, Bool.false_eq_true, if_false]
  have limit : countLimit = 2 ^ 32 := rfl
  generalize points * channels = count
  rw [limit]
  by_cases many : 2 ^ 32 ≤ count
  · exact .inl ⟨many, if_pos many⟩
  have few : count < 2 ^ 32 := Nat.not_le.mp many
  rw [if_neg many, packedLength_eq field few, Option.any_some]
  by_cases enough : count * width ≤ 8 * data.length
  · have bits : count * width ≤ (Bits.Reader.ofBytes data).bits.length := by
      rwa [Bits.Reader.bits_ofBytes, Bits.length_ofBytes]
    obtain ⟨samples, read⟩ := Option.isSome_iff_exists.mp
      (Bits.Reader.readMany_isSome #[] (Bits.Reader.valid_ofBytes data) field bits)
    refine .inr (.inr ⟨few, enough, samples, ?_⟩)
    rw [if_pos (decide_eq_true (by omega)), read]
  · have short : ¬ (count * width + 7) / 8 ≤ data.length := by omega
    refine .inr (.inl ⟨few, Nat.not_le.mp enough, if_neg ?_⟩)
    rwa [decide_eq_true_iff]

theorem unpack_packed (field : isWidth width) {samples : List UInt32}
    (few : samples.length < 2 ^ 32) :
    ∃ data, pack samples width = some data ∧ data.length = (samples.length * width + 7) / 8 ∧
      (∀ bit ∈ (Bits.ofBytes data).drop (samples.length * width), bit = false) ∧
      ∀ points channels, points * channels = samples.length →
        ∃ unpacked, unpack data width points channels = .ok unpacked ∧
          unpacked.toList.map UInt32.toNat = samples.map (·.toNat % 2 ^ width) := by
  obtain ⟨data, packed, length, spelled⟩ := pack_spells field few
  have total := Bits.length_fields (samples.map UInt32.toNat) width
  rw [List.length_map] at total
  refine ⟨data, packed, length, ?_, fun points channels count => ?_⟩
  · rw [spelled, List.drop_left' total]
    exact fun bit => List.eq_of_mem_replicate
  have outcome := unpack_cases field data points channels
  rw [count, length] at outcome
  obtain ⟨many, -⟩ | ⟨-, short, -⟩ | ⟨-, -, unpacked, done⟩ := outcome
  · omega
  · omega
  refine ⟨unpacked, done, ?_⟩
  have fields := Bits.fields_of_spelled (samples.map UInt32.toNat) width
    (List.replicate (8 * data.length - samples.length * width) false)
  rw [List.length_map] at fields
  rw [(unpack_fields done).2, count, spelled, fields, List.map_map]
  rfl

theorem pack_unpacked (field : isWidth width) {data : List UInt8} {points channels : ℕ}
    {samples : Array UInt32} (few : points * channels < 2 ^ 32)
    (unpacked : unpack data width points channels = .ok samples) :
    ∃ packed, pack samples.toList width = some packed ∧
      packed.length = (points * channels * width + 7) / 8 ∧
      Bits.ofBytes packed = (Bits.ofBytes data).take (points * channels * width) ++
        List.replicate (8 * packed.length - points * channels * width) false := by
  obtain ⟨room, fields⟩ := unpack_fields unpacked
  have count : samples.toList.length = points * channels := by
    simpa using congrArg List.length fields
  obtain ⟨packed, done, length, spelled⟩ := pack_spells field (count.trans_lt few)
  rw [fields, Bits.spelled_of_fields room, count] at spelled
  exact ⟨packed, done, count ▸ length, spelled⟩

/-- Samples of any width come back from their packed form, up to the bits that the width cuts off,
and data comes back from its samples, up to what lies behind the last one. Unpacking fails exactly
where samples are too many or the data too short, the first of the two before the second. -/
theorem pack_unpack_inverse (field : 1 ≤ width ∧ width ≤ 32) :
    (∀ samples : List UInt32, samples.length < 2 ^ 32 →
      ∃ data, pack samples width = some data ∧ data.length = (samples.length * width + 7) / 8 ∧
        (∀ bit ∈ (Bits.ofBytes data).drop (samples.length * width), bit = false) ∧
        ∀ points channels, points * channels = samples.length →
          ∃ unpacked, unpack data width points channels = .ok unpacked ∧
            unpacked.toList.map UInt32.toNat = samples.map (·.toNat % 2 ^ width)) ∧
    ∀ data points channels,
      ((∃ samples, unpack data width points channels = .ok samples) ↔
        points * channels < 2 ^ 32 ∧ width * (points * channels) ≤ 8 * data.length) ∧
      (unpack data width points channels = .error .overflow ↔ 2 ^ 32 ≤ points * channels) ∧
      (unpack data width points channels = .error .truncated ↔
        points * channels < 2 ^ 32 ∧ 8 * data.length < width * (points * channels)) ∧
      (width * (points * channels) ≤ 8 * data.length →
        (Bits.Reader.readMany width (points * channels) (.ofBytes data) #[]).isSome) ∧
      ∀ samples, unpack data width points channels = .ok samples →
        ∃ packed, pack samples.toList width = some packed ∧
          packed.length = (width * (points * channels) + 7) / 8 ∧
          Bits.ofBytes packed = (Bits.ofBytes data).take (width * (points * channels)) ++
            List.replicate (8 * packed.length - width * (points * channels)) false := by
  have valid := (isWidth_iff width).mpr field
  refine ⟨fun samples few => unpack_packed valid few, fun data points channels => ?_⟩
  rw [Nat.mul_comm width]
  have reads : points * channels * width ≤ 8 * data.length →
      (Bits.Reader.readMany width (points * channels) (.ofBytes data) #[]).isSome := fun enough =>
    Bits.Reader.readMany_isSome #[] (Bits.Reader.valid_ofBytes data) valid
      (by rwa [Bits.Reader.bits_ofBytes, Bits.length_ofBytes])
  obtain ⟨many, failed⟩ | ⟨few, short, failed⟩ | ⟨few, enough, samples, done⟩ :=
    unpack_cases valid data points channels
  · rw [failed]
    exact ⟨iff_of_false (by simp) (by omega), iff_of_true rfl many,
      iff_of_false (by simp) (by omega), reads, by simp⟩
  · rw [failed]
    exact ⟨iff_of_false (by simp) (by omega), iff_of_false (by simp) (by omega),
      iff_of_true rfl ⟨few, short⟩, reads, by simp⟩
  · refine ⟨iff_of_true ⟨samples, done⟩ ⟨few, enough⟩, iff_of_false ?_ (by omega),
      iff_of_false ?_ (by omega), reads, fun _ unpacked => pack_unpacked valid few unpacked⟩
    · simp [done]
    · simp [done]

/-- Fields that end within a byte, the second of a sample that is wider than them. -/
theorem elevenBits_pack_unpack_inverse :
    (1 ≤ 11 ∧ 11 ≤ 32) ∧ [(0x7FF : UInt32), 0x1234, 1].length < 2 ^ 32 ∧
      (∃ data, pack [0x7FF, 0x1234, 1] 11 = some data ∧ data.length = 5 ∧
        ∃ unpacked, unpack data 11 3 1 = .ok unpacked ∧
          unpacked.toList.map UInt32.toNat = [0x7FF, 0x234, 1]) ∧
      ∃ samples, unpack [0xAB, 0xCD, 0xEF] 11 1 2 = .ok samples := by
  have field : 1 ≤ 11 ∧ 11 ≤ 32 := by decide
  have few : [(0x7FF : UInt32), 0x1234, 1].length < 2 ^ 32 := by decide
  obtain ⟨packed, unpacked⟩ := pack_unpack_inverse field
  obtain ⟨data, done, length, -, back⟩ := packed _ few
  obtain ⟨succeeds, -⟩ := unpacked [0xAB, 0xCD, 0xEF] 1 2
  exact ⟨field, few, ⟨data, done, length, back 3 1 rfl⟩, succeeds.mpr (by decide)⟩

end Samples

end PdfPrimitives
