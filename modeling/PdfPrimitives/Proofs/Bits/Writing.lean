import PdfPrimitives.Bits.Writer
import PdfPrimitives.Proofs.Bits.Reading

/-!
Writing of bit fields into the bit string that a buffer holds. A field goes over the bits behind
the position, and over no others, however the bytes divide it into pieces. Where it does not fit,
as much of it is written as there is space for.
-/

namespace PdfPrimitives.Bits

/-- Bits with others written over them from a position on, as far as there are any. -/
def overwrite (bits : List Bool) (position : ℕ) (field : List Bool) : List Bool :=
  bits.take position ++ (field.take (bits.length - position) ++ bits.drop (position + field.length))

section Overwrite

variable {bits first second : List Bool} {position : ℕ}

theorem getElem?_overwrite {field : List Bool} (within : position ≤ bits.length) (place : ℕ) :
    (overwrite bits position field)[place]? =
      if position ≤ place ∧ place < position + field.length ∧ place < bits.length then
        field[place - position]?
      else bits[place]? := by
  have front : (bits.take position).length = position := List.length_take_of_le within
  rw [overwrite, List.getElem?_append, front]
  by_cases before : place < position
  · rw [if_pos before, if_neg (by omega), List.getElem?_take_of_lt before]
  rw [if_neg before, List.getElem?_append, List.length_take]
  by_cases covered : place - position < min (bits.length - position) field.length
  · rw [if_pos covered, if_pos (by omega), List.getElem?_take_of_lt (by omega)]
  rw [if_neg covered, List.getElem?_drop]
  by_cases fits : position + field.length ≤ bits.length
  · rw [if_neg (by omega)]
    congr 1
    omega
  · rw [if_neg (by omega), List.getElem?_eq_none (by omega), List.getElem?_eq_none (by omega)]

theorem length_overwrite {field : List Bool} (within : position ≤ bits.length) :
    (overwrite bits position field).length = bits.length := by
  rw [overwrite, List.length_append, List.length_append, List.length_take_of_le within,
    List.length_take, List.length_drop]
  omega

theorem overwrite_nil (bits : List Bool) (position : ℕ) : overwrite bits position [] = bits := by
  rw [overwrite, List.take_nil, List.nil_append, List.length_nil, Nat.add_zero,
    List.take_append_drop]

/-- Two fields that are written one behind the other are one field. -/
theorem overwrite_append (fits : position + first.length ≤ bits.length) :
    overwrite (overwrite bits position first) (position + first.length) second =
      overwrite bits position (first ++ second) := by
  have within : position ≤ bits.length := by omega
  have kept : (overwrite bits position first).length = bits.length := length_overwrite within
  refine List.ext_getElem? fun place => ?_
  rw [getElem?_overwrite (kept.symm ▸ fits), getElem?_overwrite within, getElem?_overwrite within,
    kept, List.length_append, List.getElem?_append]
  by_cases before : place < position + first.length
  · rw [if_neg (by omega)]
    by_cases behind : position ≤ place
    · rw [if_pos (by omega), if_pos (by omega), if_pos (by omega)]
    · rw [if_neg (by omega), if_neg (by omega)]
  · by_cases inside : place < position + (first.length + second.length) ∧ place < bits.length
    · rw [if_pos (by omega), if_pos (by omega), if_neg (by omega), Nat.sub_sub]
    · rw [if_neg (by omega), if_neg (by omega), if_neg (by omega)]

/-- Of a field that does not fit no more than its first bits are written. -/
theorem overwrite_cut (within : position ≤ bits.length)
    (beyond : bits.length ≤ position + first.length) :
    overwrite bits position (first ++ second) = overwrite bits position first := by
  have space : bits.length - position ≤ first.length := by omega
  rw [overwrite, overwrite, List.take_append_of_le_length space, List.drop_eq_nil_of_le beyond,
    List.drop_eq_nil_of_le (by rw [List.length_append]; omega)]

end Overwrite

theorem getElem?_spell {width place : ℕ} (inside : place < width) (number : ℕ) :
    (spell width number)[place]? = some (number.testBit (width - 1 - place)) := by
  induction width generalizing place with
  | zero => exact absurd inside (Nat.not_lt_zero place)
  | succ width ih =>
    cases place with
    | zero => rfl
    | succ place =>
      rw [spell, List.getElem?_cons_succ, ih (Nat.lt_of_succ_lt_succ inside)]
      congr 2
      omega

theorem getElem?_ofBytes (bytes : List UInt8) (place : ℕ) :
    (ofBytes bytes)[place]? =
      bytes[place / 8]?.map fun byte => byte.toNat.testBit (7 - place % 8) := by
  induction bytes generalizing place with
  | nil => rfl
  | cons byte bytes ih =>
    rw [ofBytes_cons, List.getElem?_append, length_spell]
    by_cases first : place < 8
    · rw [if_pos first, getElem?_spell first, Nat.div_eq_of_lt first, Nat.mod_eq_of_lt first]
      rfl
    · have behind : place / 8 = (place - 8) / 8 + 1 := by omega
      have inByte : (place - 8) % 8 = place % 8 := by omega
      rw [if_neg first, ih, behind, List.getElem?_cons_succ, inByte]

theorem testBit_mask {width : ℕ} (fits : width ≤ 8) (place : ℕ) :
    (mask width).toUInt8.toNat.testBit place = decide (place < width) := by
  have small : 2 ^ width ≤ 2 ^ 8 := Nat.pow_le_pow_right (by decide) fits
  rw [UInt32.toNat_toUInt8, toNat_mask (fits.trans (by decide)), Nat.mod_eq_of_lt (by omega),
    Nat.testBit_two_pow_sub_one]

namespace Writer

/-- A piece replaces the bits in its window and no other bit of the byte. -/
theorem testBit_merge (byte : UInt8) {take shift : ℕ} (fits : take + shift ≤ 8) (taken : 0 < take)
    (chunk : UInt32) {place : ℕ} (inside : place < 8) :
    (merge byte take shift chunk).toNat.testBit place =
      if shift ≤ place ∧ place < shift + take then chunk.toNat.testBit (place - shift)
      else byte.toNat.testBit place := by
  have count : shift.toUInt8.toNat % 8 = shift := by
    rw [UInt8.toNat_ofNat', Nat.mod_mod_of_dvd _ (by decide), Nat.mod_eq_of_lt (by omega)]
  have window (place : ℕ) : (mask take).toUInt8.toNat.testBit place = decide (place < take) :=
    testBit_mask (by omega) place
  have bits (place : ℕ) : (chunk &&& mask take).toUInt8.toNat.testBit place =
      (decide (place < take) && chunk.toNat.testBit place) := by
    rw [UInt32.toUInt8_and, UInt8.toNat_and, Nat.testBit_and, window, UInt32.toNat_toUInt8,
      Nat.testBit_mod_two_pow]
    have inByte : place < take → place < 8 := by omega
    by_cases low : place < take <;> simp [low, inByte]
  rw [merge, UInt8.toNat_or, UInt8.toNat_and, UInt8.toNat_not, UInt8.toNat_shiftLeft,
    UInt8.toNat_shiftLeft, count, UInt8.size, Nat.sub_sub, Nat.add_comm 1, Nat.testBit_or,
    Nat.testBit_and, Nat.testBit_two_pow_sub_succ (n := 8) (Nat.mod_lt _ (by decide)),
    Nat.testBit_mod_two_pow, Nat.testBit_mod_two_pow, Nat.testBit_shiftLeft, Nat.testBit_shiftLeft,
    window, bits]
  by_cases low : shift ≤ place
  · by_cases high : place < shift + take
    · have within : place - shift < take := by omega
      simp [low, high, within, inside]
    · have beyond : ¬ place - shift < take := by omega
      simp [low, high, beyond, inside]
  · simp [low, inside]

def bits (writer : Writer) : List Bool := Bits.ofBytes writer.buffer.toList

theorem length_bits (writer : Writer) : writer.bits.length = 8 * writer.buffer.size := by
  rw [bits, length_ofBytes, Array.length_toList]

/-- What is left of a writer that was given a field: the field stands over the bits behind the
position as far as they reach, and the position is behind it or at the end. -/
structure Overwrites (writer : Writer) (field : List Bool) (outcome : Bool × Writer) : Prop where
  done : outcome.1 = decide (writer.position + field.length ≤ writer.bits.length)
  bits : outcome.2.bits = overwrite writer.bits writer.position field
  position : outcome.2.position = min (writer.position + field.length) writer.bits.length
  width : outcome.2.width = writer.width

namespace Overwrites

variable {writer next : Writer} {first second : List Bool} {outcome : Bool × Writer}

theorem nothing (within : writer.position ≤ writer.bits.length) :
    Overwrites writer [] (true, writer) where
  done := by simp [within]
  bits := (overwrite_nil ..).symm
  position := by simp [within]
  width := rfl

theorem append (front : Overwrites writer first (true, next))
    (back : Overwrites next second outcome) : Overwrites writer (first ++ second) outcome := by
  have fits : writer.position + first.length ≤ writer.bits.length := by simpa using front.done
  have kept : next.bits.length = writer.bits.length := by
    rw [front.bits, length_overwrite (by omega)]
  have position : next.position = writer.position + first.length :=
    front.position.trans (Nat.min_eq_left fits)
  refine ⟨?_, ?_, ?_, back.width.trans front.width⟩
  · rw [back.done, kept, position, List.length_append, Nat.add_assoc]
  · rw [back.bits, position, front.bits, overwrite_append fits]
  · rw [back.position, kept, position, List.length_append, Nat.add_assoc]

theorem cut (within : writer.position ≤ writer.bits.length)
    (front : Overwrites writer first (false, next)) :
    Overwrites writer (first ++ second) (false, next) := by
  have beyond : writer.bits.length < writer.position + first.length := by simpa using front.done
  refine ⟨?_, ?_, ?_, front.width⟩
  · rw [eq_comm, decide_eq_false_iff_not, List.length_append]
    omega
  · rw [front.bits, overwrite_cut within beyond.le]
  · rw [front.position, List.length_append]
    omega

end Overwrites

def piece (writer : Writer) (take : ℕ) (chunk : UInt32)
    (inside : writer.position / 8 < writer.buffer.size) : Writer :=
  { writer with
    buffer := writer.buffer.set (writer.position / 8)
      (merge writer.buffer[writer.position / 8] take (8 - writer.position % 8 - take) chunk)
    position := writer.position + take }

theorem piece_overwrites (writer : Writer) {take : ℕ} (chunk : UInt32)
    (inside : writer.position / 8 < writer.buffer.size) (taken : 0 < take)
    (fits : take ≤ 8 - writer.position % 8) :
    Overwrites writer (spell take chunk.toNat) (true, writer.piece take chunk inside) := by
  have size := writer.length_bits
  have room : writer.position + take ≤ writer.bits.length := by omega
  refine ⟨?_, ?_, ?_, rfl⟩
  · rw [length_spell, decide_eq_true room]
  · refine List.ext_getElem? fun place => ?_
    rw [getElem?_overwrite (by omega), length_spell, size, bits, bits, piece, Array.toList_set,
      getElem?_ofBytes, getElem?_ofBytes, List.getElem?_set, Array.length_toList]
    by_cases same : writer.position / 8 = place / 8
    · have here : writer.buffer.toList[place / 8]? =
          some writer.buffer[writer.position / 8] := by
        rw [← same, Array.getElem?_toList, Array.getElem?_eq_getElem inside]
      rw [if_pos same, if_pos (same ▸ inside), here, Option.map_some, Option.map_some,
        testBit_merge _ (by omega) taken _ (by omega)]
      by_cases window : writer.position ≤ place ∧ place < writer.position + take
      · rw [if_pos (by omega), if_pos (by omega), getElem?_spell (by omega)]
        congr 2
        omega
      · rw [if_neg (by omega), if_neg (by omega)]
    · rw [if_neg same, if_neg (by omega)]
  · rw [length_spell, Nat.min_eq_left room]
    rfl

/-- A field is written over the bits behind the position, one piece after the other. -/
theorem put_overwrites (value : UInt32) {remaining : ℕ} (small : remaining ≤ 32) (writer : Writer)
    (within : writer.position ≤ writer.bits.length) :
    Overwrites writer (spell remaining value.toNat) (put value remaining writer) := by
  fun_induction put value remaining writer with
  | case1 writer => exact .nothing within
  | case2 remaining writer open_ inside free take left byte ih =>
    have below := Nat.mod_lt writer.position (by decide : 0 < 8)
    have parts : remaining = take + left := by omega
    have chunk : (value >>> left.toUInt32).toNat = value.toNat >>> left := by
      rw [UInt32.toNat_shiftRight, UInt32.toNat_ofNat', Nat.mod_mod_of_dvd _ (by decide),
        Nat.mod_eq_of_lt (by omega)]
    have taken : 0 < take := by omega
    have front := writer.piece_overwrites (value >>> left.toUInt32) inside taken (by omega)
    have advanced : (writer.piece take (value >>> left.toUInt32) inside).position ≤
        (writer.piece take (value >>> left.toUInt32) inside).bits.length := by
      rw [front.bits, length_overwrite within, front.position]
      exact Nat.min_le_right ..
    rw [parts, spell_add, ← chunk]
    exact front.append (ih (by omega) advanced)
  | case3 remaining writer open_ outside =>
    have size := writer.length_bits
    have ended : writer.position = writer.bits.length := by omega
    refine ⟨?_, ?_, ?_, rfl⟩
    · rw [length_spell, eq_comm, decide_eq_false_iff_not]
      omega
    · rw [overwrite, ended, Nat.sub_self, List.take_zero, List.take_length, List.nil_append,
        List.drop_eq_nil_of_le (Nat.le_add_right ..), List.append_nil]
    · rw [ended, Nat.min_eq_right (Nat.le_add_right ..)]

theorem write_overwrites (writer : Writer) (value : UInt32)
    (within : writer.position ≤ writer.bits.length) :
    Overwrites writer (spell writer.width value.toNat) (writer.write value) := by
  have fits := ((isWidth_iff _).mp writer.isWidth_width).2
  have low : spell writer.width (value &&& mask writer.width).toNat =
      spell writer.width value.toNat := by
    rw [UInt32.toNat_and, toNat_mask fits, Nat.and_two_pow_sub_one_eq_mod, spell_mod le_rfl]
  have field := put_overwrites (value &&& mask writer.width) fits writer within
  rwa [low] at field

/-- At the end there is no space for any field. -/
theorem write_ended {writer : Writer} (ended : writer.position = writer.bits.length)
    (value : UInt32) : writer.write value = (false, writer) := by
  have field := ((isWidth_iff _).mp writer.isWidth_width).1
  rw [length_bits] at ended
  rw [write, put, dif_neg (by omega), dif_neg (by omega)]

theorem writeAll_ended {writer : Writer} (ended : writer.position = writer.bits.length)
    (values : List UInt32) : (writer.writeAll values).2 = writer := by
  cases values with
  | nil => rfl
  | cons value rest => rw [writeAll, write_ended ended]

namespace Overwrites

variable {writer : Writer} {field : List Bool} {outcome : Bool × Writer}

theorem length_bits (overwrites : Overwrites writer field outcome)
    (within : writer.position ≤ writer.bits.length) :
    outcome.2.bits.length = writer.bits.length := by
  rw [overwrites.bits, length_overwrite within]

theorem within (overwrites : Overwrites writer field outcome)
    (within : writer.position ≤ writer.bits.length) :
    outcome.2.position ≤ outcome.2.bits.length := by
  rw [overwrites.length_bits within, overwrites.position]
  exact Nat.min_le_right ..

end Overwrites

/-- Values go over the bits as one field that is made of all their fields. -/
theorem writeAll_overwrites (values : List UInt32) (writer : Writer)
    (within : writer.position ≤ writer.bits.length) :
    Overwrites writer (values.flatMap fun value => spell writer.width value.toNat)
      (writer.writeAll values) := by
  induction values generalizing writer with
  | nil => exact .nothing within
  | cons value rest ih =>
    have front := write_overwrites writer value within
    rw [List.flatMap_cons, writeAll]
    generalize writer.write value = outcome at front
    obtain ⟨done, next⟩ := outcome
    cases done with
    | false => exact front.cut within
    | true =>
      have back := ih next (front.within within)
      rw [front.width] at back
      exact front.append back

theorem write_fits {writer : Writer} {width : ℕ} (value : UInt32)
    (within : writer.position ≤ writer.bits.length) (sameWidth : writer.width = width)
    (fits : writer.position + width ≤ writer.bits.length) :
    (writer.write value).1 = true ∧ (writer.write value).2.position = writer.position + width ∧
      (writer.write value).2.bits = writer.bits.take writer.position ++
        (spell width value.toNat ++ writer.bits.drop (writer.position + width)) := by
  obtain ⟨done, bits, position, -⟩ := write_overwrites writer value within
  have all : width ≤ writer.bits.length - writer.position := by omega
  rw [length_spell, sameWidth] at done position
  rw [sameWidth, overwrite, length_spell,
    List.take_of_length_le ((length_spell ..).trans_le all)] at bits
  exact ⟨done.trans (decide_eq_true fits), position.trans (Nat.min_eq_left fits), bits⟩

theorem write_short {writer : Writer} {width : ℕ} (value : UInt32)
    (within : writer.position ≤ writer.bits.length) (sameWidth : writer.width = width)
    (short : writer.bits.length < writer.position + width) :
    (writer.write value).1 = false ∧ (writer.write value).2.position = writer.bits.length ∧
      (writer.write value).2.bits = writer.bits.take writer.position ++
        (spell width value.toNat).take (writer.bits.length - writer.position) := by
  obtain ⟨done, bits, position, -⟩ := write_overwrites writer value within
  rw [length_spell, sameWidth] at done position
  rw [sameWidth, overwrite, length_spell, List.drop_eq_nil_of_le short.le, List.append_nil] at bits
  exact ⟨done.trans (decide_eq_false (Nat.not_le.mpr short)),
    position.trans (Nat.min_eq_right short.le), bits⟩

def room (writer : Writer) : ℕ := (writer.bits.length - writer.position) / writer.width

inductive Call where
  | write (value : UInt32)
  | writeAll (values : List UInt32)

def call (writer : Writer) : Call → Bool × Writer
  | .write value => writer.write value
  | .writeAll values => writer.writeAll values

def behind (writer : Writer) (calls : List Call) : Writer :=
  calls.foldl (fun writer call => (writer.call call).2) writer

theorem call_overwrites (writer : Writer) (call : Call)
    (within : writer.position ≤ writer.bits.length) :
    ∃ field, Overwrites writer field (writer.call call) := by
  cases call with
  | write value => exact ⟨_, write_overwrites writer value within⟩
  | writeAll values => exact ⟨_, writeAll_overwrites values writer within⟩

theorem behind_overwrites (calls : List Call) (writer : Writer)
    (within : writer.position ≤ writer.bits.length) :
    (writer.behind calls).position ≤ (writer.behind calls).bits.length ∧
      (writer.behind calls).bits.length = writer.bits.length ∧
      (writer.behind calls).width = writer.width := by
  induction calls generalizing writer with
  | nil => exact ⟨within, rfl, rfl⟩
  | cons call calls ih =>
    obtain ⟨field, step⟩ := call_overwrites writer call within
    obtain ⟨inside, length, width⟩ := ih (writer.call call).2 (step.within within)
    exact ⟨inside, length.trans (step.length_bits within), width.trans step.width⟩

theorem behind_ended (calls : List Call) {writer : Writer}
    (ended : writer.position = writer.bits.length) : writer.behind calls = writer := by
  induction calls with
  | nil => rfl
  | cons call calls ih =>
    have same : (writer.call call).2 = writer := by
      cases call with
      | write value => rw [Writer.call, write_ended ended]
      | writeAll values => exact writeAll_ended ended values
    rw [behind, List.foldl_cons, same]
    exact ih

/-- Values are written one by one, as many as there is space for and the first that fails. -/
theorem writeAll_eq (values : List UInt32) (writer : Writer)
    (within : writer.position ≤ writer.bits.length) :
    writer.writeAll values =
      (decide (values.length ≤ writer.room),
        writer.behind ((values.take (writer.room + 1)).map .write)) := by
  induction values generalizing writer with
  | nil => simp [writeAll, behind]
  | cons value rest ih =>
    have positive := ((isWidth_iff _).mp writer.isWidth_width).1
    have step := write_overwrites writer value within
    have next : (writer.call (.write value)).2 = (writer.write value).2 := rfl
    rw [writeAll, List.take_succ_cons, List.map_cons, behind, List.foldl_cons, next]
    have done := step.done
    rw [length_spell] at done
    by_cases fits : writer.position + writer.width ≤ writer.bits.length
    · have later : writer.room = (writer.write value).2.room + 1 := by
        have position := step.position
        rw [length_spell, Nat.min_eq_left fits] at position
        rw [room, room, step.length_bits within, position, step.width, ← Nat.sub_sub,
          Nat.div_eq_sub_div positive (by omega)]
      have others := ih (writer.write value).2 (step.within within)
      rw [decide_eq_true fits] at done
      rw [later]
      generalize writer.write value = outcome at done others
      obtain ⟨_, after⟩ := outcome
      obtain rfl := done
      dsimp only
      rw [others, List.length_cons]
      simp only [Nat.add_le_add_iff_right]
      rfl
    · have none : writer.room = 0 := Nat.div_eq_of_lt (by omega)
      rw [decide_eq_false fits] at done
      rw [none]
      generalize writer.write value = outcome at done
      obtain ⟨_, after⟩ := outcome
      obtain rfl := done
      simp

/-- Whatever calls a writer has behind it, a field that has space goes over the next bits and
leaves all others as they are. Where there is no space for it, no bit in front of the position
changes, and the writer is at its end for good. Many values are written one by one, up to the first
for which there is no space. -/
theorem writes_own_bits (buffer : Array UInt8) {width : ℕ} (field : 1 ≤ width ∧ width ≤ 32) :
    ∃ start, new? buffer width = some start ∧ start.bits = Bits.ofBytes buffer.toList ∧
      start.position = 0 ∧ ∀ calls,
        let writer := start.behind calls
        writer.bits.length = 8 * buffer.size ∧ writer.position ≤ 8 * buffer.size ∧
        (∀ value, writer.position + width ≤ 8 * buffer.size →
          let outcome := writer.write value
          outcome.1 = true ∧ outcome.2.position = writer.position + width ∧
          outcome.2.bits = writer.bits.take writer.position ++
            (spell width (value.toNat % 2 ^ width) ++
              writer.bits.drop (writer.position + width))) ∧
        (∀ value, 8 * buffer.size < writer.position + width →
          let outcome := writer.write value
          outcome.1 = false ∧ outcome.2.position = 8 * buffer.size ∧
          outcome.2.bits = writer.bits.take writer.position ++
            (spell width value.toNat).take (8 * buffer.size - writer.position) ∧
          ∀ later, outcome.2.behind later = outcome.2 ∧
            ∀ value, outcome.2.write value = (false, outcome.2)) ∧
        ∀ values, writer.writeAll values =
          (decide (values.length ≤ (8 * buffer.size - writer.position) / width),
            writer.behind ((values.take
              ((8 * buffer.size - writer.position) / width + 1)).map .write)) := by
  have valid := (isWidth_iff width).mpr field
  refine ⟨⟨buffer, 0, width, valid⟩, dif_pos valid, rfl, rfl, fun calls => ?_⟩
  obtain ⟨within, length, sameWidth⟩ :=
    behind_overwrites calls ⟨buffer, 0, width, valid⟩ (Nat.zero_le _)
  have size := length.trans (Writer.length_bits _)
  generalize behind ⟨buffer, 0, width, valid⟩ calls = writer at within size sameWidth
  dsimp only at sameWidth size ⊢
  refine ⟨size, size ▸ within, fun value fits => ?_, fun value short => ?_, fun values => ?_⟩
  · rw [spell_mod le_rfl]
    exact write_fits value within sameWidth (size ▸ fits)
  · obtain ⟨done, ended, bits⟩ := write_short value within sameWidth (size ▸ short)
    have stays : (writer.write value).2.position = (writer.write value).2.bits.length := by
      rw [ended, (write_overwrites writer value within).length_bits within]
    rw [size] at ended bits
    exact ⟨done, ended, bits, fun later => ⟨behind_ended later stays, write_ended stays⟩⟩
  · have all := writeAll_eq values writer within
    rwa [room, sameWidth, size] at all

/-- The second field has space for four of its bits. -/
theorem cutField_writes_own_bits :
    (1 ≤ 12 ∧ 12 ≤ 32) ∧ ∃ start, new? #[0x00, 0xFF] 12 = some start ∧
      let outcome := (start.behind [.write 0xFABC]).write 0xDEF
      outcome.1 = false ∧ outcome.2.bits = spell 16 0xABCD ∧
        ∀ later, outcome.2.behind later = outcome.2 := by
  have field : 1 ≤ 12 ∧ 12 ≤ 32 := by decide
  obtain ⟨start, created, bits, position, calls⟩ := writes_own_bits #[0x00, 0xFF] field
  have room : start.position + 12 ≤ 16 := position.symm ▸ by decide
  obtain ⟨-, behind, first⟩ := (calls []).2.2.1 0xFABC room
  change (start.behind [.write 0xFABC]).position = start.position + 12 at behind
  change (start.behind [.write 0xFABC]).bits = start.bits.take start.position ++
    (spell 12 (0xFABC % 2 ^ 12) ++ start.bits.drop (start.position + 12)) at first
  rw [position] at behind first
  have cut : 16 < (start.behind [.write 0xFABC]).position + 12 := behind.symm ▸ by decide
  obtain ⟨done, -, second, stays⟩ := (calls [.write 0xFABC]).2.2.2.1 0xDEF cut
  refine ⟨field, start, created, done, ?_, fun later => (stays later).1⟩
  rw [second, first, behind, bits]
  decide +kernel

end Writer

end PdfPrimitives.Bits
