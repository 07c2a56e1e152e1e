import PdfPrimitives.Proofs.Bits.Reading

/-!
A reader of bit fields against the bits alone. All that its calls show is given by a position
among the bits of the data: the word, the bits in it and the bytes that a call without an answer
has already shifted in cannot be told from outside.
-/

namespace PdfPrimitives.Bits

/-- The next `width` bits behind a position, as a number, and the position behind them. Where they
are not all there the position stays. -/
def readAt (bits : List Bool) (position width : ℕ) : Option ℕ × ℕ :=
  if 1 ≤ width ∧ width ≤ 32 ∧ position + width ≤ bits.length then
    (some (value ((bits.drop position).take width)), position + width)
  else (none, position)

structure Showing where
  number : Option ℕ
  bitsRead : ℕ
  atEnd : Bool
  deriving Repr, DecidableEq

def showingsAt (bits : List Bool) (position : ℕ) : List ℕ → List Showing
  | [] => []
  | width :: widths =>
    let (number, next) := readAt bits position width
    ⟨number, next, next == bits.length⟩ :: showingsAt bits next widths

theorem readAt_none {bits : List Bool} {position width : ℕ}
    (nothing : (readAt bits position width).1 = none) :
    (readAt bits position width).2 = position := by
  rw [readAt] at nothing ⊢
  split at nothing
  · cases nothing
  · next open_ => rw [if_neg open_]

namespace Reader

def showings (reader : Reader) : List ℕ → List Showing
  | [] => []
  | width :: widths =>
    let (number, next) := reader.read width
    ⟨number.map UInt32.toNat, next.bitsRead, next.atEnd⟩ :: next.showings widths

/-- The states of a reader of the data: behind calls of any widths and, within a call, behind
each byte that it shifts in. -/
inductive Reached (data : List UInt8) : Reader → Prop
  | start : Reached data (ofBytes data)
  | byte {reader : Reader} {width : ℕ} {byte : UInt8} {rest : List UInt8}
      (before : Reached data reader) (field : isWidth width) (short : reader.held < width)
      (front : reader.rest = byte :: rest) : Reached data (reader.shift byte rest)
  | call {reader : Reader} (before : Reached data reader) (width : ℕ) :
      Reached data (reader.read width).2

/-- The reader is on its way through the data: what is left are the last bits of the data, and
each of its bytes was taken or is still there. -/
structure Through (data : List UInt8) (reader : Reader) : Prop where
  valid : reader.Valid
  suffix : reader.bits <:+ Bits.ofBytes data
  bytes : reader.taken + reader.rest.length = data.length

theorem through_ofBytes (data : List UInt8) : Through data (ofBytes data) where
  valid := valid_ofBytes data
  suffix := (bits_ofBytes data).symm ▸ List.suffix_refl _
  bytes := Nat.zero_add _

theorem fill_bytes (width : ℕ) (rest : List UInt8) (taken : ℕ) (word : UInt64) (held : ℕ) :
    (fill width rest taken word held).taken + (fill width rest taken word held).rest.length =
      taken + rest.length := by
  fun_induction fill width rest taken word held with
  | case1 taken word held => rfl
  | case2 byte rest taken word held short ih => rw [ih, List.length_cons, Nat.succ_add_eq_add_succ]
  | case3 byte rest taken word held long => rfl

theorem read_bytes (reader : Reader) (width : ℕ) :
    (reader.read width).2.taken + (reader.read width).2.rest.length =
      reader.taken + reader.rest.length := by
  have filled := fill_bytes width reader.rest reader.taken reader.word reader.held
  rw [read]
  split
  · dsimp only
    split
    · exact filled
    · exact filled
  · rfl

namespace Through

variable {data : List UInt8} {reader : Reader}

theorem shift {width : ℕ} {byte : UInt8} {rest : List UInt8} (through : Through data reader)
    (field : isWidth width) (short : reader.held < width) (front : reader.rest = byte :: rest) :
    Through data (reader.shift byte rest) := by
  have space : reader.held < 32 := short.trans_le ((isWidth_iff width).mp field).2
  have kept := shift_bits through.valid front space
  have bytes := through.bytes
  rw [front, List.length_cons, ← Nat.succ_add_eq_add_succ] at bytes
  exact ⟨through.valid.shift byte rest space, kept ▸ through.suffix, bytes⟩

theorem read (through : Through data reader) (width : ℕ) : Through data (reader.read width).2 := by
  by_cases field : isWidth width
  · have bytes := (read_bytes reader width).trans through.bytes
    have yields := read_yields through.valid field
    generalize reader.read width = outcome at bytes yields
    cases yields with
    | field enough spelled behind valid =>
      have dropped := behind ▸ (List.drop_suffix width reader.bits)
      exact ⟨valid, dropped.trans through.suffix, bytes⟩
    | nothing short kept valid => exact ⟨valid, kept ▸ through.suffix, bytes⟩
  · rw [Reader.read, if_neg field]
    exact through

/-- No bit is counted as read before its byte is taken. -/
theorem held_le (through : Through data reader) : reader.held ≤ reader.taken * 8 := by
  have bound := through.suffix.length_le
  have bytes := through.bytes
  rw [length_bits, length_ofBytes] at bound
  omega

/-- The bits that were read and those that are left are the bits of the data. -/
theorem bitsRead_add (through : Through data reader) :
    reader.bitsRead + reader.bits.length = (Bits.ofBytes data).length := by
  have bytes := through.bytes
  have held := through.held_le
  rw [length_bits, length_ofBytes, bitsRead]
  omega

theorem bits_eq (through : Through data reader) :
    reader.bits = (Bits.ofBytes data).drop reader.bitsRead := by
  have behind := List.suffix_iff_eq_drop.mp through.suffix
  rwa [← through.bitsRead_add, Nat.add_sub_cancel] at behind

theorem atEnd_eq (through : Through data reader) :
    reader.atEnd = (reader.bitsRead == (Bits.ofBytes data).length) := by
  have left : reader.atEnd = true ↔ reader.bits.length = 0 := by
    rw [atEnd, Bool.and_eq_true, beq_iff_eq, List.isEmpty_iff_length_eq_zero, length_bits]
    omega
  rw [Bool.eq_iff_iff, left, beq_iff_eq, ← through.bitsRead_add]
  omega

/-- A call gives the number that a position gives, and moves on as it does. -/
theorem read_eq (through : Through data reader) (width : ℕ) :
    ((reader.read width).1.map UInt32.toNat, (reader.read width).2.bitsRead) =
      readAt (Bits.ofBytes data) reader.bitsRead width := by
  have count := through.bitsRead_add
  have behind := (through.read width).bitsRead_add
  by_cases field : isWidth width
  · obtain ⟨positive, fits⟩ := (isWidth_iff width).mp field
    have yields := read_yields through.valid field
    generalize reader.read width = outcome at behind yields
    cases yields with
    | field enough spelled dropped valid =>
      rw [dropped, List.length_drop] at behind
      rw [readAt, if_pos ⟨positive, fits, by omega⟩, ← through.bits_eq, ← spelled]
      exact Prod.ext rfl (by dsimp only at behind ⊢; omega)
    | nothing short kept valid =>
      rw [kept] at behind
      rw [readAt, if_neg (by omega)]
      exact Prod.ext rfl (by dsimp only at behind ⊢; omega)
  · rw [Reader.read, if_neg field, readAt, if_neg]
    · rfl
    · exact fun all => field ((isWidth_iff width).mpr ⟨all.1, all.2.1⟩)

theorem showings_eq (through : Through data reader) (widths : List ℕ) :
    reader.showings widths = showingsAt (Bits.ofBytes data) reader.bitsRead widths := by
  induction widths generalizing reader with
  | nil => rfl
  | cons width widths ih =>
    have next := through.read width
    rw [showings, showingsAt, ← through.read_eq width]
    dsimp only
    rw [ih next, next.atEnd_eq]

/-- The word is the number that the bits spell which were taken and not read. -/
theorem word_eq (through : Through data reader) :
    reader.word.toNat =
      value (((Bits.ofBytes data).drop reader.bitsRead).take reader.held) := by
  rw [← through.bits_eq, bits, List.take_left' (length_spell ..), value_spell,
    Nat.mod_eq_of_lt through.valid.word_lt]

end Through

/-- A call shifts bytes in by passing through such states. -/
theorem Reached.fill {data : List UInt8} {width : ℕ} (field : isWidth width) (rest : List UInt8)
    (taken : ℕ) (word : UInt64) (held : ℕ) (before : Reached data ⟨rest, taken, word, held⟩) :
    Reached data (Reader.fill width rest taken word held) := by
  fun_induction Reader.fill width rest taken word held with
  | case1 taken word held => exact before
  | case2 byte rest taken word held short ih => exact ih (.byte before field short rfl)
  | case3 byte rest taken word held long => exact before

theorem Reached.through {data : List UInt8} {reader : Reader} (reached : Reached data reader) :
    Through data reader := by
  induction reached with
  | start => exact through_ofBytes data
  | byte before field short front ih => exact ih.shift field short front
  | call before width ih => exact ih.read width

/-- A reader refines a position among the bits of the data: any calls show the same of both. A call
without an answer leaves no trace, neither at once nor in later calls. The end is reached exactly
when all bits are read, and the word is at all times, also while bytes are shifted in, the whole
number that the bits in it spell, of which there are never more than it has space for. -/
theorem refines_position (data : List UInt8) :
    (∀ widths, (ofBytes data).showings widths = showingsAt (Bits.ofBytes data) 0 widths) ∧
      ∀ reader, Reached data reader →
        (reader.atEnd ↔ reader.bitsRead = 8 * data.length) ∧
        reader.bitsRead + reader.held = 8 * reader.taken ∧
        reader.held < 40 ∧
        reader.word.toNat =
          value (((Bits.ofBytes data).drop reader.bitsRead).take reader.held) ∧
        ∀ width, (reader.read width).1 = none →
          (reader.read width).2.bitsRead = reader.bitsRead ∧
          (reader.read width).2.atEnd = reader.atEnd ∧
          ∀ later, (reader.read width).2.showings later = reader.showings later := by
  refine ⟨(through_ofBytes data).showings_eq, fun reader reached => ?_⟩
  have through := reached.through
  refine ⟨?_, ?_, through.valid.held_lt, through.word_eq, fun width nothing => ?_⟩
  · rw [through.atEnd_eq, beq_iff_eq, length_ofBytes]
  · rw [bitsRead, Nat.sub_add_cancel through.held_le, Nat.mul_comm]
  · have next := through.read width
    have position : (reader.read width).2.bitsRead = reader.bitsRead := by
      have same := through.read_eq width
      rw [nothing] at same
      exact (congrArg Prod.snd same).trans (readAt_none (congrArg Prod.fst same).symm)
    refine ⟨position, ?_, fun later => ?_⟩
    · rw [next.atEnd_eq, through.atEnd_eq, position]
    · rw [next.showings_eq, through.showings_eq, position]

-- The second call shifts in the last byte before it finds that there are too few bits.
example : (ofBytes [0x9F, 0x21]).showings [4, 14, 40, 12, 1] =
    [⟨some 0x9, 4, false⟩, ⟨none, 4, false⟩, ⟨none, 4, false⟩, ⟨some 0xF21, 16, true⟩,
      ⟨none, 16, true⟩] := by
  decide

end Reader

end PdfPrimitives.Bits
