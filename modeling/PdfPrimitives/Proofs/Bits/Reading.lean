import PdfPrimitives.Proofs.Bits.BitString
import PdfPrimitives.Samples

/-!
Reading of bit fields from the bit string that bytes hold. A read takes the first bits away
and gives the number that they spell, whatever the reader already holds in its word.
-/

namespace PdfPrimitives

namespace Bits

theorem toNat_mask {width : ℕ} (fits : width ≤ 32) : (mask width).toNat = 2 ^ width - 1 := by
  have small : 2 ^ width ≤ 2 ^ 32 := Nat.pow_le_pow_right (by decide) fits
  rw [mask, UInt32.toNat_ofNat', Nat.pow_eq, Nat.mod_eq_of_lt (by omega)]

theorem isWidth_iff (width : ℕ) : isWidth width ↔ 1 ≤ width ∧ width ≤ 32 := by
  simp [isWidth]

namespace Reader

def bits (reader : Reader) : List Bool :=
  spell reader.held reader.word.toNat ++ Bits.ofBytes reader.rest

/-- The word holds no bits but those that are left, and there is space for one more byte. -/
structure Valid (reader : Reader) : Prop where
  word_lt : reader.word.toNat < 2 ^ reader.held
  held_lt : reader.held < 40

theorem valid_ofBytes (bytes : List UInt8) : (ofBytes bytes).Valid :=
  ⟨Nat.one_pos, Nat.succ_pos 39⟩

theorem bits_ofBytes (bytes : List UInt8) : (ofBytes bytes).bits = Bits.ofBytes bytes :=
  List.nil_append _

/-- A byte that is shifted in stands behind the bits of the word. -/
theorem shift_byte {word : UInt64} {held : ℕ} (byte : UInt8) (low : word.toNat < 2 ^ held)
    (space : held < 32) :
    (word <<< 8 ||| byte.toUInt64).toNat = word.toNat * 256 + byte.toNat := by
  have small : 2 ^ held ≤ 2 ^ 31 := Nat.pow_le_pow_right (by decide) (by omega)
  have joined := Nat.shiftLeft_add_eq_or_of_lt (i := 8) byte.toNat_lt word.toNat
  rw [Nat.shiftLeft_eq] at joined
  rw [UInt64.toNat_or, UInt64.toNat_shiftLeft, UInt8.toNat_toUInt64]
  change word.toNat <<< 8 % 2 ^ 64 ||| byte.toNat = _
  rw [Nat.shiftLeft_eq, Nat.mod_eq_of_lt (by omega), ← joined]

def shift (byte : UInt8) (rest : List UInt8) (reader : Reader) : Reader :=
  ⟨rest, reader.taken + 1, reader.word <<< 8 ||| byte.toUInt64, reader.held + 8⟩

theorem shift_bits {reader : Reader} {byte : UInt8} {rest : List UInt8} (valid : reader.Valid)
    (front : reader.rest = byte :: rest) (space : reader.held < 32) :
    (reader.shift byte rest).bits = reader.bits := by
  have below := byte.toNat_lt
  have top : (reader.word.toNat * 256 + byte.toNat) >>> 8 = reader.word.toNat := by
    rw [Nat.shiftRight_eq_div_pow]
    omega
  have bottom : spell 8 (reader.word.toNat * 256 + byte.toNat) = spell 8 byte.toNat := by
    rw [← spell_mod (Nat.le_refl 8), ← spell_mod (Nat.le_refl 8) byte.toNat]
    congr 1
    omega
  rw [bits, bits, front, Bits.ofBytes_cons, ← List.append_assoc, shift,
    shift_byte byte valid.word_lt space, spell_add, top, bottom]

theorem Valid.shift {reader : Reader} (valid : reader.Valid) (byte : UInt8) (rest : List UInt8)
    (space : reader.held < 32) : (reader.shift byte rest).Valid where
  word_lt := by
    have below := byte.toNat_lt
    have low := valid.word_lt
    have power : 2 ^ (reader.held + 8) = 2 ^ reader.held * 256 := Nat.pow_add 2 reader.held 8
    rw [Reader.shift, shift_byte byte low space, power]
    omega
  held_lt := Nat.add_lt_add_right space 8

theorem fill_result {width : ℕ} (fits : width ≤ 32) (rest : List UInt8) (taken : ℕ)
    (word : UInt64) (held : ℕ) (valid : Valid ⟨rest, taken, word, held⟩) :
    (fill width rest taken word held).Valid ∧
      (fill width rest taken word held).bits = bits ⟨rest, taken, word, held⟩ ∧
      (width ≤ (fill width rest taken word held).held ∨
        (fill width rest taken word held).rest = []) := by
  induction rest generalizing taken word held with
  | nil => exact ⟨valid, rfl, .inr rfl⟩
  | cons byte rest ih =>
    rw [fill]
    split
    · next short =>
      have space : held < 32 := Nat.lt_of_lt_of_le short fits
      obtain ⟨filled, kept, enough⟩ := ih _ _ _ (valid.shift byte rest space)
      exact ⟨filled, kept.trans (shift_bits valid rfl space), enough⟩
    · next long => exact ⟨valid, rfl, .inl (Nat.le_of_not_lt long)⟩

inductive Yields (reader : Reader) (width : ℕ) : Option UInt32 × Reader → Prop
  | field {number : UInt32} {next : Reader} (enough : width ≤ reader.bits.length)
      (spelled : number.toNat = value (reader.bits.take width))
      (behind : next.bits = reader.bits.drop width) (valid : next.Valid) :
      Yields reader width (some number, next)
  | nothing {next : Reader} (short : reader.bits.length < width)
      (kept : next.bits = reader.bits) (valid : next.Valid) : Yields reader width (none, next)

theorem length_bits (reader : Reader) :
    reader.bits.length = reader.held + 8 * reader.rest.length := by
  rw [bits, List.length_append, length_spell, length_ofBytes]

/-- The word above and below the lowest `held` bits. -/
theorem take_from_word (word : UInt64) {held width : ℕ} (space : held < 40) (fits : width ≤ 32) :
    ((word >>> held.toUInt64).toUInt32 &&& mask width).toNat =
        word.toNat >>> held % 2 ^ width ∧
      (word &&& ((1 <<< held.toUInt64) - 1)).toNat = word.toNat % 2 ^ held := by
  have count : held.toUInt64.toNat % 64 = held := by
    rw [UInt64.toNat_ofNat', Nat.mod_mod_of_dvd _ (by decide), Nat.mod_eq_of_lt (by omega)]
  constructor
  · rw [UInt32.toNat_and, toNat_mask fits, Nat.and_two_pow_sub_one_eq_mod, UInt64.toNat_toUInt32,
      UInt64.toNat_shiftRight, count]
    exact Nat.mod_mod_of_dvd _ (Nat.pow_dvd_pow 2 fits)
  · have bound : 2 ^ held < 2 ^ 64 := Nat.pow_lt_pow_right (by decide) (by omega)
    have one : ((1 : UInt64) <<< held.toUInt64).toNat = 2 ^ held := by
      rw [UInt64.toNat_shiftLeft, count, UInt64.toNat_one, Nat.one_shiftLeft,
        Nat.mod_eq_of_lt bound]
    rw [UInt64.toNat_and, UInt64.toNat_sub_of_le, one, UInt64.toNat_one,
      Nat.and_two_pow_sub_one_eq_mod]
    rw [UInt64.le_iff_toNat_le, one]
    exact Nat.one_le_two_pow

theorem read_yields {reader : Reader} {width : ℕ} (valid : reader.Valid) (field : isWidth width) :
    reader.Yields width (reader.read width) := by
  have fits := ((isWidth_iff width).mp field).2
  obtain ⟨filled, kept, enough⟩ :=
    fill_result fits reader.rest reader.taken reader.word reader.held valid
  rw [read, if_pos field]
  generalize fill width reader.rest reader.taken reader.word reader.held = full
    at filled kept enough
  change full.bits = reader.bits at kept
  dsimp only
  split
  · next short =>
    have empty := enough.resolve_left (Nat.not_le.mpr short)
    refine .nothing ?_ kept filled
    rw [← kept, length_bits, empty]
    exact short
  · next long =>
    obtain ⟨low, sum⟩ := Nat.exists_eq_add_of_le (Nat.le_of_not_lt long)
    have space : low < 40 := by
      have := filled.held_lt
      omega
    obtain ⟨number, rest⟩ := take_from_word full.word space fits
    have split : reader.bits = spell width (full.word.toNat >>> low) ++
        (spell low full.word.toNat ++ Bits.ofBytes full.rest) := by
      rw [← kept, bits, sum, spell_add, List.append_assoc]
    have count := length_spell width (full.word.toNat >>> low)
    rw [sum, Nat.add_sub_cancel_left]
    refine .field ?_ ?_ ?_ ⟨?_, space⟩
    · rw [split, List.length_append, count]
      exact Nat.le_add_right ..
    · rw [number, split, List.take_left' count, value_spell]
    · rw [split, List.drop_left' count, bits, rest, spell_mod (Nat.le_refl low)]
    · rw [rest]
      exact Nat.mod_lt _ (Nat.two_pow_pos low)

/-- The numbers that are read are the fields from the front of the bits, which hold them all. -/
theorem readMany_fields {width count : ℕ} {reader : Reader} {fields result : Array UInt32}
    (valid : reader.Valid) (field : isWidth width)
    (read : readMany width count reader fields = some result) :
    count * width ≤ reader.bits.length ∧
      result.toList.map UInt32.toNat = fields.toList.map UInt32.toNat ++
        (List.range count).map (Bits.field reader.bits width) := by
  induction count generalizing reader fields with
  | zero =>
    obtain rfl := Option.some.inj read
    rw [Nat.zero_mul]
    exact ⟨Nat.zero_le _, (List.append_nil _).symm⟩
  | succ count ih =>
    have yields := read_yields valid field
    rw [readMany] at read
    generalize reader.read width = outcome at read yields
    cases yields with
    | nothing short kept valid => cases read
    | @field number next enough spelled behind valid =>
      obtain ⟨room, numbers⟩ := ih valid read
      constructor
      · rw [behind, List.length_drop] at room
        rw [Nat.succ_mul]
        omega
      · have first : number.toNat = Bits.field reader.bits width 0 := by
          rw [spelled, Bits.field, Nat.zero_mul, List.drop_zero]
        have others : Bits.field next.bits width = Bits.field reader.bits width ∘ Nat.succ :=
          funext fun number => by rw [behind, field_drop]; rfl
        rw [numbers, others, List.range_succ_eq_map, List.map_cons, List.map_map, ← first,
          Array.toList_push, List.map_append, List.append_assoc]
        rfl

end Reader

end Bits

/-- Unpacked samples are the fields that lie in the data, without space between them. -/
theorem Samples.unpack_fields {data : List UInt8} {width points channels : ℕ}
    {samples : Array UInt32} (unpacked : unpack data width points channels = .ok samples) :
    points * channels * width ≤ (Bits.ofBytes data).length ∧
      samples.toList.map UInt32.toNat =
        (List.range (points * channels)).map (Bits.field (Bits.ofBytes data) width) := by
  simp only [unpack] at unpacked
  split at unpacked
  · cases unpacked
  · next field =>
    split at unpacked
    · cases unpacked
    · split at unpacked
      · split at unpacked
        · next found =>
          obtain rfl := Except.ok.inj unpacked
          have fields := Bits.Reader.readMany_fields (Bits.Reader.valid_ofBytes data)
            (by simpa using field) found
          rwa [Bits.Reader.bits_ofBytes] at fields
        · cases unpacked
      · cases unpacked

end PdfPrimitives
