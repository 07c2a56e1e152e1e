import PdfPrimitives.Proofs.Token.Words

/-!
Strings. The reader learns only at the end of a string where it ends, and decodes it as it
goes; the grammar finds the end first.
-/

namespace PdfPrimitives.Reader

variable {flags : ReadFlags}
variable (offset begun last : Nat)

theorem shiftLeft_or_octal (value digit : UInt8) (small : digit < 8) :
    (value <<< 3) ||| digit = 8 * value + digit := by
  apply UInt8.toNat.inj
  rw [toNat_shiftLeft_or value digit 3 (by decide) (UInt8.lt_iff_toNat_lt.mp small)]
  simp

theorem octalDigit_lt (byte : UInt8) (octal : Mode.isOctalDigit byte = true) :
    byte - 0x30 < 8 := by
  unfold Mode.isOctalDigit at octal
  grind

theorem hexValue_blank (byte : UInt8) (blank : Byte.isBlank byte = true) :
    Byte.hexValue? byte = none := by
  simp only [Byte.isBlank, Bool.or_eq_true, beq_iff_eq] at blank
  obtain ((((rfl | rfl) | rfl) | rfl) | rfl) | rfl := blank <;> decide

def hexed (found : Array UInt8) (high : Option UInt8) (bytes : List UInt8) : List UInt8 :=
  found.toList ++ Lexical.pairs (high.toList ++
    (bytes.takeWhile Lexical.isHexText).filterMap Byte.hexValue?)

theorem step_hex (found : Array UInt8) (started : Bool) (high : Option UInt8) (byte : UInt8)
    (string : started = false → byte ≠ Byte.less) :
    Mode.step flags (.hex found started high) byte =
      if Byte.isBlank byte then .take (.hex found true high)
      else if byte = Byte.greater then .complete (.string (hexed found high []))
      else
        match Byte.hexValue? byte, high with
        | none, high => .refuse (.invalidCharacter byte) (.hex found started high)
        | some digit, some high => .take (.hex (found.push (16 * high + digit)) true none)
        | some digit, none => .take (.hex found true (some digit)) := by
  have noStart : (!started && byte = Byte.less) = false := by
    cases started <;> simp_all
  simp only [Mode.step, Mode.hexStep, noStart, Bool.false_eq_true, ↓reduceIte]
  cases high with
  | none => cases Byte.hexValue? byte <;> simp [hexed, Lexical.pairs]
  | some high =>
    have last : high <<< 4 = 16 * high := by
      simpa using shiftLeft_or_nibble high 0 (by decide)
    cases digit : Byte.hexValue? byte with
    | none => simp [hexed, Lexical.pairs, last]
    | some low =>
      have both := shiftLeft_or_nibble high low (hexValue_lt byte low digit)
      rw [last] at both
      simp [hexed, Lexical.pairs, last, both]

theorem read_hex (bytes : List UInt8) (found : Array UInt8) (started : Bool)
    (high : Option UInt8) (string : started = false → bytes.head? ≠ some Byte.less) :
    Agrees begun
      (Lexical.hexEnd (hexed found high bytes) (bytes.dropWhile Lexical.isHexText))
      (read flags ⟨.holding bytes offset, .hex found started high, begun, last⟩) := by
  induction bytes generalizing found started high offset with
  | nil =>
    rw [read_nil _ _ _ _ _ rfl]
    rfl
  | cons byte bytes ih =>
    have stepped : Mode.step flags (.hex found started high) byte = _ :=
      step_hex found started high byte (by simpa using string)
    by_cases blank : Byte.isBlank byte = true
    · rw [if_pos blank] at stepped
      rw [read_take _ _ _ _ rfl stepped]
      have tail := ih (offset + 1) found true high (by simp)
      simpa [hexed, List.takeWhile_cons, List.dropWhile_cons, Lexical.isHexText, blank,
        hexValue_blank byte blank] using tail
    rw [if_neg blank] at stepped
    by_cases greater : byte = Byte.greater
    · subst greater
      rw [if_pos rfl] at stepped
      rw [read_complete _ _ _ _ rfl stepped]
      exact ⟨rfl, rfl, .inl rfl, rfl⟩
    rw [if_neg greater] at stepped
    cases digit : Byte.hexValue? byte with
    | none =>
      rw [digit] at stepped
      have stands : (byte :: bytes).dropWhile Lexical.isHexText = byte :: bytes := by
        simp [Lexical.isHexText, blank, digit]
      rw [stands, Lexical.hexEnd, if_neg greater]
      exact read_refuse _ _ _ _ stepped
    | some value =>
      rw [digit] at stepped
      cases high with
      | none =>
        rw [read_take _ _ _ _ rfl stepped]
        have tail := ih (offset + 1) found true (some value) (by simp)
        simpa [hexed, List.takeWhile_cons, List.dropWhile_cons, Lexical.isHexText, digit] using tail
      | some high =>
        rw [read_take _ _ _ _ rfl stepped]
        have tail := ih (offset + 1) (found.push (16 * high + value)) true none (by simp)
        simpa [hexed, List.takeWhile_cons, List.dropWhile_cons, Lexical.isHexText, digit,
          Lexical.pairs] using tail

def quoted (spells : List UInt8 → List UInt8) :
    Option (List UInt8 × List UInt8) → Except TokenFault (Token × List UInt8)
  | some (text, behind) => .ok (.string (spells text), behind)
  | none => .error .unterminatedString

theorem quoted_map (spells : List UInt8 → List UInt8) (front : List UInt8)
    (split : Option (List UInt8 × List UInt8)) :
    quoted spells (split.map (Lexical.prepend front)) =
      quoted (fun text => spells (front ++ text)) split := by
  cases split <;> rfl

def ReadsString (flags : ReadFlags) (begun last : Nat) (place : StringPlace)
    (spells : List UInt8 → List UInt8) (bytes : List UInt8) : Prop :=
  ∀ (found : Array UInt8) (depth offset : Nat),
    Agrees begun
      (quoted (fun text => found.toList ++ spells text) (Lexical.balanced? depth bytes))
      (read flags ⟨.holding bytes offset, .string found depth place, begun, last⟩)

theorem readsString_nil (place : StringPlace) (spells : List UInt8 → List UInt8) :
    ReadsString flags begun last place spells [] := by
  intro found depth offset
  rw [read_nil _ _ _ _ _ rfl]
  rfl

theorem quoted_congr (spells other : List UInt8 → List UInt8) (depth : Nat) (bytes : List UInt8)
    (same : ∀ text, (∀ byte ∈ text.head?, byte ∈ bytes.head?) → spells text = other text) :
    quoted spells (Lexical.balanced? depth bytes) =
      quoted other (Lexical.balanced? depth bytes) := by
  cases found : Lexical.balanced? depth bytes with
  | none => rfl
  | some split =>
    obtain ⟨text, behind⟩ := split
    have agreed : spells text = other text := by
      apply same
      intro byte member
      rw [Lexical.balanced_split depth bytes text behind found, List.head?_append]
      simp [Option.mem_def.mp member]
    simp only [quoted, agreed]

theorem readsString_afterReturn (bytes : List UInt8)
    (plain : ReadsString flags begun last .plain Lexical.decode bytes)
    (later : ReadsString flags begun last .plain Lexical.decode bytes.tail) :
    ReadsString flags begun last .afterReturn
      (fun text => Lexical.decode (Lexical.dropLineFeed text)) bytes := by
  cases bytes with
  | nil => exact readsString_nil begun last _ _
  | cons byte rest =>
    intro found depth offset
    by_cases feed : byte = Byte.lineFeed
    -- A line feed belongs to the carriage return, and any other byte starts anew.
    · subst feed
      have stepped : Mode.step flags (.string found depth .afterReturn) Byte.lineFeed =
          .take (.string found depth .plain) := rfl
      rw [read_take _ _ _ _ rfl stepped,
        Lexical.balanced_plain _ _ _ (by decide) (by decide) (by decide), quoted_map]
      exact later found depth (offset + 1)
    · have same : Mode.step flags (.string found depth .afterReturn) byte =
          Mode.step flags (.string found depth .plain) byte := by
        simp [Mode.step, Mode.stringStep, feed]
      rw [read_congr offset begun last rest rfl rfl rfl rfl same]
      rw [quoted_congr _ (fun text => found.toList ++ Lexical.decode text)]
      · exact plain found depth offset
      · intro text starts
        cases text with
        | nil => rfl
        | cons first text =>
          have first_eq : byte = first := Option.some.inj (starts first rfl)
          simp [Lexical.dropLineFeed, first_eq ▸ feed]

theorem readsString_octal (bytes : List UInt8) (digits left : Nat) (value : UInt8)
    (three : digits + left = 3) (nonempty : 0 < digits) (more : 0 < left)
    (plain : ∀ tail, tail <:+ bytes → ReadsString flags begun last .plain Lexical.decode tail) :
    ReadsString flags begun last (.octal digits value) (Lexical.octalTail left value) bytes := by
  -- By induction on how many digits may still follow.
  induction left generalizing bytes digits value with
  | zero => contradiction
  | succ left ih =>
    cases bytes with
    | nil => exact readsString_nil begun last _ _
    | cons byte rest =>
      intro found depth offset
      by_cases octal : Mode.isOctalDigit byte = true
      · have small := octalDigit_lt byte octal
        have noEscape : byte ≠ Byte.backslash := by rintro rfl; contradiction
        have noClose : byte ≠ Byte.closeParen := by rintro rfl; contradiction
        have noOpen : byte ≠ Byte.openParen := by rintro rfl; contradiction
        have spelled : (fun text => found.toList ++
              Lexical.octalTail (left + 1) value ([byte] ++ text)) = fun text => found.toList ++
              Lexical.octalTail left (8 * value + (byte - 0x30)) text := by
          funext text
          rw [List.singleton_append, Lexical.octalTail_digit left value byte text octal]
        rw [Lexical.balanced_plain depth byte rest noEscape noClose noOpen, quoted_map, spelled]
        cases left with
        | zero =>
          have stepped : Mode.step flags (.string found depth (.octal digits value)) byte =
              .take (.string (found.push (8 * value + (byte - 0x30))) depth .plain) := by
            simp [Mode.step, Mode.stringStep, octal, shiftLeft_or_octal value _ small,
              show digits = 2 by omega]
          rw [read_take _ _ _ _ rfl stepped]
          simpa [Lexical.octalTail_done] using
            plain rest (List.suffix_cons byte rest) (found.push (8 * value + (byte - 0x30))) depth
              (offset + 1)
        | succ left =>
          have stepped : Mode.step flags (.string found depth (.octal digits value)) byte =
              .take (.string found depth (.octal (digits + 1) (8 * value + (byte - 0x30)))) := by
            simp [Mode.step, Mode.stringStep, octal, shiftLeft_or_octal value _ small,
              show digits ≠ 2 by omega]
          rw [read_take _ _ _ _ rfl stepped]
          exact ih rest (digits + 1) (8 * value + (byte - 0x30)) (by omega) (by omega) (by omega)
            (fun tail suffix => plain tail (suffix.trans (List.suffix_cons byte rest)))
            found depth (offset + 1)
      · have same : Mode.step flags (.string found depth (.octal digits value)) byte =
            Mode.step flags (.string (found.push value) depth .plain) byte := by
          simp [Mode.step, Mode.stringStep, octal]
        rw [read_congr offset begun last rest rfl rfl rfl rfl same,
          quoted_congr _ (fun text => (found.push value).toList ++ Lexical.decode text)]
        · exact plain (byte :: rest) List.suffix_rfl (found.push value) depth offset
        · intro text starts
          rw [Lexical.octalTail_stop (left + 1) value text]
          · simp
          · intro first member
            have first_eq : byte = first := Option.some.inj (starts first member)
            simpa [← first_eq] using octal

/-- The escape mode stands behind a backslash, which `balanced?` takes with the next byte. -/
theorem readsString_escape (bytes : List UInt8)
    (plain : ∀ tail, tail <:+ bytes → ReadsString flags begun last .plain Lexical.decode tail)
    (found : Array UInt8) (depth offset : Nat) :
    Agrees begun
      (quoted (fun text => found.toList ++ Lexical.decode text)
        (Lexical.balanced? depth (Byte.backslash :: bytes)))
      (read flags ⟨.holding bytes offset, .string found depth .escape, begun, last⟩) := by
  cases bytes with
  | nil =>
    rw [read_nil _ _ _ _ _ rfl]
    rfl
  | cons next rest =>
    have rest_plain : ReadsString flags begun last .plain Lexical.decode rest :=
      plain rest (List.suffix_cons next rest)
    rw [Lexical.balanced_escape, quoted_map]
    -- Line breaks stand for nothing, octal digits for a value, other bytes for one byte.
    by_cases feed : next = Byte.lineFeed
    · subst feed
      rw [read_take _ _ _ _ rfl (rfl : Mode.step flags (.string found depth .escape)
        Byte.lineFeed = .take (.string found depth .plain))]
      simpa [Lexical.decode_break] using rest_plain found depth (offset + 1)
    by_cases returned : next = Byte.carriageReturn
    · subst returned
      rw [read_take _ _ _ _ rfl (rfl : Mode.step flags (.string found depth .escape)
        Byte.carriageReturn = .take (.string found depth .afterReturn))]
      have after := readsString_afterReturn begun last rest rest_plain
        (plain rest.tail ((List.tail_suffix rest).trans (List.suffix_cons _ rest)))
      simpa [Lexical.decode_return_break] using after found depth (offset + 1)
    by_cases octal : Mode.isOctalDigit next = true
    · have stepped : Mode.step flags (.string found depth .escape) next =
          .take (.string found depth (.octal 1 (next - 0x30))) := by
        simp [Mode.step, Mode.stringStep, feed, returned, octal]
      rw [read_take _ _ _ _ rfl stepped]
      have digits := readsString_octal begun last rest 1 2 (next - 0x30) rfl (by omega) (by omega)
        (fun tail suffix => plain tail (suffix.trans (List.suffix_cons next rest)))
      simpa [Lexical.decode_octal next _ octal] using digits found depth (offset + 1)
    · have stepped : Mode.step flags (.string found depth .escape) next =
          .take (.string (found.push (Mode.escaped next)) depth .plain) := by
        simp [Mode.step, Mode.stringStep, feed, returned, octal]
      rw [read_take _ _ _ _ rfl stepped]
      simpa [Lexical.decode_escaped next _ feed returned (by simpa using octal)] using
        rest_plain (found.push (Mode.escaped next)) depth (offset + 1)

theorem readsString_plain (bytes : List UInt8) :
    ReadsString flags begun last .plain Lexical.decode bytes := by
  -- Escapes and line breaks take several bytes, so the induction is on the length.
  induction size : bytes.length using Nat.strongRecOn generalizing bytes with
  | ind size ih =>
  subst size
  have later : ∀ tail, tail.length < bytes.length →
      ReadsString flags begun last .plain Lexical.decode tail := fun tail shorter =>
    ih tail.length shorter tail rfl
  intro found depth offset
  cases bytes with
  | nil => exact readsString_nil begun last _ _ found depth offset
  | cons byte rest =>
    have rest_later := later rest (Nat.lt_succ_self _)
    by_cases escape : byte = Byte.backslash
    · subst escape
      rw [read_take _ _ _ _ rfl (rfl : Mode.step flags (.string found depth .plain)
        Byte.backslash = .take (.string found depth .escape))]
      exact readsString_escape begun last rest (fun tail suffix =>
        later tail (Nat.lt_succ_of_le suffix.length_le)) found depth (offset + 1)
    by_cases close : byte = Byte.closeParen
    · subst close
      cases depth with
      | zero =>
        rw [read_complete _ _ _ _ rfl (rfl : Mode.step flags (.string found 0 .plain)
          Byte.closeParen = .complete (.string found.toList))]
        rw [Lexical.balanced_end]
        exact ⟨by simp [Lexical.decode], rfl, .inl rfl, rfl⟩
      | succ outer =>
        rw [read_take _ _ _ _ rfl (rfl : Mode.step flags (.string found (outer + 1) .plain)
          Byte.closeParen = .take (.string (found.push Byte.closeParen) outer .plain))]
        rw [Lexical.balanced_close, quoted_map]
        simpa [Lexical.decode_plain Byte.closeParen _ (by decide) (by decide)] using
          rest_later (found.push Byte.closeParen) outer (offset + 1)
    by_cases opens : byte = Byte.openParen
    · subst opens
      rw [read_take _ _ _ _ rfl (rfl : Mode.step flags (.string found depth .plain)
        Byte.openParen = .take (.string (found.push Byte.openParen) (depth + 1) .plain))]
      rw [Lexical.balanced_open, quoted_map]
      simpa [Lexical.decode_plain Byte.openParen _ (by decide) (by decide)] using
        rest_later (found.push Byte.openParen) (depth + 1) (offset + 1)
    rw [Lexical.balanced_plain depth byte rest escape close opens, quoted_map]
    by_cases returned : byte = Byte.carriageReturn
    · subst returned
      rw [read_take _ _ _ _ rfl (rfl : Mode.step flags (.string found depth .plain)
        Byte.carriageReturn = .take (.string (found.push Byte.lineFeed) depth .afterReturn))]
      have after := readsString_afterReturn begun last rest rest_later
        (later rest.tail (by simp only [List.length_tail, List.length_cons]; omega))
      simpa [Lexical.decode_return] using after (found.push Byte.lineFeed) depth (offset + 1)
    · have stepped : Mode.step flags (.string found depth .plain) byte =
          .take (.string (found.push byte) depth .plain) := by
        simp [Mode.step, Mode.stringStep, Mode.stringByte, escape, returned, opens, close]
      rw [read_take _ _ _ _ rfl stepped]
      simpa [Lexical.decode_plain byte _ escape returned] using
        rest_later (found.push byte) depth (offset + 1)

theorem read_angle (bytes : List UInt8) :
    Agrees begun (Lexical.angle bytes)
      (read flags ⟨.holding bytes offset, .hex #[] false none, begun, last⟩) := by
  by_cases opens : bytes.head? = some Byte.less
  · obtain ⟨rest, rfl⟩ := List.head?_eq_some_iff.mp opens
    rw [read_complete _ _ _ _ rfl (rfl : Mode.step flags (.hex #[] false none) Byte.less =
      .complete (.delimiter .dictionaryStart))]
    exact ⟨rfl, rfl, .inl rfl, rfl⟩
  · rw [Lexical.angle, if_neg opens]
    exact read_hex offset begun last bytes #[] false none (fun _ => opens)

theorem read_literal (bytes : List UInt8) :
    Agrees begun (Lexical.literal bytes)
      (read flags ⟨.holding bytes offset, .string #[] 0 .plain, begun, last⟩) := by
  have plain : ReadsString flags begun last .plain Lexical.decode bytes :=
    readsString_plain begun last bytes
  have read := plain #[] 0 offset
  simp only [List.nil_append] at read
  rw [Lexical.literal]
  cases split : Lexical.balanced? 0 bytes with
  | none => rwa [split] at read
  | some split => rwa [split] at read

end PdfPrimitives.Reader
