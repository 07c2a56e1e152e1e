import PdfPrimitives.Proofs.Token.Grammar
import PdfPrimitives.Proofs.Token.Numbers

/-!
Texts that are read as some tokens whatever follows them, or whatever follows them but does
not go on with a word. Such texts can be put one behind the other. Spellings of tokens
other than strings are such texts.
-/

namespace PdfPrimitives.Lexical

def withComments : ReadFlags := ReadFlags.ofBits 2

def Stops (next : List UInt8) : Prop := ∀ byte ∈ next.head?, Byte.isRegular byte = false

theorem Stops.append {text : List UInt8} (stops : Stops text) (nonempty : text ≠ [])
    (next : List UInt8) : Stops (text ++ next) := by
  intro byte member
  rw [List.head?_append_of_ne_nil _ nonempty] at member
  exact stops byte member

/-- The text is read as the tokens. If it is not `closed`, a regular byte behind it would
go on with its last token. -/
def Reads (flags : ReadFlags) (text : List UInt8) (tokens : List Token) (closed : Bool) :
    Prop :=
  ∀ next, (closed = false → Stops next) →
    lex flags (text ++ next) = (tokens ++ (lex flags next).1, (lex flags next).2)

variable {flags : ReadFlags}

theorem reads_nil : Reads flags [] [] true := fun _ _ => rfl

theorem Reads.append {front back : List UInt8} {first second : List Token} {closed last : Bool}
    (reads : Reads flags front first closed) (more : Reads flags back second last)
    (nonempty : back ≠ []) (stops : closed = false → Stops back) :
    Reads flags (front ++ back) (first ++ second) last := by
  intro next ends
  have stopped : closed = false → Stops (back ++ next) := fun opened =>
    (stops opened).append nonempty next
  rw [List.append_assoc, reads (back ++ next) stopped, more next ends, List.append_assoc]

section Blanks

theorem lex_congr (bytes other : List UInt8)
    (same : skip flags.comments bytes = skip flags.comments other) :
    lex flags bytes = lex flags other := by
  cases skipped : skip flags.comments other with
  | nil => rw [lex_of_end flags bytes (same.trans skipped), lex_of_end flags other skipped]
  | cons byte rest =>
    cases given : token flags.plainNames byte rest with
    | error fault =>
      rw [lex_of_fault flags bytes rest byte fault (same.trans skipped) given,
        lex_of_fault flags other rest byte fault skipped given]
    | ok found =>
      obtain ⟨token, behind⟩ := found
      rw [lex_of_token flags bytes rest behind byte token (same.trans skipped) given,
        lex_of_token flags other rest behind byte token skipped given]

theorem lex_blank (byte : UInt8) (bytes : List UInt8)
    (blank : Byte.isBlank byte = true) : lex flags (byte :: bytes) = lex flags bytes := by
  apply lex_congr
  rw [skip, if_pos blank]

theorem Reads.behind_blank {text : List UInt8} {tokens : List Token} {closed : Bool}
    (reads : Reads flags text tokens closed) (byte : UInt8)
    (blank : Byte.isBlank byte = true) : Reads flags (byte :: text) tokens closed := by
  intro next ends
  rw [List.cons_append, lex_blank byte (text ++ next) blank]
  exact reads next ends

end Blanks

theorem reads_token (first : UInt8) (text : List UInt8) (found : Token) (closed : Bool)
    (visible : Byte.isBlank first = false)
    (wanted : first = Byte.percent → flags.comments = true)
    (given : ∀ next, (closed = false → Stops next) →
      token flags.plainNames first (text ++ next) = .ok (found, next)) :
    Reads flags (first :: text) [found] closed := by
  intro next ends
  have skipped : skip flags.comments (first :: (text ++ next)) = first :: (text ++ next) := by
    rw [skip, if_neg (by simp [visible]), if_neg]
    simpa using wanted
  exact lex_of_token flags (first :: (text ++ next)) (text ++ next) next first found skipped
    (given next ends)

section Words

structure IsWord (text : List UInt8) : Prop where
  nonempty : text ≠ []
  regular : ∀ byte ∈ text, Byte.isRegular byte = true
  short : text.length ≤ wordCapacity

theorem takeWhile_word (text next : List UInt8)
    (regular : ∀ byte ∈ text, Byte.isRegular byte = true) (stops : Stops next) :
    (text ++ next).takeWhile Byte.isRegular = text ∧
      (text ++ next).dropWhile Byte.isRegular = next := by
  rw [List.takeWhile_append_of_pos regular, List.dropWhile_append_of_pos regular]
  cases next with
  | nil => simp
  | cons byte next => simp [stops byte rfl]

theorem token_regular (plain : Bool) (byte : UInt8) (rest : List UInt8)
    (regular : Byte.isRegular byte = true) : token plain byte rest = word byte rest := by
  have noDelimiter : Byte.isDelimiter byte = false := by
    rw [Byte.isRegular, Bool.and_eq_true] at regular
    simpa using regular.2
  simp only [Byte.isDelimiter, Byte.isParen, Byte.isBrace, Bool.or_eq_false_iff,
    beq_eq_false_iff_ne] at noDelimiter
  simp [token, noDelimiter]

theorem reads_word (text : List UInt8) (found : Token) (isWord : IsWord text)
    (stands : Token.ofWord text = found) : Reads flags text [found] false := by
  obtain ⟨nonempty, regular, short⟩ := isWord
  cases text with
  | nil => contradiction
  | cons first text =>
    have first_regular := regular first (by simp)
    apply reads_token
    · rw [Byte.isRegular, Bool.and_eq_true] at first_regular
      simpa using first_regular.1
    · rintro rfl
      cases first_regular
    intro next stops
    obtain ⟨taken, dropped⟩ := takeWhile_word text next
      (fun byte member => regular byte (List.mem_cons_of_mem first member)) (stops rfl)
    rw [token_regular flags.plainNames first _ first_regular, word]
    simp only [taken, dropped, Nat.not_lt.mpr short, ↓reduceIte, stands]

theorem digits_regular (run : List UInt8) (digits : run.all Numeral.isDigit = true) :
    ∀ byte ∈ run, Byte.isRegular byte = true := fun byte member =>
  (Numeral.isDigit_class byte (List.all_eq_true.mp digits byte member)).1

theorem isWord_integer (value : Int32) : IsWord (Numeral.signedDigitsOf value.toInt) where
  nonempty := by
    rw [Numeral.signedDigitsOf]
    split
    · simp
    · exact Numeral.digitsOf_ne_nil _
  regular := by
    have digits := digits_regular _ (Numeral.digitsOf_all value.toInt.natAbs)
    rw [Numeral.signedDigitsOf]
    split
    · intro byte member
      rcases List.mem_cons.mp member with rfl | inDigits
      · rfl
      · exact digits byte inDigits
    · exact digits
  short := by
    have := value.le_toInt
    have := value.toInt_lt
    have few := Numeral.length_digitsOf_le value.toInt.natAbs 10 (by decide) (by omega)
    rw [Numeral.signedDigitsOf, wordCapacity]
    split
    · rw [List.length_cons]
      omega
    · omega

theorem isWord_real (value : Numeral.Single) (text : List UInt8)
    (spelled : Token.realSpelling? value = some text) : IsWord text := by
  obtain ⟨whole, fraction, digits, rfl⟩ := Token.realSpelling_spelled value text spelled
  have sign_regular : ∀ byte ∈ Numeral.Single.sign value.isNegative,
      Byte.isRegular byte = true := by
    apply List.all_eq_true.mp
    cases value.isNegative <;> rfl
  have sign_short : (Numeral.Single.sign value.isNegative).length ≤ 1 := by
    cases value.isNegative <;> decide
  have whole_regular := digits_regular whole digits.whole_digits
  have fraction_regular := digits_regular fraction digits.fraction_digits
  refine ⟨by simp, ?_, ?_⟩
  · intro byte member
    simp only [List.mem_append, List.mem_cons] at member
    rcases member with (inSign | inWhole) | rfl | inFraction
    · exact sign_regular byte inSign
    · exact whole_regular byte inWhole
    · rfl
    · exact fraction_regular byte inFraction
  · have := digits.short
    simp only [List.length_append, List.length_cons, wordCapacity]
    omega

end Words

section Names

theorem hexDigits_value (byte : UInt8) :
    Byte.hexValue? (Byte.hexDigit (byte >>> 4)) = some (byte >>> 4) ∧
      Byte.hexValue? (Byte.hexDigit (byte &&& 0x0f)) = some (byte &&& 0x0f) ∧
      (16 : UInt8) * (byte >>> 4) + (byte &&& 0x0f) = byte := by
  revert byte
  exact Numeral.byte_cases (by decide +kernel)

theorem hexDigit_regular (byte : UInt8) : Byte.isRegular (Byte.hexDigit (byte >>> 4)) = true ∧
    Byte.isRegular (Byte.hexDigit (byte &&& 0x0f)) = true := by
  revert byte
  exact Numeral.byte_cases (by decide +kernel)

theorem nameBytes_escaped (style : WriteFlags) (escapes : style.plainNames = false) (byte : UInt8)
    (piece rest : List UInt8) (spelled : Escape.nameByte? style byte = some piece) :
    nameBytes false (piece ++ rest) =
        (byte :: (nameBytes false rest).1, (nameBytes false rest).2) ∧
      ∀ each ∈ piece, Byte.isRegular each = true := by
  simp only [Escape.nameByte?, escapes, Bool.false_eq_true, ↓reduceIte] at spelled
  split at spelled
  · cases spelled
  · next nonempty =>
    -- Escaped bytes stand behind `#` with two digits, others stand for themselves.
    split at spelled
    · obtain rfl := Option.some.inj spelled
      obtain ⟨high, low, value⟩ := hexDigits_value byte
      obtain ⟨highRegular, lowRegular⟩ := hexDigit_regular byte
      constructor
      · rw [Byte.hexDigits, List.cons_append, List.cons_append, List.cons_append, List.nil_append,
          nameBytes.eq_def]
        simp [show Byte.isVisible Byte.hash = true from rfl, high, low, value, nonempty]
      · intro each member
        simp only [Byte.hexDigits, List.mem_cons, List.not_mem_nil, or_false] at member
        rcases member with rfl | rfl | rfl
        · rfl
        · exact highRegular
        · exact lowRegular
    · next plain =>
      obtain rfl := Option.some.inj spelled
      simp only [Escape.isNameEscaped, Bool.or_eq_true, Bool.not_eq_true', beq_iff_eq,
        not_or, Bool.not_eq_false] at plain
      obtain ⟨⟨regular, noHash⟩, visible⟩ := plain
      constructor
      · rw [List.singleton_append, nameBytes.eq_def]
        simp [visible, noHash]
      · simpa using regular

/-- Where there are no escapes, a name is read up to the first byte that is not visible. -/
theorem nameBytes_unescaped (text : List UInt8) :
    nameBytes true text = (text.takeWhile Byte.isVisible,
      (text.find? (!Byte.isVisible ·)).map TokenFault.invalidCharacter) := by
  induction text with
  | nil => rfl
  | cons byte rest ih =>
    rw [nameBytes.eq_def]
    cases visible : Byte.isVisible byte with
    | false => simp [visible]
    | true => simp [visible, ih]

theorem nameBytes_plain (style : WriteFlags) (plain : style.plainNames = true) (byte : UInt8)
    (piece rest : List UInt8) (visible : Byte.isVisible byte = true)
    (spelled : Escape.nameByte? style byte = some piece) :
    nameBytes true (piece ++ rest) =
        (byte :: (nameBytes true rest).1, (nameBytes true rest).2) ∧
      ∀ each ∈ piece, Byte.isRegular each = true := by
  simp only [Escape.nameByte?, plain, ↓reduceIte] at spelled
  split at spelled
  · cases spelled
  · split at spelled
    · next regular =>
      obtain rfl := Option.some.inj spelled
      constructor
      · rw [List.singleton_append, nameBytes.eq_def]
        simp [visible]
      · simpa using regular
    · cases spelled

theorem nameBytes_spelled (style : WriteFlags) (bytes : List UInt8) (pieces : List (List UInt8))
    (suits : style.plainNames = true → ∀ byte ∈ bytes, Byte.isVisible byte = true)
    (spelled : bytes.mapM (Escape.nameByte? style) = some pieces) :
    nameBytes style.plainNames pieces.flatten = (bytes, none) ∧
      ∀ each ∈ pieces.flatten, Byte.isRegular each = true := by
  induction bytes generalizing pieces with
  | nil =>
    obtain rfl : [] = pieces := by simpa using spelled
    exact ⟨rfl, by simp⟩
  | cons byte bytes ih =>
    rw [List.mapM_cons] at spelled
    obtain ⟨piece, first, spelled⟩ := Option.bind_eq_some_iff.mp spelled
    obtain ⟨others, rest, same⟩ := Option.bind_eq_some_iff.mp spelled
    obtain rfl := Option.some.inj same
    obtain ⟨read, regular⟩ :=
      ih others (fun plain other member => suits plain other (by simp [member])) rest
    obtain ⟨piece_read, piece_regular⟩ :
        nameBytes style.plainNames (piece ++ others.flatten) =
            (byte :: (nameBytes style.plainNames others.flatten).1,
              (nameBytes style.plainNames others.flatten).2) ∧
          ∀ each ∈ piece, Byte.isRegular each = true := by
      cases plain : style.plainNames with
      | false => exact nameBytes_escaped style plain byte piece others.flatten first
      | true =>
        exact nameBytes_plain style plain byte piece others.flatten
          (suits plain byte List.mem_cons_self) first
    constructor
    · rw [List.flatten_cons, piece_read, read]
    · intro each member
      rw [List.flatten_cons, List.mem_append] at member
      rcases member with inPiece | inRest
      · exact piece_regular each inPiece
      · exact regular each inRest

theorem reads_name (style : WriteFlags) (same : style.plainNames = flags.plainNames)
    (bytes text : List UInt8) (short : bytes.length ≤ wordCapacity)
    (suits : flags.plainNames = true → ∀ byte ∈ bytes, Byte.isVisible byte = true)
    (spelled : Escape.name? style bytes = some text) : Reads flags text [.name bytes] false := by
  rw [← same] at suits
  obtain ⟨pieces, parts, rfl⟩ := Option.map_eq_some_iff.mp spelled
  obtain ⟨read, regular⟩ := nameBytes_spelled style bytes pieces suits parts
  apply reads_token
  · rfl
  · rintro ⟨⟩
  intro next stops
  obtain ⟨taken, dropped⟩ := takeWhile_word pieces.flatten next regular (stops rfl)
  rw [token, if_neg (by decide), if_neg (by decide), if_pos rfl, name, taken, dropped, ← same, read]
  simp [Nat.not_lt.mpr short]

end Names

section Comments

theorem reads_comment (wanted : flags.comments = true) (text : List UInt8)
    (single : text.any Byte.isLineBreak = false) :
    Reads flags (Byte.percent :: text ++ [Byte.lineFeed]) [.comment text] true := by
  intro next ends
  have inLine : ∀ byte ∈ text, isInLine byte = true := by
    intro byte member
    simpa [isInLine] using List.any_eq_false.mp single byte member
  have given : token flags.plainNames Byte.percent (text ++ Byte.lineFeed :: next) =
      .ok (.comment text, Byte.lineFeed :: next) := by
    rw [token, if_pos rfl, List.takeWhile_append_of_pos inLine, List.dropWhile_append_of_pos inLine]
    have feed : isInLine Byte.lineFeed = false := rfl
    simp [feed]
  have skipped : skip flags.comments (Byte.percent :: (text ++ Byte.lineFeed :: next)) =
      Byte.percent :: (text ++ Byte.lineFeed :: next) := by
    rw [skip, if_neg (by decide), if_neg (by simp [wanted])]
  have read := lex_of_token flags _ _ _ _ _ skipped given
  rw [lex_blank Byte.lineFeed next rfl] at read
  simpa using read

end Comments

theorem reads_delimiter (kind : Delimiter) :
    Reads flags kind.spelling [.delimiter kind] true := by
  cases kind <;> exact reads_token _ _ _ true rfl nofun fun next _ => rfl

end PdfPrimitives.Lexical
