import PdfPrimitives.Proofs.Token.Parentheses
import PdfPrimitives.Proofs.Token.Spelling

/-!
Spelled strings. Lines are broken between the pieces of a string wherever there is no room,
so the text of a string is known only up to such breaks, and reads the same with any.
-/

namespace PdfPrimitives.Lexical

inductive Broken (separator : List UInt8) : List (List UInt8) → List UInt8 → Prop
  | nil : Broken separator [] []
  | keep (piece text : List UInt8) (pieces : List (List UInt8)) :
      Broken separator pieces text → Broken separator (piece :: pieces) (piece ++ text)
  | cut (piece text : List UInt8) (pieces : List (List UInt8)) :
      Broken separator pieces text →
        Broken separator (piece :: pieces) (separator ++ (piece ++ text))

theorem draft_broken (separator : List UInt8) (push : Draft → List UInt8 → Draft)
    (pushed : ∀ draft piece, (push draft piece).bytes.toList = draft.bytes.toList ++ piece ∨
      (push draft piece).bytes.toList = draft.bytes.toList ++ (separator ++ piece))
    (pieces : List (List UInt8)) (draft : Draft) :
    ∃ text, Broken separator pieces text ∧
      (pieces.foldl push draft).bytes.toList = draft.bytes.toList ++ text := by
  induction pieces generalizing draft with
  | nil => exact ⟨[], .nil, by simp⟩
  | cons piece pieces ih =>
    obtain ⟨text, broken, bytes_eq⟩ := ih (push draft piece)
    rcases pushed draft piece with kept | cut
    · refine ⟨piece ++ text, .keep piece text pieces broken, ?_⟩
      rw [List.foldl_cons, bytes_eq, kept, List.append_assoc]
    · refine ⟨separator ++ (piece ++ text), .cut piece text pieces broken, ?_⟩
      rw [List.foldl_cons, bytes_eq, cut, List.append_assoc, List.append_assoc]

theorem literal_broken (line : Line) (pieces : List (List UInt8)) :
    ∃ text, Broken [Byte.backslash, Byte.lineFeed] pieces text ∧
      line.literal pieces = Byte.openParen :: (text ++ [Byte.closeParen]) := by
  obtain ⟨text, broken, bytes_eq⟩ := draft_broken [Byte.backslash, Byte.lineFeed]
    (Draft.pushPiece line.limit) (fun draft piece => by
      rw [Draft.pushPiece]
      split
      · right; simp [Draft.push]
      · left; simp [Draft.push]) pieces (Draft.start line Byte.openParen)
  refine ⟨text, broken, ?_⟩
  rw [Line.literal, Draft.finish, Array.toList_push, bytes_eq]
  rfl

theorem hexadecimal_broken (line : Line) (bytes : List UInt8) :
    ∃ text, Broken [Byte.lineFeed] (Line.digitPairs bytes) text ∧
      line.hexadecimal bytes = Byte.less :: (text ++ [Byte.greater]) := by
  obtain ⟨text, broken, bytes_eq⟩ := draft_broken [Byte.lineFeed]
    (Draft.pushDigits line.limit) (fun draft piece => by
      rw [Draft.pushDigits]
      split
      · right; simp [Draft.push]
      · left; simp [Draft.push]) (Line.digitPairs bytes) (Draft.start line Byte.less)
  refine ⟨text, broken, ?_⟩
  rw [Line.hexadecimal, Draft.finish, Array.toList_push, bytes_eq]
  rfl

section Hexadecimal

theorem Broken.all {separator text : List UInt8} {pieces : List (List UInt8)}
    {P : UInt8 → Prop} (broken : Broken separator pieces text)
    (separates : ∀ byte ∈ separator, P byte)
    (each : ∀ piece ∈ pieces, ∀ byte ∈ piece, P byte) : ∀ byte ∈ text, P byte := by
  induction broken with
  | nil => simp
  | keep piece text pieces _ ih =>
    intro byte member
    rcases List.mem_append.mp member with inPiece | inText
    · exact each piece (by simp) byte inPiece
    · exact ih (fun other among => each other (by simp [among])) byte inText
  | cut piece text pieces _ ih =>
    intro byte member
    rcases List.mem_append.mp member with inSeparator | behind
    · exact separates byte inSeparator
    rcases List.mem_append.mp behind with inPiece | inText
    · exact each piece (by simp) byte inPiece
    · exact ih (fun other among => each other (by simp [among])) byte inText

theorem Broken.filterMap {separator text : List UInt8} {pieces : List (List UInt8)}
    {value? : UInt8 → Option UInt8} (broken : Broken separator pieces text)
    (separates : separator.filterMap value? = []) :
    text.filterMap value? = pieces.flatten.filterMap value? := by
  induction broken with
  | nil => rfl
  | keep piece text pieces _ ih => simp [ih]
  | cut piece text pieces _ ih => simp [ih, separates]

theorem digitPairs_cons (byte next : UInt8) (rest : List UInt8) :
    Line.digitPairs (byte :: next :: rest) =
      Byte.hexDigits byte :: Line.digitPairs (next :: rest) := by
  simp [Line.digitPairs, List.getLast?_cons_cons]

theorem lastDigits_value (byte : UInt8) :
    pairs ((Line.lastDigits byte).filterMap Byte.hexValue?) = [byte] ∧
      (Line.lastDigits byte).all isHexText = true := by
  revert byte
  exact Numeral.byte_cases (by decide +kernel)

theorem hexDigits_text (byte : UInt8) : (Byte.hexDigits byte).all isHexText = true := by
  revert byte
  exact Numeral.byte_cases (by decide +kernel)

theorem pairs_digitPairs (bytes : List UInt8) :
    pairs ((Line.digitPairs bytes).flatten.filterMap Byte.hexValue?) = bytes ∧
      ∀ piece ∈ Line.digitPairs bytes, ∀ byte ∈ piece, isHexText byte = true := by
  induction bytes with
  | nil => exact ⟨rfl, by simp [Line.digitPairs]⟩
  | cons byte rest ih =>
    cases rest with
    | nil =>
      obtain ⟨value, text⟩ := lastDigits_value byte
      have single : Line.digitPairs [byte] = [Line.lastDigits byte] := rfl
      rw [single]
      refine ⟨by simpa using value, ?_⟩
      intro piece member
      rw [List.mem_singleton.mp member]
      exact List.all_eq_true.mp text
    | cons next rest =>
      obtain ⟨value, text⟩ := ih
      obtain ⟨high, low, both⟩ := hexDigits_value byte
      rw [digitPairs_cons]
      constructor
      · rw [List.flatten_cons, List.filterMap_append]
        simp only [Byte.hexDigits, List.filterMap_cons, List.filterMap_nil, high, low,
          List.cons_append, List.nil_append, pairs, both, value]
      · intro piece member
        rcases List.mem_cons.mp member with rfl | behind
        · exact List.all_eq_true.mp (hexDigits_text byte)
        · exact text piece behind

theorem reads_hexadecimal (flags : ReadFlags) (line : Line) (bytes : List UInt8) :
    Reads flags (line.hexadecimal bytes) [.string bytes] true := by
  obtain ⟨text, broken, spelled⟩ := hexadecimal_broken line bytes
  obtain ⟨value, digits⟩ := pairs_digitPairs bytes
  have isText : ∀ byte ∈ text, isHexText byte = true :=
    broken.all (List.all_eq_true.mp rfl) digits
  rw [spelled]
  apply reads_token
  · rfl
  · nofun
  intro next _
  have ending : text ++ [Byte.greater] ++ next = text ++ Byte.greater :: next := by simp
  -- A second bracket would open a dictionary, but digits or the end follow.
  have noStart : (text ++ Byte.greater :: next).head? ≠ some Byte.less := by
    cases text with
    | nil =>
      have apart : some Byte.greater ≠ some Byte.less := by decide
      exact apart
    | cons first text =>
      intro same
      obtain rfl : first = Byte.less := Option.some.inj same
      exact absurd (isText Byte.less (by simp)) (by decide)
  have taken : (text ++ Byte.greater :: next).takeWhile isHexText = text := by
    rw [List.takeWhile_append_of_pos isText]
    simp [show isHexText Byte.greater = false from rfl]
  have dropped : (text ++ Byte.greater :: next).dropWhile isHexText = Byte.greater :: next := by
    rw [List.dropWhile_append_of_pos isText]
    simp [show isHexText Byte.greater = false from rfl]
  rw [ending, token, if_neg (by decide), if_neg (by decide), if_neg (by decide), if_pos rfl, angle,
    if_neg noStart, taken, dropped, hexEnd, if_pos rfl, broken.filterMap rfl, value]

end Hexadecimal

section Literal

open Parentheses

def annotate (opened : Nat) : List UInt8 → List StringByte
  | [] => []
  | byte :: rest =>
    ⟨byte, rest.head?, lacksPartner opened byte rest⟩ :: annotate (openedBehind opened byte) rest

theorem all_eq (bytes : List UInt8) : StringByte.all bytes = annotate 0 bytes := by
  rw [StringByte.all, marks_eq]
  generalize 0 = opened
  induction bytes generalizing opened with
  | nil => rfl
  | cons byte rest ih =>
    cases rest with
    | nil => rfl
    | cons next rest =>
      have tail := ih (openedBehind opened byte)
      simp only [List.tail_cons, marksFrom, annotate, List.map_cons, List.cons_append,
        List.zip_cons_cons, List.zipWith_cons_cons, List.head?_cons] at tail ⊢
      rw [tail]

theorem letter_reads (value : UInt8) :
    (StringByte.letter? value).all (fun letter => letter != Byte.lineFeed &&
      letter != Byte.carriageReturn && !Mode.isOctalDigit letter &&
        Mode.escaped letter == value) = true := by
  revert value
  exact Numeral.byte_cases (by decide +kernel)

theorem octalDigits_value (value : UInt8) :
    octalValue (StringByte.octalDigits 3 value) = value ∧
      (value < 0o100 → octalValue (StringByte.octalDigits 2 value) = value) ∧
      (value < 0o10 → octalValue (StringByte.octalDigits 1 value) = value) := by
  revert value
  exact Numeral.byte_cases (by decide +kernel)

theorem octalDigits_octal (value : UInt8) :
    (StringByte.octalDigits 3 value).all Mode.isOctalDigit = true ∧
      (StringByte.octalDigits 2 value).all Mode.isOctalDigit = true ∧
      (StringByte.octalDigits 1 value).all Mode.isOctalDigit = true := by
  revert value
  exact Numeral.byte_cases (by decide +kernel)

theorem decode_octalDigits (run rest : List UInt8) (nonempty : run ≠ [])
    (octal : run.all Mode.isOctalDigit = true) (few : run.length ≤ 3)
    (stops : run.length < 3 → ∀ byte ∈ rest.head?, Mode.isOctalDigit byte = false) :
    decode (Byte.backslash :: (run ++ rest)) = octalValue run :: decode rest := by
  have digits := List.all_eq_true.mp octal
  -- After each digit the decoder stops at the third one or at a byte that is no digit.
  rcases run with _ | ⟨first, _ | ⟨second, _ | ⟨third, _ | ⟨fourth, run⟩⟩⟩⟩
  · contradiction
  · rw [List.singleton_append, decode_octal first rest (digits first (by simp)),
      octalTail_stop 2 _ rest (stops (by simp))]
    simp [octalValue]
  · rw [List.cons_append, List.singleton_append,
      decode_octal first _ (digits first (by simp)),
      octalTail_digit 1 _ second rest (digits second (by simp)),
      octalTail_stop 1 _ rest (stops (by simp))]
    simp [octalValue]
  · rw [List.cons_append, List.cons_append, List.singleton_append,
      decode_octal first _ (digits first (by simp)),
      octalTail_digit 1 _ second _ (digits second (by simp)),
      octalTail_digit 0 _ third rest (digits third (by simp)), octalTail_done]
    simp [octalValue]
  · simp only [List.length_cons] at few
    omega

theorem octalWidth_spec (byte : StringByte) :
    octalValue (StringByte.octalDigits byte.octalWidth byte.value) = byte.value ∧
      (StringByte.octalDigits byte.octalWidth byte.value).all Mode.isOctalDigit = true ∧
      (StringByte.octalDigits byte.octalWidth byte.value).length = byte.octalWidth ∧
      byte.octalWidth ≤ 3 ∧ 0 < byte.octalWidth ∧
      (byte.octalWidth < 3 → ∀ next ∈ byte.next, Numeral.isDigit next = false) := by
  obtain ⟨three, two, one⟩ := octalDigits_value byte.value
  obtain ⟨threeOctal, twoOctal, oneOctal⟩ := octalDigits_octal byte.value
  unfold StringByte.octalWidth
  split
  · exact ⟨three, threeOctal, rfl, by decide, by decide, fun short => absurd short (by decide)⟩
  · next narrow =>
    rw [Bool.or_eq_true, not_or] at narrow
    have noDigit : ∀ next ∈ byte.next, Numeral.isDigit next = false := by
      intro next member
      simpa [Option.mem_def.mp member] using narrow.1
    split
    · exact ⟨two (by simpa using narrow.2), twoOctal, rfl, by decide, by decide, fun _ => noDigit⟩
    · next single =>
      exact ⟨one (by simpa using single), oneOctal, rfl, by decide, by decide, fun _ => noDigit⟩

theorem octal_isDigit (byte : UInt8) (octal : Mode.isOctalDigit byte = true) :
    Numeral.isDigit byte = true := by
  revert byte
  exact Numeral.byte_cases (by decide +kernel)

theorem decode_piece (readable utf8 : Bool) (byte : StringByte) (rest : List UInt8)
    (follows : ∀ next ∈ rest.head?, next = Byte.backslash ∨ next ∈ byte.next) :
    decode (byte.piece readable utf8 ++ rest) = byte.value :: decode rest := by
  rw [StringByte.piece]
  split
  · rw [StringByte.escape]
    split
    · next letter found =>
      have reads := letter_reads byte.value
      rw [found] at reads
      simp only [Option.all_some, Bool.and_eq_true, bne_iff_ne, Bool.not_eq_true',
        beq_iff_eq] at reads
      obtain ⟨⟨⟨noFeed, noReturn⟩, noOctal⟩, value⟩ := reads
      rw [List.cons_append, List.singleton_append,
        decode_escaped letter rest noFeed noReturn noOctal, value]
    · obtain ⟨value, octal, length, few, nonempty, noDigit⟩ := octalWidth_spec byte
      rw [List.cons_append, decode_octalDigits _ rest _ octal (by omega), value]
      -- Fewer than three digits are written only if no digit follows.
      · intro short next member
        rcases follows next member with rfl | inNext
        · rfl
        · rw [Bool.eq_false_iff]
          intro isOctal
          have digit := octal_isDigit next isOctal
          rw [noDigit (by omega) next inNext] at digit
          cases digit
      · exact List.ne_nil_of_length_pos (by omega)
  · next plain =>
    have noEscape : byte.value ≠ Byte.backslash := by
      intro same
      simp [StringByte.isEscaped, same] at plain
    have noReturn : byte.value ≠ Byte.carriageReturn := by
      intro same
      simp [StringByte.isEscaped, same] at plain
    rw [List.singleton_append, decode_plain byte.value rest noEscape noReturn]

theorem prepend_prepend (front back : List UInt8)
    (split : Option (List UInt8 × List UInt8)) :
    (split.map (prepend back)).map (prepend front) = split.map (prepend (front ++ back)) := by
  cases split with
  | none => rfl
  | some split => simp [prepend]

theorem balanced_plain_run (depth : Nat) (run rest : List UInt8)
    (plain : ∀ byte ∈ run, byte ≠ Byte.backslash ∧ byte ≠ Byte.closeParen ∧
      byte ≠ Byte.openParen) :
    balanced? depth (run ++ rest) = (balanced? depth rest).map (prepend run) := by
  induction run with
  | nil =>
    rw [List.nil_append]
    cases balanced? depth rest <;> rfl
  | cons byte run ih =>
    obtain ⟨noEscape, noClose, noOpen⟩ := plain byte (by simp)
    rw [List.cons_append, balanced_plain depth byte _ noEscape noClose noOpen,
      ih (fun other member => plain other (by simp [member])), prepend_prepend]
    rfl

theorem octal_plain (byte : UInt8) (octal : Mode.isOctalDigit byte = true) :
    byte ≠ Byte.backslash ∧ byte ≠ Byte.closeParen ∧ byte ≠ Byte.openParen := by
  refine ⟨?_, ?_, ?_⟩ <;> rintro rfl <;> contradiction

theorem balanced_escaped (depth : Nat) (byte : StringByte) (rest : List UInt8) :
    balanced? depth (byte.escape ++ rest) = (balanced? depth rest).map (prepend byte.escape) := by
  rw [StringByte.escape]
  split
  · exact balanced_escape depth _ rest
  · obtain ⟨-, octal, length, -, nonempty, -⟩ := octalWidth_spec byte
    cases digits : StringByte.octalDigits byte.octalWidth byte.value with
    | nil =>
      rw [digits, List.length_nil] at length
      omega
    | cons first run =>
      rw [digits] at octal
      have plain : ∀ each ∈ run, each ≠ Byte.backslash ∧ each ≠ Byte.closeParen ∧
          each ≠ Byte.openParen := fun each member =>
        octal_plain each (List.all_eq_true.mp octal each (by simp [member]))
      rw [List.cons_append, List.cons_append, balanced_escape,
        balanced_plain_run depth run rest plain, prepend_prepend]
      rfl

/-- Between the bytes of a spelled string as many parentheses are open as are open in the
string and find partners behind. -/
theorem balanced_piece (readable utf8 : Bool) (opened : Nat) (byte : UInt8)
    (behind rest : List UInt8) :
    balanced? (min opened (demand (byte :: behind)))
        (StringByte.piece readable utf8
          ⟨byte, behind.head?, lacksPartner opened byte behind⟩ ++ rest) =
      (balanced? (min (openedBehind opened byte) (demand behind)) rest).map
        (prepend (StringByte.piece readable utf8
          ⟨byte, behind.head?, lacksPartner opened byte behind⟩)) := by
  have apart : Byte.closeParen ≠ Byte.openParen := by decide
  -- A parenthesis with a partner changes the depth, and one without is escaped at depth zero.
  by_cases isOpen : byte = Byte.openParen
  · subst isOpen
    have escaped : StringByte.isEscaped readable utf8
        ⟨Byte.openParen, behind.head?, lacksPartner opened Byte.openParen behind⟩ =
          (demand behind == 0) := rfl
    rw [StringByte.piece, escaped]
    cases wanted : demand behind with
    | zero =>
      have depth : demand (Byte.openParen :: behind) = 0 := by simp [demand, wanted]
      rw [depth, Nat.min_zero, Nat.min_zero, if_pos (beq_self_eq_true 0), balanced_escaped]
    | succ count =>
      have depth : demand (Byte.openParen :: behind) = count := by simp [demand, wanted]
      have deeper : min (openedBehind opened Byte.openParen) (count + 1) =
          min opened count + 1 := by
        rw [openedBehind, if_pos rfl]
        omega
      rw [depth, deeper, if_neg (by simp), List.singleton_append, balanced_open]
  by_cases isClose : byte = Byte.closeParen
  · subst isClose
    have escaped : StringByte.isEscaped readable utf8
        ⟨Byte.closeParen, behind.head?, lacksPartner opened Byte.closeParen behind⟩ =
          (opened == 0) := rfl
    have depth : demand (Byte.closeParen :: behind) = demand behind + 1 := by
      simp [demand, apart]
    rw [StringByte.piece, escaped, depth]
    cases opened with
    | zero =>
      have outside : openedBehind 0 Byte.closeParen = 0 := rfl
      rw [outside, Nat.zero_min, Nat.zero_min, if_pos (beq_self_eq_true 0), balanced_escaped]
    | succ outer =>
      have shallower : openedBehind (outer + 1) Byte.closeParen = outer := rfl
      have deeper : min (outer + 1) (demand behind + 1) = min outer (demand behind) + 1 := by
        omega
      rw [shallower, deeper, if_neg (by simp), List.singleton_append, balanced_close]
  · have depth : demand (byte :: behind) = demand behind := by simp [demand, isOpen, isClose]
    have unchanged : openedBehind opened byte = opened := by
      simp [openedBehind, isOpen, isClose]
    rw [depth, unchanged, StringByte.piece]
    split
    · exact balanced_escaped _ _ rest
    · next plain =>
      have noEscape : byte ≠ Byte.backslash := by
        rintro rfl
        simp [StringByte.isEscaped] at plain
      rw [List.singleton_append, balanced_plain _ byte rest noEscape isClose isOpen]

theorem head_broken (readable utf8 : Bool) (opened : Nat) (bytes text : List UInt8)
    (broken : Broken [Byte.backslash, Byte.lineFeed]
      ((annotate opened bytes).map (StringByte.piece readable utf8)) text) :
    ∀ first ∈ text.head?, first = Byte.backslash ∨ first ∈ bytes.head? := by
  intro first member
  cases bytes with
  | nil =>
    cases broken
    cases member
  | cons byte rest =>
    cases broken with
    | keep _ text _ _ =>
      rw [StringByte.piece] at member
      split at member
      · left
        exact (Option.some.inj member).symm
      · right
        exact member
    | cut _ text _ _ =>
      left
      exact (Option.some.inj member).symm

theorem broken_reads (readable utf8 : Bool) (opened : Nat) (bytes text : List UInt8)
    (broken : Broken [Byte.backslash, Byte.lineFeed]
      ((annotate opened bytes).map (StringByte.piece readable utf8)) text) :
    decode text = bytes ∧ ∀ next,
      balanced? (min opened (demand bytes)) (text ++ Byte.closeParen :: next) =
        some (text, next) := by
  induction bytes generalizing opened text with
  | nil =>
    cases broken
    refine ⟨by rw [decode.eq_def], ?_⟩
    intro next
    rw [demand, Nat.min_zero]
    exact balanced_end next
  | cons byte rest ih =>
    -- A cut stands in front of the piece, and decoding drops it.
    cases broken with
    | keep _ text _ tail =>
      obtain ⟨value, split⟩ := ih (openedBehind opened byte) text tail
      have follows := head_broken readable utf8 (openedBehind opened byte) rest text tail
      refine ⟨by rw [decode_piece readable utf8 _ text follows, value], ?_⟩
      intro next
      rw [List.append_assoc, balanced_piece, split]
      rfl
    | cut _ text _ tail =>
      obtain ⟨value, split⟩ := ih (openedBehind opened byte) text tail
      have follows := head_broken readable utf8 (openedBehind opened byte) rest text tail
      constructor
      · rw [List.cons_append, List.singleton_append, decode_break,
          decode_piece readable utf8 _ text follows, value]
      · intro next
        rw [List.cons_append, List.singleton_append, List.cons_append, List.cons_append,
          balanced_escape, List.append_assoc, balanced_piece, split]
        rfl

theorem reads_literal (flags : ReadFlags) (style : WriteFlags) (line : Line)
    (bytes : List UInt8) :
    Reads flags (line.literal (Escape.pieces style bytes)) [.string bytes] true := by
  obtain ⟨text, broken, spelled⟩ := literal_broken line (Escape.pieces style bytes)
  rw [Escape.pieces, all_eq] at broken
  obtain ⟨value, split⟩ := broken_reads _ _ 0 bytes text broken
  rw [spelled]
  apply reads_token
  · rfl
  · nofun
  intro next _
  have closed := split next
  rw [Nat.zero_min] at closed
  rw [List.append_assoc, List.singleton_append, token, if_neg (by decide), if_pos rfl, literal,
    closed]
  dsimp only
  rw [value]

end Literal

end PdfPrimitives.Lexical
