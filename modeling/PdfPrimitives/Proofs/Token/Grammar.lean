import Mathlib.Data.List.TakeWhile
import PdfPrimitives.Token.Step

/-!
The lexical grammar of PDF as a lexer on lists of bytes. It takes the longest text that
belongs to a token and then works out what the text stands for, token by token, without a
state between two bytes. A token is the same whether or not more follows its text.
-/

namespace PdfPrimitives.Lexical

def isInLine (byte : UInt8) : Bool := !Byte.isLineBreak byte

def skip (comments : Bool) (bytes : List UInt8) : List UInt8 :=
  match bytes with
  | [] => []
  | byte :: rest =>
    if Byte.isBlank byte then skip comments rest
    else if byte = Byte.percent && !comments then skip comments (rest.dropWhile isInLine)
    else byte :: rest
termination_by bytes.length
decreasing_by
  · exact Nat.lt_succ_self _
  · exact Nat.lt_succ_of_le (List.dropWhile_suffix _).length_le

def prepend (front : List UInt8) (split : List UInt8 × List UInt8) :
    List UInt8 × List UInt8 := (front ++ split.1, split.2)

/-- The text up to the parenthesis that balances the unescaped ones, inside `depth` more
pairs, and what follows that parenthesis. -/
def balanced? (depth : Nat) : List UInt8 → Option (List UInt8 × List UInt8)
  | [] => none
  | byte :: rest =>
    if byte = Byte.backslash then
      match rest with
      | [] => none
      | next :: rest => (balanced? depth rest).map (prepend [byte, next])
    else if byte = Byte.closeParen then
      match depth with
      | 0 => some ([], rest)
      | outer + 1 => (balanced? outer rest).map (prepend [byte])
    else if byte = Byte.openParen then (balanced? (depth + 1) rest).map (prepend [byte])
    else (balanced? depth rest).map (prepend [byte])

theorem balanced_escape (depth : Nat) (next : UInt8) (rest : List UInt8) :
    balanced? depth (Byte.backslash :: next :: rest) =
      (balanced? depth rest).map (prepend [Byte.backslash, next]) := by
  rw [balanced?.eq_def]
  rfl

theorem balanced_open (depth : Nat) (rest : List UInt8) :
    balanced? depth (Byte.openParen :: rest) =
      (balanced? (depth + 1) rest).map (prepend [Byte.openParen]) := by
  rw [balanced?.eq_def]
  rfl

theorem balanced_close (outer : Nat) (rest : List UInt8) :
    balanced? (outer + 1) (Byte.closeParen :: rest) =
      (balanced? outer rest).map (prepend [Byte.closeParen]) := by
  rw [balanced?.eq_def]
  rfl

theorem balanced_end (rest : List UInt8) :
    balanced? 0 (Byte.closeParen :: rest) = some ([], rest) := by
  rw [balanced?.eq_def]
  rfl

theorem balanced_plain (depth : Nat) (byte : UInt8) (rest : List UInt8)
    (noEscape : byte ≠ Byte.backslash) (noClose : byte ≠ Byte.closeParen)
    (noOpen : byte ≠ Byte.openParen) :
    balanced? depth (byte :: rest) = (balanced? depth rest).map (prepend [byte]) := by
  rw [balanced?.eq_def]
  simp [noEscape, noClose, noOpen]

def dropLineFeed : List UInt8 → List UInt8
  | [] => []
  | byte :: rest => if byte = Byte.lineFeed then rest else byte :: rest

theorem length_dropLineFeed_le (bytes : List UInt8) :
    (dropLineFeed bytes).length ≤ bytes.length := by
  cases bytes with
  | nil => exact Nat.le_refl _
  | cons byte rest =>
    rw [dropLineFeed]
    split
    · exact Nat.le_succ _
    · exact Nat.le_refl _

def octalValue (digits : List UInt8) : UInt8 :=
  digits.foldl (fun value digit => 8 * value + (digit - 0x30)) 0

def decode (text : List UInt8) : List UInt8 :=
  match text with
  | [] => []
  | byte :: rest =>
    if byte = Byte.backslash then
      match rest with
      | [] => []
      | next :: after =>
        if next = Byte.lineFeed then decode after
        else if next = Byte.carriageReturn then decode (dropLineFeed after)
        else if Mode.isOctalDigit next then
          let more := (after.take 2).takeWhile Mode.isOctalDigit
          octalValue (next :: more) :: decode (after.drop more.length)
        else Mode.escaped next :: decode after
    else if byte = Byte.carriageReturn then Byte.lineFeed :: decode (dropLineFeed rest)
    else byte :: decode rest
termination_by text.length
decreasing_by
  · simp only [List.length_cons]; omega
  · have := length_dropLineFeed_le after
    simp only [List.length_cons]; omega
  · simp only [List.length_cons, List.length_drop]; omega
  · simp only [List.length_cons]; omega
  · exact Nat.lt_succ_of_le (length_dropLineFeed_le rest)
  · exact Nat.lt_succ_self _

/-- What a text spells if an octal escape with some value stands in front of it that may
take some more digits. -/
def octalTail (left : Nat) (value : UInt8) (text : List UInt8) : List UInt8 :=
  let more := (text.take left).takeWhile Mode.isOctalDigit
  more.foldl (fun value digit => 8 * value + (digit - 0x30)) value ::
    decode (text.drop more.length)

theorem octalTail_done (value : UInt8) (text : List UInt8) :
    octalTail 0 value text = value :: decode text := rfl

theorem octalTail_digit (left : Nat) (value byte : UInt8) (text : List UInt8)
    (octal : Mode.isOctalDigit byte = true) :
    octalTail (left + 1) value (byte :: text) =
      octalTail left (8 * value + (byte - 0x30)) text := by
  simp [octalTail, octal]

theorem octalTail_stop (left : Nat) (value : UInt8) (text : List UInt8)
    (stops : ∀ byte ∈ text.head?, Mode.isOctalDigit byte = false) :
    octalTail left value text = value :: decode text := by
  cases text with
  | nil => simp [octalTail]
  | cons byte text =>
    cases left with
    | zero => rfl
    | succ left => simp [octalTail, stops byte rfl]

theorem decode_plain (byte : UInt8) (text : List UInt8) (noEscape : byte ≠ Byte.backslash)
    (noReturn : byte ≠ Byte.carriageReturn) :
    decode (byte :: text) = byte :: decode text := by
  rw [decode.eq_def]
  simp [noEscape, noReturn]

theorem decode_return (text : List UInt8) :
    decode (Byte.carriageReturn :: text) =
      Byte.lineFeed :: decode (dropLineFeed text) := by
  rw [decode.eq_def]
  simp [show Byte.carriageReturn ≠ Byte.backslash by decide]

theorem decode_octal (byte : UInt8) (text : List UInt8)
    (octal : Mode.isOctalDigit byte = true) :
    decode (Byte.backslash :: byte :: text) = octalTail 2 (byte - 0x30) text := by
  have noFeed : byte ≠ Byte.lineFeed := by rintro rfl; contradiction
  have noReturn : byte ≠ Byte.carriageReturn := by rintro rfl; contradiction
  rw [decode, if_pos rfl]
  simp [noFeed, noReturn, octal, octalTail, octalValue]

theorem decode_escaped (byte : UInt8) (text : List UInt8) (noFeed : byte ≠ Byte.lineFeed)
    (noReturn : byte ≠ Byte.carriageReturn) (octal : Mode.isOctalDigit byte = false) :
    decode (Byte.backslash :: byte :: text) =
      Mode.escaped byte :: decode text := by
  rw [decode, if_pos rfl]
  simp [noFeed, noReturn, octal]

theorem decode_break (text : List UInt8) :
    decode (Byte.backslash :: Byte.lineFeed :: text) = decode text := by
  rw [decode, if_pos rfl]
  simp

theorem decode_return_break (text : List UInt8) :
    decode (Byte.backslash :: Byte.carriageReturn :: text) =
      decode (dropLineFeed text) := by
  rw [decode, if_pos rfl]
  simp [show Byte.carriageReturn ≠ Byte.lineFeed by decide]

def literal (bytes : List UInt8) : Except TokenFault (Token × List UInt8) :=
  match balanced? 0 bytes with
  | some (text, behind) => .ok (.string (decode text), behind)
  | none => .error .unterminatedString

def pairs : List UInt8 → List UInt8
  | high :: low :: rest => (16 * high + low) :: pairs rest
  | [high] => [16 * high]
  | [] => []

def isHexText (byte : UInt8) : Bool := Byte.isBlank byte || (Byte.hexValue? byte).isSome

def hexEnd (string : List UInt8) : List UInt8 → Except TokenFault (Token × List UInt8)
  | [] => .error .unterminatedHexString
  | byte :: behind =>
    if byte = Byte.greater then .ok (.string string, behind) else .error (.invalidCharacter byte)

def angle (bytes : List UInt8) : Except TokenFault (Token × List UInt8) :=
  if bytes.head? = some Byte.less then .ok (.delimiter .dictionaryStart, bytes.tail)
  else
    hexEnd (pairs ((bytes.takeWhile isHexText).filterMap Byte.hexValue?))
      (bytes.dropWhile isHexText)

/-- The bytes that the text of a name stands for, up to the first that may not stand where
it stands. -/
def nameBytes (plain : Bool) : List UInt8 → List UInt8 × Option TokenFault
  | [] => ([], none)
  | byte :: rest =>
    if !Byte.isVisible byte then ([], some (.invalidCharacter byte))
    else if byte = Byte.hash && !plain then
      match rest with
      | [] => ([], some .unterminatedName)
      | first :: rest =>
        match Byte.hexValue? first, rest with
        | none, _ => ([], some (.invalidCharacter first))
        | some _, [] => ([], some .unterminatedName)
        | some high, second :: rest =>
          match Byte.hexValue? second with
          | none => ([], some (.invalidCharacter second))
          | some low =>
            if 16 * high + low = 0 then ([], some (.invalidCharacter second))
            else
              let (decoded, fault) := nameBytes plain rest
              ((16 * high + low) :: decoded, fault)
    else
      let (decoded, fault) := nameBytes plain rest
      (byte :: decoded, fault)

def name (plain : Bool) (bytes : List UInt8) : Except TokenFault (Token × List UInt8) :=
  let (decoded, fault) := nameBytes plain (bytes.takeWhile Byte.isRegular)
  if wordCapacity < decoded.length then .error .bufferExhausted
  else
    match fault with
    | some fault => .error fault
    | none => .ok (.name decoded, bytes.dropWhile Byte.isRegular)

def word (byte : UInt8) (rest : List UInt8) : Except TokenFault (Token × List UInt8) :=
  let run := byte :: rest.takeWhile Byte.isRegular
  if wordCapacity < run.length then .error .bufferExhausted
  else .ok (Token.ofWord run, rest.dropWhile Byte.isRegular)

def closing (bytes : List UInt8) : Except TokenFault (Token × List UInt8) :=
  if bytes.head? = some Byte.greater then .ok (.delimiter .dictionaryEnd, bytes.tail)
  else .error .unterminatedDictionary

def token (plain : Bool) (byte : UInt8) (rest : List UInt8) :
    Except TokenFault (Token × List UInt8) :=
  if byte = Byte.percent then .ok (.comment (rest.takeWhile isInLine), rest.dropWhile isInLine)
  else if byte = Byte.openParen then literal rest
  else if byte = Byte.slash then name plain rest
  else if byte = Byte.less then angle rest
  else if byte = Byte.greater then closing rest
  else if byte = Byte.openBracket then .ok (.delimiter .arrayStart, rest)
  else if byte = Byte.closeBracket then .ok (.delimiter .arrayEnd, rest)
  else if byte = Byte.openBrace then .ok (.delimiter .procedureStart, rest)
  else if byte = Byte.closeBrace then .ok (.delimiter .procedureEnd, rest)
  else if byte = Byte.closeParen then .error (.invalidCharacter byte)
  else word byte rest

abbrev Lexer := List UInt8 → Except TokenFault (Token × List UInt8)

theorem of_ite {motive : Lexer → Prop} {choice : Prop} [Decidable choice] {first second : Lexer}
    (yes : motive first) (no : motive second) :
    motive fun rest => if choice then first rest else second rest := by
  by_cases chosen : choice
  · simpa only [if_pos chosen] using yes
  · simpa only [if_neg chosen] using no

/-- The lexer that the first byte of a token chooses. -/
theorem token_cases {motive : Lexer → Prop} (plain : Bool) (byte : UInt8)
    (comment : motive fun rest =>
      .ok (.comment (rest.takeWhile isInLine), rest.dropWhile isInLine))
    (literal : motive literal)
    (name : motive (name plain))
    (angle : motive angle)
    (closing : motive closing)
    (bracket : ∀ kind, motive fun rest => .ok (.delimiter kind, rest))
    (stray : motive fun _ => .error (.invalidCharacter byte))
    (word : motive (word byte)) : motive (token plain byte) := by
  have chosen : token plain byte = fun rest => token plain byte rest := rfl
  rw [chosen]
  unfold token
  apply of_ite comment
  apply of_ite literal
  apply of_ite name
  apply of_ite angle
  apply of_ite closing
  apply of_ite (bracket .arrayStart)
  apply of_ite (bracket .arrayEnd)
  apply of_ite (bracket .procedureStart)
  apply of_ite (bracket .procedureEnd)
  exact of_ite stray word

/-- The end of a line ends what is taken from the line, whatever follows. -/
theorem line_split (line : List UInt8) {tail : List UInt8}
    (ends : ∀ byte ∈ tail.head?, isInLine byte = false) :
    (line ++ tail).takeWhile isInLine = line.takeWhile isInLine ∧
      (line ++ tail).dropWhile isInLine = line.dropWhile isInLine ++ tail := by
  induction line with
  | nil =>
    cases tail with
    | nil => exact ⟨rfl, rfl⟩
    | cons byte tail => simp [ends byte rfl]
  | cons byte line ih =>
    cases inLine : isInLine byte with
    | true => simp [inLine, ih]
    | false => simp [inLine]

section Progress

theorem skip_suffix (comments : Bool) (bytes : List UInt8) : skip comments bytes <:+ bytes := by
  fun_induction skip comments bytes with
  | case1 => exact List.suffix_rfl
  | case2 byte rest blank ih => exact ih.trans (List.suffix_cons byte rest)
  | case3 byte rest blank comment ih =>
    exact (ih.trans (List.dropWhile_suffix _)).trans (List.suffix_cons byte rest)
  | case4 => exact List.suffix_rfl

/-- What is skipped in front of a token amounts to nothing by itself. -/
theorem skip_gap (comments : Bool) (bytes rest : List UInt8) (byte : UInt8)
    (skipped : skip comments bytes = byte :: rest) :
    ∃ gap, bytes = gap ++ byte :: rest ∧ skip comments gap = [] := by
  fun_induction skip comments bytes with
  | case1 => cases skipped
  | case2 first tail blank ih =>
    obtain ⟨gap, rfl, nothing⟩ := ih skipped
    exact ⟨first :: gap, rfl, by rw [skip, if_pos blank, nothing]⟩
  | case3 first tail visible comment ih =>
    obtain ⟨gap, whole, nothing⟩ := ih skipped
    refine ⟨first :: (tail.takeWhile isInLine ++ gap), ?_, ?_⟩
    · rw [List.cons_append, List.append_assoc, ← whole, List.takeWhile_append_dropWhile]
    · -- The comment ends where it did, in front of the line break that the gap begins with.
      have behind : gap.dropWhile isInLine = gap := by
        cases gap with
        | nil => rfl
        | cons next gap =>
          have stops := List.head?_dropWhile_not isInLine tail
          rw [whole] at stops
          exact List.dropWhile_cons_of_neg (by simpa using stops)
      have inside : ∀ byte ∈ tail.takeWhile isInLine, isInLine byte = true :=
        fun _ member => List.mem_takeWhile_imp member
      rw [skip, if_neg visible, if_pos comment, List.dropWhile_append_of_pos inside, behind,
        nothing]
  | case4 first tail visible kept => exact ⟨[], skipped, by rw [skip]⟩

theorem of_map_prepend {piece text behind : List UInt8}
    {split : Option (List UInt8 × List UInt8)}
    (found : split.map (prepend piece) = some (text, behind)) :
    ∃ inner, text = piece ++ inner ∧ split = some (inner, behind) := by
  obtain ⟨⟨inner, after⟩, present, same⟩ := Option.map_eq_some_iff.mp found
  obtain ⟨rfl, rfl⟩ := Prod.mk.inj same
  exact ⟨inner, rfl, present⟩

theorem balanced_split (depth : Nat) (bytes text behind : List UInt8)
    (found : balanced? depth bytes = some (text, behind)) :
    bytes = text ++ Byte.closeParen :: behind := by
  fun_induction balanced? depth bytes generalizing text with
  | case1 | case2 => simp at found
  | case4 =>
    obtain ⟨rfl, rfl⟩ := Prod.mk.inj (Option.some.inj found)
    rfl
  | case3 _ _ _ ih | case5 _ _ _ ih | case6 _ _ _ _ ih | case7 _ _ _ _ _ _ ih =>
    obtain ⟨inner, rfl, present⟩ := of_map_prepend found
    simpa using ih inner present

/-- What a lexer takes for a token it takes whole if nothing follows. -/
def Cuts (lexer : Lexer) : Prop :=
  ∀ rest found behind, lexer rest = .ok (found, behind) →
    ∃ text, rest = text ++ behind ∧ lexer text = .ok (found, [])

/-- A lexer that takes a run of bytes cuts if what follows the run does not show. -/
theorem run_cuts (isPart : UInt8 → Bool) {lexer : Lexer}
    (whole : ∀ rest, lexer rest =
      (lexer (rest.takeWhile isPart)).map fun read => (read.1, rest.dropWhile isPart)) :
    Cuts lexer := by
  intro rest found behind read
  have inside : (rest.takeWhile isPart).dropWhile isPart = [] :=
    List.dropWhile_eq_nil_iff.mpr fun _ member => List.mem_takeWhile_imp member
  have alone := whole (rest.takeWhile isPart)
  rw [List.takeWhile_idem, inside] at alone
  rw [whole] at read
  refine ⟨rest.takeWhile isPart, ?_⟩
  cases run : lexer (rest.takeWhile isPart) with
  | error fault => rw [run] at read; cases read
  | ok amount =>
    rw [run] at read alone
    obtain ⟨rfl, rfl⟩ := Prod.mk.inj (Except.ok.inj read)
    exact ⟨List.takeWhile_append_dropWhile.symm, alone⟩

theorem comment_cuts :
    Cuts fun rest => .ok (.comment (rest.takeWhile isInLine), rest.dropWhile isInLine) := by
  apply run_cuts isInLine
  intro rest
  simp only [List.takeWhile_idem, Except.map]

theorem name_cuts (plain : Bool) : Cuts (name plain) := by
  apply run_cuts Byte.isRegular
  intro rest
  unfold name
  rw [List.takeWhile_idem]
  dsimp only
  split
  · rfl
  · split <;> rfl

theorem word_cuts (byte : UInt8) : Cuts (word byte) := by
  apply run_cuts Byte.isRegular
  intro rest
  unfold word
  rw [List.takeWhile_idem]
  dsimp only
  split <;> rfl

theorem balanced_alone (depth : Nat) (bytes text behind : List UInt8)
    (found : balanced? depth bytes = some (text, behind)) (other : List UInt8) :
    balanced? depth (text ++ Byte.closeParen :: other) = some (text, other) := by
  fun_induction balanced? depth bytes generalizing text with
  | case1 | case2 => simp at found
  | case3 depth next rest ih =>
    obtain ⟨inner, rfl, present⟩ := of_map_prepend found
    simp only [List.cons_append, List.nil_append]
    rw [balanced_escape, ih inner present]
    rfl
  | case4 =>
    obtain ⟨rfl, rfl⟩ := Prod.mk.inj (Option.some.inj found)
    exact balanced_end other
  | case5 rest outer _ ih =>
    obtain ⟨inner, rfl, present⟩ := of_map_prepend found
    simp only [List.cons_append, List.nil_append]
    rw [balanced_close, ih inner present]
    rfl
  | case6 depth rest _ _ ih =>
    obtain ⟨inner, rfl, present⟩ := of_map_prepend found
    simp only [List.cons_append, List.nil_append]
    rw [balanced_open, ih inner present]
    rfl
  | case7 depth byte rest noEscape noClose noOpen ih =>
    obtain ⟨inner, rfl, present⟩ := of_map_prepend found
    simp only [List.cons_append, List.nil_append]
    rw [balanced_plain depth byte _ noEscape noClose noOpen, ih inner present]
    rfl

theorem literal_cuts : Cuts literal := by
  intro rest found behind read
  unfold literal at read
  split at read
  case h_1 text after split =>
    obtain ⟨rfl, rfl⟩ := Prod.mk.inj (Except.ok.inj read)
    refine ⟨text ++ [Byte.closeParen], ?_, ?_⟩
    · rw [balanced_split 0 rest text after split]
      simp
    · rw [literal, balanced_alone 0 rest text after split []]
  case h_2 => cases read

theorem hexText_closed (bytes : List UInt8) :
    let text := bytes.takeWhile isHexText ++ [Byte.greater]
    text.takeWhile isHexText = bytes.takeWhile isHexText ∧
      text.dropWhile isHexText = [Byte.greater] := by
  have inside : ∀ byte ∈ bytes.takeWhile isHexText, isHexText byte = true :=
    fun _ member => List.mem_takeWhile_imp member
  constructor
  · rw [List.takeWhile_append_of_pos inside]
    exact List.append_nil _
  · rw [List.dropWhile_append_of_pos inside]
    rfl

theorem angle_cuts : Cuts angle := by
  intro rest found behind read
  unfold angle at read
  split at read
  case isTrue doubled =>
    obtain ⟨rfl, rfl⟩ := Prod.mk.inj (Except.ok.inj read)
    cases rest with
    | nil => cases doubled
    | cons first rest =>
      obtain rfl := Option.some.inj doubled
      exact ⟨[Byte.less], rfl, rfl⟩
  case isFalse single =>
    have whole := List.takeWhile_append_dropWhile (p := isHexText) (l := rest)
    obtain ⟨taken, dropped⟩ := hexText_closed rest
    cases left : rest.dropWhile isHexText with
    | nil => rw [left] at read; cases read
    | cons last after =>
      rw [left, hexEnd] at read
      rw [left] at whole
      split at read
      case isFalse => cases read
      case isTrue greater =>
        subst greater
        obtain ⟨rfl, rfl⟩ := Prod.mk.inj (Except.ok.inj read)
        refine ⟨rest.takeWhile isHexText ++ [Byte.greater], by simpa using whole.symm, ?_⟩
        have single' : (rest.takeWhile isHexText ++ [Byte.greater]).head? ≠ some Byte.less := by
          rw [← whole] at single
          cases run : rest.takeWhile isHexText with
          | nil => decide
          | cons first run => rw [run] at single; exact single
        rw [angle, if_neg single', taken, dropped]
        rfl

theorem closing_cuts : Cuts closing := by
  intro rest found behind read
  unfold closing at read
  split at read
  case isTrue doubled =>
    obtain ⟨rfl, rfl⟩ := Prod.mk.inj (Except.ok.inj read)
    cases rest with
    | nil => cases doubled
    | cons first rest =>
      obtain rfl := Option.some.inj doubled
      exact ⟨[Byte.greater], rfl, rfl⟩
  case isFalse => cases read

theorem token_cuts (plain : Bool) (byte : UInt8) : Cuts (token plain byte) := by
  apply token_cases plain byte (motive := Cuts)
  case comment => exact comment_cuts
  case literal => exact literal_cuts
  case name => exact name_cuts plain
  case angle => exact angle_cuts
  case closing => exact closing_cuts
  case bracket =>
    intro kind rest found behind read
    obtain ⟨rfl, rfl⟩ := Prod.mk.inj (Except.ok.inj read)
    exact ⟨[], rfl, rfl⟩
  case stray =>
    intro rest found behind read
    cases read
  case word => exact word_cuts byte

theorem token_bracket (plain : Bool) (byte : UInt8) (rest : List UInt8)
    (bracket : byte = Byte.openBracket ∨ byte = Byte.closeBracket ∨
      byte = Byte.openBrace ∨ byte = Byte.closeBrace) :
    ∃ kind, Mode.opening? byte = some (.delimiter kind) ∧ Byte.isDelimiter byte = true ∧
      token plain byte rest = .ok (.delimiter kind, rest) := by
  rcases bracket with rfl | rfl | rfl | rfl <;> exact ⟨_, rfl, rfl, rfl⟩

theorem token_shorter (comments plain : Bool) (bytes rest behind : List UInt8) (byte : UInt8)
    (found : Token) (skipped : skip comments bytes = byte :: rest)
    (read : token plain byte rest = .ok (found, behind)) : behind.length < bytes.length := by
  have skipLength := (skip_suffix comments bytes).length_le
  obtain ⟨text, rfl, -⟩ := token_cuts plain byte rest found behind read
  simp only [skipped, List.length_cons, List.length_append] at skipLength
  omega

end Progress

def lex (flags : ReadFlags) (bytes : List UInt8) : List Token × Option TokenFault :=
  match _ : skip flags.comments bytes with
  | [] => ([], none)
  | byte :: rest =>
    match _ : token flags.plainNames byte rest with
    | .error fault => ([], some fault)
    | .ok (found, behind) =>
      let (tokens, fault) := lex flags behind
      (found :: tokens, fault)
termination_by bytes.length
decreasing_by exact token_shorter _ _ _ _ _ _ _ ‹_› ‹_›

theorem lex_of_end (flags : ReadFlags) (bytes : List UInt8)
    (ended : skip flags.comments bytes = []) : lex flags bytes = ([], none) := by
  rw [lex]
  split <;> rename_i skipped <;> rw [ended] at skipped
  cases skipped

theorem lex_of_fault (flags : ReadFlags) (bytes rest : List UInt8) (byte : UInt8)
    (fault : TokenFault) (starts : skip flags.comments bytes = byte :: rest)
    (wrong : token flags.plainNames byte rest = .error fault) :
    lex flags bytes = ([], some fault) := by
  rw [lex]
  split <;> rename_i skipped <;> rw [starts] at skipped
  · cases skipped
  · obtain ⟨rfl, rfl⟩ := List.cons.inj skipped
    split <;> rename_i read <;> rw [wrong] at read
    · rw [Except.error.inj read]
    · cases read

theorem lex_of_token (flags : ReadFlags) (bytes rest behind : List UInt8) (byte : UInt8)
    (found : Token) (starts : skip flags.comments bytes = byte :: rest)
    (given : token flags.plainNames byte rest = .ok (found, behind)) :
    lex flags bytes = (found :: (lex flags behind).1, (lex flags behind).2) := by
  rw [lex]
  split <;> rename_i skipped <;> rw [starts] at skipped
  · cases skipped
  · obtain ⟨rfl, rfl⟩ := List.cons.inj skipped
    split <;> rename_i read <;> rw [given] at read
    · cases read
    · obtain ⟨rfl, rfl⟩ := Prod.mk.inj (Except.ok.inj read)
      rfl

end PdfPrimitives.Lexical
