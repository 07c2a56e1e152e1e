import PdfPrimitives.Proofs.Token.Reading
import PdfPrimitives.Proofs.Token.StringSpelling
import PdfPrimitives.Token.Respelling

/-!
What is written reads back. The bytes that a writer gave to its sink read as the tokens it
accepted, whatever is written behind them: that is what every write keeps, for each pair of
neighbours and wherever a line is broken.
-/

namespace PdfPrimitives

open Lexical

namespace Line

variable {flags : ReadFlags}

theorem separator_cases (line : Line) (spaced : Bool) (length : Nat) :
    (line.separator spaced length = [] ∧ (spaced = true → line.touching = false)) ∨
      ∃ blank, line.separator spaced length = [blank] ∧ Byte.isBlank blank = true := by
  unfold separator
  dsimp only
  generalize (if spaced && line.touching then length + 1 else length) = width
  split
  · exact .inr ⟨Byte.lineFeed, rfl, rfl⟩
  · split
    · exact .inr ⟨Byte.space, rfl, rfl⟩
    · next noGap =>
      left
      refine ⟨rfl, ?_⟩
      intro wanted
      simpa [wanted] using noGap

theorem blank_stops (blank : UInt8) (rest : List UInt8) (isBlank : Byte.isBlank blank = true) :
    Stops (blank :: rest) := by
  intro byte member
  obtain rfl := Option.some.inj member
  simp [Byte.isRegular, isBlank]

theorem reads_separated (line : Line) (spaced : Bool) (length : Nat) (text : List UInt8)
    (tokens : List Token) (closed : Bool) (reads : Reads flags text tokens closed)
    (starts : spaced = false → Stops text) :
    Reads flags (line.separator spaced length ++ text) tokens closed ∧
      (line.touching = true → Stops (line.separator spaced length ++ text)) := by
  rcases separator_cases line spaced length with ⟨nothing, apart⟩ | ⟨blank, single, isBlank⟩
  · rw [nothing, List.nil_append]
    refine ⟨reads, ?_⟩
    intro touching
    apply starts
    rw [← Bool.not_eq_true]
    intro wanted
    rw [apart wanted] at touching
    cases touching
  · rw [single, List.singleton_append]
    exact ⟨reads.behind_blank blank isBlank, fun _ => blank_stops blank text isBlank⟩

theorem touching_word (line : Line) (text : List UInt8) (isWord : IsWord text) :
    (line.advance text).touching = true := by
  rw [advance, List.getLast?_eq_some_getLast isWord.nonempty]
  exact isWord.regular _ (List.getLast_mem isWord.nonempty)

end Line

/-- Tokens that can be read back if they are written: words must fit into the reader, and
a keyword must be a word and no number. -/
def Token.Fits : Token → Prop
  | .name bytes => bytes.length ≤ wordCapacity
  | .keyword bytes => IsWord bytes ∧ Token.number? bytes = none
  | _ => True

def Token.Suits (flags : ReadFlags) : Token → Prop
  | .name bytes => flags.plainNames = true → ∀ byte ∈ bytes, Byte.isVisible byte = true
  | .comment _ => flags.comments = true
  | _ => True

structure Line.Spelled (flags : ReadFlags) (line : Line) (token : Token)
    (pieces : List (List UInt8)) (closed : Bool) : Prop where
  reads : Reads flags pieces.flatten [token] closed
  nonempty : pieces.flatten ≠ []
  stops : line.touching = true → Stops pieces.flatten
  touching : closed = false → ((pieces.foldl advance line).behind token).touching = true

namespace Line

variable {flags : ReadFlags} {style : WriteFlags} (same : style.plainNames = flags.plainNames)
variable (line : Line)

theorem spelled_word (text : List UInt8) (token : Token) (isWord : IsWord text)
    (stands : Token.ofWord text = token) (behind : ∀ line : Line, line.behind token = line) :
    line.Spelled flags token (line.separated true [text]) false := by
  have reads : Reads flags text [token] false := reads_word text token isWord stands
  obtain ⟨separated, stops⟩ := reads_separated line true [text].flatten.length text [token] false
    reads (by simp)
  refine ⟨by simpa [Line.separated] using separated, ?_, by simpa [Line.separated] using stops, ?_⟩
  · simp [Line.separated, isWord.nonempty]
  · intro _
    rw [behind]
    exact touching_word _ text isWord

theorem spelled_delimited (length : Nat) (text : List UInt8) (token : Token) (closed : Bool)
    (first : UInt8) (rest : List UInt8) (text_eq : text = first :: rest)
    (delimits : Byte.isRegular first = false) (reads : Reads flags text [token] closed) :
    Reads flags (line.separator false length ++ text) [token] closed ∧
      line.separator false length ++ text ≠ [] ∧
      (line.touching = true → Stops (line.separator false length ++ text)) := by
  have starts : Stops text := by
    intro byte member
    rw [text_eq] at member
    rwa [← Option.some.inj member]
  obtain ⟨separated, stops⟩ :=
    reads_separated line false length text [token] closed reads (fun _ => starts)
  exact ⟨separated, by simp [text_eq], stops⟩

theorem spelled_string (bytes : List UInt8) :
    line.Spelled flags (.string bytes) (line.stringPieces style bytes) true := by
  unfold stringPieces
  split
  · obtain ⟨text, -, text_eq⟩ := hexadecimal_broken
      (line.advance (line.separator false (min (2 * bytes.length + 2) Token.stringReserve))) bytes
    obtain ⟨reads, nonempty, stops⟩ := spelled_delimited line
      (min (2 * bytes.length + 2) Token.stringReserve) _ (.string bytes) true _ _ text_eq rfl
      (reads_hexadecimal flags _ bytes)
    exact ⟨by simpa [hexPieces] using reads, by simpa [hexPieces] using nonempty,
      by simpa [hexPieces] using stops, by simp⟩
  · obtain ⟨text, -, text_eq⟩ := literal_broken
      (line.advance (line.separator false (min (bytes.length + 2) Token.stringReserve)))
      (Escape.pieces style bytes)
    obtain ⟨reads, nonempty, stops⟩ := spelled_delimited line
      (min (bytes.length + 2) Token.stringReserve) _ (.string bytes) true _ _ text_eq rfl
      (reads_literal flags style _ bytes)
    exact ⟨by simpa [literalPieces] using reads, by simpa [literalPieces] using nonempty,
      by simpa [literalPieces] using stops, by simp⟩

include same in
theorem spelled_name (bytes text : List UInt8) (short : bytes.length ≤ wordCapacity)
    (suits : Token.Suits flags (.name bytes)) (spelled : Escape.name? style bytes = some text) :
    line.Spelled flags (.name bytes) (line.separated false [text]) false := by
  obtain ⟨pieces, -, text_eq⟩ := Option.map_eq_some_iff.mp spelled
  obtain ⟨reads, nonempty, stops⟩ := spelled_delimited line [text].flatten.length text
    (.name bytes) false _ _ text_eq.symm rfl (reads_name style same bytes text short suits spelled)
  exact ⟨by simpa [Line.separated] using reads, by simpa [Line.separated] using nonempty,
    by simpa [Line.separated] using stops, fun _ => rfl⟩

theorem spelled_comment (wanted : flags.comments = true) (bytes : List UInt8)
    (single : bytes.any Byte.isLineBreak = false) :
    line.Spelled flags (.comment bytes)
      [line.separator false (bytes.length + 1), [Byte.percent], bytes, [Byte.lineFeed]] true := by
  obtain ⟨reads, nonempty, stops⟩ := spelled_delimited line (bytes.length + 1)
    (Byte.percent :: bytes ++ [Byte.lineFeed]) (.comment bytes) true Byte.percent
    (bytes ++ [Byte.lineFeed]) rfl rfl (reads_comment wanted bytes single)
  exact ⟨by simpa using reads, by simp, by simpa using stops, by simp⟩

theorem spelled_delimiter (kind : Delimiter) :
    line.Spelled flags (.delimiter kind) (line.separated false [kind.spelling]) true := by
  obtain ⟨first, rest, text_eq, delimits⟩ : ∃ first rest, kind.spelling = first :: rest ∧
      Byte.isRegular first = false := by
    cases kind <;> exact ⟨_, _, rfl, rfl⟩
  obtain ⟨reads, nonempty, stops⟩ := spelled_delimited line [kind.spelling].flatten.length
    kind.spelling (.delimiter kind) true first rest text_eq delimits (reads_delimiter kind)
  exact ⟨by simpa [Line.separated] using reads, by simpa [Line.separated] using nonempty,
    by simpa [Line.separated] using stops, by simp⟩

include same in
theorem spelled_pieces (token : Token) (fits : token.Fits) (suits : token.Suits flags)
    (pieces : List (List UInt8)) (found : line.pieces? style token = some pieces) :
    ∃ closed, line.Spelled flags token pieces closed := by
  cases token with
  | integer value =>
    obtain rfl := Option.some.inj found
    refine ⟨false, spelled_word line _ _ (isWord_integer value) ?_ fun _ => rfl⟩
    rw [Token.ofWord, Token.number_integer, Option.getD_some]
  | real value =>
    obtain ⟨text, spelled, rfl⟩ := Option.map_eq_some_iff.mp found
    refine ⟨false, spelled_word line _ _ (isWord_real value text spelled) ?_ fun _ => rfl⟩
    rw [Token.ofWord, Token.number_real value text spelled, Option.getD_some]
  | string bytes =>
    obtain rfl := Option.some.inj found
    exact ⟨true, spelled_string line bytes⟩
  | name bytes =>
    obtain ⟨text, spelled, rfl⟩ := Option.map_eq_some_iff.mp found
    exact ⟨false, spelled_name same line bytes text fits suits spelled⟩
  | keyword bytes =>
    obtain ⟨isWord, noNumber⟩ := fits
    simp only [pieces?] at found
    split at found
    · cases found
    · obtain rfl := Option.some.inj found
      refine ⟨false, spelled_word line _ _ isWord ?_ fun _ => rfl⟩
      rw [Token.ofWord, noNumber, Option.getD_none]
  | comment bytes =>
    simp only [pieces?] at found
    split at found
    · cases found
    · next single =>
      obtain rfl := Option.some.inj found
      exact ⟨true, spelled_comment line suits bytes (by simpa using single)⟩
  | delimiter kind =>
    obtain rfl := Option.some.inj found
    exact ⟨true, spelled_delimiter line kind⟩

end Line

namespace Writer

theorem emit_unlimited (pieces : List (List UInt8)) (line : Line) (received : Array UInt8)
    (fault : StreamFault) :
    emit ⟨line, ⟨received, none, fault⟩⟩ pieces =
      (.ok (), ⟨pieces.foldl Line.advance line, ⟨received ++ pieces.flatten, none, fault⟩⟩) := by
  induction pieces generalizing line received with
  | nil => simp [emit]
  | cons piece pieces ih =>
    -- Pieces are appended one by one and arrive as one text.
    have together : received ++ piece ++ pieces.flatten =
        received ++ (piece ++ pieces.flatten) := by
      apply Array.toList_inj.mp
      simp
    rw [emit]
    simp only [Sink.write, ih, List.foldl_cons, List.flatten_cons, together]

theorem emit_fault (pieces : List (List UInt8)) (writer : Writer) (fault : TokenFault)
    (failed : (writer.emit pieces).1 = .error fault) : ∃ cause, fault = .stream cause := by
  induction pieces generalizing writer with
  | nil => cases failed
  | cons piece pieces ih =>
    obtain ⟨line, received, room, cause⟩ := writer
    rw [emit] at failed
    cases room with
    | none => exact ih _ failed
    | some room =>
      by_cases fits : piece.length ≤ room
      · simp only [Sink.write, fits, ↓reduceIte] at failed
        exact ih _ failed
      · simp only [Sink.write, fits, ↓reduceIte] at failed
        exact ⟨cause, (Except.error.inj failed).symm⟩

theorem write_badToken (flags : WriteFlags) (writer next : Writer) (token : Token)
    (refused : writer.write flags token = (.error .badToken, next)) : next = writer := by
  unfold write at refused
  split at refused
  · exact (Prod.mk.inj refused).2.symm
  · next pieces _ =>
    split at refused
    · cases refused
    · next fault failed emitted =>
      obtain ⟨rfl, -⟩ : fault = .badToken ∧ failed = next := by simpa using refused
      obtain ⟨cause, isStream⟩ := emit_fault pieces writer .badToken (by rw [emitted])
      cases isStream

theorem write_unlimited (flags : WriteFlags) (line : Line) (received : Array UInt8)
    (fault : StreamFault) (token : Token) :
    write flags ⟨line, ⟨received, none, fault⟩⟩ token =
      match line.pieces? flags token with
      | none => (.error .badToken, ⟨line, ⟨received, none, fault⟩⟩)
      | some pieces =>
        (.ok (), ⟨(pieces.foldl Line.advance line).behind token,
          ⟨received ++ pieces.flatten, none, fault⟩⟩) := by
  rw [write]
  dsimp only
  cases line.pieces? flags token with
  | none => rfl
  | some pieces =>
    simp only [emit_unlimited]

end Writer

inductive Writing.Command where
  /-- Break lines that become longer than this, or none for zero. -/
  | limit (limit : Nat)
  | write (flags : WriteFlags) (token : Token)

namespace Writing

def obey (writing : Writing) : Command → Writing
  | .limit limit => { writing with writer := writing.writer.setLimit limit }
  | .write flags token => writing.push flags token

structure Sound (flags : ReadFlags) (writing : Writing) : Prop where
  unlimited : writing.writer.sink.room = none
  reads : ∃ closed, Reads flags writing.output writing.written.toList closed ∧
    (closed = false → writing.writer.line.touching = true)
  faults : ∀ fault ∈ writing.faults.toList, fault = .badToken

/-- A token that is refused adds nothing to what is written. -/
theorem Sound.refused {flags : ReadFlags} {writing : Writing} (sound : writing.Sound flags) :
    Sound flags ⟨writing.writer, writing.written, writing.faults.push .badToken⟩ := by
  refine ⟨sound.unlimited, sound.reads, ?_⟩
  intro fault member
  rw [Array.toList_push, List.mem_append, List.mem_singleton] at member
  exact member.elim (sound.faults fault) id

theorem sound_push (flags : ReadFlags) (writing : Writing) (style : WriteFlags)
    (same : style.plainNames = flags.plainNames) (token : Token) (fits : token.Fits)
    (suits : token.Suits flags) (sound : writing.Sound flags) :
    (writing.push style token).Sound flags := by
  obtain ⟨⟨line, received, room, fault⟩, written, faults⟩ := writing
  obtain ⟨unlimited, ⟨closed, reads, touching⟩, bad⟩ := sound
  obtain rfl : room = none := unlimited
  rw [push]
  simp only [Writer.write_unlimited]
  cases found : line.pieces? style token with
  | none => exact Sound.refused ⟨rfl, ⟨closed, reads, touching⟩, bad⟩
  | some pieces =>
    obtain ⟨last, spelled⟩ := Line.spelled_pieces same line token fits suits pieces found
    -- If a word stands at the end of what is written, the line knows that it is touching.
    have stops : closed = false → Stops pieces.flatten := fun opened =>
      spelled.stops (touching opened)
    refine ⟨rfl, ⟨last, ?_, spelled.touching⟩, bad⟩
    simpa [output] using reads.append spelled.reads spelled.nonempty stops

def Command.Allowed : Command → Prop
  | .limit _ => True
  | .write flags token => flags.plainNames = false ∧ token.Fits

theorem suits_withComments (token : Token) : token.Suits withComments := by
  cases token with
  | name bytes => nofun
  | comment bytes => rfl
  | integer | real | string | keyword | delimiter => trivial

theorem sound_obey (writing : Writing) (command : Command) (allowed : command.Allowed)
    (sound : writing.Sound withComments) : (writing.obey command).Sound withComments := by
  cases command with
  | limit limit => exact ⟨sound.unlimited, sound.reads, sound.faults⟩
  | write flags token =>
    obtain ⟨escapes, fits⟩ := allowed
    exact sound_push withComments writing flags escapes token fits (suits_withComments token)
      sound

theorem sound_start {flags : ReadFlags} (limit : Nat) : (start limit).Sound flags :=
  ⟨rfl, ⟨true, reads_nil, fun opened => nomatch opened⟩, by simp [start]⟩

theorem sound_foldl (commands : List Command) (writing : Writing)
    (allowed : ∀ command ∈ commands, command.Allowed) (sound : writing.Sound withComments) :
    (commands.foldl obey writing).Sound withComments := by
  induction commands generalizing writing with
  | nil => exact sound
  | cons command commands ih =>
    refine ih _ (fun other member => allowed other (by simp [member])) ?_
    exact sound_obey writing command (allowed command (by simp)) sound

theorem lex_of_sound {flags : ReadFlags} {writing : Writing} (sound : writing.Sound flags) :
    lex flags writing.output = (writing.written.toList, none) := by
  obtain ⟨-, ⟨closed, reads, -⟩, -⟩ := sound
  have read := reads [] (fun _ => by simp [Stops])
  have ended : lex flags [] = ([], none) := lex_of_end flags [] (by rw [skip])
  rwa [ended, List.append_nil, List.append_nil] at read

theorem reading_of_sound {flags : ReadFlags} (all : flags.toLineFeed = false)
    (writing : Writing) (sound : writing.Sound flags) :
    let reading := (Reader.ofBytes writing.output).tokens flags
    reading.tokens = writing.written.toList ∧ reading.fault = none := by
  have lexed := Reader.collect_eq_lex all 0 0 0 writing.output #[]
  rw [lex_of_sound sound] at lexed
  exact lexed

theorem tokens_of_sound (writing : Writing) (sound : writing.Sound withComments) :
    let reading := (Reader.ofBytes writing.output).tokens withComments
    reading.tokens = writing.written.toList ∧ reading.fault = none :=
  reading_of_sound rfl writing sound

/-- Tokens that are written one after the other, with the limit of lines changed between
them at will, read back as those that were accepted. The others have no spelling; they add
nothing to what is written, and what is written behind them does not depend on them. -/
theorem written_tokens_read_back (commands : List Command)
    (allowed : ∀ command ∈ commands, command.Allowed) :
    let writing := commands.foldl obey (start Line.defaultLimit)
    let reading := (Reader.ofBytes writing.output).tokens withComments
    reading.tokens = writing.written.toList ∧ reading.fault = none ∧
      (∀ fault ∈ writing.faults.toList, fault = .badToken) ∧
      ∀ flags token next,
        writing.writer.write flags token = (.error .badToken, next) → next = writing.writer := by
  intro writing reading
  have sound := sound_foldl commands (start Line.defaultLimit) allowed (sound_start _)
  obtain ⟨tokens, fault⟩ := tokens_of_sound writing sound
  refine ⟨tokens, fault, sound.faults, ?_⟩
  intro flags token next refused
  exact Writer.write_badToken flags writing.writer next token refused

def mixedCommands : List Command :=
  [.limit 5, .write ⟨false, false, true⟩ (.string [0x29, 0x5c, 0x61, 0x62, 0x01, 0x39]),
    .write ⟨false, false, false⟩ (.name [0x41, 0x20]),
    .write ⟨false, false, false⟩ (.name [0x00]),
    .write ⟨false, false, false⟩ (.keyword [0x6f, 0x62, 0x6a]), .limit 0,
    .write ⟨false, false, false⟩ (.comment [0x78]), .write ⟨false, true, false⟩ (.string [0x10])]

theorem mixed_tokens_read_back :
    (∀ command ∈ mixedCommands, command.Allowed) ∧
      ((Reader.ofBytes (mixedCommands.foldl obey (start Line.defaultLimit)).output).tokens
        withComments).tokens = [.string [0x29, 0x5c, 0x61, 0x62, 0x01, 0x39], .name [0x41, 0x20],
          .keyword [0x6f, 0x62, 0x6a], .comment [0x78], .string [0x10]] := by
  have allowed : ∀ command ∈ mixedCommands, command.Allowed := by
    have isWord : IsWord [0x6f, 0x62, 0x6a] := ⟨by decide, List.all_eq_true.mp rfl, by decide⟩
    have noNumber : Token.number? [0x6f, 0x62, 0x6a] = none := by decide
    simp [mixedCommands, Command.Allowed, Token.Fits, isWord, noNumber, wordCapacity]
  have written : (mixedCommands.foldl obey (start Line.defaultLimit)).written.toList =
      [.string [0x29, 0x5c, 0x61, 0x62, 0x01, 0x39], .name [0x41, 0x20],
        .keyword [0x6f, 0x62, 0x6a], .comment [0x78], .string [0x10]] := by decide +kernel
  exact ⟨allowed, (written_tokens_read_back mixedCommands allowed).1.trans written⟩

end Writing

end PdfPrimitives
