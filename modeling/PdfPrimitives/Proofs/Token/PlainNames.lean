import PdfPrimitives.Proofs.Token.Respelling

/-!
Names without escapes. They are written if all their bytes are regular, while the reader takes
visible bytes only: up to the first byte that is not, they are read as they were written.
-/

namespace PdfPrimitives

open Lexical

namespace Lexical

def Halts (flags : ReadFlags) (text : List UInt8) (tokens : List Token) (fault : TokenFault) :
    Prop :=
  ∀ next, lex flags (text ++ next) = (tokens, some fault)

theorem Halts.append {flags : ReadFlags} {text : List UInt8} {tokens : List Token}
    {fault : TokenFault} (halts : Halts flags text tokens fault) (more : List UInt8) :
    Halts flags (text ++ more) tokens fault := by
  intro next
  rw [List.append_assoc]
  exact halts (more ++ next)

theorem halts_name {flags : ReadFlags} (plain : flags.plainNames = true) {bytes : List UInt8}
    {byte : UInt8} (short : bytes.length ≤ wordCapacity)
    (regular : ∀ byte ∈ bytes, Byte.isRegular byte = true)
    (found : bytes.find? (!Byte.isVisible ·) = some byte) :
    Halts flags (Byte.slash :: bytes) [] (.invalidCharacter byte) := by
  intro next
  -- The name goes on with what is regular behind it, but its first bad byte is its own.
  have cut : nameBytes true ((bytes ++ next).takeWhile Byte.isRegular) =
      (bytes.takeWhile Byte.isVisible, some (.invalidCharacter byte)) := by
    obtain ⟨invisible, front, back, rfl, visible⟩ := List.find?_eq_some_iff_append.mp found
    rw [List.takeWhile_append_of_pos regular, nameBytes_unescaped, List.find?_append, found]
    simp only [List.append_assoc, List.cons_append]
    rw [List.takeWhile_append_of_pos (by simpa using visible),
      List.takeWhile_append_of_pos (by simpa using visible)]
    simp [show Byte.isVisible byte = false by simpa using invisible]
  have fits : ¬ wordCapacity < (bytes.takeWhile Byte.isVisible).length :=
    Nat.not_lt.mpr ((List.takeWhile_sublist _).length_le.trans short)
  apply lex_of_fault flags _ (bytes ++ next) Byte.slash
  · rw [List.cons_append, skip, if_neg (by decide), if_neg]
    simp [show Byte.slash ≠ Byte.percent by decide]
  · rw [token, if_neg (by decide), if_neg (by decide), if_pos rfl, name, plain, cut]
    dsimp only
    rw [if_neg fits]

/-- Reading halts behind tokens that are read as such in front of it. -/
theorem Reads.halts {flags : ReadFlags} {front back : List UInt8} {first second : List Token}
    {closed : Bool} {fault : TokenFault} (reads : Reads flags front first closed)
    (halts : Halts flags back second fault) (nonempty : back ≠ [])
    (stops : closed = false → Stops back) :
    Halts flags (front ++ back) (first ++ second) fault := by
  intro next
  have stopped : closed = false → Stops (back ++ next) := fun opened =>
    (stops opened).append nonempty next
  rw [List.append_assoc, reads (back ++ next) stopped, halts next]

end Lexical

theorem Line.halts_separated {flags : ReadFlags} (line : Line) (length : ℕ) {text : List UInt8}
    {tokens : List Token} {fault : TokenFault} (halts : Halts flags text tokens fault)
    (stops : Stops text) :
    Halts flags (line.separator false length ++ text) tokens fault ∧
      Stops (line.separator false length ++ text) := by
  obtain ⟨nothing, -⟩ | ⟨blank, single, isBlank⟩ := separator_cases line false length
  · rw [nothing]
    exact ⟨halts, stops⟩
  · rw [single]
    refine ⟨fun next => ?_, blank_stops blank text isBlank⟩
    exact (lex_blank blank (text ++ next) isBlank).trans (halts next)

namespace Writing

variable {flags : ReadFlags} {style : WriteFlags}

theorem pieces_name (plain : style.plainNames = true) (line : Line) (bytes : List UInt8) :
    line.pieces? style (.name bytes) =
      if bytes.all Byte.isRegular then some (line.separated false [Byte.slash :: bytes])
      else none := by
  have single (byte : UInt8) : Escape.nameByte? style byte =
      if Byte.isRegular byte then some [byte] else none := by
    by_cases zero : byte = 0
    · subst zero
      rfl
    · simp [Escape.nameByte?, zero, plain]
  have spelled : bytes.mapM (Escape.nameByte? style) =
      if bytes.all Byte.isRegular then some (bytes.map ([·])) else none := by
    induction bytes with
    | nil => rfl
    | cons byte bytes ih =>
      rw [List.mapM_cons, ih, single]
      cases regular : Byte.isRegular byte <;> cases all : bytes.all Byte.isRegular <;>
        simp [regular, all]
  rw [Line.pieces?, Escape.name?, spelled]
  cases bytes.all Byte.isRegular with
  | false => rfl
  | true => simp [← List.flatMap_def]

/-- What is written behind a text in which reading halts changes nothing about that. -/
theorem halts_foldl (style : WriteFlags) {tokens : List Token} {fault : TokenFault}
    (later : List Token) (writing : Writing) (unlimited : writing.writer.sink.room = none)
    (halts : Halts flags writing.output tokens fault) :
    Halts flags (later.foldl (push style) writing).output tokens fault := by
  induction later generalizing writing with
  | nil => exact halts
  | cons token later ih =>
    rw [List.foldl_cons]
    cases found : writing.writer.line.pieces? style token with
    | none =>
      rw [push_refused style writing token found]
      exact ih _ unlimited halts
    | some pieces =>
      obtain ⟨writer, pushed, still, received⟩ :=
        push_accepted style writing token pieces unlimited found
      rw [pushed]
      refine ih _ still ?_
      rw [output, received, Array.toList_appendList]
      exact halts.append pieces.flatten

theorem foldl_names (plain : style.plainNames = true) (names : List (List UInt8))
    (writing : Writing) (unlimited : writing.writer.sink.room = none) :
    let final := (names.map Token.name).foldl (push style) writing
    final.written.toList =
        writing.written.toList ++ (names.filter (·.all Byte.isRegular)).map .name ∧
      final.faults.toList = writing.faults.toList ++
        (names.filter (!·.all Byte.isRegular)).map fun _ => .badToken := by
  induction names generalizing writing with
  | nil => simp
  | cons name names ih =>
    have found := pieces_name plain writing.writer.line name
    rw [List.map_cons, List.foldl_cons]
    cases regular : name.all Byte.isRegular with
    | false =>
      rw [regular] at found
      rw [push_refused style writing _ found]
      obtain ⟨written, faults⟩ :=
        ih ⟨writing.writer, writing.written, writing.faults.push .badToken⟩ unlimited
      refine ⟨written.trans ?_, faults.trans ?_⟩ <;> simp [regular]
    | true =>
      rw [regular] at found
      obtain ⟨writer, pushed, still, -⟩ := push_accepted style writing _ _ unlimited found
      rw [pushed]
      obtain ⟨written, faults⟩ := ih ⟨writer, _, writing.faults⟩ still
      refine ⟨written.trans ?_, faults.trans ?_⟩ <;> simp [regular]

theorem halts_push (plain : style.plainNames = true) (same : flags.plainNames = true)
    {writing : Writing} {name : List UInt8} {byte : UInt8} (short : name.length ≤ wordCapacity)
    (regular : name.all Byte.isRegular = true)
    (found : name.find? (!Byte.isVisible ·) = some byte) (sound : writing.Sound flags) :
    (writing.push style (.name name)).writer.sink.room = none ∧
      Halts flags (writing.push style (.name name)).output writing.written.toList
        (.invalidCharacter byte) := by
  have pieces := pieces_name plain writing.writer.line name
  rw [regular] at pieces
  obtain ⟨writer, pushed, still, received⟩ :=
    push_accepted style writing _ _ sound.unlimited pieces
  obtain ⟨closed, reads, -⟩ := sound.reads
  obtain ⟨halts, stops⟩ := writing.writer.line.halts_separated (name.length + 1)
    (halts_name same short (List.all_eq_true.mp regular) found) (by rintro byte ⟨⟩; rfl)
  rw [pushed]
  refine ⟨still, ?_⟩
  rw [output, received]
  simpa [Line.separated, output] using reads.halts halts (by simp) fun _ => stops

theorem lex_names (plain : style.plainNames = true) (same : flags.plainNames = true)
    (names : List (List UInt8)) (short : ∀ name ∈ names, name.length ≤ wordCapacity)
    (writing : Writing) (sound : writing.Sound flags) :
    let accepted := names.filter (·.all Byte.isRegular)
    lex flags ((names.map Token.name).foldl (push style) writing).output =
      (writing.written.toList ++ (accepted.takeWhile (·.all Byte.isVisible)).map .name,
        (accepted.flatten.find? (!Byte.isVisible ·)).map .invalidCharacter) := by
  induction names generalizing writing with
  | nil => simpa using lex_of_sound sound
  | cons name names ih =>
    obtain ⟨fits, others⟩ := List.forall_mem_cons.mp short
    have found := pieces_name plain writing.writer.line name
    rw [List.map_cons, List.foldl_cons]
    cases regular : name.all Byte.isRegular with
    | false =>
      rw [regular] at found
      rw [push_refused style writing _ found]
      simpa [regular] using ih others _ sound.refused
    | true =>
      rw [regular] at found
      cases visible : name.all Byte.isVisible with
      | true =>
        obtain ⟨writer, pushed, -⟩ := push_accepted style writing _ _ sound.unlimited found
        have kept := sound_push flags writing style (plain.trans same.symm) (.name name) fits
          (fun _ => List.all_eq_true.mp visible) sound
        have later := ih others _ kept
        rw [pushed] at later ⊢
        have nothing : name.find? (!Byte.isVisible ·) = none := by
          simpa using List.all_eq_true.mp visible
        simpa [regular, visible, nothing, List.find?_append] using later
      | false =>
        obtain ⟨byte, bad⟩ : ∃ byte, name.find? (!Byte.isVisible ·) = some byte := by
          rw [← Option.isSome_iff_exists, List.find?_isSome]
          simpa using visible
        obtain ⟨unlimited, halts⟩ := halts_push plain same fits regular bad sound
        have final := halts_foldl style (names.map Token.name) _ unlimited halts []
        rw [List.append_nil] at final
        rw [final]
        simp [regular, visible, bad, List.find?_append]

/-- Names of bytes that are all regular are written, and the others are refused. What is written
reads as the names in front of the first byte that is not visible, where reading fails; so all
names are read back exactly if there is no such byte. -/
theorem plain_names_read_back (style : WriteFlags) (plain : style.plainNames = true)
    (limit : ℕ) (comments : Bool) (names : List (List UInt8))
    (short : ∀ name ∈ names, name.length ≤ wordCapacity) :
    let writing := ofTokens style limit (names.map .name)
    let accepted := names.filter (·.all Byte.isRegular)
    let flags : ReadFlags := ⟨true, comments, false⟩
    let reading := (Reader.ofBytes writing.output).tokens flags
    writing.written.toList = accepted.map .name ∧
      writing.faults.toList =
        (names.filter (!·.all Byte.isRegular)).map (fun _ => .badToken) ∧
      reading.tokens = (accepted.takeWhile (·.all Byte.isVisible)).map .name ∧
      reading.fault = (accepted.flatten.find? (!Byte.isVisible ·)).map .invalidCharacter ∧
      (reading.tokens = writing.written.toList ∧ reading.fault = none ↔
        ∀ name ∈ accepted, name.all Byte.isVisible = true) := by
  intro writing accepted flags reading
  obtain ⟨written, faults⟩ := foldl_names plain names (start limit) rfl
  have read := Reader.tokens_eq_lex true comments writing.output
  have same : flags.plainNames = true := rfl
  have lexed := lex_names plain same names short (start limit) (sound_start limit)
  obtain ⟨tokens, fault⟩ := Prod.mk.inj (read.trans lexed)
  refine ⟨written, faults, tokens, fault, ?_, ?_⟩
  · rintro ⟨-, nothing⟩ name member
    have visible := Option.map_eq_none_iff.mp (fault.symm.trans nothing)
    rw [List.find?_eq_none] at visible
    refine List.all_eq_true.mpr fun byte within => ?_
    simpa using visible byte (List.mem_flatten_of_mem member within)
  · intro visible
    constructor
    · have all := List.takeWhile_eq_self_iff.mpr visible
      exact tokens.trans ((congrArg (List.map Token.name) all).trans written.symm)
    · refine fault.trans (Option.map_eq_none_iff.mpr (List.find?_eq_none.mpr ?_))
      intro byte member
      obtain ⟨name, inside, within⟩ := List.mem_flatten.mp member
      simpa using List.all_eq_true.mp (visible name inside) byte within

def assortedNames : List (List UInt8) :=
  [[0x41, 0x20], [], [0x42, 0x23], [0x43, 0x80, 0x44], [0x01]]

/-- Names without escapes on lines of three bytes. -/
theorem assortedNames_halt :
    let writing := ofTokens ⟨true, false, false⟩ 3 (assortedNames.map .name)
    let reading := (Reader.ofBytes writing.output).tokens ⟨true, false, false⟩
    (∀ name ∈ assortedNames, name.length ≤ wordCapacity) ∧
      writing.written.toList = [.name [], .name [0x42, 0x23], .name [0x43, 0x80, 0x44],
        .name [0x01]] ∧
      writing.faults.toList = [.badToken] ∧
      reading.tokens = [.name [], .name [0x42, 0x23]] ∧
      reading.fault = some (.invalidCharacter 0x80) := by
  intro writing reading
  have short : ∀ name ∈ assortedNames, name.length ≤ wordCapacity := by decide
  obtain ⟨written, faults, tokens, fault, -⟩ :=
    plain_names_read_back ⟨true, false, false⟩ rfl 3 false assortedNames short
  exact ⟨short, written, faults, tokens, fault⟩

/-- A name of one byte outside ASCII is written and not read back. -/
theorem wideName_lost :
    ¬ ∀ (style : WriteFlags) (limit : ℕ) (names : List (List UInt8)), style.plainNames = true →
      (∀ name ∈ names, name.length ≤ wordCapacity) →
        let writing := ofTokens style limit (names.map .name)
        let reading := (Reader.ofBytes writing.output).tokens ⟨true, false, false⟩
        reading.tokens = writing.written.toList ∧ reading.fault = none := by
  intro claimed
  have lost : ((Reader.ofBytes (ofTokens ⟨true, false, false⟩ 0 [.name [0x80]]).output).tokens
      ⟨true, false, false⟩).fault = some (.invalidCharacter 0x80) := by decide +kernel
  have read := (claimed ⟨true, false, false⟩ 0 [[0x80]] rfl (by decide)).2
  cases lost.symm.trans read

end Writing

end PdfPrimitives
