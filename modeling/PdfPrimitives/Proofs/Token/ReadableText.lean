import PdfPrimitives.Proofs.Text.Utf8
import PdfPrimitives.Proofs.Token.Columns
import PdfPrimitives.Proofs.Token.RoundTrip

/-!
Readable strings as text. What is written of them has no control characters but line feeds, and
is UTF-8 unless a line is broken between the bytes of a character.
-/

namespace PdfPrimitives

open Utf8

def Byte.IsText (byte : UInt8) : Prop := byte = Byte.lineFeed ∨ 0x20 ≤ byte ∧ byte < 0x7f

theorem Byte.IsText.ascii {byte : UInt8} (text : Byte.IsText byte) : byte < 0x80 := by
  grind [Byte.IsText, Byte.lineFeed]

namespace StringByte

theorem letter_text (value : UInt8) :
    (letter? value).all (fun letter => decide (0x20 ≤ letter ∧ letter < 0x7f)) = true := by
  revert value
  exact Numeral.byte_cases (by decide +kernel)

theorem octal_text (byte : UInt8) : Mode.isOctalDigit byte = true → 0x20 ≤ byte ∧ byte < 0x7f := by
  revert byte
  exact Numeral.byte_cases (by decide +kernel)

theorem escape_text (byte : StringByte) : ∀ each ∈ byte.escape, Byte.IsText each := by
  rw [escape, List.forall_mem_cons]
  refine ⟨.inr (by decide), ?_⟩
  cases found : letter? byte.value with
  | some letter =>
    have shows := letter_text byte.value
    rw [found] at shows
    rw [List.forall_mem_singleton]
    exact .inr (of_decide_eq_true shows)
  | none =>
    obtain ⟨-, octal, -⟩ := Lexical.octalWidth_spec byte
    intro digit member
    exact .inr (octal_text digit (List.all_eq_true.mp octal digit member))

/-- A piece of a readable string is text, or a byte outside ASCII where the string is UTF-8. -/
theorem piece_text (utf8 : Bool) (byte : StringByte) :
    (∀ each ∈ byte.piece true utf8, Byte.IsText each) ∧ (utf8 = true → byte.value < 0x80) ∨
      byte.piece true utf8 = [byte.value] ∧ 0x80 ≤ byte.value ∧ utf8 = true := by
  cases escaped : byte.isEscaped true utf8 with
  | true =>
    have ascii (kept : utf8 = true) : byte.value < 0x80 := by
      grind [isEscaped, isControl, Byte.isParen, Byte.backslash, Byte.carriageReturn,
        Byte.openParen, Byte.closeParen]
    rw [piece, if_pos escaped]
    exact .inl ⟨byte.escape_text, ascii⟩
  | false =>
    rw [piece, if_neg (by simp [escaped])]
    by_cases ascii : byte.value < 0x80
    · left
      refine ⟨List.forall_mem_singleton.mpr ?_, fun _ => ascii⟩
      grind [isEscaped, isControl, Byte.isParen, Byte.IsText, Byte.backslash, Byte.carriageReturn,
        Byte.openParen, Byte.closeParen, Byte.lineFeed]
    · right
      refine ⟨rfl, by grind, ?_⟩
      grind [isEscaped, isControl, Byte.isParen, Byte.backslash, Byte.carriageReturn,
        Byte.openParen, Byte.closeParen]

end StringByte

def Spells (byte : UInt8) (piece : List UInt8) : Prop :=
  byte < 0x80 ∧ (∀ each ∈ piece, Byte.IsText each) ∨ 0x80 ≤ byte ∧ piece = [byte]

theorem Spells.of_tail {byte : UInt8} {piece : List UInt8} (spells : Spells byte piece)
    (tail : IsTail byte) : piece = [byte] := by
  obtain ⟨ascii, -⟩ | ⟨-, single⟩ := spells
  · grind [IsTail]
  · exact single

theorem Spells.eq_of_tail {byte other : UInt8} (spells : Spells byte [other])
    (tail : IsTail other) : other = byte := by
  obtain ⟨-, text⟩ | ⟨-, single⟩ := spells
  · have ascii := (text other (by simp)).ascii
    grind [IsTail]
  · exact List.singleton_inj.mp single

namespace Escape

variable {style : WriteFlags} (readable : style.readable = true) (bytes : List UInt8)
include readable

/-- Unless a readable string is UTF-8, all its bytes outside ASCII are escaped. -/
theorem pieces_plain (invalid : isValid bytes = false) :
    ∀ piece ∈ pieces style bytes, ∀ each ∈ piece, Byte.IsText each := by
  have escapes : keepsUtf8 style bytes = false := by
    rw [keepsUtf8, invalid, Bool.and_false]
  rw [pieces, readable, escapes, List.forall_mem_map]
  intro byte _
  rcases byte.piece_text false with ⟨text, -⟩ | ⟨-, -, kept⟩
  · exact text
  · cases kept

/-- The pieces of a readable string stand for bytes that are UTF-8: its own bytes if these are, and
any bytes of ASCII if not. -/
theorem pieces_spell :
    ∃ spelled, List.Forall₂ Spells spelled (pieces style bytes) ∧
      follow .between spelled = some .between := by
  cases valid : isValid bytes with
  | true =>
    have keeps : keepsUtf8 style bytes = true := by rw [keepsUtf8, readable, valid]; rfl
    refine ⟨bytes, ?_, (isValid_iff_follow bytes).mp valid⟩
    rw [pieces, readable, keeps, Lexical.all_eq]
    clear valid keeps
    generalize 0 = opened
    induction bytes generalizing opened with
    | nil => exact .nil
    | cons byte rest ih =>
      refine .cons ?_ (ih _)
      rcases StringByte.piece_text true _ with ⟨text, ascii⟩ | ⟨single, wide, -⟩
      · exact .inl ⟨ascii rfl, text⟩
      · exact .inr ⟨wide, single⟩
  | false =>
    have plain := pieces_plain readable bytes valid
    have ascii : ∀ byte ∈ (pieces style bytes).map fun _ => Byte.space, byte < 0x80 :=
      List.forall_mem_map.mpr fun _ _ => by decide
    refine ⟨_, ?_, follow_plain ascii⟩
    rw [List.forall₂_map_left_iff, List.forall₂_same]
    exact fun piece member => .inl ⟨by decide, plain piece member⟩

end Escape

namespace Draft

def Breaks (limit : ℕ) (draft : Draft) (piece : List UInt8) : Prop :=
  0 < limit ∧ piece.head?.any Byte.isLineBreak = false ∧ limit ≤ draft.column + piece.length

/-- Somewhere the line is broken in front of a byte that goes on with a character. -/
def Cuts (limit : ℕ) (draft : Draft) (pieces : List (List UInt8)) : Prop :=
  ∃ front byte back, pieces = front ++ [byte] :: back ∧ IsTail byte ∧
    (front.foldl (pushPiece limit) draft).Breaks limit [byte]

variable {limit : ℕ} {draft : Draft} {piece : List UInt8} {pieces : List (List UInt8)}

theorem bytes_broken (breaks : draft.Breaks limit piece) :
    (draft.pushPiece limit piece).bytes.toList =
      draft.bytes.toList ++ ([Byte.backslash, Byte.lineFeed] ++ piece) := by
  obtain ⟨limited, plain, full⟩ := breaks
  simp [pushPiece, push, limited, plain, full]

theorem bytes_joined (joins : ¬ draft.Breaks limit piece) :
    (draft.pushPiece limit piece).bytes.toList = draft.bytes.toList ++ piece := by
  rw [pushPiece, if_neg, push, Array.toList_appendList]
  simpa [Breaks, and_assoc] using joins

theorem cuts_cons : draft.Cuts limit (piece :: pieces) ↔
    (∃ byte, piece = [byte] ∧ IsTail byte ∧ draft.Breaks limit [byte]) ∨
      (draft.pushPiece limit piece).Cuts limit pieces := by
  constructor
  · rintro ⟨_ | ⟨first, front⟩, byte, back, parts, tail, breaks⟩
    · obtain ⟨rfl, rfl⟩ := List.cons.inj parts
      exact .inl ⟨byte, rfl, tail, breaks⟩
    · obtain ⟨rfl, rfl⟩ := List.cons.inj parts
      exact .inr ⟨front, byte, back, rfl, tail, breaks⟩
  · rintro (⟨byte, rfl, tail, breaks⟩ | ⟨front, byte, back, rfl, tail, breaks⟩)
    · exact ⟨[], byte, pieces, rfl, tail, breaks⟩
    · exact ⟨piece :: front, byte, back, rfl, tail, breaks⟩

theorem follow_piece {place next : Place} {byte : UInt8} (sound : place.Sound)
    (spells : Spells byte piece) (follows : follow place [byte] = some next) :
    follow place piece = some next := by
  rcases spells with ⟨ascii, text⟩ | ⟨-, rfl⟩
  · obtain ⟨rfl, rfl⟩ := between_of_ascii sound ascii follows
    exact follow_plain fun each member => (text each member).ascii
  · exact follows

/-- What is malformed stays so behind further pieces. -/
theorem malformed_foldl (malformed : follow .between draft.bytes.toList = none) :
    follow .between (pieces.foldl (pushPiece limit) draft).bytes.toList = none := by
  induction pieces generalizing draft with
  | nil => exact malformed
  | cons piece pieces ih =>
    refine ih ?_
    by_cases breaks : draft.Breaks limit piece
    · rw [bytes_broken breaks, follow_append, malformed]
      rfl
    · rw [bytes_joined breaks, follow_append, malformed]
      rfl

/-- The bytes of a character that a break divides are malformed. -/
theorem malformed_cut {place : Place} (sound : place.Sound) (inside : place ≠ .between)
    (drafted : follow .between draft.bytes.toList = some place)
    (breaks : draft.Breaks limit piece) :
    follow .between (draft.pushPiece limit piece).bytes.toList = none := by
  rw [bytes_broken breaks, follow_append, drafted, Option.bind_some, List.cons_append, follow_cons]
  cases follows : follow place [Byte.backslash] with
  | none => rfl
  | some next => exact absurd (between_of_ascii sound (by decide) follows).1 inside

theorem follow_pushPiece {place next : Place} {byte : UInt8} (sound : place.Sound)
    (spells : Spells byte piece) (drafted : follow .between draft.bytes.toList = some place)
    (follows : follow place [byte] = some next)
    (whole : draft.Breaks limit piece → place = .between) :
    follow .between (draft.pushPiece limit piece).bytes.toList = some next := by
  by_cases breaks : draft.Breaks limit piece
  · obtain rfl := whole breaks
    have separator : follow .between [Byte.backslash, Byte.lineFeed] = some .between := rfl
    rw [bytes_broken breaks, follow_append, drafted, Option.bind_some, follow_append, separator]
    exact follow_piece sound spells follows
  · rw [bytes_joined breaks, follow_append, drafted]
    exact follow_piece sound spells follows

/-- A string goes on being scanned as its bytes are, as long as no break divides a character. -/
theorem follow_foldl {bytes : List UInt8} (spelled : List.Forall₂ Spells bytes pieces)
    {place : Place} (sound : place.Sound)
    (drafted : follow .between draft.bytes.toList = some place)
    (follows : follow place bytes = some .between) :
    follow .between (pieces.foldl (pushPiece limit) draft).bytes.toList = some .between ↔
      ¬ draft.Cuts limit pieces := by
  induction spelled generalizing draft place with
  | nil =>
    obtain rfl := Option.some.inj follows
    refine iff_of_true drafted ?_
    rintro ⟨front, byte, back, parts, -⟩
    simp at parts
  | @cons byte piece bytes pieces spells spelled ih =>
    rw [follow_cons] at follows
    obtain ⟨next, first, rest⟩ := Option.bind_eq_some_iff.mp follows
    obtain ⟨still, tail, -⟩ := step_sound sound first
    rw [List.foldl_cons, cuts_cons]
    by_cases cut : draft.Breaks limit piece ∧ place ≠ .between
    · obtain ⟨breaks, inside⟩ := cut
      have isTail := tail.mp inside
      obtain rfl := spells.of_tail isTail
      rw [malformed_foldl (malformed_cut sound inside drafted breaks)]
      exact iff_of_false (by simp) (not_not_intro (.inl ⟨byte, rfl, isTail, breaks⟩))
    · have whole (breaks : draft.Breaks limit piece) : place = .between :=
        not_not.mp fun inside => cut ⟨breaks, inside⟩
      rw [ih still (follow_pushPiece sound spells drafted first whole) rest, or_iff_right]
      rintro ⟨other, rfl, isTail, breaks⟩
      obtain rfl := spells.eq_of_tail isTail
      exact tail.mpr isTail (whole breaks)

end Draft

namespace Line

def CutsString (style : WriteFlags) (line : Line) (bytes : List UInt8) : Prop :=
  let start := line.advance (line.separator false (min (bytes.length + 2) Token.stringReserve))
  style.hexStrings = false ∧ Escape.length style bytes ≤ 2 * bytes.length ∧
    (Draft.start start Byte.openParen).Cuts start.limit (Escape.pieces style bytes)

theorem separator_text (line : Line) (length : ℕ) :
    ∀ byte ∈ line.separator false length, byte = Byte.lineFeed := by
  simp only [separator, Bool.false_and, Bool.false_eq_true, ↓reduceIte]
  split <;> simp

theorem hexDigits_shown (byte : UInt8) : ∀ digit ∈ Byte.hexDigits byte, Byte.IsText digit := by
  have shown : (Byte.hexDigits byte).all (fun digit => decide (0x20 ≤ digit ∧ digit < 0x7f)) =
      true := by
    revert byte
    exact Numeral.byte_cases (by decide +kernel)
  exact fun digit member => .inr (of_decide_eq_true (List.all_eq_true.mp shown digit member))

theorem lastDigits_subset (byte : UInt8) : lastDigits byte ⊆ Byte.hexDigits byte := by
  rw [lastDigits]
  split
  · simp [Byte.hexDigits]
  · exact List.Subset.refl _

theorem hexadecimal_text (line : Line) (bytes : List UInt8) :
    ∀ byte ∈ line.hexadecimal bytes, Byte.IsText byte := by
  obtain ⟨text, broken, text_eq⟩ := Lexical.hexadecimal_broken line bytes
  have digits : ∀ byte ∈ text, Byte.IsText byte := by
    refine broken.all (by simp [Byte.IsText]) fun digits member => ?_
    rw [digitPairs, List.mem_append] at member
    rcases member with pair | last
    · obtain ⟨byte, -, rfl⟩ := List.mem_map.mp pair
      exact hexDigits_shown byte
    · obtain ⟨byte, -, rfl⟩ := Option.map_eq_some_iff.mp (Option.mem_toList.mp last)
      exact fun each inLast => hexDigits_shown byte each (lastDigits_subset byte inLast)
  rw [text_eq, List.forall_mem_cons, List.forall_mem_append, List.forall_mem_singleton]
  exact ⟨.inr (by decide), digits, .inr (by decide)⟩

variable {style : WriteFlags} (readable : style.readable = true) (line : Line)
  (bytes : List UInt8)

section Literal

include readable

theorem literal_text : ∀ byte ∈ line.literal (Escape.pieces style bytes),
    Byte.IsText byte ∨ 0x80 ≤ byte := by
  obtain ⟨text, broken, text_eq⟩ := Lexical.literal_broken line (Escape.pieces style bytes)
  have inside : ∀ byte ∈ text, Byte.IsText byte ∨ 0x80 ≤ byte := by
    refine broken.all (List.forall_mem_cons.mpr ⟨.inl (.inr (by decide)),
      List.forall_mem_singleton.mpr (.inl (.inl rfl))⟩) fun piece member => ?_
    rw [Escape.pieces, readable] at member
    obtain ⟨byte, -, rfl⟩ := List.mem_map.mp member
    rcases byte.piece_text _ with ⟨text, -⟩ | ⟨single, wide, -⟩
    · exact fun each inPiece => .inl (text each inPiece)
    · rw [single, List.forall_mem_singleton]
      exact .inr wide
  rw [text_eq, List.forall_mem_cons, List.forall_mem_append, List.forall_mem_singleton]
  exact ⟨.inl (.inr (by decide)), inside, .inl (.inr (by decide))⟩

theorem literal_valid_iff :
    follow .between (line.literal (Escape.pieces style bytes)) = some .between ↔
      ¬ (Draft.start line Byte.openParen).Cuts line.limit (Escape.pieces style bytes) := by
  obtain ⟨spelled, spells, valid⟩ := Escape.pieces_spell readable bytes
  have start : follow .between (Draft.start line Byte.openParen).bytes.toList = some .between := rfl
  have sound : Place.between.Sound := trivial
  rw [← Draft.follow_foldl spells sound start valid, literal, Draft.finish, Array.toList_push,
    follow_append]
  -- The closing parenthesis can only stand between characters.
  constructor
  · intro closed
    obtain ⟨place, inside, last⟩ := Option.bind_eq_some_iff.mp closed
    obtain ⟨rfl, -⟩ := between_of_ascii (sound_follow sound inside) (by decide) last
    exact inside
  · intro inside
    rw [inside]
    rfl

end Literal

include readable in
/-- Only on lines with a limit, and only where the string itself is UTF-8, a break divides one of
its characters. -/
theorem limited_of_cuts (cuts : line.CutsString style bytes) :
    0 < line.limit ∧ isValid bytes = true := by
  obtain ⟨-, -, front, byte, back, parts, tail, limited, -⟩ := cuts
  refine ⟨limited, ?_⟩
  rw [← Bool.not_eq_false]
  intro invalid
  have plain := Escape.pieces_plain readable bytes invalid [byte] (by simp [parts])
  have ascii := (plain byte (by simp)).ascii
  grind [IsTail]

include readable in
theorem string_text : ∀ byte ∈ (line.stringPieces style bytes).flatten,
    Byte.IsText byte ∨ 0x80 ≤ byte := by
  have separates (length : ℕ) (byte : UInt8) (member : byte ∈ line.separator false length) :
      Byte.IsText byte ∨ 0x80 ≤ byte := .inl (.inl (line.separator_text length byte member))
  unfold stringPieces
  split
  · rw [hexPieces, List.flatten_cons, List.flatten_singleton, List.forall_mem_append]
    exact ⟨separates _, fun byte member => .inl (hexadecimal_text _ bytes byte member)⟩
  · rw [literalPieces, List.flatten_cons, List.flatten_singleton, List.forall_mem_append]
    exact ⟨separates _, literal_text readable _ bytes⟩

include readable in
theorem string_valid_iff : follow .between (line.stringPieces style bytes).flatten = some .between ↔
    ¬ line.CutsString style bytes := by
  have separates (length : ℕ) (rest : List UInt8) :
      follow .between (line.separator false length ++ rest) = follow .between rest := by
    have ascii : ∀ byte ∈ line.separator false length, byte < 0x80 := fun byte member => by
      rw [line.separator_text length byte member]
      decide
    rw [follow_append, follow_plain ascii]
    rfl
  unfold stringPieces
  split
  · next chosen =>
    rw [hexPieces, List.flatten_cons, List.flatten_singleton, separates]
    refine iff_of_true (follow_plain fun byte member => ?_) ?_
    · exact (hexadecimal_text _ bytes byte member).ascii
    · rintro ⟨unforced, short, -⟩
      simp only [unforced, Bool.false_or, decide_eq_true_eq] at chosen
      omega
  · next literal =>
    rw [Bool.or_eq_true, decide_eq_true_eq, not_or, Bool.not_eq_true, Nat.not_lt] at literal
    rw [literalPieces, List.flatten_cons, List.flatten_singleton, separates,
      literal_valid_iff readable, CutsString]
    exact not_congr ⟨fun cuts => ⟨literal.1, literal.2, cuts⟩, fun cuts => cuts.2.2⟩

end Line

namespace Writer

/-- A readable string is always written, up to a fault of the sink. What is written has no control
characters but line feeds, and is UTF-8 unless a string in parentheses is itself UTF-8 and a line
with a limit is broken in the middle of one of its characters. -/
theorem readable_string_text (style : WriteFlags) (readable : style.readable = true)
    (writer : Writer) (bytes : List UInt8) :
    let written := (writer.line.stringPieces style bytes).flatten
    (writer.sink.room = none → (writer.write style (.string bytes)).1 = .ok ()) ∧
      (∀ next, writer.write style (.string bytes) = (.ok (), next) →
        next.output = writer.output ++ written) ∧
      (∀ byte ∈ written, byte = Byte.lineFeed ∨ 0x20 ≤ byte ∧ byte ≠ 0x7f) ∧
      (written.toByteArray.IsValidUTF8 ↔ ¬ writer.line.CutsString style bytes) ∧
      (writer.line.CutsString style bytes →
        0 < writer.line.limit ∧ bytes.toByteArray.IsValidUTF8) := by
  intro written
  refine ⟨fun unlimited => ?_, fun next done => ?_, fun byte member => ?_, ?_, fun cuts => ?_⟩
  · obtain ⟨line, received, room, fault⟩ := writer
    obtain rfl : room = none := unlimited
    rw [write_unlimited]
    rfl
  · obtain ⟨pieces, found, -, output⟩ := write_ok done
    obtain rfl := Option.some.inj found
    exact output
  · rcases writer.line.string_text readable bytes byte member with shown | wide
    · exact shown.imp_right fun visible => ⟨visible.1, by grind⟩
    · exact .inr ⟨by grind, by grind⟩
  · rw [← isValid_iff, isValid_iff_follow]
    exact writer.line.string_valid_iff readable bytes
  · rw [← isValid_iff]
    exact writer.line.limited_of_cuts readable bytes cuts

def accented : List UInt8 := [0x6e, 0xc3, 0xa9, 0x01]

/-- On lines of five bytes the break falls in front of the escape. -/
theorem accented_text :
    let writer := Writer.new.setLimit 5
    let written := [0x28, 0x6e, 0xc3, 0xa9, 0x5c, 0x0a, 0x5c, 0x31, 0x29]
    (writer.write ⟨false, false, true⟩ (.string accented)).1 = .ok () ∧
      (writer.write ⟨false, false, true⟩ (.string accented)).2.output = written ∧
      written.toByteArray.IsValidUTF8 ∧
      ¬ writer.line.CutsString ⟨false, false, true⟩ accented := by
  intro writer written
  obtain ⟨succeeds, outputs, -, valid, -⟩ :=
    readable_string_text ⟨false, false, true⟩ rfl writer accented
  have done := succeeds rfl
  have pieces : (writer.line.stringPieces ⟨false, false, true⟩ accented).flatten = written := by
    decide +kernel
  have text : written.toByteArray.IsValidUTF8 := (isValid_iff written).mp (by decide +kernel)
  rw [pieces] at outputs valid
  exact ⟨done, outputs _ (Prod.ext done rfl), text, valid.mp text⟩

/-- On lines of three bytes a break divides the only character of a string. -/
theorem accent_divided :
    ¬ ∀ (style : WriteFlags) (limit : ℕ) (bytes : List UInt8) (next : Writer),
      style.readable = true →
        (Writer.new.setLimit limit).write style (.string bytes) = (.ok (), next) →
          next.output.toByteArray.IsValidUTF8 := by
  intro claimed
  let result := (Writer.new.setLimit 3).write ⟨false, false, true⟩ (.string [0xc3, 0xa9])
  have divided : result.2.output = [0x28, 0xc3, 0x5c, 0x0a, 0xa9, 0x29] := by decide +kernel
  have done : result = (.ok (), result.2) := Prod.ext (by decide +kernel) rfl
  have text := claimed ⟨false, false, true⟩ 3 [0xc3, 0xa9] result.2 rfl done
  rw [divided, ← isValid_iff] at text
  revert text
  decide +kernel

end Writer

end PdfPrimitives
