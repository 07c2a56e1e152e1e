import PdfPrimitives.Proofs.Token.Columns
import PdfPrimitives.Proofs.Token.RoundTrip

/-!
Tokens on lines that are not broken. There a token has one text, which does not depend on where
it stands, and at most a space in front of it. The text of a string is known to be the shorter of
its two forms from a length that is worked out before the string is escaped.
-/

namespace PdfPrimitives

namespace StringByte

/-- Letters stand for just those bytes whose escapes are counted with two bytes. -/
theorem letter_counted (value : UInt8) :
    (letter? value).isSome = (value = 0x08 || value = 0x09 || value = Byte.lineFeed ||
      value = 0x0c || value = Byte.carriageReturn || Byte.isParen value ||
      value = Byte.backslash) := by
  revert value
  exact Numeral.byte_cases (by decide +kernel)

theorem length_escape (byte : StringByte) : byte.escape.length = byte.escapeLength := by
  have counted := letter_counted byte.value
  rw [escape, escapeLength, ← counted]
  cases letter? byte.value with
  | some letter => rfl
  | none =>
    obtain ⟨-, -, width, -⟩ := Lexical.octalWidth_spec byte
    rw [List.length_cons, width, Nat.add_comm]
    rfl

theorem length_piece (readable utf8 : Bool) (byte : StringByte) :
    (byte.piece readable utf8).length = byte.pieceLength readable utf8 := by
  rw [piece, pieceLength]
  split
  · exact length_escape byte
  · rfl

end StringByte

/-- The length that is known beforehand is the length of the escaped string. -/
theorem Escape.length_pieces (style : WriteFlags) (bytes : List UInt8) :
    (pieces style bytes).flatten.length = length style bytes := by
  rw [pieces, length]
  generalize keepsUtf8 style bytes = utf8
  induction StringByte.all bytes with
  | nil => rfl
  | cons byte rest ih =>
    rw [List.map_cons, List.flatten_cons, List.length_append, ih, StringByte.length_piece]
    rfl

namespace Draft

theorem pushPiece_zero : pushPiece 0 = push := rfl

theorem pushDigits_zero : pushDigits 0 = push := rfl

theorem bytes_foldl_push (pieces : List (List UInt8)) (draft : Draft) :
    (pieces.foldl push draft).bytes.toList = draft.bytes.toList ++ pieces.flatten := by
  induction pieces generalizing draft with
  | nil => exact (List.append_nil _).symm
  | cons piece pieces ih =>
    rw [List.foldl_cons, ih, push, Array.toList_appendList, List.flatten_cons, List.append_assoc]

end Draft

namespace Line

def literalText (style : WriteFlags) (bytes : List UInt8) : List UInt8 :=
  Byte.openParen :: ((Escape.pieces style bytes).flatten ++ [Byte.closeParen])

def digitText (bytes : List UInt8) : List UInt8 :=
  Byte.less :: ((digitPairs bytes).flatten ++ [Byte.greater])

def stringText (style : WriteFlags) (bytes : List UInt8) : List UInt8 :=
  if style.hexStrings || 2 * bytes.length < Escape.length style bytes then digitText bytes
  else literalText style bytes

/-- A digit of the last byte may be left out, so that there are at most two for each byte. -/
theorem length_digitPairs_le (bytes : List UInt8) :
    (digitPairs bytes).flatten.length ≤ 2 * bytes.length := by
  have single (byte : UInt8) : (lastDigits byte).length ≤ 2 := by
    rw [lastDigits]
    split <;> simp [Byte.hexDigits]
  induction bytes with
  | nil => exact Nat.le_refl _
  | cons byte rest ih =>
    cases rest with
    | nil => simpa [digitPairs] using single byte
    | cons next rest =>
      have pair : (Byte.hexDigits byte).length = 2 := rfl
      rw [Lexical.digitPairs_cons, List.flatten_cons, List.length_append, pair, List.length_cons]
      omega

/-- Neither form is longer than two digits a byte between two delimiters. -/
theorem length_stringText_le {style : WriteFlags} (free : style.hexStrings = false)
    (bytes : List UInt8) : (stringText style bytes).length ≤ 2 * bytes.length + 2 := by
  rw [stringText, free, Bool.false_or]
  split
  · have few := length_digitPairs_le bytes
    simp only [digitText, List.length_cons, List.length_append, List.length_nil]
    omega
  · next short =>
    have whole := Escape.length_pieces style bytes
    rw [decide_eq_true_eq, Nat.not_lt] at short
    simp only [literalText, List.length_cons, List.length_append, List.length_nil]
    omega

/-- The first byte tells the two forms apart. -/
theorem literalText_ne_digitText (style : WriteFlags) (bytes : List UInt8) :
    literalText style bytes ≠ digitText bytes := by
  intro same
  exact absurd (List.cons.inj same).1 (by decide)

theorem stringText_form {style : WriteFlags} (free : style.hexStrings = false)
    (bytes : List UInt8) :
    (stringText style bytes = literalText style bytes ↔
        Escape.length style bytes ≤ 2 * bytes.length) ∧
      (stringText style bytes = digitText bytes ↔
        2 * bytes.length < Escape.length style bytes) := by
  have apart := literalText_ne_digitText style bytes
  rw [stringText, free, Bool.false_or]
  by_cases long : 2 * bytes.length < Escape.length style bytes
  · rw [if_pos (decide_eq_true long)]
    exact ⟨iff_of_false apart.symm (Nat.not_le.mpr long), iff_of_true rfl long⟩
  · rw [if_neg (by simpa using long)]
    exact ⟨iff_of_true rfl (Nat.not_lt.mp long), iff_of_false apart long⟩

section Unbroken

variable {line : Line} (unbroken : line.limit = 0)
include unbroken

theorem separator_unbroken (spaced : Bool) (length : ℕ) :
    line.separator spaced length = if spaced && line.touching then [Byte.space] else [] := by
  simp [separator, unbroken]

theorem literal_unbroken (style : WriteFlags) (bytes : List UInt8) :
    line.literal (Escape.pieces style bytes) = literalText style bytes := by
  rw [literal, unbroken, Draft.pushPiece_zero, Draft.finish, Array.toList_push,
    Draft.bytes_foldl_push]
  rfl

theorem hexadecimal_unbroken (bytes : List UInt8) : line.hexadecimal bytes = digitText bytes := by
  rw [hexadecimal, unbroken, Draft.pushDigits_zero, Draft.finish, Array.toList_push,
    Draft.bytes_foldl_push]
  rfl

theorem string_unbroken (style : WriteFlags) (bytes : List UInt8) :
    (line.stringPieces style bytes).flatten = stringText style bytes := by
  have gap (length : ℕ) : line.separator false length = [] := separator_unbroken unbroken false _
  have still (text : List UInt8) : (line.advance text).limit = 0 := unbroken
  rw [stringPieces, stringText]
  split
  · rw [hexPieces, gap, hexadecimal_unbroken (still [])]
    simp
  · rw [literalPieces, gap, literal_unbroken (still [])]
    simp

end Unbroken

end Line

/-- A sink that fails has taken what it had room for. -/
theorem Sink.write_failed {sink next : Sink} {bytes : List UInt8} {fault : TokenFault}
    (failed : sink.write bytes = (.error fault, next)) :
    ∃ room, next.received.toList = sink.received.toList ++ bytes.take room := by
  obtain ⟨received, room, cause⟩ := sink
  cases room with
  | none => cases (Prod.mk.inj failed).1
  | some room =>
    simp only [write] at failed
    split at failed
    · cases (Prod.mk.inj failed).1
    · obtain rfl := (Prod.mk.inj failed).2
      exact ⟨room, Array.toList_appendList⟩

namespace Writer

/-- Pieces are sent in order, up to where the sink fails. -/
theorem emit_sent (pieces : List (List UInt8)) (writer : Writer) :
    ∃ sent, sent <+: pieces.flatten ∧ (writer.emit pieces).2.output = writer.output ++ sent := by
  induction pieces generalizing writer with
  | nil => exact ⟨[], List.prefix_rfl, (List.append_nil _).symm⟩
  | cons piece pieces ih =>
    obtain ⟨line, sink⟩ := writer
    rw [emit, List.flatten_cons]
    cases written : sink.write piece with
    | mk outcome next =>
      cases outcome with
      | ok _ =>
        obtain ⟨sent, front, output⟩ := ih ⟨line.advance piece, next⟩
        refine ⟨piece ++ sent, (List.prefix_append_right_inj piece).mpr front, ?_⟩
        rw [← List.append_assoc]
        exact output.trans (congrArg (· ++ sent) (Sink.write_ok written))
      | error fault =>
        obtain ⟨room, received⟩ := Sink.write_failed written
        exact ⟨piece.take room, (List.take_prefix room piece).trans (List.prefix_append ..),
          received⟩

theorem write_sent {style : WriteFlags} {token : Token} {pieces : List (List UInt8)}
    {writer : Writer} (found : writer.line.pieces? style token = some pieces) :
    ∃ sent, sent <+: pieces.flatten ∧
      (writer.write style token).2.output = writer.output ++ sent := by
  obtain ⟨sent, front, output⟩ := emit_sent pieces writer
  refine ⟨sent, front, ?_⟩
  rw [write, found]
  dsimp only
  split <;> next emitted => rwa [emitted] at output

/-- Where lines are not broken and digits are not asked for, a string is written in parentheses
exactly if it is at most twice as long with its escapes as without. The length that decides is
worked out beforehand and is the length of the escaped string. At most two bytes for each byte and
two delimiters are written, also to a sink that fails. -/
theorem string_form_by_length (style : WriteFlags) (free : style.hexStrings = false)
    (writer : Writer) (unbroken : writer.line.limit = 0) (bytes : List UInt8) :
    let escaped := (Escape.pieces style bytes).flatten
    let written := (writer.line.stringPieces style bytes).flatten
    Escape.length style bytes = escaped.length ∧
      (written = Byte.openParen :: (escaped ++ [Byte.closeParen]) ↔
        escaped.length ≤ 2 * bytes.length) ∧
      (written = Byte.less :: ((Line.digitPairs bytes).flatten ++ [Byte.greater]) ↔
        2 * bytes.length < escaped.length) ∧
      written.length ≤ 2 * bytes.length + 2 ∧
      (writer.sink.room = none → (writer.write style (.string bytes)).1 = .ok ()) ∧
      (∀ next, writer.write style (.string bytes) = (.ok (), next) →
        next.output = writer.output ++ written) ∧
      (writer.write style (.string bytes)).2.output.length ≤
        writer.output.length + (2 * bytes.length + 2) := by
  intro escaped written
  have whole : escaped.length = Escape.length style bytes := Escape.length_pieces style bytes
  have text : written = Line.stringText style bytes := Line.string_unbroken unbroken style bytes
  have few : written.length ≤ 2 * bytes.length + 2 := by
    rw [text]
    exact Line.length_stringText_le free bytes
  obtain ⟨literal, digits⟩ := Line.stringText_form free bytes
  rw [← text, ← whole] at literal digits
  refine ⟨whole.symm, literal, digits, few, fun unlimited => ?_, fun next done => ?_, ?_⟩
  · obtain ⟨line, received, room, fault⟩ := writer
    obtain rfl : room = none := unlimited
    rw [write_unlimited]
    rfl
  · obtain ⟨pieces, found, -, output⟩ := write_ok done
    obtain rfl := Option.some.inj found
    exact output
  · obtain ⟨sent, front, output⟩ := write_sent (rfl : writer.line.pieces? style (.string bytes) = _)
    rw [output, List.length_append]
    exact Nat.add_le_add_left (front.length_le.trans few) _

def borderline : List UInt8 := [0x01, 0x39, 0x61]

/-- With its escapes it is just twice as long. -/
theorem borderline_form_by_length :
    let style : WriteFlags := ⟨false, false, true⟩
    let writer := Writer.new.setLimit 0
    let text : List UInt8 := [0x28, 0x5c, 0x30, 0x30, 0x31, 0x39, 0x61, 0x29]
    style.hexStrings = false ∧ writer.line.limit = 0 ∧ Escape.length style borderline = 6 ∧
      (writer.line.stringPieces style borderline).flatten = text ∧
      (writer.write style (.string borderline)).2.output = text := by
  intro style writer text
  obtain ⟨predicted, literal, -, -, succeeds, outputs, -⟩ :=
    string_form_by_length style rfl writer rfl borderline
  have pieces : (Escape.pieces style borderline).flatten =
      [0x5c, 0x30, 0x30, 0x31, 0x39, 0x61] := by decide +kernel
  rw [pieces] at predicted literal
  have written : (writer.line.stringPieces style borderline).flatten = text :=
    literal.mpr (Nat.le_refl 6)
  exact ⟨rfl, rfl, predicted, written, (outputs _ (Prod.ext (succeeds rfl) rfl)).trans written⟩

end Writer

end PdfPrimitives
