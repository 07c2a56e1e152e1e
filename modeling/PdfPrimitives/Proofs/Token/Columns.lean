import PdfPrimitives.Proofs.Token.StringSpelling
import PdfPrimitives.Token.Writer

/-!
The column that a writer keeps count of is the one where its text ends, so what it compares
with the limit are the lengths of the lines that it wrote.
-/

namespace PdfPrimitives

namespace Line

def linesOf (text : List UInt8) : List (List UInt8) := text.splitOnP Byte.isLineBreak

def Within (limit : Nat) : Nat → List UInt8 → Prop
  | column, [] => column ≤ limit
  | column, byte :: rest => column ≤ limit ∧ Within limit (nextColumn column byte) rest

theorem regular_plain (byte : UInt8) :
    Byte.isRegular byte = true → Byte.isLineBreak byte = false := by
  revert byte
  exact Numeral.byte_cases (by decide +kernel)

section Within

variable {limit column : Nat} {front text : List UInt8}

theorem Within.column_le (within : Within limit column text) : column ≤ limit := by
  cases text with
  | nil => exact within
  | cons byte rest => exact within.1

theorem within_append :
    Within limit column (front ++ text) ↔
      Within limit column front ∧ Within limit (front.foldl nextColumn column) text := by
  induction front generalizing column with
  | nil => exact ⟨fun within => ⟨within.column_le, within⟩, And.right⟩
  | cons byte rest ih => rw [List.cons_append, Within, ih, Within, List.foldl_cons, and_assoc]

theorem Within.behind_le (within : Within limit column text) :
    text.foldl nextColumn column ≤ limit := by
  rw [← List.append_nil text] at within
  exact (within_append.mp within).2

theorem within_of_room (text : List UInt8) (room : column + text.length ≤ limit) :
    Within limit column text := by
  induction text generalizing column with
  | nil => exact room
  | cons byte rest ih =>
    rw [List.length_cons] at room
    refine ⟨by omega, ih ?_⟩
    rw [nextColumn]
    split <;> omega

theorem Within.mono {bound : Nat} (within : Within limit column text) (wider : limit ≤ bound) :
    Within bound column text := by
  induction text generalizing column with
  | nil => exact Nat.le_trans within wider
  | cons byte rest ih => exact ⟨Nat.le_trans within.1 wider, ih within.2⟩

theorem nextColumn_plain {byte : UInt8} (plain : Byte.isLineBreak byte = false) :
    nextColumn column byte = column + 1 := by
  rw [nextColumn, if_neg (by rw [plain]; exact Bool.false_ne_true)]

theorem foldl_plain (plain : ∀ byte ∈ text, Byte.isLineBreak byte = false) :
    text.foldl nextColumn column = column + text.length := by
  induction text generalizing column with
  | nil => rfl
  | cons byte rest ih =>
    rw [List.foldl_cons, nextColumn_plain (plain byte (by simp)),
      ih fun other member => plain other (by simp [member]), List.length_cons]
    omega

/-- Behind a byte that breaks no line there is something on the line. -/
theorem foldl_pos (plain : ∀ byte ∈ text.getLast?, Byte.isLineBreak byte = false)
    (nonempty : text ≠ []) : 0 < text.foldl nextColumn column := by
  obtain ⟨front, last, rfl⟩ := (List.eq_nil_or_concat text).resolve_left nonempty
  rw [List.concat_eq_append, List.foldl_append, List.foldl_cons, List.foldl_nil,
    nextColumn_plain (plain last (by simp))]
  exact Nat.succ_pos _

theorem linesOf_cons (byte : UInt8) (text : List UInt8) :
    linesOf (byte :: text) =
      if Byte.isLineBreak byte then [] :: linesOf text
      else (linesOf text).modifyHead (byte :: ·) :=
  List.splitOnP_cons_eq_if_modifyHead ..

/-- The first line goes on at the column, and the others start on their own. -/
theorem within_iff_lines (limit : Nat) (text : List UInt8) :
    ∃ first others, linesOf text = first :: others ∧ ∀ column, Within limit column text ↔
      column + first.length ≤ limit ∧ ∀ line ∈ others, line.length ≤ limit := by
  induction text with
  | nil => exact ⟨[], [], rfl, fun column => by simp [Within]⟩
  | cons byte rest ih =>
    obtain ⟨first, others, lines, within⟩ := ih
    rw [linesOf_cons, lines]
    cases isBreak : Byte.isLineBreak byte with
    | true =>
      refine ⟨[], first :: others, rfl, fun column => ?_⟩
      rw [Within, nextColumn, if_pos isBreak, within, Nat.zero_add, List.forall_mem_cons]
      rfl
    | false =>
      refine ⟨byte :: first, others, rfl, fun column => ?_⟩
      rw [Within, nextColumn_plain isBreak, within, List.length_cons]
      constructor
      · rintro ⟨-, room, behind⟩
        exact ⟨by omega, behind⟩
      · rintro ⟨room, behind⟩
        exact ⟨by omega, by omega, behind⟩

theorem within_zero_iff : Within limit 0 text ↔ ∀ line ∈ linesOf text, line.length ≤ limit := by
  obtain ⟨first, others, lines, within⟩ := within_iff_lines limit text
  rw [lines, within, Nat.zero_add, List.forall_mem_cons]

end Within

theorem column_advance (line : Line) (pieces : List (List UInt8)) :
    (pieces.foldl advance line).column = pieces.flatten.foldl nextColumn line.column := by
  induction pieces generalizing line with
  | nil => rfl
  | cons piece pieces ih => rw [List.foldl_cons, ih, List.flatten_cons, List.foldl_append]; rfl

theorem limit_advance (line : Line) (pieces : List (List UInt8)) :
    (pieces.foldl advance line).limit = line.limit := by
  induction pieces generalizing line with
  | nil => rfl
  | cons piece pieces ih => exact ih (line.advance piece)

theorem column_behind (line : Line) (token : Token) :
    (line.behind token).column = line.column ∧ (line.behind token).limit = line.limit := by
  cases token <;> exact ⟨rfl, rfl⟩

/-- Where a token starts in front of which there is no space, if so many of its bytes have to fit
on the line. -/
def startColumn (limit column length : Nat) : Nat :=
  if 0 < column ∧ limit < column + length then 0 else column

theorem startColumn_room {limit length : Nat} (column : Nat) (wide : 2 ≤ limit)
    (reserved : 2 ≤ length) : startColumn limit column length + 2 ≤ limit := by
  rw [startColumn]
  split <;> omega

theorem two_le_reserve (length : Nat) : 2 ≤ min (length + 2) Token.stringReserve :=
  Nat.le_min.mpr ⟨Nat.le_add_left 2 length, by decide⟩

section Unspaced

variable {line : Line} (limited : 0 < line.limit) (length : Nat)
include limited

theorem separator_unspaced : line.separator false length =
    if 0 < line.column ∧ line.limit < line.column + length then [Byte.lineFeed] else [] := by
  simp [separator, limited]

theorem column_unspaced : (line.advance (line.separator false length)).column =
    startColumn line.limit line.column length := by
  rw [separator_unspaced limited, startColumn]
  split <;> rfl

theorem within_unspaced (bound : Nat) (text : List UInt8) :
    Within bound line.column (line.separator false length ++ text) ↔
      line.column ≤ bound ∧
        Within bound (startColumn line.limit line.column length) text := by
  have start := column_unspaced limited length
  rw [within_append, ← start, advance, separator_unspaced limited]
  split
  · exact and_congr_left fun _ => and_iff_left (Nat.zero_le _)
  · exact Iff.rfl

end Unspaced

end Line

namespace Draft

structure Kept (limit start : Nat) (draft : Draft) : Prop where
  column : draft.column = draft.bytes.toList.foldl Line.nextColumn start
  within : Line.Within limit start draft.bytes.toList

variable {limit start : Nat} {draft : Draft}

theorem Kept.push (kept : draft.Kept limit start) {piece : List UInt8}
    (within : Line.Within limit draft.column piece) : (draft.push piece).Kept limit start where
  column := by
    rw [Draft.push, Array.toList_appendList, List.foldl_append, ← kept.column]
  within := by
    rw [Draft.push, Array.toList_appendList, Line.within_append, ← kept.column]
    exact ⟨kept.within, within⟩

theorem Kept.foldl_finish (kept : draft.Kept limit start) {delimiter : UInt8}
    (plain : Byte.isLineBreak delimiter = false) :
    (draft.finish delimiter).foldl Line.nextColumn start = draft.column + 1 := by
  rw [finish, Array.toList_push, List.foldl_append, ← kept.column, List.foldl_cons, List.foldl_nil,
    Line.nextColumn_plain plain]

theorem Kept.within_finish (kept : draft.Kept limit start) {delimiter : UInt8}
    (plain : Byte.isLineBreak delimiter = false) {bound : Nat} (wider : limit ≤ bound) :
    Line.Within bound start (draft.finish delimiter) ↔ draft.column + 1 ≤ bound := by
  constructor
  · intro within
    have behind := within.behind_le
    rwa [kept.foldl_finish plain] at behind
  · intro room
    rw [finish, Array.toList_push, Line.within_append, ← kept.column]
    exact ⟨kept.within.mono wider, Line.within_of_room _ room⟩

theorem kept_start {line : Line} {delimiter : UInt8} (plain : Byte.isLineBreak delimiter = false)
    (room : line.column + 1 ≤ limit) : (Draft.start line delimiter).Kept limit line.column where
  column := (Line.nextColumn_plain plain).symm
  within := Line.within_of_room _ room

end Draft

theorem Sink.write_ok {sink next : Sink} {bytes : List UInt8}
    (done : sink.write bytes = (.ok (), next)) :
    next.received.toList = sink.received.toList ++ bytes := by
  obtain ⟨received, room, fault⟩ := sink
  cases room with
  | none =>
    obtain rfl := (Prod.mk.inj done).2
    exact Array.toList_appendList
  | some room =>
    simp only [write] at done
    split at done
    · obtain rfl := (Prod.mk.inj done).2
      exact Array.toList_appendList
    · cases (Prod.mk.inj done).1

namespace Writer

def writeTokens? (writer : Writer) : List (WriteFlags × Token) → Option Writer
  | [] => some writer
  | (flags, token) :: rest =>
    match writer.write flags token with
    | (.ok (), next) => next.writeTokens? rest
    | (.error _, _) => none

def output (writer : Writer) : List UInt8 := writer.sink.received.toList

theorem emit_ok {pieces : List (List UInt8)} {writer next : Writer}
    (done : writer.emit pieces = (.ok (), next)) :
    next.line = pieces.foldl Line.advance writer.line ∧
      next.output = writer.output ++ pieces.flatten := by
  induction pieces generalizing writer with
  | nil =>
    obtain rfl : writer = next := (Prod.mk.inj done).2
    exact ⟨rfl, (List.append_nil _).symm⟩
  | cons piece pieces ih =>
    obtain ⟨line, sink⟩ := writer
    rw [emit] at done
    cases sent : sink.write piece with
    | mk outcome sink' =>
      cases outcome with
      | error fault => simp [sent] at done
      | ok _ =>
        rw [sent] at done
        obtain ⟨line_eq, output_eq⟩ := ih done
        refine ⟨line_eq, ?_⟩
        rw [output_eq, output, Sink.write_ok sent, output, List.flatten_cons, List.append_assoc]

theorem write_ok {flags : WriteFlags} {token : Token} {writer next : Writer}
    (done : writer.write flags token = (.ok (), next)) :
    ∃ pieces, writer.line.pieces? flags token = some pieces ∧
      next.line = (pieces.foldl Line.advance writer.line).behind token ∧
      next.output = writer.output ++ pieces.flatten := by
  rw [write] at done
  cases found : writer.line.pieces? flags token with
  | none => simp [found] at done
  | some pieces =>
    rw [found] at done
    cases emitted : writer.emit pieces with
    | mk outcome behind =>
      cases outcome with
      | error fault => simp [emitted] at done
      | ok _ =>
        obtain ⟨line, output⟩ := emit_ok emitted
        simp only [emitted, Prod.mk.injEq, true_and] at done
        subst done
        exact ⟨pieces, rfl, congrArg (Line.behind · token) line, output⟩

structure Counts (limit : Nat) (writer : Writer) : Prop where
  limited : writer.line.limit = limit
  column : writer.line.column = writer.output.foldl Line.nextColumn 0

theorem output_start {sink : Sink} (fresh : sink.received = #[]) (limit : Nat) :
    ((ofSink sink).setLimit limit).output = [] := by
  rw [output, ofSink, setLimit, fresh]

theorem counts_start {sink : Sink} (fresh : sink.received = #[]) (limit : Nat) :
    ((ofSink sink).setLimit limit).Counts limit where
  limited := rfl
  column := by
    rw [output_start fresh]
    rfl

/-- A token that is written adds its pieces to the line that they stand on. -/
theorem Counts.write {limit : Nat} {flags : WriteFlags} {token : Token} {writer next : Writer}
    (counts : writer.Counts limit) (done : writer.write flags token = (.ok (), next)) :
    ∃ pieces, writer.line.pieces? flags token = some pieces ∧
      next.line = (pieces.foldl Line.advance writer.line).behind token ∧ next.Counts limit ∧
      next.line.column = pieces.flatten.foldl Line.nextColumn writer.line.column ∧
      ∀ bound, Line.Within bound 0 next.output ↔ Line.Within bound 0 writer.output ∧
        Line.Within bound writer.line.column pieces.flatten := by
  obtain ⟨pieces, found, line, output⟩ := write_ok done
  obtain ⟨column, limited⟩ := (pieces.foldl Line.advance writer.line).column_behind token
  rw [← line, Line.column_advance] at column
  rw [← line, Line.limit_advance] at limited
  refine ⟨pieces, found, line, ⟨limited.trans counts.limited, ?_⟩, column, fun bound => ?_⟩
  · rw [column, output, List.foldl_append, counts.column]
  · rw [output, Line.within_append, ← counts.column]

end Writer

end PdfPrimitives
