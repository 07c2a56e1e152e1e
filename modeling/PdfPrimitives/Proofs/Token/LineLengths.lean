import PdfPrimitives.Proofs.Token.Columns

/-!
Lines keep to the limit if each token can and strings stand in parentheses. A token that does not
fit starts a line of its own, and a string leaves space for the backslash that breaks its line and
for its closing parenthesis.
-/

namespace PdfPrimitives

namespace Line

def Sound (line : Line) : Prop := line.touching = true → 0 < line.column

theorem Sound.advance {line : Line} (sound : line.Sound) (text : List UInt8) :
    (line.advance text).Sound := by
  intro touching
  by_cases empty : text = []
  · subst empty
    exact sound touching
  · refine foldl_pos (fun byte last => regular_plain byte ?_) empty
    rw [Line.advance, Option.mem_def.mp last] at touching
    exact touching

theorem Sound.foldl_advance {line : Line} (sound : line.Sound) (pieces : List (List UInt8)) :
    (pieces.foldl Line.advance line).Sound := by
  induction pieces generalizing line with
  | nil => exact sound
  | cons piece pieces ih => exact ih (sound.advance piece)

/-- A separator leaves space for what it separates, on the line or on a new one. -/
theorem within_separated {line : Line} {spaced : Bool} {length : Nat} {text : List UInt8}
    (limited : 0 < line.limit) (sound : line.Sound) (room : line.column ≤ line.limit)
    (alone : Within line.limit 0 text)
    (joined : ∀ column, column + length ≤ line.limit → Within line.limit column text) :
    Within line.limit line.column (line.separator spaced length ++ text) := by
  unfold separator
  dsimp only
  generalize width_eq : (if spaced && line.touching then length + 1 else length) = width
  split
  · rw [List.singleton_append]
    exact ⟨room, alone⟩
  next fits =>
  simp only [limited, decide_true, Bool.true_and, Bool.and_eq_true, decide_eq_true_eq, not_and,
    Nat.not_lt] at fits
  split at width_eq
  · next gap =>
    -- A token is set apart only from one that stands before it on the same line.
    have behind := fits (sound (Bool.and_eq_true_iff.mp gap).2)
    rw [if_pos gap, List.singleton_append]
    refine ⟨room, joined _ ?_⟩
    rw [nextColumn_plain rfl]
    omega
  · next close =>
    rw [if_neg close, List.nil_append]
    rcases Nat.eq_zero_or_pos line.column with first | inside
    · rw [first]
      exact alone
    · exact joined _ (width_eq ▸ fits inside)

theorem nameByte_regular {flags : WriteFlags} {byte : UInt8} {piece : List UInt8}
    (spelled : Escape.nameByte? flags byte = some piece) :
    ∀ each ∈ piece, Byte.isRegular each = true := by
  obtain ⟨high, low⟩ := Lexical.hexDigit_regular byte
  have escaped : ∀ each ∈ Byte.hash :: Byte.hexDigits byte, Byte.isRegular each = true := by
    simp [Byte.hexDigits, high, low, show Byte.isRegular Byte.hash = true from rfl]
  have plain (regular : Byte.isRegular byte = true) :
      ∀ each ∈ [byte], Byte.isRegular each = true := by
    simpa using regular
  rw [Escape.nameByte?] at spelled
  split at spelled
  · cases spelled
  split at spelled
  · split at spelled
    · next regular => exact Option.some.inj spelled ▸ plain regular
    · cases spelled
  · split at spelled
    · exact Option.some.inj spelled ▸ escaped
    · next unescaped =>
      refine Option.some.inj spelled ▸ plain ?_
      simp only [Escape.isNameEscaped, Bool.or_eq_true, not_or] at unescaped
      simpa using unescaped.1.1

theorem name_regular {flags : WriteFlags} {bytes text : List UInt8}
    (spelled : Escape.name? flags bytes = some text) :
    ∃ rest, text = Byte.slash :: rest ∧ ∀ byte ∈ rest, Byte.isRegular byte = true := by
  obtain ⟨pieces, found, rfl⟩ := Option.map_eq_some_iff.mp spelled
  refine ⟨pieces.flatten, rfl, ?_⟩
  clear spelled
  induction bytes generalizing pieces with
  | nil =>
    obtain rfl : [] = pieces := by simpa using found
    simp
  | cons byte bytes ih =>
    rw [List.mapM_cons] at found
    obtain ⟨piece, first, found⟩ := Option.bind_eq_some_iff.mp found
    obtain ⟨others, rest, same⟩ := Option.bind_eq_some_iff.mp found
    obtain rfl := Option.some.inj same
    rw [List.flatten_cons, List.forall_mem_append]
    exact ⟨nameByte_regular first, ih others rest⟩

/-- A line behind a token is sound, since something of the token stands on it or it does not
touch. -/
theorem Sound.pieces {line : Line} (sound : line.Sound) {flags : WriteFlags} {token : Token}
    {pieces : List (List UInt8)} (found : line.pieces? flags token = some pieces) :
    ((pieces.foldl Line.advance line).behind token).Sound := by
  have kept := sound.foldl_advance pieces
  cases token with
  | name bytes =>
    obtain ⟨text, spelled, rfl⟩ := Option.map_eq_some_iff.mp found
    obtain ⟨rest, rfl, regular⟩ := name_regular spelled
    intro _
    change 0 < ((line.separated false [Byte.slash :: rest]).foldl Line.advance line).column
    rw [column_advance, separated, List.flatten_cons, List.flatten_singleton, List.foldl_append]
    refine foldl_pos (fun byte last => ?_) (by simp)
    rcases List.mem_cons.mp (List.mem_of_getLast? last) with rfl | behind
    · rfl
    · exact regular_plain byte (regular byte behind)
  | integer | real | string | keyword | comment | delimiter => exact kept

/-- The pieces are those that the token has on an empty line, behind a separator that counts on as
many bytes as the token puts on one line at most. -/
def Follows (line : Line) (own pieces : List (List UInt8)) : Prop :=
  ∃ spaced length, pieces.flatten = line.separator spaced length ++ own.flatten ∧
    ∀ limit column, column + length ≤ limit → Within limit column own.flatten

theorem separator_empty (spaced : Bool) (length : Nat) : empty.separator spaced length = [] := by
  cases spaced <;> rfl

theorem follows_text (line : Line) (spaced : Bool) (text : List UInt8) :
    line.Follows (empty.separated spaced [text]) (line.separated spaced [text]) := by
  refine ⟨spaced, text.length, ?_, fun limit column room => ?_⟩
  · simp [separated, separator_empty]
  · exact within_of_room _ (by simpa [separated, separator_empty] using room)

theorem follows_comment (line : Line) (bytes : List UInt8) :
    line.Follows
      [empty.separator false (bytes.length + 1), [Byte.percent], bytes, [Byte.lineFeed]]
      [line.separator false (bytes.length + 1), [Byte.percent], bytes, [Byte.lineFeed]] := by
  refine ⟨false, bytes.length + 1, ?_, fun limit column room => ?_⟩
  · simp [separator_empty]
  · have text : [empty.separator false (bytes.length + 1), [Byte.percent], bytes,
        [Byte.lineFeed]].flatten = (Byte.percent :: bytes) ++ [Byte.lineFeed] := by
      simp [separator_empty]
    -- The line feed itself takes no place on the line.
    have line := within_of_room (Byte.percent :: bytes) room
    rw [text, within_append]
    exact ⟨line, line.behind_le, Nat.zero_le _⟩

theorem pieces_follow {line : Line} {flags : WriteFlags} {token : Token}
    {pieces : List (List UInt8)} (found : line.pieces? flags token = some pieces)
    (noString : ∀ bytes, token ≠ .string bytes) :
    ∃ own, empty.pieces? flags token = some own ∧ line.Follows own pieces := by
  cases token with
  | integer value =>
    obtain rfl := Option.some.inj found
    exact ⟨_, rfl, follows_text ..⟩
  | real value =>
    obtain ⟨text, spelled, rfl⟩ := Option.map_eq_some_iff.mp found
    exact ⟨_, Option.map_eq_some_iff.mpr ⟨text, spelled, rfl⟩, follows_text ..⟩
  | string bytes => exact absurd rfl (noString bytes)
  | name bytes =>
    obtain ⟨text, spelled, rfl⟩ := Option.map_eq_some_iff.mp found
    exact ⟨_, Option.map_eq_some_iff.mpr ⟨text, spelled, rfl⟩, follows_text ..⟩
  | keyword bytes =>
    simp only [pieces?] at found ⊢
    split at found
    · cases found
    · next clean =>
      obtain rfl := Option.some.inj found
      exact ⟨_, if_neg clean, follows_text ..⟩
  | comment bytes =>
    simp only [pieces?] at found ⊢
    split at found
    · cases found
    · next single =>
      obtain rfl := Option.some.inj found
      exact ⟨_, if_neg single, follows_comment ..⟩
  | delimiter kind =>
    obtain rfl := Option.some.inj found
    exact ⟨_, rfl, follows_text ..⟩

section Literal

def Short (piece : List UInt8) : Prop :=
  piece = [Byte.lineFeed] ∨
    piece.length ≤ 4 ∧ ∀ byte ∈ piece, Byte.isLineBreak byte = false

theorem short_escape (byte : StringByte) : Short byte.escape := by
  right
  rw [StringByte.escape]
  cases found : StringByte.letter? byte.value with
  | some letter =>
    have reads := Lexical.letter_reads byte.value
    rw [found] at reads
    simp only [Option.all_some, Bool.and_eq_true, bne_iff_ne] at reads
    obtain ⟨⟨⟨noFeed, noReturn⟩, -⟩, -⟩ := reads
    have plain : Byte.isLineBreak letter = false := by simp [Byte.isLineBreak, noFeed, noReturn]
    exact ⟨by simp, by simp [plain, show Byte.isLineBreak Byte.backslash = false from rfl]⟩
  | none =>
    obtain ⟨-, octal, length, few, -⟩ := Lexical.octalWidth_spec byte
    refine ⟨by rw [List.length_cons, length]; omega, ?_⟩
    rintro digit (_ | ⟨_, member⟩)
    · rfl
    · have isDigit := Lexical.octal_isDigit digit (List.all_eq_true.mp octal digit member)
      exact regular_plain digit (Numeral.isDigit_class digit isDigit).1

theorem short_piece (readable utf8 : Bool) (byte : StringByte) :
    Short (byte.piece readable utf8) := by
  rw [StringByte.piece]
  split
  · exact short_escape byte
  · next plain =>
    by_cases feed : byte.value = Byte.lineFeed
    · exact .inl (congrArg (fun value => [value]) feed)
    · have noReturn : byte.value ≠ Byte.carriageReturn := by
        intro same
        simp [StringByte.isEscaped, same] at plain
      exact .inr ⟨by simp, by simp [Byte.isLineBreak, feed, noReturn]⟩

/-- A piece leaves at least one place on its line, or on the next one if it has none on this. -/
theorem kept_pushPiece {limit start : Nat} {draft : Draft} {piece : List UInt8} (wide : 5 ≤ limit)
    (short : Short piece) (kept : draft.Kept limit start) (room : draft.column < limit) :
    (draft.pushPiece limit piece).Kept limit start ∧
      (draft.pushPiece limit piece).column < limit := by
  rcases short with rfl | ⟨few, plain⟩
  · have pushed : draft.pushPiece limit [Byte.lineFeed] = draft.push [Byte.lineFeed] := by
      simp [Draft.pushPiece, Byte.isLineBreak]
    rw [pushed]
    exact ⟨kept.push ⟨Nat.le_of_lt room, Nat.zero_le _⟩, Nat.zero_lt_of_lt room⟩
  · rw [Draft.pushPiece]
    split
    · have broken : (draft.push [Byte.backslash, Byte.lineFeed]).Kept limit start :=
        kept.push ⟨Nat.le_of_lt room, room, Nat.zero_le _⟩
      have column : (draft.push [Byte.backslash, Byte.lineFeed]).column = 0 := rfl
      refine ⟨broken.push (within_of_room piece ?_), ?_⟩
      · rw [column]
        omega
      · rw [Draft.push, column, foldl_plain plain]
        change 0 + piece.length < limit
        omega
    · next fits =>
      have space : draft.column + piece.length < limit := by
        cases piece with
        | nil => exact room
        | cons byte rest =>
          have start := plain byte (by simp)
          have limited : 0 < limit := by omega
          simpa [start, limited] using fits
      refine ⟨kept.push (within_of_room piece (Nat.le_of_lt space)), ?_⟩
      rw [Draft.push, foldl_plain plain]
      exact space

theorem kept_foldl {limit start : Nat} {pieces : List (List UInt8)} (wide : 5 ≤ limit)
    (short : ∀ piece ∈ pieces, Short piece) {draft : Draft} (kept : draft.Kept limit start)
    (room : draft.column < limit) :
    (pieces.foldl (Draft.pushPiece limit) draft).Kept limit start ∧
      (pieces.foldl (Draft.pushPiece limit) draft).column < limit := by
  induction pieces generalizing draft with
  | nil => exact ⟨kept, room⟩
  | cons piece pieces ih =>
    obtain ⟨kept, room⟩ := kept_pushPiece wide (short piece (by simp)) kept room
    exact ih (fun other member => short other (by simp [member])) kept room

/-- There is space for the closing parenthesis, since there was space for a backslash. -/
theorem within_literal {line : Line} {limit : Nat} (limited : line.limit = limit) (wide : 5 ≤ limit)
    (room : line.column + 2 ≤ limit) (flags : WriteFlags) (bytes : List UInt8) :
    Within limit line.column (line.literal (Escape.pieces flags bytes)) := by
  have short : ∀ piece ∈ Escape.pieces flags bytes, Short piece := by
    intro piece member
    obtain ⟨byte, -, rfl⟩ := List.mem_map.mp member
    exact short_piece _ _ byte
  have first : (Draft.start line Byte.openParen).Kept limit line.column :=
    Draft.kept_start rfl (by omega)
  obtain ⟨kept, column⟩ := kept_foldl wide short first room
  rw [literal, limited, kept.within_finish rfl (Nat.le_refl limit)]
  exact column

end Literal

end Line

/-- Tokens with which no line need be longer than the limit: strings that stand in parentheses, and
other tokens with no longer line of their own. A token of at most so many bytes has none. -/
def Token.Narrow (limit : Nat) (flags : WriteFlags) : Token → Prop
  | .string bytes => flags.hexStrings = false ∧ Escape.length flags bytes ≤ 2 * bytes.length
  | token => ∃ pieces, Line.empty.pieces? flags token = some pieces ∧
      ∀ line ∈ Line.linesOf pieces.flatten, line.length ≤ limit

theorem Token.Narrow.lines {limit : Nat} {flags : WriteFlags} {token : Token}
    (narrow : token.Narrow limit flags) (noString : ∀ bytes, token ≠ .string bytes) :
    ∃ pieces, Line.empty.pieces? flags token = some pieces ∧
      ∀ line ∈ Line.linesOf pieces.flatten, line.length ≤ limit := by
  cases token with
  | string bytes => exact absurd rfl (noString bytes)
  | integer | real | name | keyword | comment | delimiter => exact narrow

theorem Token.narrow_of_length {limit : Nat} {flags : WriteFlags} {token : Token}
    {pieces : List (List UInt8)} (found : Line.empty.pieces? flags token = some pieces)
    (short : pieces.flatten.length ≤ limit) (noString : ∀ bytes, token ≠ .string bytes) :
    token.Narrow limit flags := by
  have lines : ∀ line ∈ Line.linesOf pieces.flatten, line.length ≤ limit :=
    Line.within_zero_iff.mp (Line.within_of_room _ (by rwa [Nat.zero_add]))
  cases token with
  | string bytes => exact absurd rfl (noString bytes)
  | integer | real | name | keyword | comment | delimiter => exact ⟨pieces, found, lines⟩

theorem Line.within_pieces {line : Line} {limit : Nat} {flags : WriteFlags} {token : Token}
    {pieces : List (List UInt8)} (limited : line.limit = limit) (wide : 5 ≤ limit)
    (sound : line.Sound) (room : line.column ≤ limit) (narrow : token.Narrow limit flags)
    (found : line.pieces? flags token = some pieces) :
    Within limit line.column pieces.flatten := by
  have positive : 0 < line.limit := by omega
  by_cases isString : ∃ bytes, token = .string bytes
  · obtain ⟨bytes, rfl⟩ := isString
    obtain ⟨noHex, short⟩ := narrow
    obtain rfl := Option.some.inj found
    have literal : line.stringPieces flags bytes = line.literalPieces flags bytes := by
      rw [stringPieces, if_neg]
      simpa [noHex] using short
    have start := startColumn_room line.column (show 2 ≤ line.limit by omega)
      (two_le_reserve bytes.length)
    rw [← column_unspaced positive, limited] at start
    rw [literal, literalPieces, List.flatten_cons, List.flatten_singleton,
      within_unspaced positive, ← column_unspaced positive]
    have limited : (line.advance (line.separator false
        (min (bytes.length + 2) Token.stringReserve))).limit = limit := limited
    exact ⟨room, within_literal limited wide start flags bytes⟩
  · have noString : ∀ bytes, token ≠ .string bytes := fun bytes same => isString ⟨bytes, same⟩
    obtain ⟨own, alone, spaced, length, pieces_eq, joined⟩ := pieces_follow found noString
    obtain ⟨_, same, lines⟩ := narrow.lines noString
    obtain rfl := Option.some.inj (alone.symm.trans same)
    subst limited
    rw [pieces_eq]
    exact within_separated positive sound room (within_zero_iff.mpr lines) (joined line.limit)

namespace Writer

structure Keeps (limit : Nat) (writer : Writer) : Prop extends writer.Counts limit where
  sound : writer.line.Sound
  within : Line.Within limit 0 writer.output

theorem Keeps.write {limit : Nat} {writer next : Writer} {flags : WriteFlags} {token : Token}
    (keeps : writer.Keeps limit) (wide : 5 ≤ limit) (narrow : token.Narrow limit flags)
    (done : writer.write flags token = (.ok (), next)) : next.Keeps limit := by
  obtain ⟨pieces, found, line, counts, -, output⟩ := keeps.toCounts.write done
  have room : writer.line.column ≤ limit := keeps.column ▸ keeps.within.behind_le
  refine ⟨counts, line ▸ keeps.sound.pieces found, (output limit).mpr ⟨keeps.within, ?_⟩⟩
  exact Line.within_pieces keeps.limited wide keeps.sound room narrow found

theorem Keeps.writeTokens {limit : Nat} {tokens : List (WriteFlags × Token)}
    {writer last : Writer} (keeps : writer.Keeps limit) (wide : 5 ≤ limit)
    (narrow : ∀ entry ∈ tokens, entry.2.Narrow limit entry.1)
    (written : writer.writeTokens? tokens = some last) : last.Keeps limit := by
  induction tokens generalizing writer with
  | nil => exact Option.some.inj written ▸ keeps
  | cons entry rest ih =>
    obtain ⟨flags, token⟩ := entry
    rw [writeTokens?] at written
    split at written
    · next next done =>
      have step := keeps.write wide (narrow (flags, token) (by simp)) done
      exact ih step (fun other member => narrow other (by simp [member])) written
    · cases written

/-- Tokens that were all written, the strings among them in parentheses and the others with no line
of their own that is longer than the limit, leave no line that is longer, however long the strings
are and whatever flags each was written with. -/
theorem lines_within_limit {limit : Nat} (wide : 5 ≤ limit) {sink : Sink}
    (fresh : sink.received = #[]) {tokens : List (WriteFlags × Token)}
    (narrow : ∀ entry ∈ tokens, entry.2.Narrow limit entry.1) {last : Writer}
    (written : ((ofSink sink).setLimit limit).writeTokens? tokens = some last) :
    ∀ line ∈ Line.linesOf last.output, line.length ≤ limit := by
  have start : ((ofSink sink).setLimit limit).Keeps limit :=
    ⟨counts_start fresh limit, nofun, output_start fresh limit ▸ Nat.zero_le limit⟩
  exact Line.within_zero_iff.mp (start.writeTokens wide narrow written).within

def narrowTokens : List (WriteFlags × Token) :=
  [(⟨false, false, false⟩, .integer (-42)),
    (⟨false, false, true⟩, .string [0x61, 0x01, 0x39, 0x62, 0x63]),
    (⟨false, false, false⟩, .name [0x41, 0x20]),
    (⟨true, false, false⟩, .keyword [0x6f, 0x62, 0x6a]),
    (⟨false, true, false⟩, .comment [0x78])]

theorem narrowTokens_within_limit :
    5 ≤ 5 ∧ Sink.unlimited.received = #[] ∧
      (∀ entry ∈ narrowTokens, entry.2.Narrow 5 entry.1) ∧
      ∃ last, ((ofSink .unlimited).setLimit 5).writeTokens? narrowTokens = some last ∧
        ∀ line ∈ Line.linesOf last.output, line.length ≤ 5 := by
  have narrow : ∀ entry ∈ narrowTokens, entry.2.Narrow 5 entry.1 := by
    simp only [narrowTokens, List.forall_mem_cons]
    exact ⟨Token.narrow_of_length rfl (by decide +kernel) nofun, ⟨rfl, by decide +kernel⟩,
      Token.narrow_of_length rfl (by decide +kernel) nofun,
      Token.narrow_of_length rfl (by decide +kernel) nofun,
      Token.narrow_of_length rfl (by decide +kernel) nofun, nofun⟩
  have all : (((ofSink .unlimited).setLimit 5).writeTokens? narrowTokens).isSome := by
    decide +kernel
  obtain ⟨last, written⟩ := Option.isSome_iff_exists.mp all
  exact ⟨Nat.le_refl 5, rfl, narrow, last, written,
    lines_within_limit (Nat.le_refl 5) rfl narrow written⟩

end Writer

end PdfPrimitives
