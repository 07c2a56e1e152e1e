import PdfPrimitives.Proofs.Token.Columns
import PdfPrimitives.Proofs.Token.RoundTrip

/-!
How long the lines of strings in hexadecimal digits become. Lines are broken between the digits of
two bytes, where the next two would not fit, but never in front of the closing bracket. So a line
is too long by that bracket exactly if the digits of a string end where the line is full.
-/

namespace PdfPrimitives

namespace Line

def digitCount (bytes : List UInt8) : Nat :=
  2 * bytes.length - if bytes.getLast?.any (· &&& 0x0f == 0) then 1 else 0

/-- The column behind so many digits of a string that is opened at a column. The line on which it
is opened holds some of them, and each other line as many as have space in pairs. -/
def digitsEnd (limit start digits : Nat) : Nat :=
  let first := 2 * ((limit - (start + 1)) / 2)
  if digits ≤ first then start + 1 + digits
  else (digits - first - 1) % (2 * (limit / 2)) + 1

def columnBehind (limit column : Nat) (bytes : List UInt8) : Nat :=
  let start := startColumn limit column (min (2 * bytes.length + 2) Token.stringReserve)
  digitsEnd limit start (digitCount bytes) + 1

theorem odd_place (each : Nat) {pairs : Nat} (positive : 0 < pairs) :
    (2 * pairs - 1) % (2 * each) % 2 = 1 := by
  rw [Nat.mod_mul_right_mod]
  omega

/-- Digits in pairs go on from one full line to the next. -/
theorem mod_pairs {each pairs more : Nat} (wide : 0 < each) (least : 0 < more) (few : more ≤ 2)
    (positive : 0 < pairs) :
    (2 * pairs + more - 1) % (2 * each) =
      if (2 * pairs - 1) % (2 * each) + 1 = 2 * each then more - 1
      else (2 * pairs - 1) % (2 * each) + more := by
  have small := Nat.mod_lt (2 * pairs - 1) (show 0 < 2 * each by omega)
  have whole := Nat.div_add_mod (2 * pairs - 1) (2 * each)
  generalize (2 * pairs - 1) % (2 * each) = place at small whole ⊢
  generalize (2 * pairs - 1) / (2 * each) = full at whole
  have even : 2 * each * full = 2 * (each * full) := Nat.mul_assoc ..
  have sum : 2 * pairs + more - 1 = 2 * each * full + (place + more) := by omega
  rw [sum, Nat.mul_add_mod]
  split
  · next ending =>
    have next : place + more = 2 * each + (more - 1) := by omega
    rw [next, Nat.add_mod_left, Nat.mod_eq_of_lt (by omega)]
  · exact Nat.mod_eq_of_lt (by omega)

theorem digitsEnd_add {limit start : Nat} (room : start + 2 ≤ limit) (pairs : Nat) {more : Nat}
    (least : 0 < more) (few : more ≤ 2) :
    digitsEnd limit start (2 * pairs + more) =
      if limit < digitsEnd limit start (2 * pairs) + 2 then more
      else digitsEnd limit start (2 * pairs) + more := by
  unfold digitsEnd
  dsimp only
  have bounds : 2 * (limit / 2) ≤ limit ∧ limit < 2 * (limit / 2) + 2 := by omega
  have opened : start + 1 + 2 * ((limit - (start + 1)) / 2) ≤ limit ∧
      limit < start + 1 + 2 * ((limit - (start + 1)) / 2) + 2 := by omega
  generalize (limit - (start + 1)) / 2 = first at opened ⊢
  generalize limit / 2 = each at bounds ⊢
  by_cases outside : first < pairs
  · have before : 2 * pairs - 2 * first - 1 = 2 * (pairs - first) - 1 := by omega
    have after : 2 * pairs + more - 2 * first - 1 = 2 * (pairs - first) + more - 1 := by omega
    have step := mod_pairs (show 0 < each by omega) least few (Nat.sub_pos_of_lt outside)
    rw [if_neg (show ¬ 2 * pairs ≤ 2 * first by omega),
      if_neg (show ¬ 2 * pairs + more ≤ 2 * first by omega), before, after, step]
    -- A full line ends behind a pair, so one that has no space for two more digits is full.
    have odd := odd_place each (Nat.sub_pos_of_lt outside)
    have small := Nat.mod_lt (2 * (pairs - first) - 1) (show 0 < 2 * each by omega)
    generalize (2 * (pairs - first) - 1) % (2 * each) = place at odd small ⊢
    by_cases full : place + 1 = 2 * each
    · rw [if_pos full, if_pos (by omega)]
      omega
    · rw [if_neg full, if_neg (by omega)]
      omega
  · rw [if_pos (show 2 * pairs ≤ 2 * first by omega)]
    by_cases fits : pairs < first
    · rw [if_pos (show 2 * pairs + more ≤ 2 * first by omega), if_neg (by omega)]
      omega
    · have small : 2 * pairs + more - 2 * first - 1 = more - 1 := by omega
      rw [if_neg (show ¬ 2 * pairs + more ≤ 2 * first by omega), if_pos (by omega), small,
        Nat.mod_eq_of_lt (by omega)]
      omega

theorem digitsEnd_le {limit start : Nat} (room : start + 2 ≤ limit) (digits : Nat) :
    digitsEnd limit start digits ≤ limit := by
  unfold digitsEnd
  dsimp only
  split
  · omega
  · have place := Nat.mod_lt (digits - 2 * ((limit - (start + 1)) / 2) - 1)
      (show 0 < 2 * (limit / 2) by omega)
    omega

theorem digitsEnd_zero (limit start : Nat) : digitsEnd limit start 0 = start + 1 := by
  rw [digitsEnd, if_pos (Nat.zero_le _)]

def Digits (digits : List UInt8) : Prop :=
  0 < digits.length ∧ digits.length ≤ 2 ∧ ∀ digit ∈ digits, Byte.isLineBreak digit = false

theorem hexDigit_plain (byte : UInt8) :
    Byte.isLineBreak (Byte.hexDigit (byte >>> 4)) = false ∧
      Byte.isLineBreak (Byte.hexDigit (byte &&& 0x0f)) = false :=
  (Lexical.hexDigit_regular byte).imp (regular_plain _) (regular_plain _)

theorem digits_hexDigits (byte : UInt8) : Digits (Byte.hexDigits byte) := by
  obtain ⟨high, low⟩ := hexDigit_plain byte
  exact ⟨Nat.zero_lt_two, Nat.le_refl 2, by simp [Byte.hexDigits, high, low]⟩

theorem digits_lastDigits (byte : UInt8) : Digits (lastDigits byte) := by
  rw [lastDigits]
  split
  · exact ⟨Nat.one_pos, Nat.le_succ 1, by simp [(hexDigit_plain byte).1]⟩
  · exact digits_hexDigits byte

/-- The digits of one more byte go where their count says. -/
theorem pushDigits_kept {limit start pairs : Nat} {draft : Draft} {digits : List UInt8}
    (room : start + 2 ≤ limit) (shape : Digits digits) (kept : draft.Kept limit start)
    (column : draft.column = digitsEnd limit start (2 * pairs)) :
    (draft.pushDigits limit digits).Kept limit start ∧
      (draft.pushDigits limit digits).column =
        digitsEnd limit start (2 * pairs + digits.length) := by
  obtain ⟨least, few, plain⟩ := shape
  rw [digitsEnd_add room pairs least few, ← column, Draft.pushDigits]
  have limited : 0 < limit := by omega
  simp only [limited, decide_true, Bool.true_and, decide_eq_true_eq]
  split
  · have broken : (draft.push [Byte.lineFeed]).Kept limit start :=
      kept.push ⟨kept.column ▸ kept.within.behind_le, Nat.zero_le _⟩
    have fits : (draft.push [Byte.lineFeed]).column + digits.length ≤ limit := by
      change 0 + digits.length ≤ limit
      omega
    refine ⟨broken.push (within_of_room digits fits), ?_⟩
    rw [Draft.push, foldl_plain plain]
    exact Nat.zero_add _
  · refine ⟨kept.push (within_of_room digits (by omega)), ?_⟩
    rw [Draft.push, foldl_plain plain]

theorem foldl_pushDigits_kept {limit start : Nat} {draft : Draft} (bytes : List UInt8)
    (pairs : Nat) (room : start + 2 ≤ limit) (kept : draft.Kept limit start)
    (column : draft.column = digitsEnd limit start (2 * pairs)) :
    ((bytes.map Byte.hexDigits).foldl (Draft.pushDigits limit) draft).Kept limit start ∧
      ((bytes.map Byte.hexDigits).foldl (Draft.pushDigits limit) draft).column =
        digitsEnd limit start (2 * (pairs + bytes.length)) := by
  induction bytes generalizing draft pairs with
  | nil => exact ⟨kept, column⟩
  | cons byte bytes ih =>
    obtain ⟨kept, column⟩ := pushDigits_kept room (digits_hexDigits byte) kept column
    rw [List.length_cons, Nat.add_comm bytes.length, ← Nat.add_assoc]
    exact ih (pairs + 1) kept column

theorem length_lastDigits (byte : UInt8) :
    (lastDigits byte).length = 2 - if byte &&& 0x0f == 0 then 1 else 0 := by
  rw [lastDigits]
  split <;> simp_all [Byte.hexDigits]

theorem digitPairs_kept {limit start : Nat} {draft : Draft} (bytes : List UInt8)
    (room : start + 2 ≤ limit) (kept : draft.Kept limit start) (column : draft.column = start + 1) :
    ((digitPairs bytes).foldl (Draft.pushDigits limit) draft).Kept limit start ∧
      ((digitPairs bytes).foldl (Draft.pushDigits limit) draft).column =
        digitsEnd limit start (digitCount bytes) := by
  rw [← digitsEnd_zero limit start] at column
  rcases List.eq_nil_or_concat bytes with rfl | ⟨front, last, rfl⟩
  · exact ⟨kept, column⟩
  · obtain ⟨kept, column⟩ := foldl_pushDigits_kept front 0 room kept column
    obtain ⟨kept, column⟩ := pushDigits_kept room (digits_lastDigits last) kept column
    have pieces : digitPairs (front.concat last) =
        front.map Byte.hexDigits ++ [lastDigits last] := by simp [digitPairs]
    have count : digitCount (front.concat last) =
        2 * (0 + front.length) + (lastDigits last).length := by
      rw [length_lastDigits]
      simp only [digitCount, List.concat_eq_append, List.length_append, List.length_singleton,
        List.getLast?_concat, Option.any_some]
      split <;> omega
    rw [pieces, List.foldl_append, count]
    exact ⟨kept, column⟩

/-- All but the closing bracket keeps to the limit. -/
theorem hexadecimal_lines (line : Line) {limit : Nat} (limited : line.limit = limit)
    (room : line.column + 2 ≤ limit) (bytes : List UInt8) :
    (line.hexadecimal bytes).foldl nextColumn line.column =
        digitsEnd limit line.column (digitCount bytes) + 1 ∧
      ∀ bound, limit ≤ bound → (Within bound line.column (line.hexadecimal bytes) ↔
        digitsEnd limit line.column (digitCount bytes) + 1 ≤ bound) := by
  have first : (Draft.start line Byte.less).Kept limit line.column :=
    Draft.kept_start rfl (by omega)
  obtain ⟨kept, column⟩ := digitPairs_kept bytes room first rfl
  rw [hexadecimal, limited, ← column]
  exact ⟨kept.foldl_finish rfl, fun bound wider => kept.within_finish rfl wider⟩

theorem hexPieces_lines {line : Line} {limit : Nat} (limited : line.limit = limit)
    (wide : 2 ≤ limit) (bytes : List UInt8) :
    (line.hexPieces bytes).flatten.foldl nextColumn line.column =
        columnBehind limit line.column bytes ∧
      ∀ bound, limit ≤ bound → (Within bound line.column (line.hexPieces bytes).flatten ↔
        line.column ≤ bound ∧ columnBehind limit line.column bytes ≤ bound) := by
  have positive : 0 < line.limit := by omega
  have room := startColumn_room line.column wide (two_le_reserve (2 * bytes.length))
  have start := column_unspaced positive (min (2 * bytes.length + 2) Token.stringReserve)
  rw [limited] at start
  rw [← start] at room
  obtain ⟨behind, within⟩ := hexadecimal_lines
    (line.advance (line.separator false (min (2 * bytes.length + 2) Token.stringReserve)))
    limited room bytes
  rw [hexPieces, List.flatten_cons, List.flatten_singleton, List.foldl_append]
  refine ⟨?_, fun bound wider => ?_⟩
  · rw [columnBehind, ← start]
    exact behind
  · rw [within_unspaced positive, limited, ← start, within bound wider, start]
    rfl

theorem columnBehind_le {limit : Nat} (wide : 2 ≤ limit) (column : Nat) (bytes : List UInt8) :
    columnBehind limit column bytes ≤ limit + 1 := by
  rw [columnBehind]
  exact Nat.succ_le_succ (digitsEnd_le (startColumn_room column wide (two_le_reserve _)) _)

theorem scanl_columnBehind_le {limit : Nat} (wide : 2 ≤ limit) (strings : List (List UInt8))
    {start : Nat} (room : start ≤ limit + 1) :
    ∀ column ∈ strings.scanl (columnBehind limit) start, column ≤ limit + 1 := by
  induction strings generalizing start with
  | nil => simpa using room
  | cons bytes strings ih =>
    rw [List.scanl_cons, List.forall_mem_cons]
    exact ⟨room, ih (columnBehind_le wide start bytes)⟩

end Line

namespace Writer

def hexadecimals (strings : List (WriteFlags × List UInt8)) : List (WriteFlags × Token) :=
  strings.map fun entry => (entry.1, .string entry.2)

variable {limit : Nat} {strings : List (WriteFlags × List UInt8)} {last : Writer}

/-- A string has a spelling wherever it stands, so only the sink can fail. -/
theorem writes_hexadecimals (strings : List (WriteFlags × List UInt8)) {writer : Writer}
    (unlimited : writer.sink.room = none) :
    ∃ last, writer.writeTokens? (hexadecimals strings) = some last := by
  induction strings generalizing writer with
  | nil => exact ⟨writer, rfl⟩
  | cons entry rest ih =>
    obtain ⟨line, received, room, fault⟩ := writer
    obtain rfl : room = none := unlimited
    rw [hexadecimals, List.map_cons, writeTokens?, write_unlimited]
    exact ih rfl

theorem Counts.write_hexadecimal {writer next : Writer} {flags : WriteFlags} {bytes : List UInt8}
    (counts : writer.Counts limit) (wide : 2 ≤ limit) (hexadecimal : flags.hexStrings = true)
    (done : writer.write flags (.string bytes) = (.ok (), next)) :
    next.Counts limit ∧ next.line.column = Line.columnBehind limit writer.line.column bytes ∧
      ∀ bound, limit ≤ bound → (Line.Within bound 0 next.output ↔
        Line.Within bound 0 writer.output ∧ next.line.column ≤ bound) := by
  obtain ⟨pieces, found, -, kept, column, within⟩ := counts.write done
  obtain rfl : writer.line.hexPieces bytes = pieces := by
    rw [← Option.some.inj found, Line.stringPieces, hexadecimal]
    rfl
  obtain ⟨behind, lines⟩ := Line.hexPieces_lines counts.limited wide bytes
  refine ⟨kept, column.trans behind, fun bound wider => ?_⟩
  rw [within bound, lines bound wider, column, behind]
  exact and_congr_right fun before => and_iff_right (counts.column ▸ before.behind_le)

/-- The lines are as long as the columns behind the strings say. -/
theorem Counts.write_hexadecimals {writer : Writer} (counts : writer.Counts limit)
    (wide : 2 ≤ limit) (hexadecimal : ∀ entry ∈ strings, entry.1.hexStrings = true)
    (written : writer.writeTokens? (hexadecimals strings) = some last) {bound : Nat}
    (wider : limit ≤ bound) :
    Line.Within bound 0 last.output ↔ Line.Within bound 0 writer.output ∧
      ∀ column ∈ (strings.map Prod.snd).scanl (Line.columnBehind limit) writer.line.column,
        column ≤ bound := by
  induction strings generalizing writer with
  | nil =>
    obtain rfl := Option.some.inj written
    simp only [List.map_nil, List.scanl_nil, List.mem_singleton, forall_eq]
    exact (and_iff_left_of_imp fun within => counts.column ▸ within.behind_le).symm
  | cons entry rest ih =>
    obtain ⟨flags, bytes⟩ := entry
    rw [hexadecimals, List.map_cons, writeTokens?] at written
    split at written
    · next next done =>
      obtain ⟨kept, column, within⟩ :=
        counts.write_hexadecimal wide (hexadecimal (flags, bytes) (by simp)) done
      rw [ih kept (fun other member => hexadecimal other (by simp [member])) written,
        within bound wider, column, List.map_cons, List.scanl_cons, List.forall_mem_cons]
      constructor
      · rintro ⟨⟨before, -⟩, behind⟩
        exact ⟨before, counts.column ▸ before.behind_le, behind⟩
      · rintro ⟨before, -, behind⟩
        exact ⟨⟨before, behind _ (List.mem_of_head? List.head?_scanl)⟩, behind⟩
    · cases written

/-- A line of strings in hexadecimal digits is longer than the limit exactly if a string ends with
its closing bracket behind the limit, and then by this bracket only. -/
theorem hexadecimal_lines_exceed_iff (wide : 5 ≤ limit) {sink : Sink}
    (fresh : sink.received = #[]) (hexadecimal : ∀ entry ∈ strings, entry.1.hexStrings = true) :
    (sink.room = none → ∃ last,
      ((ofSink sink).setLimit limit).writeTokens? (hexadecimals strings) = some last) ∧
    ∀ last, ((ofSink sink).setLimit limit).writeTokens? (hexadecimals strings) = some last →
      (∀ line ∈ Line.linesOf last.output, line.length ≤ limit + 1) ∧
        ((∃ line ∈ Line.linesOf last.output, limit < line.length) ↔
          ∃ column ∈ (strings.map Prod.snd).scanl (Line.columnBehind limit) 0,
            limit < column) := by
  refine ⟨fun unlimited => writes_hexadecimals strings unlimited, fun last written => ?_⟩
  have narrow : 2 ≤ limit := by omega
  have lines : ∀ bound, limit ≤ bound → ((∀ line ∈ Line.linesOf last.output, line.length ≤ bound) ↔
      ∀ column ∈ (strings.map Prod.snd).scanl (Line.columnBehind limit) 0, column ≤ bound) := by
    intro bound wider
    rw [← Line.within_zero_iff,
      (counts_start fresh limit).write_hexadecimals narrow hexadecimal written wider,
      output_start fresh]
    exact and_iff_right (Nat.zero_le bound)
  constructor
  · exact (lines (limit + 1) (Nat.le_succ limit)).mpr
      (Line.scanl_columnBehind_le narrow _ (Nat.zero_le _))
  · rw [← not_iff_not]
    push Not
    exact lines limit (Nat.le_refl limit)

def shortStrings : List (WriteFlags × List UInt8) :=
  [(⟨false, true, false⟩, [0x61]), (⟨false, true, true⟩, [0x61, 0x10]),
    (⟨true, true, false⟩, [0x61, 0x62])]

theorem shortStrings_exceed :
    5 ≤ 5 ∧ Sink.unlimited.received = #[] ∧
      (∀ entry ∈ shortStrings, entry.1.hexStrings = true) ∧
      ∃ last, ((ofSink .unlimited).setLimit 5).writeTokens? (hexadecimals shortStrings) =
          some last ∧
        (∀ line ∈ Line.linesOf last.output, line.length ≤ 6) ∧
          ∃ line ∈ Line.linesOf last.output, 5 < line.length := by
  have hexadecimal : ∀ entry ∈ shortStrings, entry.1.hexStrings = true := by decide
  have fresh : Sink.unlimited.received = #[] := rfl
  obtain ⟨writes, lines⟩ := hexadecimal_lines_exceed_iff (Nat.le_refl 5) fresh hexadecimal
  obtain ⟨last, written⟩ := writes rfl
  obtain ⟨most, exceeds⟩ := lines last written
  exact ⟨Nat.le_refl 5, fresh, hexadecimal, last, written, most,
    exceeds.mpr (by decide +kernel)⟩

/-- The closing bracket of two letters is the sixth byte of its line, though lines are to be broken
behind the fifth. -/
theorem twoLetters_exceed :
    ¬ ∀ (limit : Nat), 5 ≤ limit → ∀ strings : List (WriteFlags × List UInt8),
      (∀ entry ∈ strings, entry.1.hexStrings = true) → ∀ last,
        (new.setLimit limit).writeTokens? (hexadecimals strings) = some last →
          ∀ line ∈ Line.linesOf last.output, line.length ≤ limit := by
  intro claimed
  have written : (new.setLimit 5).writeTokens?
      (hexadecimals [(⟨false, true, false⟩, [0x61, 0x62])]) =
        some ⟨⟨6, 5, false⟩, ⟨#[0x3c, 0x36, 0x31, 0x36, 0x32, 0x3e], none, .other⟩⟩ := by
    decide +kernel
  have lines := claimed 5 (Nat.le_refl 5) _ (by decide) _ written
  exact absurd lines (by decide +kernel)

end Writer

end PdfPrimitives
