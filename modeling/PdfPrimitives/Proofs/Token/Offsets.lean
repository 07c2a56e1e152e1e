import PdfPrimitives.Proofs.Token.LineFeed
import PdfPrimitives.Proofs.Token.Numbers
import PdfPrimitives.Proofs.Token.Spans
import PdfPrimitives.Token.Report

/-!
Where the tokens of a listing stand in the file. Reading afresh from the offset of an entry
gives its token, also behind the data of streams, and what is passed over reaches from the
line of the keyword `stream` up to the next `endstream`.
-/

namespace PdfPrimitives

namespace Text

def place? (word text : List UInt8) : Option ℕ := text.tails.findIdx? word.isPrefixOf

theorem isPrefixOf_byte (word text : List UInt8) :
    (word.map Sight.byte).isPrefixOf (text.map .byte) = word.isPrefixOf text := by
  induction word generalizing text with
  | nil => rfl
  | cons first word ih =>
    cases text with
    | nil => rfl
    | cons byte text =>
      have same : (Sight.byte first == Sight.byte byte) = (first == byte) := by
        by_cases equal : first = byte <;> simp [equal]
      simp only [List.map_cons, List.isPrefixOf, ih, same]

theorem find_holding {word : List UInt8} (nonempty : word ≠ []) (text : List UInt8)
    (offset : ℕ) :
    (Source.holding text offset).find? word =
      (place? word text).map fun place => .holding (text.drop place) (offset + place) := by
  have found (text : List UInt8) (offset : ℕ) :
      Source.findFrom (word.map .byte) offset (text.map .byte) =
        (place? word text).map fun place => .holding (text.drop place) (offset + place) := by
    induction text generalizing offset with
    | nil =>
      cases word with
      | nil => contradiction
      | cons first word => rfl
    | cons byte text ih =>
      have here := isPrefixOf_byte word (byte :: text)
      rw [List.map_cons] at here ⊢
      rw [Source.findFrom, here, place?, List.tails_cons, List.findIdx?_cons]
      split
      · rfl
      · rw [ih, place?, Option.map_map]
        congr 1
        funext place
        simp [Nat.add_comm, Nat.add_left_comm]
  exact found text offset

end Text

/-- The text of a keyword is the keyword. -/
theorem Lexical.text_of_keyword (plain : Bool) (byte : UInt8) (rest word behind : List UInt8)
    (given : token plain byte rest = .ok (.keyword word, behind)) :
    byte :: rest = word ++ behind := by
  revert rest word behind
  apply token_cases plain byte (motive := fun lexer => ∀ rest word behind,
    lexer rest = .ok (.keyword word, behind) → byte :: rest = word ++ behind)
  case comment | bracket | stray => intros; simp_all
  case literal =>
    intro rest word behind given
    unfold Lexical.literal at given
    split at given <;> cases given
  case name =>
    intro rest word behind given
    unfold Lexical.name at given
    dsimp only at given
    split at given
    · cases given
    · split at given <;> cases given
  case angle =>
    intro rest word behind given
    unfold Lexical.angle Lexical.hexEnd at given
    split at given
    · cases given
    · split at given
      · cases given
      · split at given <;> cases given
  case closing =>
    intro rest word behind given
    unfold Lexical.closing at given
    split at given <;> cases given
  case word =>
    intro rest word behind given
    unfold Lexical.word at given
    dsimp only at given
    split at given
    · cases given
    · obtain ⟨kept, rfl⟩ := Prod.mk.inj (Except.ok.inj given)
      rw [← Token.bytes_of_keyword kept, List.cons_append, List.takeWhile_append_dropWhile]

def Listing.afresh (bytes : List UInt8) (place : ℕ) : Except TokenFault (Option Token) × Reader :=
  Reader.read Listing.flags (.ofBytes (bytes.drop place))

def Entry.stop (bytes : List UInt8) (entry : Entry) : ℕ :=
  entry.offset + (Listing.afresh bytes entry.offset).2.source.offset

/-- A new reader on the bytes from the offset of an entry on gives its token, which begins
where the bytes do. -/
structure Entry.Stands (bytes : List UInt8) (entry : Entry) : Prop where
  answer : (Listing.afresh bytes entry.offset).1 = .ok (some entry.token)
  start : (Listing.afresh bytes entry.offset).2.tokenStart = 0
  nonempty : entry.offset < entry.stop bytes

namespace Reader

variable {flags : ReadFlags}

/-- A read that gives a token, with its places counted from what is left of the text. -/
theorem read_places (all : flags.toLineFeed = false) (offset begun last : ℕ)
    {bytes rest behind : List UInt8} {byte : UInt8} {token : Token}
    (starts : Lexical.skip flags.comments bytes = byte :: rest)
    (given : Lexical.token flags.plainNames byte rest = .ok (token, behind)) :
    let result := read flags ⟨.holding bytes offset, .idle, begun, last⟩
    behind <:+ rest ∧ result.1 = .ok (some token) ∧
      result.2.tokenStart = offset + (bytes.length - (byte :: rest).length) ∧
      result.2.source = .holding behind (offset + (bytes.length - behind.length)) ∧
      (result.2.mode = .idle ∨ result.2.mode = .ended) := by
  intro result
  obtain ⟨text, rfl, -⟩ := Lexical.token_cuts flags.plainNames byte rest token behind given
  obtain ⟨gap, other, parts, -, -, -, answer, -, source, rests⟩ :=
    read_extent all offset begun last bytes _ behind byte token starts given
  have delivered := read_between all offset begun last bytes _ byte starts
  rw [given] at delivered
  have length : (gap ++ other).length = bytes.length - behind.length := by
    simp only [parts, List.length_append, Nat.add_sub_cancel]
  rw [length] at source
  exact ⟨List.suffix_append .., answer, delivered.start, source, rests.imp_right And.left⟩

/-- What a text holds from the start of the token on that is read first. -/
theorem starts_of_read (all : flags.toLineFeed = false) (offset begun last : ℕ)
    {bytes : List UInt8} {token : Token} {reader : Reader}
    (given : read flags ⟨.holding bytes offset, .idle, begun, last⟩ = (.ok (some token), reader)) :
    ∃ byte rest behind, Lexical.skip flags.comments bytes = byte :: rest ∧
      Lexical.token flags.plainNames byte rest = .ok (token, behind) := by
  cases starts : Lexical.skip flags.comments bytes with
  | nil =>
    have nothing := read_between_end all offset begun last bytes starts
    rw [given] at nothing
    cases nothing
  | cons byte rest =>
    have agreed := read_between all offset begun last bytes rest byte starts
    rw [given] at agreed
    refine ⟨byte, rest, ?_⟩
    cases outcome : Lexical.token flags.plainNames byte rest with
    | error fault =>
      rw [outcome] at agreed
      cases agreed
    | ok found =>
      obtain ⟨other, behind⟩ := found
      rw [outcome] at agreed
      obtain rfl := Option.some.inj (Except.ok.inj agreed.answer)
      exact ⟨behind, rfl, rfl⟩

/-- Reading passes over blanks and comments up to the first line feed, and ends behind it. -/
theorem read_toLineFeed (stops : flags.toLineFeed = true) (gap data : List UInt8)
    (single : Byte.lineFeed ∉ gap) (skipped : Lexical.skip flags.comments gap = [])
    (offset begun last : ℕ) :
    let result := read flags ⟨.holding (gap ++ Byte.lineFeed :: data) offset, .idle, begun, last⟩
    result.1 = .ok none ∧ result.2.mode = .ended ∧
      result.2.source = .holding data (offset + (gap.length + 1)) := by
  have feeds : ∀ byte ∈ (Byte.lineFeed :: data).head?, byte = Byte.lineFeed :=
    fun byte same => (Option.some.inj same).symm
  obtain ⟨before, passed⟩ := read_skip_line offset begun last gap (fun _ => single)
    fun byte member => by rw [feeds byte member]; rfl
  obtain ⟨answer, mode, source⟩ :=
    read_lineEnd stops feeds (offset + (gap.length - 0)) before last
  rw [passed, skipped, List.nil_append]
  refine ⟨answer, mode, source.trans ?_⟩
  rw [List.tail_cons, List.length_cons, Nat.add_sub_cancel_left]
  rfl

end Reader

namespace Listing

structure Cursor.At (bytes : List UInt8) (place : ℕ) (cursor : Cursor) : Prop where
  source : ∃ offset, cursor.base + offset = place ∧
    cursor.reader.source = .holding (bytes.drop place) offset
  rests : cursor.reader.mode = .idle ∨ cursor.reader.mode = .ended

/-- The data of a stream behind a line feed at some place is passed over: reading goes on at the
next `endstream`, or there is nothing more. -/
def Resumes (bytes : List UInt8) (place next : ℕ) (more : Prop) : Prop :=
  ∀ gap data, bytes.drop place = gap ++ Byte.lineFeed :: data → Byte.lineFeed ∉ gap →
    Lexical.skip false gap = [] → more →
      ∃ distance, Text.place? (Text.ascii "endstream") data = some distance ∧
        place + (gap.length + 1) + distance ≤ next

inductive Follow (bytes : List UInt8) : ℕ → List Entry → Prop
  | nil (place : ℕ) : Follow bytes place []
  | cons {place : ℕ} {entry : Entry} {later : List Entry} (next : ℕ)
      (begins : place ≤ entry.offset) (stands : entry.Stands bytes) (ends : entry.stop bytes ≤ next)
      (resumes : entry.token = .keyword (Text.ascii "stream") →
        entry.stop bytes = entry.offset + 6 ∧
          Resumes bytes (entry.offset + 6) next (later ≠ []))
      (follow : Follow bytes next later) : Follow bytes place (entry :: later)

theorem drop_of_suffix {bytes rest : List UInt8} {place : ℕ} (suffix : rest <:+ bytes.drop place) :
    bytes.drop (place + ((bytes.drop place).length - rest.length)) = rest := by
  rw [← List.drop_drop]
  exact (List.suffix_iff_eq_drop.mp suffix).symm

/-- An entry stands where the text of its token does, and a new reader stops behind that text. -/
theorem stands_of_text {bytes rest behind : List UInt8} {byte : UInt8} {entry : Entry}
    (there : bytes.drop entry.offset = byte :: rest)
    (kept : Lexical.skip flags.comments (byte :: rest) = byte :: rest)
    (text : Lexical.token flags.plainNames byte rest = .ok (entry.token, behind)) :
    entry.Stands bytes ∧
      entry.stop bytes = entry.offset + ((byte :: rest).length - behind.length) ∧
      bytes.drop (entry.stop bytes) = behind := by
  have all : flags.toLineFeed = false := rfl
  obtain ⟨suffix, answer, start, source, -⟩ := Reader.read_places all 0 0 0 kept text
  have again : afresh bytes entry.offset =
      Reader.read flags ⟨.holding (byte :: rest) 0, .idle, 0, 0⟩ := by
    rw [afresh, there]
    rfl
  have stop : entry.stop bytes = entry.offset + ((byte :: rest).length - behind.length) := by
    rw [Entry.stop, again, source, Nat.zero_add]
    rfl
  have shorter : behind.length < (byte :: rest).length := Nat.lt_succ_of_le suffix.length_le
  refine ⟨⟨?_, ?_, ?_⟩, stop, ?_⟩
  · rw [again]
    exact answer
  · rw [again, start, Nat.sub_self]
  · omega
  · rw [stop, ← there]
    exact drop_of_suffix (there ▸ suffix.trans (List.suffix_cons ..))

theorem entry_of_read {bytes : List UInt8} {place base offset begun last : ℕ} {token : Token}
    {reader : Reader} (counted : base + offset = place)
    (given : Reader.read flags ⟨.holding (bytes.drop place) offset, .idle, begun, last⟩ =
      (.ok (some token), reader)) :
    let entry : Entry := ⟨base + reader.tokenStart, token⟩
    place ≤ entry.offset ∧ entry.Stands bytes ∧
      Cursor.At bytes (entry.stop bytes) ⟨base, reader⟩ ∧
      ∀ word, token = .keyword word → entry.stop bytes = entry.offset + word.length := by
  intro entry
  have all : flags.toLineFeed = false := rfl
  obtain ⟨byte, rest, behind, starts, text⟩ := Reader.starts_of_read all offset begun last given
  obtain ⟨suffix, -, start, source, rests⟩ := Reader.read_places all offset begun last starts text
  rw [given] at start source rests
  have whole : byte :: rest <:+ bytes.drop place := starts ▸ Lexical.skip_suffix ..
  have offset_eq : entry.offset =
      place + ((bytes.drop place).length - (byte :: rest).length) := by
    change base + reader.tokenStart = _
    rw [start, ← Nat.add_assoc, counted]
  have there : bytes.drop entry.offset = byte :: rest := by
    rw [offset_eq]
    exact drop_of_suffix whole
  -- What is skipped in front of the token is not there for a new reader.
  have kept := Reader.skip_again starts rest
  obtain ⟨stands, stop, left⟩ := stands_of_text there kept text
  have shorter : behind.length < (byte :: rest).length := Nat.lt_succ_of_le suffix.length_le
  have inside := whole.length_le
  rw [← left] at source
  refine ⟨?_, stands, ⟨⟨_, ?_, source⟩, rests⟩, ?_⟩
  · rw [offset_eq]
    exact Nat.le_add_right ..
  · rw [left, stop]
    dsimp only
    omega
  · rintro word rfl
    have spelled := congrArg List.length (Lexical.text_of_keyword _ _ _ _ _ text)
    rw [List.length_append] at spelled
    rw [stop]
    omega

inductive Passing : Mode → Prop
  | idle : Passing .idle
  | comment (body : Array UInt8) (dropped : Bool) : Passing (.comment body dropped)
  | ended : Passing .ended

def Passes : Outcome → Prop
  | .take next => Passing next
  | .release none => True
  | .refuse _ left => left = .idle
  | _ => False

theorem step_passes (byte : UInt8) {mode : Mode} (passing : Passing mode)
    (running : mode.isEnded = false) : Passes (mode.step streamFlags byte) := by
  cases passing with
  | idle =>
    by_cases blank : Byte.isBlank byte = true
    · simp only [Mode.step, Mode.idleStep, blank, ↓reduceIte, Passes]
      split
      · exact .ended
      · exact .idle
    · by_cases percent : byte = Byte.percent
      · subst percent
        exact .comment #[] false
      · simp [Mode.step, Mode.idleStep, blank, percent, streamFlags, Passes]
  | comment body dropped =>
    by_cases feed : Byte.isLineBreak byte = true
    · simp [Mode.step, feed, Mode.release, Mode.finish, streamFlags, Passes]
    · simpa [Mode.step, feed, streamFlags, Passes] using Passing.comment body true
  | ended => cases running

theorem rests_behind_line (last : ℕ) (bytes : List UInt8) (offset begun : ℕ) (mode : Mode)
    (passing : Passing mode) :
    let reader := (Reader.read streamFlags ⟨.holding bytes offset, mode, begun, last⟩).2
    reader.mode = .idle ∨ reader.mode = .ended := by
  induction bytes, offset, begun, mode using Reader.read_induction streamFlags with
  | ended bytes offset begun =>
    rw [Reader.read_ended streamFlags _ rfl]
    exact .inr rfl
  | nothing offset begun mode running =>
    rw [Reader.read_nil _ _ _ _ mode running]
    cases passing with
    | idle => exact .inr rfl
    | comment body dropped => simp [Reader.finish, Mode.finish, streamFlags]
    | ended => cases running
  | take byte bytes offset begun mode next running stepped ih =>
    have passes := step_passes byte passing running
    rw [stepped] at passes
    rw [Reader.read_cons _ _ _ _ _ _ mode running, stepped]
    exact ih passes
  | drop byte bytes offset begun mode running stepped ih =>
    rw [Reader.read_cons _ _ _ _ _ _ mode running, stepped]
    exact ih .idle
  | stops byte bytes offset begun mode running ends =>
    have passes := step_passes byte passing running
    rw [Reader.read_cons _ _ _ _ _ _ mode running]
    cases stepped : mode.step streamFlags byte with
    | take next =>
      rw [stepped] at ends
      cases ends
    | refuse fault left =>
      rw [stepped] at passes
      exact .inl passes
    | release token => exact .inl (by cases token <;> simp_all [Outcome.Ends])
    | complete token => exact .inl rfl
    | stay => exact .inr rfl

theorem at_behind {bytes taken behind : List UInt8} {base offset place : ℕ} {reader : Reader}
    (counted : base + offset = place) (parts : bytes.drop place = taken ++ behind)
    (source : reader.source = .holding behind (offset + taken.length))
    (rests : reader.mode = .idle ∨ reader.mode = .ended) :
    Cursor.At bytes (place + taken.length) ⟨base, reader⟩ := by
  have left : bytes.drop (place + taken.length) = behind := by
    rw [← List.drop_drop, parts, List.drop_left]
  exact ⟨⟨offset + taken.length, by rw [← Nat.add_assoc, counted], by rw [left, source]⟩, rests⟩

theorem skipStream_at {bytes : List UInt8} {place : ℕ} {cursor : Cursor}
    (at_ : cursor.At bytes place) :
    ∃ next, place ≤ next ∧ cursor.skipStream.At bytes next ∧
      Resumes bytes place next (cursor.skipStream.reader.mode = .idle) := by
  obtain ⟨base, source, mode, begun, last⟩ := cursor
  obtain ⟨⟨offset, counted, holds⟩, rests⟩ := at_
  obtain rfl : source = .holding (bytes.drop place) offset := holds
  change base + offset = place at counted
  rcases rests with idle | ended
  · obtain rfl : mode = .idle := idle
    obtain ⟨taken, behind, parts, source⟩ :=
      (Reader.read_leaves streamFlags last (bytes.drop place) offset begun .idle).source
    have rests := rests_behind_line last (bytes.drop place) offset begun .idle .idle
    have stops : streamFlags.toLineFeed = true := rfl
    have lined (gap data : List UInt8) (whole : bytes.drop place = gap ++ Byte.lineFeed :: data)
        (single : Byte.lineFeed ∉ gap) (skipped : Lexical.skip false gap = []) :=
      whole ▸ Reader.read_toLineFeed stops gap data single skipped offset begun last
    rw [Cursor.skipStream, if_neg (by simp [Mode.isEnded])]
    generalize Reader.read streamFlags ⟨.holding (bytes.drop place) offset, .idle, begun, last⟩ =
      result at source rests lined
    obtain ⟨answer, reader⟩ := result
    have stays : Cursor.At bytes (place + taken.length) ⟨base, reader⟩ :=
      at_behind counted parts source rests
    have on := Nat.le_add_right place taken.length
    cases answer with
    | error fault =>
      refine ⟨_, on, stays, fun gap data whole single skipped _ => ?_⟩
      obtain ⟨wrong, -⟩ := lined gap data whole single skipped
      cases wrong
    | ok token =>
      dsimp only at source lined ⊢
      rw [source, Text.find_holding (by decide)]
      cases found : Text.place? (Text.ascii "endstream") behind with
      | none =>
        refine ⟨_, on, stays, fun gap data whole single skipped more => ?_⟩
        obtain ⟨-, ended, -⟩ := lined gap data whole single skipped
        rw [Option.map_none] at more
        dsimp only at more
        rw [ended] at more
        cases more
      | some distance =>
        refine ⟨place + taken.length + distance, by omega, ⟨⟨0, ?_, ?_⟩, .inl rfl⟩, ?_⟩
        · change base + (offset + taken.length + distance) + 0 = _
          omega
        · rw [← List.drop_drop, ← List.drop_drop, parts, List.drop_left]
          rfl
        · intro gap data whole single skipped _
          obtain ⟨-, -, same⟩ := lined gap data whole single skipped
          rw [source] at same
          obtain ⟨aheads, offsets⟩ := Source.mk.inj same
          obtain rfl := List.map_injective_iff.mpr (fun _ _ => Sight.byte.inj) aheads
          exact ⟨distance, found, by omega⟩
  · obtain rfl : mode = .ended := ended
    exact ⟨place, Nat.le_refl _, ⟨⟨offset, counted, rfl⟩, .inr rfl⟩,
      fun _ _ _ _ _ more => by cases more⟩

theorem behind_at {bytes : List UInt8} {place : ℕ} {cursor : Cursor}
    (at_ : cursor.At bytes place) (token : Token) :
    ∃ next, place ≤ next ∧ (cursor.behind token).At bytes next ∧
      (token = .keyword (Text.ascii "stream") →
        Resumes bytes place next ((cursor.behind token).reader.mode = .idle)) := by
  unfold Cursor.behind Token.isKeyword
  by_cases stream : token = .keyword (Text.ascii "stream")
  · rw [if_pos (decide_eq_true stream)]
    obtain ⟨next, on, stands, resumes⟩ := skipStream_at at_
    exact ⟨next, on, stands, fun _ => resumes⟩
  · rw [if_neg (by simpa using stream)]
    exact ⟨place, Nat.le_refl _, at_, fun same => absurd same stream⟩

theorem follow_collect {bytes : List UInt8} (found : Array Entry) (cursor : Cursor) (place : ℕ)
    (at_ : cursor.At bytes place) :
    ∃ entries, (collect found cursor).entries = found.toList ++ entries ∧
      Follow bytes place entries ∧ (entries ≠ [] → cursor.reader.mode = .idle) := by
  fun_induction collect found cursor generalizing place with
  | case1 found cursor fault reader result =>
    exact ⟨[], (List.append_nil _).symm, .nil place, fun more => absurd rfl more⟩
  | case2 found cursor reader result =>
    exact ⟨[], (List.append_nil _).symm, .nil place, fun more => absurd rfl more⟩
  | case3 found cursor token reader result ih =>
    obtain ⟨base, source, mode, begun, last⟩ := cursor
    obtain ⟨⟨offset, counted, holds⟩, rests⟩ := at_
    obtain rfl : source = .holding (bytes.drop place) offset := holds
    rcases rests with idle | ended
    · obtain rfl : mode = .idle := idle
      obtain ⟨begins, stands, behind, length⟩ := entry_of_read counted result
      obtain ⟨next, on, resumed, resumes⟩ := behind_at behind token
      obtain ⟨entries, whole, follow, idle⟩ := ih next resumed
      refine ⟨_, ?_, .cons next begins stands on ?_ follow, fun _ => rfl⟩
      · rw [whole]
        simp
      · intro stream
        have stop := length _ stream
        refine ⟨stop, fun gap data parts single skipped more => ?_⟩
        exact stop ▸ resumes stream gap data (stop ▸ parts) single skipped (idle more)
    · obtain rfl : mode = .ended := ended
      rw [Reader.read_ended flags _ rfl] at result
      cases result

/-- What holds of the entries of a file: they stand where reading afresh gives their tokens, in
the order of the file. Where only blanks and comments stand between the keyword `stream` and the
next line feed, no token is from what stands between that line feed and the next `endstream`, or
the end of the file if there is none. -/
structure Absolute (bytes : List UInt8) (entries : List Entry) : Prop where
  ascending : entries.Pairwise fun entry later => entry.offset < later.offset
  stands : ∀ entry ∈ entries, entry.Stands bytes
  passes : ∀ entry ∈ entries, entry.token = .keyword (Text.ascii "stream") →
    ∀ gap data, bytes.drop (entry.offset + 6) = gap ++ Byte.lineFeed :: data →
      Byte.lineFeed ∉ gap → Lexical.skip false gap = [] →
        let start := entry.offset + 6 + (gap.length + 1)
        ∀ other ∈ entries, other.stop bytes ≤ start ∨
          ∃ distance, Text.place? (Text.ascii "endstream") data = some distance ∧
            start + distance ≤ other.offset

theorem Follow.absolute {bytes : List UInt8} {place : ℕ} {entries : List Entry}
    (follow : Follow bytes place entries) :
    (∀ entry ∈ entries, place ≤ entry.offset) ∧ Absolute bytes entries := by
  induction follow with
  | nil place => exact ⟨by simp, .nil, by simp, by simp⟩
  | @cons place entry later next begins stands ends resumes follow ih =>
    obtain ⟨above, absolute⟩ := ih
    have nonempty := stands.nonempty
    have behind : ∀ other ∈ later, entry.offset < other.offset := by
      intro other member
      have reached := above other member
      omega
    refine ⟨?_, .cons behind absolute.ascending, ?_, ?_⟩
    · refine List.forall_mem_cons.mpr ⟨begins, fun other member => ?_⟩
      exact begins.trans (behind other member).le
    · exact List.forall_mem_cons.mpr ⟨stands, absolute.stands⟩
    · refine List.forall_mem_cons.mpr ⟨?_, ?_⟩
      · intro stream gap data parts single skipped start
        obtain ⟨stop, passed⟩ := resumes stream
        refine List.forall_mem_cons.mpr ⟨.inl ?_, fun other member => .inr ?_⟩
        · rw [stop]
          exact Nat.le_add_right ..
        · obtain ⟨distance, found, reached⟩ :=
            passed gap data parts single skipped (List.ne_nil_of_mem member)
          exact ⟨distance, found, reached.trans (above other member)⟩
      · intro other member stream gap data parts single skipped start
        refine List.forall_mem_cons.mpr ⟨.inl ?_, ?_⟩
        · have reached := above other member
          omega
        · exact absolute.passes other member stream gap data parts single skipped

end Listing

/-- A line shows an entry: behind blanks stand the decimal digits of its offset, and behind these
and one more blank its token. -/
def Entry.ShownBy (entry : Entry) (line : List UInt8) : Prop :=
  let (digits, rest) := Numeral.spanDigits (line.dropWhile (· = Byte.space))
  digits ≠ [] ∧ Numeral.valueOf digits = entry.offset ∧
    rest = Byte.space :: entry.token.description ++ [Byte.lineFeed]

theorem Entry.shownBy_line (entry : Entry) : entry.ShownBy entry.line := by
  let digits := Numeral.digitsOf entry.offset
  let rest := Byte.space :: entry.token.description ++ [Byte.lineFeed]
  have nonempty : digits ≠ [] := Numeral.digitsOf_ne_nil entry.offset
  have all : digits.all Numeral.isDigit = true := Numeral.digitsOf_all entry.offset
  have parts :
      entry.line = List.replicate (8 - digits.length) Byte.space ++ (digits ++ rest) := by
    simp [line, digits, rest]
  -- The digits are where the blanks end, since no digit is a blank.
  have first : (digits ++ rest).dropWhile (· = Byte.space) = digits ++ rest := by
    obtain ⟨digit, more, split⟩ := List.exists_cons_of_ne_nil nonempty
    have isDigit : Numeral.isDigit digit = true :=
      List.all_eq_true.mp all digit (by rw [split]; exact List.mem_cons_self)
    have visible : digit ≠ Byte.space := by
      rintro rfl
      cases isDigit
    rw [split, List.cons_append, List.dropWhile_cons_of_neg (by simpa using visible)]
  have unblanked : entry.line.dropWhile (· = Byte.space) = digits ++ rest := by
    rw [parts, List.dropWhile_append_of_pos (by simp), first]
  have spanned : Numeral.spanDigits (digits ++ rest) = (digits, rest) :=
    Numeral.spanDigits_append digits rest all (by rintro byte ⟨⟩; rfl)
  rw [ShownBy, unblanked, spanned]
  exact ⟨nonempty, Numeral.valueOf_digitsOf entry.offset, rfl⟩

namespace Listing

/-- The offsets in the listing of a file are offsets in that file, whatever streams it has, and
they are what the lines of its report show. -/
theorem listed_offsets (bytes : List UInt8) :
    Absolute bytes (ofBytes bytes).entries ∧
      ∃ lines, (Report.ofFile false bytes).output = lines.flatten ++ [Byte.lineFeed] ∧
        List.Forall₂ Entry.ShownBy (ofBytes bytes).entries lines := by
  have start : Cursor.At bytes 0 (.start bytes) := ⟨⟨0, rfl, rfl⟩, .inl rfl⟩
  obtain ⟨entries, whole, follow, -⟩ := follow_collect #[] (.start bytes) 0 start
  obtain rfl : (ofBytes bytes).entries = entries := whole
  refine ⟨follow.absolute.2, (ofBytes bytes).entries.map Entry.line, ?_, ?_⟩
  · rw [← List.flatMap_def]
    rfl
  · rw [List.forall₂_map_right_iff, List.forall₂_same]
    exact fun entry _ => entry.shownBy_line

-- Both streams have data that is no token, the second behind a comment and a blank.
example :
    let file := Text.ascii "1 stream\n)(endstream stream%c\r \n<endstream]"
    (ofBytes file).entries.map Entry.offset = [0, 2, 11, 21, 33, 42] := by
  decide +kernel

end Listing

end PdfPrimitives
