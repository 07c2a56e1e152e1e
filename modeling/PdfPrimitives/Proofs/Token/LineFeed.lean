import PdfPrimitives.Proofs.Token.Independence
import PdfPrimitives.Proofs.Token.Reading

/-!
Reading up to the first line feed. The data of a stream begin at the very next byte, so nothing
may be taken behind the line feed, and nothing is read there until the reader is reset.
-/

namespace PdfPrimitives

/-- What reading up to the first line feed gives, with what it leaves of the text. In front of
that line feed only blanks and comments may stand, and a text may end without one. -/
def Lexical.throughLineFeed (text : List UInt8) :
    Except TokenFault (Option Token) × List UInt8 :=
  let line := text.takeWhile (· != Byte.lineFeed)
  let behind := text.dropWhile (· != Byte.lineFeed)
  match skip false line with
  | [] => (.ok none, behind.tail)
  | byte :: rest => (.error (.invalidCharacter byte), byte :: rest ++ behind)

namespace Reader

variable {flags : ReadFlags}

/-- A reader that stands in front of the end of its line has passed over the whole line. -/
theorem read_lineEnd (stops : flags.toLineFeed = true) {behind : List UInt8}
    (ends : ∀ byte ∈ behind.head?, byte = Byte.lineFeed) (offset begun last : ℕ) :
    let result := read flags ⟨.holding behind offset, .idle, begun, last⟩
    result.1 = .ok none ∧ result.2.mode = .ended ∧
      result.2.source = .holding behind.tail (offset + (behind.length - behind.tail.length)) := by
  cases behind with
  | nil =>
    rw [read_nil _ _ _ _ _ rfl]
    exact ⟨rfl, rfl, rfl⟩
  | cons byte data =>
    obtain rfl := ends byte rfl
    have fed : Mode.idle.step flags Byte.lineFeed = .take .ended := by
      simp [Mode.step, Mode.idleStep, stops, show Byte.isBlank Byte.lineFeed = true from rfl]
    rw [read_idle _ _ _ _ fed, read_ended flags _ rfl]
    refine ⟨rfl, rfl, ?_⟩
    rw [List.tail_cons, List.length_cons, Nat.add_sub_cancel_left]

/-- A byte that may not stand in front of the line feed is left where it is. -/
theorem read_illegal (stops : flags.toLineFeed = true) {byte : UInt8}
    (visible : Byte.isBlank byte = false) (noComment : byte ≠ Byte.percent)
    (rest : List UInt8) (offset begun last : ℕ) :
    let result := read flags ⟨.holding (byte :: rest) offset, .idle, begun, last⟩
    result.1 = .error (.invalidCharacter byte) ∧
      result.2.source = .holding (byte :: rest) offset := by
  have refused : Mode.idle.step flags byte = .refuse (.invalidCharacter byte) .idle := by
    simp [Mode.step, Mode.idleStep, visible, stops, noComment]
  rw [read_cons _ _ _ _ _ _ _ rfl, refused]
  exact ⟨rfl, rfl⟩

theorem read_throughLineFeed (stops : flags.toLineFeed = true)
    (unwanted : flags.comments = false) (text : List UInt8) (offset begun last : ℕ) :
    let result := read flags ⟨.holding text offset, .idle, begun, last⟩
    let through := Lexical.throughLineFeed text
    result.1 = through.1 ∧ (result.1 = .ok none → result.2.mode = .ended) ∧
      result.2.source = .holding through.2 (offset + (text.length - through.2.length)) := by
  intro result through
  have single : Byte.lineFeed ∉ text.takeWhile (· != Byte.lineFeed) := fun member => by
    simpa using List.mem_takeWhile_imp member
  have ends : ∀ byte ∈ (text.dropWhile (· != Byte.lineFeed)).head?, byte = Byte.lineFeed := by
    intro byte member
    have stopped := List.head?_dropWhile_not (· != Byte.lineFeed) text
    rw [Option.mem_def.mp member] at stopped
    simpa using stopped
  have whole := List.takeWhile_append_dropWhile (p := (· != Byte.lineFeed)) (l := text)
  have sizes := congrArg List.length whole
  rw [List.length_append] at sizes
  obtain ⟨before, passed⟩ := read_skip_line offset begun last
    (text.takeWhile (· != Byte.lineFeed)) (fun _ => single)
    fun byte member => by rw [ends byte member]; rfl
  rw [whole, unwanted] at passed
  have shorter := (Lexical.skip_suffix false (text.takeWhile (· != Byte.lineFeed))).length_le
  -- What is skipped is the whole line, or it ends at a byte that may not stand there.
  cases skipped : Lexical.skip false (text.takeWhile (· != Byte.lineFeed)) with
  | nil =>
    have left : through = (.ok none, (text.dropWhile (· != Byte.lineFeed)).tail) := by
      simp only [through, Lexical.throughLineFeed, skipped]
    rw [skipped, List.nil_append] at passed
    obtain ⟨answer, mode, source⟩ := read_lineEnd stops ends
      (offset + ((text.takeWhile (· != Byte.lineFeed)).length - 0)) before last
    rw [left]
    refine ⟨?_, fun _ => ?_, ?_⟩
    · exact (congrArg Prod.fst passed).trans answer
    · exact (congrArg (·.2.mode) passed).trans mode
    · refine (congrArg (·.2.source) passed).trans (source.trans ?_)
      rw [List.length_tail]
      congr 1
      omega
  | cons byte rest =>
    have left : through = (.error (.invalidCharacter byte),
        byte :: rest ++ text.dropWhile (· != Byte.lineFeed)) := by
      simp only [through, Lexical.throughLineFeed, skipped]
    obtain ⟨visible, noComment⟩ := skip_head _ _ _ _ skipped
    rw [skipped] at passed shorter
    obtain ⟨answer, source⟩ := read_illegal stops visible (fun same => by cases noComment same)
      (rest ++ text.dropWhile (· != Byte.lineFeed))
      (offset + ((text.takeWhile (· != Byte.lineFeed)).length - (byte :: rest).length)) before last
    have failed : result.1 = .error (.invalidCharacter byte) :=
      (congrArg Prod.fst passed).trans answer
    rw [left]
    refine ⟨failed, fun ended => ?_, ?_⟩
    · rw [failed] at ended
      cases ended
    · refine (congrArg (·.2.source) passed).trans (source.trans ?_)
      rw [List.length_append, List.cons_append]
      congr 1
      omega

def Settled (bytes : List UInt8) (calls : List Call) : Prop :=
  ∀ last ∈ calls.getLast?, last.Settles (behind calls.dropLast (ofBytes bytes))

theorem rest_of_calls {bytes : List UInt8} {calls : List Call} (settled : Settled bytes calls) :
    (behind calls (ofBytes bytes)).mode = .idle ∨
      (behind calls (ofBytes bytes)).mode = .ended ∧
        (behind calls (ofBytes bytes)).source.ahead = [] := by
  obtain rfl | ⟨history, last, rfl⟩ := List.eq_nil_or_concat calls
  · exact .inl rfl
  · have stands : Stands bytes (behind history (ofBytes bytes)) :=
      stands_behind history ⟨[], bytes, rfl, rfl⟩
    have ends := settled last (by rw [List.concat_eq_append, List.getLast?_concat]; rfl)
    rw [List.concat_eq_append, List.dropLast_concat] at ends
    rw [List.concat_eq_append, behind, List.foldl_concat]
    exact rest_of_settled stands last ends

/-- A reader that has ended shows nothing more, whatever it is asked for. -/
theorem observe_ended {reader : Reader} (ended : reader.mode = .ended) (later : List ReadFlags) :
    observe read later reader =
        later.map (fun _ => ⟨.ok none, reader.tokenStart, reader.source.offset⟩) ∧
      behind (later.map .read) reader = reader := by
  have same (flags : ReadFlags) : read flags reader = (.ok none, reader) :=
    read_ended flags reader (by rw [ended]; rfl)
  refine ⟨observe_stays later fun flags _ => same flags, ?_⟩
  induction later with
  | nil => rfl
  | cons flags later ih =>
    rw [List.map_cons, behind, List.foldl_cons, Call.behind, same]
    exact ih

/-- A reader between two tokens reads on up to the line feed. Behind the last token it has ended,
as it would in front of nothing. -/
theorem read_settled (stops : flags.toLineFeed = true) (unwanted : flags.comments = false)
    {reader : Reader} {unread : List UInt8} {offset : ℕ}
    (place : reader.source = .holding unread offset)
    (rest : reader.mode = .idle ∨ reader.mode = .ended ∧ reader.source.ahead = []) :
    let result := read flags reader
    let through := Lexical.throughLineFeed unread
    result.1 = through.1 ∧ (result.1 = .ok none → result.2.mode = .ended) ∧
      result.2.source = .holding through.2 (offset + (unread.length - through.2.length)) := by
  obtain ⟨_, mode, begun, last⟩ := reader
  obtain rfl : _ = Source.holding unread offset := place
  rcases rest with idle | ⟨ended, nothing⟩
  · obtain rfl : mode = .idle := idle
    exact read_throughLineFeed stops unwanted unread offset begun last
  · obtain rfl : mode = .ended := ended
    obtain rfl : unread = [] := List.map_eq_nil_iff.mp nothing
    have empty : Lexical.throughLineFeed [] = (.ok none, []) := by
      simp [Lexical.throughLineFeed, Lexical.skip]
    rw [read_ended flags _ rfl, empty]
    exact ⟨rfl, fun _ => rfl, rfl⟩

/-- Reading up to a line feed stops exactly behind the first one, unless another byte than a blank
or one of a comment stands in front of it. From then on no read gives anything until the reader is
reset, and it goes on at the very next byte then. -/
theorem stops_behind_lineFeed (bytes : List UInt8) (calls : List Call)
    (settled : Settled bytes calls) (plainNames : Bool) :
    let flags : ReadFlags := ⟨plainNames, false, true⟩
    let before := behind calls (ofBytes bytes)
    let unread := bytes.drop before.source.offset
    let after := (read flags before).2
    before.source.unread = unread ∧
      ((read flags before).1, after.source.unread) = Lexical.throughLineFeed unread ∧
      after.source.offset =
        before.source.offset + (unread.length - after.source.unread.length) ∧
      ((read flags before).1 = .ok none → ∀ later : List ReadFlags,
        let resumed := (behind (later.map .read) after).reset
        observe read later after =
            later.map (fun _ => ⟨.ok none, after.tokenStart, after.source.offset⟩) ∧
          ∀ more, List.Forall₂ (Observation.Shifted after.source.offset)
            (observe read more (ofBytes after.source.unread)) (observe read more resumed)) := by
  intro flags before unread after
  have place : before.source = .holding unread before.source.offset :=
    (stands_behind calls ⟨[], bytes, rfl, rfl⟩).source_eq
  have stops : flags.toLineFeed = true := rfl
  obtain ⟨answer, ended, source⟩ := read_settled stops rfl place (rest_of_calls settled)
  have left : after.source.unread = (Lexical.throughLineFeed unread).2 :=
    (congrArg Source.unread source).trans (Source.unread_holding ..)
  refine ⟨(congrArg Source.unread place).trans (Source.unread_holding ..),
    Prod.ext answer left, ?_, fun nothing later => ?_⟩
  · rw [left]
    exact congrArg Source.offset source
  · intro resumed
    obtain ⟨same, unchanged⟩ := observe_ended (ended nothing) later
    refine ⟨same, fun more => ?_⟩
    have anew : resumed.source = .holding after.source.unread after.source.offset := by
      rw [left, show resumed = after.reset from congrArg reset unchanged]
      exact source.trans (congrArg (Source.holding _) (congrArg Source.offset source).symm)
    exact observe_settled anew (.inl rfl) more

def streamLine : List UInt8 := Text.ascii "stream %n\r \nab\nc"

theorem streamLine_stops :
    let after := (read ⟨false, false, true⟩ (behind [.read .none] (ofBytes streamLine))).2
    after.source.unread = Text.ascii "ab\nc" ∧ after.source.offset = 12 ∧
      observe read [.none, .none] after =
        [⟨.ok none, after.tokenStart, 12⟩, ⟨.ok none, after.tokenStart, 12⟩] ∧
      ∀ more, List.Forall₂ (Observation.Shifted 12)
        (observe read more (ofBytes (Text.ascii "ab\nc")))
        (observe read more (behind [.read .none, .read .none] after).reset) := by
  intro after
  have settled : Settled streamLine [.read .none] := by
    intro last member
    obtain rfl := Option.some.inj member
    exact ⟨.keyword (Text.ascii "stream"), by decide +kernel⟩
  obtain ⟨-, -, -, later⟩ := stops_behind_lineFeed streamLine [.read .none] settled false
  have answer : (read ⟨false, false, true⟩ (behind [.read .none] (ofBytes streamLine))).1 =
      .ok none := by decide +kernel
  have unread : after.source.unread = Text.ascii "ab\nc" := by decide +kernel
  have offset : after.source.offset = 12 := by decide +kernel
  obtain ⟨same, resumes⟩ := later answer [.none, .none]
  refine ⟨unread, offset, ?_, ?_⟩
  · rw [← offset]
    exact same
  · rw [← offset, ← unread]
    exact resumes

end Reader

end PdfPrimitives
