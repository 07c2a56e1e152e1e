import PdfPrimitives.Proofs.Token.Spans

/-!
Line breaks in a text. However they are written, as line feeds, as carriage returns or as
pairs of both, a text is read as the same tokens: a reader is in the middle of the same
behind a pair and behind a line feed alone.
-/

namespace PdfPrimitives

namespace Text

def joinPairs : List UInt8 → List UInt8
  | byte :: next :: rest =>
    if byte = Byte.carriageReturn ∧ next = Byte.lineFeed then Byte.lineFeed :: joinPairs rest
    else byte :: joinPairs (next :: rest)
  | short => short

/-- A line feed for each line break: first for the pairs, and then for each carriage return
that is left. -/
def withLineFeeds (text : List UInt8) : List UInt8 :=
  (joinPairs text).map fun byte => if byte = Byte.carriageReturn then Byte.lineFeed else byte

theorem withLineFeeds_plain {byte : UInt8} (rest : List UInt8)
    (plain : byte ≠ Byte.carriageReturn) :
    withLineFeeds (byte :: rest) = byte :: withLineFeeds rest := by
  cases rest with
  | nil => simp [withLineFeeds, joinPairs, plain]
  | cons next rest => simp [withLineFeeds, joinPairs, plain]

theorem withLineFeeds_return (rest : List UInt8) :
    withLineFeeds (Byte.carriageReturn :: rest) =
      Byte.lineFeed :: withLineFeeds (Lexical.dropLineFeed rest) := by
  have feed : Byte.lineFeed ≠ Byte.carriageReturn := by decide
  cases rest with
  | nil => simp [withLineFeeds, joinPairs, Lexical.dropLineFeed]
  | cons next rest =>
    by_cases pair : next = Byte.lineFeed
    · simp [withLineFeeds, joinPairs, Lexical.dropLineFeed, pair, feed]
    · simp [withLineFeeds, joinPairs, Lexical.dropLineFeed, pair]

example : withLineFeeds (ascii "a\r\r\nb\n\rc") = ascii "a\n\nb\n\nc" := by decide

end Text

namespace Mode

def isBreaking : Mode → Bool
  | string _ _ .afterReturn => true
  | _ => false

def broken : Mode → Mode
  | string bytes depth .afterReturn => string bytes depth .plain
  | mode => mode

/-- How a mode goes on behind a line break: a carriage return leads where a line feed leads,
perhaps with a line feed that still belongs to it, or neither of them is taken. -/
inductive Breaks (flags : ReadFlags) (mode : Mode) : Prop
  | taken (next : Mode) (running : next.isEnded = false)
      (settled : next.broken.isBreaking = false)
      (returned : mode.step flags Byte.carriageReturn = .take next)
      (fed : mode.step flags Byte.lineFeed = .take next.broken)
      (paired : next.step flags Byte.lineFeed = .take next.broken)
  | released (token : Option Token)
      (returned : mode.step flags Byte.carriageReturn = .release token)
      (fed : mode.step flags Byte.lineFeed = .release token)
  | refused (fault : TokenFault)
      (returned : mode.step flags Byte.carriageReturn = .refuse fault mode)
      (fed : mode.step flags Byte.lineFeed = .refuse fault mode)

section Steps

variable {flags : ReadFlags}

theorem finish_broken (mode : Mode) : mode.broken.finish flags = mode.finish flags := by
  unfold broken
  split <;> rfl

theorem isIdle_broken (mode : Mode) : mode.broken.isIdle = mode.isIdle := by
  unfold broken
  split <;> rfl

theorem isEnded_broken (mode : Mode) : mode.broken.isEnded = mode.isEnded := by
  unfold broken
  split <;> rfl

/-- Only a line feed shows whether a line break could still go on. -/
theorem step_broken (mode : Mode) {byte : UInt8} (other : byte ≠ Byte.lineFeed) :
    mode.broken.step flags byte = mode.step flags byte := by
  unfold broken
  split
  · simp [step, stringStep, other]
  · rfl

/-- No byte but a carriage return begins a line break that could go on. -/
theorem settled_of_take (all : flags.toLineFeed = false) {mode next : Mode} {byte : UInt8}
    (running : mode.isEnded = false) (plain : byte ≠ Byte.carriageReturn)
    (taken : mode.step flags byte = .take next) : next.isBreaking = false := by
  have other := (goesOn_of_step all running taken).2 plain
  unfold isBreaking
  split
  · exact absurd rfl (other _ _)
  · rfl

theorem breaks (all : flags.toLineFeed = false) {mode : Mode} (running : mode.isEnded = false)
    (settled : mode.isBreaking = false) : Breaks flags mode := by
  have boundary := Reader.role_boundary all
  have released {amount : Except TokenFault (Option Token)} (amounts : mode.finish flags = amount)
      (returned : mode.step flags Byte.carriageReturn = mode.release flags)
      (fed : mode.step flags Byte.lineFeed = mode.release flags) : Breaks flags mode := by
    rw [release, amounts] at returned fed
    cases amount with
    | ok token => exact .released token returned fed
    | error fault => exact .refused fault returned fed
  cases mode with
  | idle =>
    have blank (byte : UInt8) (blank : Byte.isBlank byte = true) :
        idle.step flags byte = .take idle := by
      simp [step, idleStep, blank, all]
    exact .taken idle rfl rfl (blank _ rfl) (blank _ rfl) (blank _ rfl)
  | comment body dropped => exact released rfl rfl rfl
  | word bytes =>
    exact released rfl (by rw [step, boundary _ rfl]) (by rw [step, boundary _ rfl])
  | name bytes escape =>
    exact released rfl (by rw [step, boundary _ rfl]) (by rw [step, boundary _ rfl])
  | string bytes depth place =>
    cases place with
    | plain =>
      exact .taken (string (bytes.push Byte.lineFeed) depth .afterReturn) rfl rfl rfl rfl rfl
    | afterReturn => cases settled
    | escape => exact .taken (string bytes depth .afterReturn) rfl rfl rfl rfl rfl
    | octal digits value =>
      exact .taken (string ((bytes.push value).push Byte.lineFeed) depth .afterReturn)
        rfl rfl rfl rfl rfl
  | hex bytes started high =>
    cases started with
    | false | true => exact .taken (hex bytes true high) rfl rfl rfl rfl rfl
  | closing => exact .refused .unterminatedDictionary rfl rfl
  | delimiter kind =>
    exact released rfl (by rw [step, boundary _ rfl]) (by rw [step, boundary _ rfl])
  | ended => cases running

end Steps

end Mode

namespace Reader

variable {flags : ReadFlags}

structure Unified (first second : Reader) : Prop where
  source : ∃ bytes offset other, first.source = .holding bytes offset ∧
    second.source = .holding (Text.withLineFeeds bytes) other
  mode : second.mode = first.mode
  settled : first.mode.isBreaking = false

structure Alike (first second : Except TokenFault (Option Token) × Reader) : Prop where
  answer : second.1 = first.1
  readers : ∀ token, first.1 = .ok (some token) → Unified first.2 second.2

theorem finish_alike {mode other : Mode} (same : other.finish flags = mode.finish flags)
    (offset place begun start last before : ℕ) :
    Alike (finish flags ⟨.holding [] offset, mode, begun, last⟩)
      (finish flags ⟨.holding [] place, other, start, before⟩) := by
  unfold finish
  rw [same]
  cases mode.finish flags with
  | error fault => exact ⟨rfl, fun _ given => by cases given⟩
  | ok token =>
    cases token with
    | none => exact ⟨rfl, fun _ given => by cases given⟩
    | some token => exact ⟨rfl, fun _ _ => ⟨⟨[], offset, place, rfl, rfl⟩, rfl, rfl⟩⟩

/-- A reader that could take a line feed to the line break behind it reads on as one that is
behind that line feed, or behind a line break that can not go on. -/
theorem read_behind_return {mode : Mode} (running : mode.isEnded = false)
    (paired : mode.step flags Byte.lineFeed = .take mode.broken) (byte : UInt8)
    (bytes : List UInt8) (offset begun last : ℕ) :
    ∃ place start, read flags ⟨.holding (byte :: bytes) offset, mode, begun, last⟩ =
      read flags ⟨.holding (Lexical.dropLineFeed (byte :: bytes)) place, mode.broken, start,
        last⟩ := by
  by_cases pair : byte = Byte.lineFeed
  · subst pair
    rw [read_cons _ _ _ _ _ _ mode running, paired, Lexical.dropLineFeed, if_pos rfl]
    exact ⟨_, _, rfl⟩
  · rw [Lexical.dropLineFeed, if_neg pair, read_cons _ _ _ _ _ _ mode running]
    refine ⟨offset, begun, ?_⟩
    rw [read_cons _ _ _ _ _ _ mode.broken (by rwa [Mode.isEnded_broken]),
      Mode.step_broken mode pair, startOf, startOf, Mode.isIdle_broken]

def AlikeBelow (flags : ReadFlags) (bound : ℕ) : Prop :=
  ∀ (bytes : List UInt8) (mode : Mode), 2 * bytes.length + mode.weight < bound →
    mode.isBreaking = false → ∀ offset place begun start last before,
      Alike (read flags ⟨.holding bytes offset, mode, begun, last⟩)
        (read flags ⟨.holding (Text.withLineFeeds bytes) place, mode, start, before⟩)

section Bytes

variable {mode : Mode} {bytes : List UInt8} (running : mode.isEnded = false)
variable (offset place begun start last before : ℕ)

include running in
theorem alike_plain (all : flags.toLineFeed = false) {byte : UInt8}
    (plain : byte ≠ Byte.carriageReturn)
    (below : AlikeBelow flags (2 * (byte :: bytes).length + mode.weight)) :
    Alike (read flags ⟨.holding (byte :: bytes) offset, mode, begun, last⟩)
      (read flags ⟨.holding (byte :: Text.withLineFeeds bytes) place, mode, start, before⟩) := by
  have unified := Text.withLineFeeds_plain bytes plain
  have weight := Mode.weight_pos running
  rw [read_cons _ _ _ _ _ _ mode running, read_cons _ _ _ _ _ _ mode running]
  cases stepped : mode.step flags byte with
  | take next =>
    have fewer := next.weight_le
    have settled := Mode.settled_of_take all running plain stepped
    exact below bytes next (by rw [List.length_cons]; omega) settled _ _ _ _ _ _
  | complete token => exact ⟨rfl, fun _ _ => ⟨⟨_, _, _, rfl, rfl⟩, rfl, rfl⟩⟩
  | release token =>
    rw [← unified]
    cases token with
    | none =>
      have busy := Mode.weight_of_release stepped
      have idle : Mode.idle.weight = 1 := rfl
      exact below (byte :: bytes) .idle (by omega) rfl _ _ _ _ _ _
    | some token => exact ⟨rfl, fun _ _ => ⟨⟨_, _, _, rfl, rfl⟩, rfl, rfl⟩⟩
  | refuse fault left => exact ⟨rfl, fun _ given => by cases given⟩
  | stay => exact ⟨rfl, fun _ given => by cases given⟩

theorem alike_behind_return (running : mode.isEnded = false)
    (settled : mode.broken.isBreaking = false)
    (paired : mode.step flags Byte.lineFeed = .take mode.broken)
    (below : AlikeBelow flags (2 * bytes.length + 3)) :
    Alike (read flags ⟨.holding bytes offset, mode, begun, last⟩)
      (read flags ⟨.holding (Text.withLineFeeds (Lexical.dropLineFeed bytes)) place, mode.broken,
        start, before⟩) := by
  cases bytes with
  | nil =>
    have ended : mode.broken.isEnded = false := by rwa [Mode.isEnded_broken]
    rw [show Text.withLineFeeds (Lexical.dropLineFeed []) = [] from rfl,
      read_nil _ _ _ _ mode running, read_nil _ _ _ _ mode.broken ended]
    exact finish_alike (Mode.finish_broken mode) ..
  | cons byte bytes =>
    obtain ⟨offset', begun', same⟩ :=
      read_behind_return running paired byte bytes offset begun last
    have fewer := Lexical.length_dropLineFeed_le (byte :: bytes)
    have weight := mode.broken.weight_le
    rw [same]
    exact below _ mode.broken (by omega) settled _ _ _ _ _ _

include running in
theorem alike_return (all : flags.toLineFeed = false) (settled : mode.isBreaking = false)
    (below : AlikeBelow flags (2 * (Byte.carriageReturn :: bytes).length + mode.weight)) :
    Alike (read flags ⟨.holding (Byte.carriageReturn :: bytes) offset, mode, begun, last⟩)
      (read flags ⟨.holding
        (Byte.lineFeed :: Text.withLineFeeds (Lexical.dropLineFeed bytes)) place, mode, start,
        before⟩) := by
  have unified := Text.withLineFeeds_return bytes
  have weight := Mode.weight_pos running
  rw [read_cons _ _ _ _ _ _ mode running, read_cons _ _ _ _ _ _ mode running]
  cases Mode.breaks all running settled with
  | taken next running settled returned fed paired =>
    rw [returned, fed]
    refine alike_behind_return _ _ _ _ _ _ running settled paired fun bytes mode fewer => ?_
    exact below bytes mode (by rw [List.length_cons]; omega)
  | released token returned fed =>
    rw [returned, fed, ← unified]
    cases token with
    | none =>
      have busy := Mode.weight_of_release returned
      have idle : Mode.idle.weight = 1 := rfl
      exact below (Byte.carriageReturn :: bytes) .idle (by omega) rfl _ _ _ _ _ _
    | some token => exact ⟨rfl, fun _ _ => ⟨⟨_, _, _, rfl, rfl⟩, rfl, rfl⟩⟩
  | refused fault returned fed =>
    rw [returned, fed]
    exact ⟨rfl, fun _ given => by cases given⟩

end Bytes

theorem alikeBelow (all : flags.toLineFeed = false) (bound : ℕ) : AlikeBelow flags bound := by
  -- Both readers step together, where the first may take two bytes for one line feed.
  induction bound using Nat.strongRecOn with
  | ind bound ih =>
  intro bytes mode fewer settled offset place begun start last before
  have below := ih _ fewer
  cases running : mode.isEnded with
  | true =>
    rw [read_ended flags _ running, read_ended flags _ running]
    exact ⟨rfl, fun _ given => by cases given⟩
  | false =>
    cases bytes with
    | nil =>
      rw [show Text.withLineFeeds [] = [] from rfl, read_nil _ _ _ _ mode running,
        read_nil _ _ _ _ mode running]
      exact finish_alike rfl ..
    | cons byte bytes =>
      by_cases plain : byte = Byte.carriageReturn
      · subst plain
        rw [Text.withLineFeeds_return]
        exact alike_return running _ _ _ _ _ _ all settled below
      · rw [Text.withLineFeeds_plain _ plain]
        exact alike_plain running _ _ _ _ _ _ all plain below

theorem read_unified (all : flags.toLineFeed = false) {first second : Reader}
    (unified : Unified first second) : Alike (read flags first) (read flags second) := by
  obtain ⟨source, mode, begun, last⟩ := first
  obtain ⟨other, same, start, before⟩ := second
  obtain ⟨⟨bytes, offset, place, rfl, rfl⟩, rfl, settled⟩ := unified
  exact alikeBelow all _ bytes same (Nat.lt_succ_self _) settled _ _ _ _ _ _

theorem collect_unified (all : flags.toLineFeed = false) (found : Array Token)
    {first second : Reader} (unified : Unified first second) :
    (collect flags found second).tokens = (collect flags found first).tokens ∧
      (collect flags found second).fault = (collect flags found first).fault := by
  fun_induction collect flags found first generalizing second with
  | case1 found first fault next result =>
    have alike := read_unified all unified
    rw [result] at alike
    exact collect_of_fault found second fault alike.answer
  | case2 found first next result =>
    have alike := read_unified all unified
    rw [result] at alike
    exact collect_of_end found second alike.answer
  | case3 found first token next result ih =>
    have alike := read_unified all unified
    rw [result] at alike
    rw [collect_of_token found second token alike.answer]
    exact ih (alike.readers token rfl)

/-- A text is read as the same tokens, up to the same fault if there is one, when its line
breaks are replaced by line feeds, for all flags that do not end reading at a line feed. -/
theorem tokens_withLineFeeds (plainNames comments : Bool) (bytes : List UInt8) :
    let flags : ReadFlags := ⟨plainNames, comments, false⟩
    let unified := (ofBytes (Text.withLineFeeds bytes)).tokens flags
    let reading := (ofBytes bytes).tokens flags
    unified.tokens = reading.tokens ∧ unified.fault = reading.fault :=
  collect_unified rfl #[] ⟨⟨bytes, 0, 0, rfl, rfl⟩, rfl, rfl⟩

end Reader

end PdfPrimitives
