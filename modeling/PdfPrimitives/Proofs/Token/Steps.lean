import PdfPrimitives.Proofs.Token.Grammar
import PdfPrimitives.Token.Reader

/-!
Reading one byte at a time from a source that never fails. A read is followed from the
middle of a token to its end, and agrees with the grammar if it gives the token of the
grammar and leaves what follows that token.
-/

namespace PdfPrimitives

def Source.holding (bytes : List UInt8) (offset : Nat) : Source := ⟨bytes.map .byte, offset⟩

theorem Source.unread_holding (bytes : List UInt8) (offset : Nat) :
    (holding bytes offset).unread = bytes := by
  simp [unread, holding, List.filterMap_map, Sight.byte?, Function.comp_def]

def Outcome.GoesOn (byte : UInt8) : Outcome → Prop
  | .take next => next ≠ .ended ∧ (byte ≠ Byte.carriageReturn →
      ∀ bytes depth, next ≠ .string bytes depth .afterReturn)
  | .stay => False
  | _ => True

namespace Mode

variable {flags : ReadFlags} {byte : UInt8}

theorem step_percent : idle.step flags Byte.percent = .take (comment #[] false) := by
  have visible : Byte.isBlank Byte.percent = false := rfl
  have delimiter : Byte.isDelimiter Byte.percent = true := rfl
  simp [step, idleStep, visible, delimiter, opening?]

theorem started_of_opening {mode : Mode} (opens : opening? byte = some mode) :
    mode ≠ .ended ∧ ∀ bytes depth, mode ≠ .string bytes depth .afterReturn := by
  revert opens
  fun_cases opening? byte
  all_goals rintro ⟨⟩
  all_goals exact ⟨Mode.noConfusion, fun _ _ => by simp⟩

/-- Where reading goes up to the end of the source, a step ends it nowhere else, and only a
carriage return leads behind a carriage return. -/
theorem goesOn_of_step (all : flags.toLineFeed = false) {mode : Mode} {outcome : Outcome}
    (running : mode.isEnded = false) (stepped : mode.step flags byte = outcome) :
    outcome.GoesOn byte := by
  cases mode with
  | idle =>
    simp only [step, idleStep] at stepped
    grind [Outcome.GoesOn, started_of_opening]
  | comment body dropped =>
    simp only [step, release] at stepped
    grind [Outcome.GoesOn]
  | word bytes =>
    simp only [step, release, store] at stepped
    grind [Outcome.GoesOn]
  | name bytes escape =>
    simp only [step, release, nameStep, store] at stepped
    grind [Outcome.GoesOn]
  | string bytes depth place =>
    simp only [step, stringStep, stringByte] at stepped
    grind [Outcome.GoesOn]
  | hex bytes started high =>
    simp only [step, hexStep] at stepped
    grind [Outcome.GoesOn]
  | closing =>
    simp only [step] at stepped
    grind [Outcome.GoesOn]
  | delimiter kind =>
    simp only [step, release] at stepped
    grind [Outcome.GoesOn]
  | ended => cases running

end Mode

namespace Reader

section Steps

variable (flags : ReadFlags) (bytes : List UInt8) (byte : UInt8) (offset begun last : Nat)

def startOf (mode : Mode) (offset begun : Nat) : Nat := if mode.isIdle then offset else begun

theorem read_nil (mode : Mode) (running : mode.isEnded = false) :
    read flags ⟨.holding [] offset, mode, begun, last⟩ =
      finish flags ⟨.holding [] offset, mode, begun, last⟩ := by
  have peeked : (Source.holding [] offset).peek = (.ok none, .holding [] offset) := rfl
  rw [read]
  simp only [running, Bool.false_eq_true, ↓reduceIte]
  split <;> rename_i found <;> rw [peeked] at found
  · cases found
  · obtain ⟨-, rfl⟩ := Prod.mk.inj found
    rfl
  · cases found

theorem read_cons (mode : Mode) (running : mode.isEnded = false) :
    read flags ⟨.holding (byte :: bytes) offset, mode, begun, last⟩ =
      let start := startOf mode offset begun
      match mode.step flags byte with
      | .take next => read flags ⟨.holding bytes (offset + 1), next, start, last⟩
      | .complete token => (.ok (some token), ⟨.holding bytes (offset + 1), .idle, start, start⟩)
      | .release (some token) =>
        (.ok (some token), ⟨.holding (byte :: bytes) offset, .idle, start, start⟩)
      | .release none => read flags ⟨.holding (byte :: bytes) offset, .idle, start, last⟩
      | .refuse fault left =>
        (.error fault, ⟨.holding (byte :: bytes) offset, left, start, last⟩)
      | .stay => (.ok none, ⟨.holding (byte :: bytes) offset, .ended, start, last⟩) := by
  have peeked : (Source.holding (byte :: bytes) offset).peek =
      (.ok (some byte), .holding (byte :: bytes) offset) := rfl
  rw [read]
  simp only [running, Bool.false_eq_true, ↓reduceIte]
  split <;> rename_i found <;> rw [peeked] at found
  · cases found
  · cases found
  · obtain ⟨same, rfl⟩ := Prod.mk.inj found
    obtain rfl := Option.some.inj (Except.ok.inj same)
    split <;> rename_i stepped <;> rw [stepped] <;> rfl

variable {flags} {byte} {mode : Mode}

theorem running_of_step {outcome : Outcome} (stepped : mode.step flags byte = outcome)
    (moves : outcome ≠ .stay) : mode.isEnded = false := by
  cases mode
  case ended => exact absurd stepped.symm moves
  all_goals rfl

theorem read_take {next : Mode} (busy : mode.isIdle = false)
    (stepped : mode.step flags byte = .take next) :
    read flags ⟨.holding (byte :: bytes) offset, mode, begun, last⟩ =
      read flags ⟨.holding bytes (offset + 1), next, begun, last⟩ := by
  rw [read_cons _ _ _ _ _ _ _ (running_of_step stepped (by simp)), stepped]
  simp [startOf, busy]

theorem read_complete {token : Token} (busy : mode.isIdle = false)
    (stepped : mode.step flags byte = .complete token) :
    read flags ⟨.holding (byte :: bytes) offset, mode, begun, last⟩ =
      (.ok (some token), ⟨.holding bytes (offset + 1), .idle, begun, begun⟩) := by
  rw [read_cons _ _ _ _ _ _ _ (running_of_step stepped (by simp)), stepped]
  simp [startOf, busy]

theorem read_release {token : Token} (busy : mode.isIdle = false)
    (stepped : mode.step flags byte = .release (some token)) :
    read flags ⟨.holding (byte :: bytes) offset, mode, begun, last⟩ =
      (.ok (some token), ⟨.holding (byte :: bytes) offset, .idle, begun, begun⟩) := by
  rw [read_cons _ _ _ _ _ _ _ (running_of_step stepped (by simp)), stepped]
  simp [startOf, busy]

theorem read_drop (busy : mode.isIdle = false) (stepped : mode.step flags byte = .release none) :
    read flags ⟨.holding (byte :: bytes) offset, mode, begun, last⟩ =
      read flags ⟨.holding (byte :: bytes) offset, .idle, begun, last⟩ := by
  rw [read_cons _ _ _ _ _ _ _ (running_of_step stepped (by simp)), stepped]
  simp [startOf, busy]

theorem read_idle {next : Mode} (stepped : Mode.idle.step flags byte = .take next) :
    read flags ⟨.holding (byte :: bytes) offset, .idle, begun, last⟩ =
      read flags ⟨.holding bytes (offset + 1), next, offset, last⟩ := by
  rw [read_cons _ _ _ _ _ _ _ rfl, stepped]
  rfl

theorem read_refuse {fault : TokenFault} {left : Mode}
    (stepped : mode.step flags byte = .refuse fault left) :
    (read flags ⟨.holding (byte :: bytes) offset, mode, begun, last⟩).1 = .error fault := by
  rw [read_cons _ _ _ _ _ _ _ (running_of_step stepped (by simp)), stepped]

end Steps

/-- A read that gives a token that began at some offset, and leaves the reader between
tokens with some bytes left. -/
structure Delivers (token : Token) (behind : List UInt8) (begun : Nat)
    (result : Except TokenFault (Option Token) × Reader) : Prop where
  answer : result.1 = .ok (some token)
  ahead : result.2.source.ahead = behind.map .byte
  rest : result.2.mode = .idle ∨ result.2.mode = .ended ∧ behind = []
  start : result.2.tokenStart = begun

def Agrees (begun : Nat) (expected : Except TokenFault (Token × List UInt8))
    (result : Except TokenFault (Option Token) × Reader) : Prop :=
  match expected with
  | .ok (token, behind) => Delivers token behind begun result
  | .error fault => result.1 = .error fault

section Runs

variable {flags : ReadFlags} (all : flags.toLineFeed = false)
variable (offset begun last : Nat)

include all in
theorem role_regular (byte : UInt8) (regular : Byte.isRegular byte = true) :
    Mode.role flags byte = .regular := by
  simp only [Byte.isRegular, Bool.and_eq_true, Bool.not_eq_true'] at regular
  simp [Mode.role, all, regular.1, regular.2]

include all in
theorem role_boundary (byte : UInt8) (boundary : Byte.isRegular byte = false) :
    Mode.role flags byte = .boundary := by
  by_cases blank : Byte.isBlank byte = true
  · simp [Mode.role, blank]
  · have delimiter : Byte.isDelimiter byte = true := by simpa [Byte.isRegular, blank] using boundary
    simp [Mode.role, all, blank, delimiter]

include all in
theorem read_boundary (mode : Mode) (behind : List UInt8) (busy : mode.isIdle = false)
    (running : mode.isEnded = false)
    (releases : ∀ byte, Mode.role flags byte = .boundary →
      mode.step flags byte = mode.release flags)
    (stops : ∀ byte ∈ behind.head?, Byte.isRegular byte = false)
    (expected : Except TokenFault Token)
    (amounts : mode.finish flags = expected.map some) :
    Agrees begun (expected.map (·, behind))
      (read flags ⟨.holding behind offset, mode, begun, last⟩) := by
  -- At the end of the source the mode finishes, in front of a boundary it releases the same.
  cases behind with
  | nil =>
    rw [read_nil _ _ _ _ _ running]
    cases expected with
    | error fault => simp [Agrees, finish, amounts, Except.map]
    | ok token =>
      simp only [finish, amounts, Except.map]
      exact ⟨rfl, rfl, .inr ⟨rfl, rfl⟩, rfl⟩
  | cons byte behind =>
    have stepped := releases byte (role_boundary all byte (stops byte rfl))
    cases expected with
    | error fault =>
      rw [Mode.release, amounts] at stepped
      exact read_refuse _ _ _ _ stepped
    | ok token =>
      rw [Mode.release, amounts] at stepped
      rw [read_release _ _ _ _ busy stepped]
      exact ⟨rfl, rfl, .inl rfl, rfl⟩

theorem head_dropWhile (bytes : List UInt8) :
    ∀ byte ∈ (bytes.dropWhile Byte.isRegular).head?, Byte.isRegular byte = false := by
  intro byte member
  have := List.head?_dropWhile_not Byte.isRegular bytes
  rw [Option.mem_def.mp member] at this
  simpa using this

theorem read_congr {mode other : Mode} {byte : UInt8} (bytes : List UInt8)
    (busy : mode.isIdle = false) (busyToo : other.isIdle = false)
    (running : mode.isEnded = false) (runningToo : other.isEnded = false)
    (same : mode.step flags byte = other.step flags byte) :
    read flags ⟨.holding (byte :: bytes) offset, mode, begun, last⟩ =
      read flags ⟨.holding (byte :: bytes) offset, other, begun, last⟩ := by
  rw [read_cons _ _ _ _ _ _ _ running, read_cons _ _ _ _ _ _ _ runningToo, same]
  simp [startOf, busy, busyToo]

end Runs

end Reader

end PdfPrimitives
