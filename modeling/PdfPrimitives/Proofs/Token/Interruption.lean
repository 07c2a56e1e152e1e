import PdfPrimitives.Proofs.Token.Steps

/-!
Reading from a source that fails for a while. A read that meets a failure leaves the reader
in the middle of the token, and the next read goes on from there. Whoever repeats failed
reads can not tell the source from one with the same bytes that never fails.
-/

namespace PdfPrimitives

section Faults

def TokenFault.Textual (fault : TokenFault) : Prop := ∀ cause, fault ≠ .stream cause

variable {flags : ReadFlags} {mode left : Mode} {byte : UInt8} {fault : TokenFault}

theorem Mode.textual_of_finish (failed : mode.finish flags = .error fault) : fault.Textual := by
  rintro cause rfl
  cases mode with
  | name bytes escape => cases escape <;> cases failed
  | _ => cases failed

theorem Mode.textual_of_refuse (refused : mode.step flags byte = .refuse fault left) :
    fault.Textual := by
  have released {mode : Mode} (refused : mode.release flags = .refuse fault left) :
      fault.Textual := by
    unfold release at refused
    split at refused
    · cases refused
    · next failed =>
      obtain ⟨rfl, -⟩ := Outcome.refuse.inj refused
      exact textual_of_finish failed
  rintro cause rfl
  cases mode with
  | idle =>
    simp only [step, idleStep] at refused
    grind
  | comment body dropped =>
    simp only [step] at refused
    grind [TokenFault.Textual]
  | word bytes =>
    simp only [step, store] at refused
    grind [TokenFault.Textual]
  | name bytes escape =>
    simp only [step, nameStep, store] at refused
    grind [TokenFault.Textual]
  | string bytes depth place =>
    simp only [step, stringStep, stringByte] at refused
    grind
  | hex bytes started high =>
    simp only [step, hexStep] at refused
    grind
  | closing =>
    simp only [step] at refused
    grind
  | delimiter kind =>
    simp only [step] at refused
    grind [TokenFault.Textual]
  | ended => cases refused

end Faults

namespace Source

def calm (source : Source) : Source := .holding source.unread source.offset

/-- No look takes the source to be at its end while something is ahead. -/
def Honest (source : Source) : Prop := .lull ∉ source.ahead

/-- The looks at some bytes, where those between two bytes meet a list of failures first.
The bytes stand behind `place` others. -/
def interleaved (failures : Nat → List StreamFault) (place : Nat) : List UInt8 → List Sight
  | [] => (failures place).map .failure
  | byte :: rest =>
    (failures place).map .failure ++ .byte byte :: interleaved failures (place + 1) rest

/-- A source on which, once `place` bytes were taken, looks meet `failures place` before one
succeeds. -/
def failing (failures : Nat → List StreamFault) (bytes : List UInt8) : Source :=
  ⟨interleaved failures 0 bytes, 0⟩

theorem interleaved_spec (failures : Nat → List StreamFault) (place : Nat)
    (bytes : List UInt8) :
    (interleaved failures place bytes).filterMap Sight.byte? = bytes ∧
      .lull ∉ interleaved failures place bytes := by
  have silent (faults : List StreamFault) :
      (faults.map Sight.failure).filterMap Sight.byte? = [] := by
    simp [List.filterMap_map, Sight.byte?]
  induction bytes generalizing place with
  | nil => simp [interleaved, silent]
  | cons byte rest ih =>
    obtain ⟨same, honest⟩ := ih (place + 1)
    constructor
    · rw [interleaved, List.filterMap_append, silent, List.filterMap_cons, same]
      rfl
    · simp [interleaved, honest]

theorem calm_failing (failures : Nat → List StreamFault) (bytes : List UInt8) :
    (failing failures bytes).calm = ofBytes bytes ∧ (failing failures bytes).Honest := by
  obtain ⟨same, honest⟩ := interleaved_spec failures 0 bytes
  refine ⟨?_, honest⟩
  rw [calm, unread, failing, same]
  rfl

variable {source seen : Source}

theorem honest_peek (honest : source.Honest) {sight : Except StreamFault (Option UInt8)}
    (peeked : source.peek = (sight, seen)) : seen.Honest := by
  unfold peek at peeked
  split at peeked <;> obtain ⟨-, rfl⟩ := Prod.mk.inj peeked <;> simp_all [Honest]

theorem honest_advance (honest : source.Honest) : source.advance.Honest := fun member =>
  honest (List.mem_of_mem_tail member)

theorem calm_of_failure {fault : StreamFault} (peeked : source.peek = (.error fault, seen)) :
    seen.calm = source.calm ∧ seen.ahead.length < source.ahead.length := by
  obtain ⟨ahead, offset⟩ := source
  rcases ahead with _ | ⟨_ | _ | _, rest⟩ <;> obtain ⟨found, rfl⟩ := Prod.mk.inj peeked
  case cons.failure => exact ⟨rfl, Nat.lt_succ_self _⟩
  all_goals cases found

theorem calm_of_end (honest : source.Honest) (peeked : source.peek = (.ok none, seen)) :
    seen = source ∧ source.unread = [] := by
  obtain ⟨ahead, offset⟩ := source
  rcases ahead with _ | ⟨_ | _ | _, rest⟩ <;> obtain ⟨found, rfl⟩ := Prod.mk.inj peeked
  case nil => exact ⟨rfl, rfl⟩
  case cons.lull => exact absurd List.mem_cons_self honest
  all_goals cases found

theorem unread_of_byte {value : UInt8} (peeked : source.peek = (.ok (some value), seen)) :
    seen = source ∧ source.unread = value :: source.advance.unread := by
  obtain ⟨ahead, offset⟩ := source
  rcases ahead with _ | ⟨_ | _ | _, rest⟩ <;> obtain ⟨found, rfl⟩ := Prod.mk.inj peeked
  case cons.byte =>
    obtain rfl := Option.some.inj (Except.ok.inj found)
    exact ⟨rfl, rfl⟩
  all_goals cases found

end Source

namespace Reader

def calm (reader : Reader) : Reader := { reader with source := reader.source.calm }

def isFailure : Except TokenFault (Option Token) → Bool
  | .error (.stream _) => true
  | _ => false

theorem textual_not_failure {fault : TokenFault} (textual : fault.Textual) :
    isFailure (.error fault) = false := by
  cases fault with
  | stream cause => exact absurd rfl (textual cause)
  | _ => rfl

theorem read_ended (flags : ReadFlags) (reader : Reader) (ended : reader.mode.isEnded = true) :
    read flags reader = (.ok none, reader) := by
  unfold read
  simp [ended]

theorem finish_not_failure (flags : ReadFlags) (reader : Reader) :
    isFailure (finish flags reader).1 = false := by
  unfold finish
  split
  · next failed => exact textual_not_failure (Mode.textual_of_finish failed)
  · rfl
  · rfl

theorem source_finish (flags : ReadFlags) (reader : Reader) :
    (finish flags reader).2.source = reader.source := by
  unfold finish
  split <;> rfl

theorem finish_calm (flags : ReadFlags) (reader : Reader) :
    finish flags reader.calm = ((finish flags reader).1, (finish flags reader).2.calm) := by
  unfold finish
  have mode : reader.calm.mode = reader.mode := rfl
  rw [mode]
  split <;> rfl

section Resumption

variable {flags : ReadFlags} {source : Source} {byte : UInt8}

theorem read_calm_end (mode : Mode) (begun last : Nat) (running : mode.isEnded ≠ true)
    (nothing : source.unread = []) :
    read flags (calm ⟨source, mode, begun, last⟩) =
      finish flags (calm ⟨source, mode, begun, last⟩) := by
  rw [calm, Source.calm, nothing]
  exact read_nil flags _ _ _ mode (Bool.eq_false_iff.mpr running)

theorem read_calm_byte (mode : Mode) (begun last : Nat) (running : mode.isEnded ≠ true)
    (ahead : source.unread = byte :: source.advance.unread) :
    read flags (calm ⟨source, mode, begun, last⟩) =
      let start := startOf mode source.offset begun
      match mode.step flags byte with
      | .take next => read flags (calm ⟨source.advance, next, start, last⟩)
      | .complete token => (.ok (some token), calm ⟨source.advance, .idle, start, start⟩)
      | .release (some token) => (.ok (some token), calm ⟨source, .idle, start, start⟩)
      | .release none => read flags (calm ⟨source, .idle, start, last⟩)
      | .refuse fault left => (.error fault, calm ⟨source, left, start, last⟩)
      | .stay => (.ok none, calm ⟨source, .ended, start, last⟩) := by
  have holds (mode : Mode) (begun last : Nat) : calm ⟨source, mode, begun, last⟩ =
      ⟨.holding (byte :: source.advance.unread) source.offset, mode, begun, last⟩ := by
    rw [calm, Source.calm, ahead]
  simp only [holds]
  exact read_cons flags _ byte _ _ _ mode (Bool.eq_false_iff.mpr running)

/-- Where a read fails, it stopped on the way that a read without failures takes. -/
theorem read_calm (flags : ReadFlags) (reader : Reader) (honest : reader.source.Honest) :
    (read flags reader).2.source.Honest ∧
      read flags reader.calm =
        if isFailure (read flags reader).1 then read flags (read flags reader).2.calm
        else ((read flags reader).1, (read flags reader).2.calm) := by
  -- The recursion of `read` takes one byte a step, and both readers see the same one.
  fun_induction read flags reader with
  | case1 source mode begun tokenStart ended =>
    exact ⟨honest, read_ended flags _ ended⟩
  | case2 source mode begun tokenStart running fault seen peeked =>
    obtain ⟨same, -⟩ := Source.calm_of_failure peeked
    refine ⟨Source.honest_peek honest peeked, ?_⟩
    simp only [isFailure, calm, same, ↓reduceIte]
  | case3 source mode begun tokenStart running seen peeked =>
    obtain ⟨rfl, nothing⟩ := Source.calm_of_end honest peeked
    rw [finish_not_failure, source_finish, read_calm_end mode _ _ running nothing, finish_calm]
    exact ⟨honest, rfl⟩
  | case4 source mode begun tokenStart running byte seen peeked start after stepped ih =>
    obtain ⟨rfl, ahead⟩ := Source.unread_of_byte peeked
    rw [read_calm_byte mode _ _ running ahead, stepped]
    exact ih (Source.honest_advance honest)
  | case5 source mode begun tokenStart running byte seen peeked start given stepped =>
    obtain ⟨rfl, ahead⟩ := Source.unread_of_byte peeked
    rw [read_calm_byte mode _ _ running ahead, stepped]
    exact ⟨Source.honest_advance honest, rfl⟩
  | case6 source mode begun tokenStart running byte seen peeked start given stepped =>
    obtain ⟨rfl, ahead⟩ := Source.unread_of_byte peeked
    rw [read_calm_byte mode _ _ running ahead, stepped]
    exact ⟨honest, rfl⟩
  | case7 source mode begun tokenStart running byte seen peeked start stepped ih =>
    obtain ⟨rfl, ahead⟩ := Source.unread_of_byte peeked
    rw [read_calm_byte mode _ _ running ahead, stepped]
    exact ih honest
  | case8 source mode begun tokenStart running byte seen peeked start fault after stepped =>
    obtain ⟨rfl, ahead⟩ := Source.unread_of_byte peeked
    rw [textual_not_failure (Mode.textual_of_refuse stepped),
      read_calm_byte mode _ _ running ahead, stepped]
    exact ⟨honest, rfl⟩
  | case9 source mode begun tokenStart running byte seen peeked start stepped =>
    obtain ⟨rfl, ahead⟩ := Source.unread_of_byte peeked
    rw [read_calm_byte mode _ _ running ahead, stepped]
    exact ⟨honest, rfl⟩

/-- A read that fails leaves fewer failures ahead. -/
theorem length_ahead_of_failure (flags : ReadFlags) (reader : Reader)
    (failed : isFailure (read flags reader).1 = true) :
    (read flags reader).2.source.ahead.length < reader.source.ahead.length := by
  fun_induction read flags reader with
  | case1 | case5 | case6 | case9 => cases failed
  | case2 source mode begun tokenStart running fault seen peeked =>
    exact (Source.calm_of_failure peeked).2
  | case3 source mode begun tokenStart running seen peeked =>
    rw [finish_not_failure] at failed
    cases failed
  | case4 source mode begun tokenStart running byte seen peeked start after stepped ih =>
    obtain ⟨rfl, nonempty⟩ := Source.ahead_of_peek peeked
    have shorter := Source.length_advance nonempty
    exact Nat.lt_trans (ih failed) (by simp only; omega)
  | case7 source mode begun tokenStart running byte seen peeked start stepped ih =>
    obtain ⟨rfl, -⟩ := Source.ahead_of_peek peeked
    exact ih failed
  | case8 source mode begun tokenStart running byte seen peeked start fault after stepped =>
    rw [textual_not_failure (Mode.textual_of_refuse stepped)] at failed
    cases failed

end Resumption

def persist (flags : ReadFlags) (reader : Reader) : Except TokenFault (Option Token) × Reader :=
  if _ : isFailure (read flags reader).1 then persist flags (read flags reader).2
  else read flags reader
termination_by reader.source.ahead.length
decreasing_by exact length_ahead_of_failure flags reader ‹_›

theorem persist_calm (flags : ReadFlags) (reader : Reader) (honest : reader.source.Honest) :
    (persist flags reader).2.source.Honest ∧
      read flags reader.calm = ((persist flags reader).1, (persist flags reader).2.calm) := by
  fun_induction persist flags reader with
  | case1 reader failed ih =>
    obtain ⟨kept, resumed⟩ := read_calm flags reader honest
    rw [resumed, if_pos failed]
    exact ih kept
  | case2 reader done =>
    obtain ⟨kept, resumed⟩ := read_calm flags reader honest
    rw [resumed, if_neg done]
    exact ⟨kept, rfl⟩

structure Observation where
  answer : Except TokenFault (Option Token)
  tokenStart : Nat
  offset : Nat

def observe (reading : ReadFlags → Reader → Except TokenFault (Option Token) × Reader) :
    List ReadFlags → Reader → List Observation
  | [], _ => []
  | flags :: later, reader =>
    let result := reading flags reader
    ⟨result.1, result.2.tokenStart, result.2.source.offset⟩ :: observe reading later result.2

theorem observe_calm (sequence : List ReadFlags) (reader : Reader)
    (honest : reader.source.Honest) :
    observe persist sequence reader = observe read sequence reader.calm := by
  induction sequence generalizing reader with
  | nil => rfl
  | cons flags later ih =>
    obtain ⟨kept, same⟩ := persist_calm flags reader honest
    rw [observe, observe, same]
    exact congrArg (List.cons _) (ih _ kept)

/-- Failures of the stream, finitely many in front of each byte and of the end, do not show
if each failed read is repeated. -/
theorem observe_failing (failures : Nat → List StreamFault) (bytes : List UInt8)
    (sequence : List ReadFlags) :
    observe persist sequence (ofSource (.failing failures bytes)) =
      observe read sequence (ofBytes bytes) := by
  obtain ⟨same, honest⟩ := Source.calm_failing failures bytes
  rw [observe_calm sequence _ honest, ofBytes, ← same]
  rfl

end Reader

end PdfPrimitives
