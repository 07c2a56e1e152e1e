import Mathlib.Data.List.Forall2
import PdfPrimitives.Proofs.Token.Interruption
import PdfPrimitives.Text.Ascii

/-!
What a reader keeps from one token to the next. Behind a token, and behind a reset, nothing
of what was read before shows in what is read later, except that places are counted from
the start of the source and not from there.
-/

namespace PdfPrimitives

def Outcome.Ends : Outcome → Prop
  | .take _ | .release none => False
  | _ => True

namespace Reader

section Reads

/-- Reading from a source that never fails, by induction on what the reader can still step
through. A read goes on behind a byte that is taken and behind a comment that is no token. -/
theorem read_induction (flags : ReadFlags) {motive : List UInt8 → Nat → Nat → Mode → Prop}
    (ended : ∀ bytes offset begun, motive bytes offset begun .ended)
    (nothing : ∀ offset begun mode, mode.isEnded = false → motive [] offset begun mode)
    (take : ∀ byte bytes offset begun mode next, mode.isEnded = false →
      mode.step flags byte = .take next →
      motive bytes (offset + 1) (startOf mode offset begun) next →
      motive (byte :: bytes) offset begun mode)
    (drop : ∀ byte bytes offset begun mode, mode.isEnded = false →
      mode.step flags byte = .release none →
      motive (byte :: bytes) offset (startOf mode offset begun) .idle →
      motive (byte :: bytes) offset begun mode)
    (stops : ∀ byte bytes offset begun mode, mode.isEnded = false →
      (mode.step flags byte).Ends → motive (byte :: bytes) offset begun mode)
    (bytes : List UInt8) (offset begun : Nat) (mode : Mode) :
    motive bytes offset begun mode := by
  induction size : 2 * bytes.length + mode.weight using Nat.strongRecOn
    generalizing bytes offset begun mode with
  | ind size ih =>
  subst size
  cases running : mode.isEnded with
  | true =>
    cases mode with
    | ended => exact ended bytes offset begun
    | _ => cases running
  | false =>
    cases bytes with
    | nil => exact nothing offset begun mode running
    | cons byte bytes =>
      rw [List.length_cons] at ih
      cases stepped : mode.step flags byte with
      | take next =>
        have weights := And.intro next.weight_le (Mode.weight_pos running)
        exact take byte bytes offset begun mode next running stepped
          (ih _ (by omega) bytes _ _ next rfl)
      | release token =>
        cases token with
        | none =>
          have busy := Mode.weight_of_release stepped
          have idle : Mode.idle.weight = 1 := rfl
          exact drop byte bytes offset begun mode running stepped
            (ih _ (by rw [List.length_cons]; omega) (byte :: bytes) _ _ .idle rfl)
        | some token =>
          exact stops byte bytes offset begun mode running (by rw [stepped]; trivial)
      | complete _ | refuse _ _ | stay =>
        exact stops byte bytes offset begun mode running (by rw [stepped]; trivial)

structure Leaves (bytes : List UInt8) (offset : Nat)
    (result : Except TokenFault (Option Token) × Reader) : Prop where
  source : ∃ taken behind, bytes = taken ++ behind ∧
    result.2.source = .holding behind (offset + taken.length)
  rest : ∀ token, result.1 = .ok (some token) →
    result.2.mode = .idle ∨ result.2.mode = .ended ∧ result.2.source.ahead = []

theorem Leaves.untouched {bytes : List UInt8} {offset : Nat}
    {result : Except TokenFault (Option Token) × Reader}
    (same : result.2.source = .holding bytes offset)
    (rest : ∀ token, result.1 = .ok (some token) →
      result.2.mode = .idle ∨ result.2.mode = .ended ∧ result.2.source.ahead = []) :
    Leaves bytes offset result :=
  ⟨⟨[], bytes, rfl, same⟩, rest⟩

theorem Leaves.behind_byte {byte : UInt8} {bytes : List UInt8} {offset : Nat}
    {result : Except TokenFault (Option Token) × Reader}
    (leaves : Leaves bytes (offset + 1) result) : Leaves (byte :: bytes) offset result := by
  obtain ⟨⟨taken, behind, rfl, source⟩, rest⟩ := leaves
  refine ⟨⟨byte :: taken, behind, rfl, ?_⟩, rest⟩
  rw [source, List.length_cons, Nat.add_assoc, Nat.add_comm 1]

theorem read_leaves (flags : ReadFlags) (last : Nat) (bytes : List UInt8)
    (offset begun : Nat) (mode : Mode) :
    Leaves bytes offset (read flags ⟨.holding bytes offset, mode, begun, last⟩) := by
  induction bytes, offset, begun, mode using read_induction flags with
  | ended bytes offset begun =>
    rw [read_ended flags _ rfl]
    exact .untouched rfl (fun _ given => by cases given)
  | nothing offset begun mode running =>
    rw [read_nil _ _ _ _ mode running]
    have source := source_finish flags ⟨.holding [] offset, mode, begun, last⟩
    obtain ⟨⟨answer, next⟩, finished⟩ : ∃ result,
      finish flags ⟨.holding [] offset, mode, begun, last⟩ = result := ⟨_, rfl⟩
    rw [finished] at source ⊢
    refine .untouched source fun token given => .inr ?_
    obtain rfl : answer = .ok (some token) := given
    rw [finish_eq_token finished]
    exact ⟨rfl, rfl⟩
  | take byte bytes offset begun mode next running stepped ih =>
    rw [read_cons _ _ _ _ _ _ mode running, stepped]
    exact ih.behind_byte
  | drop byte bytes offset begun mode running stepped ih =>
    rw [read_cons _ _ _ _ _ _ mode running, stepped]
    exact ih
  | stops byte bytes offset begun mode running ends =>
    rw [read_cons _ _ _ _ _ _ mode running]
    cases stepped : mode.step flags byte with
    | take next =>
      rw [stepped] at ends
      cases ends
    | complete token => exact (Leaves.untouched rfl fun _ _ => .inl rfl).behind_byte
    | release token =>
      cases token with
      | none =>
        rw [stepped] at ends
        cases ends
      | some token => exact .untouched rfl fun _ _ => .inl rfl
    | refuse fault left => exact .untouched rfl (fun _ given => by cases given)
    | stay => exact .untouched rfl (fun _ given => by cases given)

/-- Two readers in the middle of the same, on sources with the same bytes ahead, of which the
second counts `distance` bytes more. -/
structure Trails (distance : Nat) (first second : Reader) : Prop where
  source : ∃ bytes offset, first.source = .holding bytes offset ∧
    second.source = .holding bytes (offset + distance)
  mode : second.mode = first.mode
  start : first.mode.weight = 2 → second.start = first.start + distance

structure Agree (distance : Nat) (first second : Except TokenFault (Option Token) × Reader) :
    Prop where
  answer : second.1 = first.1
  readers : Trails distance first.2 second.2
  tokenStart : ∀ token, first.1 = .ok (some token) →
    second.2.tokenStart = first.2.tokenStart + distance

theorem startOf_shifted {mode : Mode} {distance offset begun other : Nat}
    (start : mode.weight = 2 → other = begun + distance) (running : mode.isEnded = false) :
    startOf mode (offset + distance) other = startOf mode offset begun + distance := by
  unfold startOf
  cases mode with
  | idle => rfl
  | ended => cases running
  | _ => exact start rfl

theorem finish_agree (flags : ReadFlags) (distance offset begun other last before : Nat)
    (mode : Mode) (start : mode.weight = 2 → other = begun + distance) :
    Agree distance (finish flags ⟨.holding [] offset, mode, begun, last⟩)
      (finish flags ⟨.holding [] (offset + distance), mode, other, before⟩) := by
  have sources : ∃ bytes place, Source.holding [] offset = .holding bytes place ∧
      Source.holding [] (offset + distance) = .holding bytes (place + distance) :=
    ⟨[], offset, rfl, rfl⟩
  unfold finish
  cases amounts : mode.finish flags with
  | error fault => exact ⟨rfl, ⟨sources, rfl, start⟩, fun _ given => by cases given⟩
  | ok token =>
    cases token with
    | none =>
      exact ⟨rfl, ⟨sources, rfl, fun busy => by cases busy⟩, fun _ given => by cases given⟩
    | some token =>
      refine ⟨rfl, ⟨sources, rfl, fun busy => by cases busy⟩, fun _ _ => start ?_⟩
      cases mode with
      | idle | ended => cases amounts
      | _ => rfl

theorem read_agree (flags : ReadFlags) (distance last before : Nat) (bytes : List UInt8)
    (offset begun : Nat) (mode : Mode) (other : Nat)
    (start : mode.weight = 2 → other = begun + distance) :
    Agree distance (read flags ⟨.holding bytes offset, mode, begun, last⟩)
      (read flags ⟨.holding bytes (offset + distance), mode, other, before⟩) := by
  -- Both readers see the same bytes, and only the places that they note down differ.
  induction bytes, offset, begun, mode using read_induction flags
    generalizing other with
  | ended bytes offset begun =>
    rw [read_ended flags _ rfl, read_ended flags _ rfl]
    exact ⟨rfl, ⟨⟨bytes, offset, rfl, rfl⟩, rfl, fun busy => by cases busy⟩,
      fun _ given => by cases given⟩
  | nothing offset begun mode running =>
    rw [read_nil _ _ _ _ mode running, read_nil _ _ _ _ mode running]
    exact finish_agree flags distance offset begun other last before mode start
  | take byte bytes offset begun mode next running stepped ih =>
    rw [read_cons _ _ _ _ _ _ mode running, read_cons _ _ _ _ _ _ mode running, stepped]
    simp only [startOf_shifted start running, Nat.add_right_comm offset distance 1]
    exact ih _ fun _ => rfl
  | drop byte bytes offset begun mode running stepped ih =>
    rw [read_cons _ _ _ _ _ _ mode running, read_cons _ _ _ _ _ _ mode running, stepped]
    exact ih _ fun busy => by cases busy
  | stops byte bytes offset begun mode running ends =>
    rw [read_cons _ _ _ _ _ _ mode running, read_cons _ _ _ _ _ _ mode running]
    simp only [startOf_shifted start running, Nat.add_right_comm offset distance 1]
    cases stepped : mode.step flags byte with
    | take next =>
      rw [stepped] at ends
      cases ends
    | complete token =>
      exact ⟨rfl, ⟨⟨bytes, offset + 1, rfl, rfl⟩, rfl, fun _ => rfl⟩, fun _ _ => rfl⟩
    | release token =>
      cases token with
      | none =>
        rw [stepped] at ends
        cases ends
      | some token =>
        exact ⟨rfl, ⟨⟨byte :: bytes, offset, rfl, rfl⟩, rfl, fun _ => rfl⟩, fun _ _ => rfl⟩
    | refuse fault left =>
      exact ⟨rfl, ⟨⟨byte :: bytes, offset, rfl, rfl⟩, rfl, fun _ => rfl⟩,
        fun _ given => by cases given⟩
    | stay =>
      exact ⟨rfl, ⟨⟨byte :: bytes, offset, rfl, rfl⟩, rfl, fun _ => rfl⟩,
        fun _ given => by cases given⟩

theorem read_trails (flags : ReadFlags) {distance : Nat} {first second : Reader}
    (trails : Trails distance first second) :
    Agree distance (read flags first) (read flags second) := by
  obtain ⟨source, mode, begun, last⟩ := first
  obtain ⟨other, same, begun', last'⟩ := second
  obtain ⟨⟨bytes, offset, rfl, rfl⟩, rfl, start⟩ := trails
  exact read_agree flags distance last last' bytes offset begun same begun' start

end Reads

section Histories

inductive Call where
  | read (flags : ReadFlags)
  | reset

def Call.behind : Call → Reader → Reader
  | .read flags, reader => (Reader.read flags reader).2
  | .reset, reader => reader.reset

def Call.Settles : Call → Reader → Prop
  | .read flags, reader => ∃ token, (Reader.read flags reader).1 = .ok (some token)
  | .reset, _ => True

def behind (calls : List Call) (reader : Reader) : Reader :=
  calls.foldl (fun reader call => call.behind reader) reader

/-- A read that shows the same as one whose source starts `distance` bytes later. Where
tokens begin shows only when there is a token. -/
structure Observation.Shifted (distance : Nat) (first second : Observation) : Prop where
  answer : second.answer = first.answer
  offset : second.offset = first.offset + distance
  tokenStart : ∀ token, first.answer = .ok (some token) →
    second.tokenStart = first.tokenStart + distance

/-- A reader that reads leave as it is shows the same at each of them. -/
theorem observe_stays {answer : Except TokenFault (Option Token)} {reader : Reader}
    (later : List ReadFlags) (stays : ∀ flags ∈ later, read flags reader = (answer, reader)) :
    observe read later reader =
      later.map fun _ => ⟨answer, reader.tokenStart, reader.source.offset⟩ := by
  induction later with
  | nil => rfl
  | cons flags later ih =>
    obtain ⟨first, others⟩ := List.forall_mem_cons.mp stays
    rw [observe, first]
    exact congrArg (List.cons _) (ih others)

theorem observe_trails {distance : Nat} (later : List ReadFlags) {first second : Reader}
    (trails : Trails distance first second) :
    List.Forall₂ (Observation.Shifted distance) (observe read later first)
      (observe read later second) := by
  induction later generalizing first second with
  | nil => exact .nil
  | cons flags later ih =>
    have agree := read_trails flags trails
    obtain ⟨rest, place, left, right⟩ := agree.readers.source
    refine .cons ⟨agree.answer, ?_, agree.tokenStart⟩ (ih agree.readers)
    rw [left, right]
    rfl

def Stands (bytes : List UInt8) (reader : Reader) : Prop :=
  ∃ taken rest, bytes = taken ++ rest ∧ reader.source = .holding rest taken.length

/-- What is unread are the bytes behind those that were taken. -/
theorem Stands.source_eq {bytes : List UInt8} {reader : Reader} (stands : Stands bytes reader) :
    reader.source = .holding (bytes.drop reader.source.offset) reader.source.offset := by
  obtain ⟨taken, rest, rfl, source⟩ := stands
  have offset : reader.source.offset = taken.length := congrArg Source.offset source
  rw [offset, List.drop_left]
  exact source

theorem stands_call {bytes : List UInt8} {reader : Reader} (stands : Stands bytes reader)
    (call : Call) : Stands bytes (call.behind reader) := by
  cases call with
  | reset => exact stands
  | read flags =>
    obtain ⟨source, mode, begun, last⟩ := reader
    obtain ⟨before, unread, rfl, rfl⟩ := stands
    obtain ⟨taken, rest, rfl, source⟩ :=
      (read_leaves flags last unread before.length begun mode).source
    refine ⟨before ++ taken, rest, (List.append_assoc _ _ _).symm, ?_⟩
    rw [List.length_append]
    exact source

theorem stands_behind {bytes : List UInt8} (calls : List Call) {reader : Reader}
    (stands : Stands bytes reader) : Stands bytes (behind calls reader) := by
  induction calls generalizing reader with
  | nil => exact stands
  | cons call calls ih => exact ih (stands_call stands call)

/-- A settled reader stands between two tokens, or behind the last one. -/
theorem rest_of_settled {bytes : List UInt8} {reader : Reader} (stands : Stands bytes reader)
    (last : Call) (settled : last.Settles reader) :
    (last.behind reader).mode = .idle ∨
      (last.behind reader).mode = .ended ∧ (last.behind reader).source.ahead = [] := by
  cases last with
  | reset => exact .inl rfl
  | read flags =>
    obtain ⟨source, mode, begun, last⟩ := reader
    obtain ⟨before, unread, rfl, rfl⟩ := stands
    obtain ⟨token, given⟩ := settled
    exact (read_leaves flags last unread before.length begun mode).rest token given

theorem observe_settled {reader : Reader} {unread : List UInt8} {offset : Nat}
    (source : reader.source = .holding unread offset)
    (rest : reader.mode = .idle ∨ reader.mode = .ended ∧ reader.source.ahead = [])
    (later : List ReadFlags) :
    List.Forall₂ (Observation.Shifted offset) (observe read later (ofBytes unread))
      (observe read later reader) := by
  obtain ⟨_, mode, begun, last⟩ := reader
  obtain rfl : _ = Source.holding unread offset := source
  rcases rest with idle | ⟨ended, nothing⟩
  · obtain rfl : mode = .idle := idle
    have sources : ∃ bytes place, Source.ofBytes unread = .holding bytes place ∧
        Source.holding unread offset = .holding bytes (place + offset) :=
      ⟨unread, 0, rfl, by rw [Nat.zero_add]⟩
    exact observe_trails later ⟨sources, rfl, fun busy => by cases busy⟩
  · obtain rfl : mode = .ended := ended
    obtain rfl : unread = [] := List.map_eq_nil_iff.mp nothing
    -- A new reader learns by its first read that nothing is ahead, and then it has ended too.
    cases later with
    | nil => exact .nil
    | cons flags later =>
      have first : read flags (ofBytes []) = (.ok none, ⟨.holding [] 0, .ended, 0, 0⟩) :=
        read_nil flags 0 0 0 .idle rfl
      have sources : ∃ bytes place, Source.holding [] 0 = .holding bytes place ∧
          Source.holding [] offset = .holding bytes (place + offset) :=
        ⟨[], 0, rfl, by rw [Nat.zero_add]⟩
      rw [observe, observe, first, read_ended flags _ rfl]
      exact .cons ⟨rfl, (Nat.zero_add offset).symm, fun _ given => by cases given⟩
        (observe_trails later ⟨sources, rfl, fun busy => by cases busy⟩)

/-- Behind a read that gave a token, and behind a reset, a reader goes on like a new one
on the bytes that it has not taken, whatever was called before. -/
theorem reads_on_afresh (bytes : List UInt8) (history : List Call) (last : Call)
    (settled : last.Settles (behind history (ofBytes bytes))) (later : List ReadFlags) :
    let reader := last.behind (behind history (ofBytes bytes))
    reader.source.unread = bytes.drop reader.source.offset ∧
      List.Forall₂ (Observation.Shifted reader.source.offset)
        (observe read later (ofBytes reader.source.unread)) (observe read later reader) := by
  intro reader
  have stands : Stands bytes (behind history (ofBytes bytes)) :=
    stands_behind history ⟨[], bytes, rfl, rfl⟩
  obtain ⟨taken, rest, whole, source⟩ := stands_call stands last
  have unread : reader.source.unread = rest := by
    rw [source, Source.unread, Source.holding]
    simp [List.filterMap_map, Sight.byte?, Function.comp_def]
  have offset : reader.source.offset = taken.length := by rw [source]; rfl
  rw [unread, offset]
  refine ⟨by rw [whole, List.drop_left], ?_⟩
  exact observe_settled source (rest_of_settled stands last settled) later

def cutName : List UInt8 := Text.ascii "/a#4 (x)y<"

theorem cutName_reads_on_afresh :
    (Call.read .none).Settles (behind [.read .none, .reset] (ofBytes cutName)) ∧
      let reader := (Call.read .none).behind (behind [.read .none, .reset] (ofBytes cutName))
      reader.source.unread = cutName.drop reader.source.offset ∧
        List.Forall₂ (Observation.Shifted reader.source.offset)
          (observe read [.none, .none] (ofBytes reader.source.unread))
          (observe read [.none, .none] reader) := by
  have settled : (Call.read .none).Settles (behind [.read .none, .reset] (ofBytes cutName)) :=
    ⟨.string [0x78], by decide +kernel⟩
  exact ⟨settled, reads_on_afresh cutName [.read .none, .reset] (.read .none) settled _⟩

end Histories

end Reader

end PdfPrimitives
