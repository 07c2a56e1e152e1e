import PdfPrimitives.Proofs.Token.Independence

/-!
Readers that a fault has stopped. What such a reader has not taken begins with what caused the
fault, and each further read with the same flags stops there with the same fault.
-/

namespace PdfPrimitives

/-- What is unread where a fault stops reading. A string is missed only at the end, and a word or
a name is too long for the regular byte that would go on with it. A source that never fails has no
faults of its own, and reading refuses no token. -/
def TokenFault.StopsAt (unread : List UInt8) : TokenFault → Prop
  | .invalidCharacter byte => unread.head? = some byte
  | .unterminatedString | .unterminatedHexString => unread = []
  | .unterminatedDictionary => unread.head? ≠ some Byte.greater
  | .unterminatedName => ∀ byte ∈ unread.head?, Byte.isRegular byte = false
  | .bufferExhausted => ∃ byte ∈ unread.head?, Byte.isRegular byte = true
  | .badToken | .stream _ => False

namespace Mode

variable {flags : ReadFlags} {mode left : Mode} {byte : UInt8} {fault : TokenFault}

theorem regular_of_role (regular : role flags byte = .regular) : Byte.isRegular byte = true := by
  unfold role at regular
  split at regular
  · cases regular
  · next visible =>
    split at regular
    · cases regular
    · split at regular
      · cases regular
      · next plain => simp [Byte.isRegular, visible, plain]

theorem regular_of_boundary (boundary : role flags byte = .boundary) :
    Byte.isRegular byte = false := by
  unfold role at boundary
  split at boundary
  · next blank => simp [Byte.isRegular, blank]
  · split at boundary
    · cases boundary
    · split at boundary
      · next delimiter => simp [Byte.isRegular, delimiter]
      · cases boundary

/-- Only a mode that is no complete token is a fault at the end. -/
theorem stopsAt_of_finish (failed : mode.finish flags = .error fault) : fault.StopsAt [] := by
  cases mode with
  | name bytes escape => cases escape <;> cases failed <;> exact nofun
  | string | hex =>
    cases failed
    rfl
  | closing =>
    cases failed
    exact nofun
  | idle | comment | word | delimiter | ended => cases failed

theorem stopsAt_of_store {bytes : Array UInt8} {before after : Array UInt8 → Mode}
    {value : UInt8} (regular : Byte.isRegular byte = true) (rest : List UInt8)
    (refused : store bytes value before after = .refuse fault left) :
    fault.StopsAt (byte :: rest) := by
  unfold store at refused
  split at refused
  · obtain ⟨rfl, -⟩ := Outcome.refuse.inj refused
    exact ⟨byte, rfl, regular⟩
  · cases refused

theorem stopsAt_of_nameStep {bytes : Array UInt8} {escape : NameEscape}
    (regular : Byte.isRegular byte = true) (rest : List UInt8)
    (refused : nameStep flags bytes escape byte = .refuse fault left) :
    fault.StopsAt (byte :: rest) := by
  cases escape with
  | none =>
    simp only [nameStep] at refused
    split at refused
    · obtain ⟨rfl, -⟩ := Outcome.refuse.inj refused
      rfl
    · split at refused
      · cases refused
      · exact stopsAt_of_store regular rest refused
  | first =>
    simp only [nameStep] at refused
    split at refused
    · cases refused
    · obtain ⟨rfl, -⟩ := Outcome.refuse.inj refused
      rfl
  | second high =>
    simp only [nameStep] at refused
    split at refused
    · split at refused
      · obtain ⟨rfl, -⟩ := Outcome.refuse.inj refused
        rfl
      · exact stopsAt_of_store regular rest refused
    · obtain ⟨rfl, -⟩ := Outcome.refuse.inj refused
      rfl

theorem stopsAt_of_release (boundary : Byte.isRegular byte = false) (rest : List UInt8)
    (refused : release flags mode = .refuse fault left)
    (named : ∀ fault, mode.finish flags = .error fault → fault = .unterminatedName) :
    fault.StopsAt (byte :: rest) := by
  unfold release at refused
  split at refused
  · cases refused
  · next failed =>
    obtain ⟨rfl, -⟩ := Outcome.refuse.inj refused
    obtain rfl := named _ failed
    intro next member
    obtain rfl := Option.some.inj member
    exact boundary

/-- A byte that is refused is the one that the fault speaks of. -/
theorem stopsAt_of_refuse (rest : List UInt8)
    (refused : mode.step flags byte = .refuse fault left) : fault.StopsAt (byte :: rest) := by
  have illegal {other : Mode} (refused : Outcome.refuse (.invalidCharacter byte) other =
      .refuse fault left) : fault.StopsAt (byte :: rest) := by
    obtain ⟨rfl, -⟩ := Outcome.refuse.inj refused
    rfl
  cases mode with
  | idle =>
    simp only [step, idleStep] at refused
    grind
  | comment body dropped =>
    simp only [step, release, finish] at refused
    grind
  | word bytes =>
    simp only [step] at refused
    split at refused
    · cases refused
    · next regular => exact stopsAt_of_store (regular_of_role regular) rest refused
    · exact illegal refused
  | name bytes escape =>
    simp only [step] at refused
    split at refused
    · next boundary =>
      refine stopsAt_of_release (regular_of_boundary boundary) rest refused fun fault failed => ?_
      cases escape <;> cases failed <;> rfl
    · next regular => exact stopsAt_of_nameStep (regular_of_role regular) rest refused
    · exact illegal refused
  | string bytes depth place =>
    simp only [step, stringStep, stringByte] at refused
    grind
  | hex bytes started high =>
    simp only [step, hexStep] at refused
    grind
  | closing =>
    simp only [step] at refused
    split at refused
    · cases refused
    · next single =>
      obtain ⟨rfl, -⟩ := Outcome.refuse.inj refused
      intro same
      exact single (Option.some.inj same)
  | delimiter kind =>
    simp only [step] at refused
    split at refused
    · cases refused
    · cases refused
    · exact illegal refused
  | ended => cases refused

end Mode

namespace Reader

variable {flags : ReadFlags} {fault : TokenFault}

/-- A reader that a fault has stopped, in front of what caused it, and that stops there again. -/
structure Stuck (flags : ReadFlags) (fault : TokenFault) (reader : Reader) : Prop where
  stops : fault.StopsAt reader.source.unread
  again : read flags reader = (.error fault, reader)

/-- Where a token began is noted down when it begins, so noting it again changes nothing. -/
theorem startOf_startOf (mode : Mode) (offset begun : Nat) :
    startOf mode offset (startOf mode offset begun) = startOf mode offset begun := by
  unfold startOf
  split <;> rfl

theorem read_stuck (flags : ReadFlags) (last : Nat) (bytes : List UInt8) (offset begun : Nat)
    (mode : Mode) {stopped : Reader}
    (failed : read flags ⟨.holding bytes offset, mode, begun, last⟩ = (.error fault, stopped)) :
    Stuck flags fault stopped ∧ stopped.tokenStart = last := by
  induction bytes, offset, begun, mode using read_induction flags with
  | ended bytes offset begun =>
    rw [read_ended flags _ rfl] at failed
    cases failed
  | nothing offset begun mode running =>
    rw [read_nil _ _ _ _ mode running] at failed
    have finished := failed
    unfold finish at finished
    split at finished
    · next cut =>
      obtain ⟨same, rfl⟩ := Prod.mk.inj finished
      obtain rfl := Except.error.inj same
      refine ⟨⟨?_, ?_⟩, rfl⟩
      · rw [Source.unread_holding]
        exact Mode.stopsAt_of_finish cut
      · rw [read_nil _ _ _ _ mode running, failed]
    · cases finished
    · cases finished
  | take byte bytes offset begun mode next running stepped ih =>
    rw [read_cons _ _ _ _ _ _ mode running, stepped] at failed
    exact ih failed
  | drop byte bytes offset begun mode running stepped ih =>
    rw [read_cons _ _ _ _ _ _ mode running, stepped] at failed
    exact ih failed
  | stops byte bytes offset begun mode running ends =>
    rw [read_cons _ _ _ _ _ _ mode running] at failed
    cases stepped : mode.step flags byte with
    | take next =>
      rw [stepped] at ends
      cases ends
    | complete token =>
      rw [stepped] at failed
      cases failed
    | release token =>
      cases token with
      | none =>
        rw [stepped] at ends
        cases ends
      | some token =>
        rw [stepped] at failed
        cases failed
    | refuse wrong left =>
      rw [stepped] at failed
      obtain ⟨same, rfl⟩ := Prod.mk.inj failed
      obtain rfl := Except.error.inj same
      obtain rfl := Mode.mode_of_refuse stepped
      refine ⟨⟨?_, ?_⟩, rfl⟩
      · rw [Source.unread_holding]
        exact Mode.stopsAt_of_refuse bytes stepped
      · rw [read_cons _ _ _ _ _ _ left running, stepped]
        simp only [startOf_startOf]
    | stay =>
      rw [stepped] at failed
      cases failed

theorem stuck_of_read {bytes : List UInt8} {reader stopped : Reader}
    (stands : Stands bytes reader) (failed : read flags reader = (.error fault, stopped)) :
    Stuck flags fault stopped ∧ stopped.tokenStart = reader.tokenStart := by
  obtain ⟨source, mode, begun, last⟩ := reader
  obtain ⟨taken, rest, -, rfl⟩ := stands
  exact read_stuck flags last rest taken.length begun mode failed

/-- A stuck reader shows the same at each further read. -/
theorem Stuck.observe_replicate {stopped : Reader} (stuck : Stuck flags fault stopped)
    (count : ℕ) :
    observe read (List.replicate count flags) stopped =
      List.replicate count ⟨.error fault, stopped.tokenStart, stopped.source.offset⟩ := by
  have stays := observe_stays (List.replicate count flags) fun each member => by
    rw [List.eq_of_mem_replicate member]
    exact stuck.again
  rwa [List.map_replicate] at stays

/-- Whatever was called before, a read that fails leaves the reader in front of what caused the
fault. All further reads with the same flags fail with the same fault and change nothing. -/
theorem fault_recurs (bytes : List UInt8) (history : List Call) (flags : ReadFlags)
    (fault : TokenFault)
    (failed : (read flags (behind history (ofBytes bytes))).1 = .error fault) (count : ℕ) :
    let before := behind history (ofBytes bytes)
    let stopped := (read flags before).2
    stopped.source.unread = bytes.drop stopped.source.offset ∧
      fault.StopsAt stopped.source.unread ∧ stopped.tokenStart = before.tokenStart ∧
      read flags stopped = (.error fault, stopped) ∧
      observe read (List.replicate count flags) stopped =
        List.replicate count ⟨.error fault, stopped.tokenStart, stopped.source.offset⟩ := by
  intro before stopped
  have stands : Stands bytes before := stands_behind history ⟨[], bytes, rfl, rfl⟩
  have place := (stands_call stands (.read flags)).source_eq
  obtain ⟨stuck, start⟩ := stuck_of_read stands (Prod.ext failed rfl : _ = (_, stopped))
  refine ⟨?_, stuck.stops, start, stuck.again, stuck.observe_replicate count⟩
  exact (congrArg Source.unread place).trans (Source.unread_holding ..)

def strayLetter : List UInt8 := Text.ascii "/a#4 1<6z>"

theorem strayLetter_recurs :
    let before := behind [.read .none, .reset, .read .none] (ofBytes strayLetter)
    let stopped := (read .none before).2
    (read .none before).1 = .error (.invalidCharacter 0x7a) ∧
      stopped.source.unread = [0x7a, 0x3e] ∧
      observe read (List.replicate 9 .none) stopped =
        List.replicate 9 ⟨.error (.invalidCharacter 0x7a), 5, 8⟩ := by
  intro before stopped
  have failed : (read .none before).1 = .error (.invalidCharacter 0x7a) := by decide +kernel
  have place : stopped.tokenStart = 5 ∧ stopped.source.offset = 8 := by decide +kernel
  obtain ⟨unread, -, -, -, later⟩ :=
    fault_recurs strayLetter [.read .none, .reset, .read .none] .none _ failed 9
  rw [place.1, place.2] at later
  rw [place.2] at unread
  exact ⟨failed, unread, later⟩

end Reader

end PdfPrimitives
