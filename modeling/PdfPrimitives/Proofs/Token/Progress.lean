import PdfPrimitives.Proofs.Token.Interruption

/-!
Progress of a read. Each turn of its loop hands the reader the next byte, and takes the byte, ends
the read, or hands the byte over once more to a reader that is between tokens. There are never more
turns than two for each byte that is ahead and one for the end.
-/

namespace PdfPrimitives

namespace Mode

/-- Only where reading has ended does a byte stay without a reason. -/
theorem step_ne_stay {mode : Mode} (running : mode.isEnded = false) (flags : ReadFlags)
    (byte : UInt8) : mode.step flags byte ≠ .stay := by
  intro stepped
  cases mode with
  | idle =>
    simp only [step, idleStep] at stepped
    grind
  | comment body dropped =>
    simp only [step, release] at stepped
    grind
  | word bytes =>
    simp only [step, release, store] at stepped
    grind
  | name bytes escape =>
    simp only [step, release, nameStep, store] at stepped
    grind
  | string bytes depth place =>
    simp only [step, stringStep, stringByte] at stepped
    grind
  | hex bytes started high =>
    simp only [step, hexStep] at stepped
    grind
  | closing =>
    simp only [step] at stepped
    grind
  | delimiter kind =>
    simp only [step, release] at stepped
    grind
  | ended => cases running

end Mode

namespace Reader

inductive Turn where
  | goesOn (next : Reader)
  | ends (answer : Except TokenFault (Option Token)) (next : Reader)

namespace Turn

def behind : Turn → Reader
  | goesOn next | ends _ next => next

def Moves (source : Source) : Turn → Prop
  | goesOn next => next.source = source.advance
  | ends _ _ => True

end Turn

/-- One turn of the loop of a read: a look at the next byte, and a step on it. A step that neither
takes its byte nor ends the read is tried again. -/
def turn (flags : ReadFlags) (reader : Reader) : Turn :=
  let ⟨source, mode, begun, tokenStart⟩ := reader
  if mode.isEnded then .ends (.ok none) reader
  else
    match source.peek with
    | (.error fault, source) => .ends (.error (.stream fault)) ⟨source, mode, begun, tokenStart⟩
    | (.ok none, source) =>
      let (answer, next) := finish flags ⟨source, mode, begun, tokenStart⟩
      .ends answer next
    | (.ok (some byte), source) =>
      let start := startOf mode source.offset begun
      match mode.step flags byte with
      | .take mode => .goesOn ⟨source.advance, mode, start, tokenStart⟩
      | .complete token => .ends (.ok (some token)) ⟨source.advance, .idle, start, start⟩
      | .release (some token) => .ends (.ok (some token)) ⟨source, .idle, start, start⟩
      | .release none => .goesOn ⟨source, .idle, start, tokenStart⟩
      | .refuse fault mode => .ends (.error fault) ⟨source, mode, start, tokenStart⟩
      | .stay => .goesOn ⟨source, mode, begun, tokenStart⟩

def handed? (reader : Reader) : Option UInt8 :=
  match reader.mode.isEnded, reader.source.peek with
  | false, (.ok (some byte), _) => some byte
  | _, _ => none

def isHanded (place : Nat) (reader : Reader) : Bool :=
  reader.handed?.isSome && reader.source.offset == place

/-- The loop of a read with a limited number of turns: the readers that take the turns, and what
the read gives. -/
def loop (flags : ReadFlags) :
    Nat → Reader → Option (List Reader × Except TokenFault (Option Token) × Reader)
  | 0, _ => none
  | turns + 1, reader =>
    match turn flags reader with
    | .ends answer next => some ([reader], answer, next)
    | .goesOn next => (loop flags turns next).map fun (later, result) => (reader :: later, result)

section Turns

variable {flags : ReadFlags} {reader next : Reader} {byte : UInt8}

theorem handed_spec (handed : reader.handed? = some byte) :
    reader.mode.isEnded = false ∧ reader.source.peek = (.ok (some byte), reader.source) ∧
      reader.source.unread = byte :: reader.source.advance.unread := by
  unfold handed? at handed
  split at handed
  · next seen running peeked =>
    obtain rfl := Option.some.inj handed
    obtain ⟨rfl, ahead⟩ := Source.unread_of_byte peeked
    exact ⟨running, peeked, ahead⟩
  · cases handed

theorem handed_of_peek (running : reader.mode.isEnded = false)
    {seen : Source} (peeked : reader.source.peek = (.ok (some byte), seen)) :
    reader.handed? = some byte := by
  rw [handed?, running, peeked]

/-- A turn on a byte does what the step on the byte says. -/
theorem turn_handed (flags : ReadFlags) (handed : reader.handed? = some byte) :
    turn flags reader =
      let start := startOf reader.mode reader.source.offset reader.start
      match reader.mode.step flags byte with
      | .take mode => .goesOn ⟨reader.source.advance, mode, start, reader.tokenStart⟩
      | .complete token => .ends (.ok (some token)) ⟨reader.source.advance, .idle, start, start⟩
      | .release (some token) => .ends (.ok (some token)) ⟨reader.source, .idle, start, start⟩
      | .release none => .goesOn ⟨reader.source, .idle, start, reader.tokenStart⟩
      | .refuse fault mode => .ends (.error fault) ⟨reader.source, mode, start, reader.tokenStart⟩
      | .stay => .goesOn reader := by
  obtain ⟨running, peeked, -⟩ := handed_spec handed
  unfold turn
  simp only [running, peeked]
  rfl

/-- A read takes one turn and goes on behind it. -/
theorem read_turn (flags : ReadFlags) (reader : Reader) :
    read flags reader =
      match turn flags reader with
      | .goesOn next => read flags next
      | .ends answer next => (answer, next) := by
  obtain ⟨source, mode, begun, tokenStart⟩ := reader
  cases running : mode.isEnded with
  | true =>
    rw [read_ended flags _ running, turn]
    simp only [running, ↓reduceIte]
  | false =>
    rw [read, turn]
    simp only [running, Bool.false_eq_true, ↓reduceIte]
    split
    · next peeked => rw [peeked]
    · next peeked => rw [peeked]
    · next byte seen peeked =>
      rw [peeked]
      split
      case h_6 stepped => exact absurd stepped (Mode.step_ne_stay running flags byte)
      all_goals
        next stepped =>
          simp only [stepped]
          rfl

/-- A turn that does not end the read took a byte, or ended a comment in front of one. -/
theorem turn_goesOn (continued : turn flags reader = .goesOn next) :
    ∃ byte, reader.handed? = some byte ∧
      (next.source = reader.source.advance ∨
        next.source = reader.source ∧ next.mode = .idle ∧ reader.mode.weight = 2) := by
  cases handed : reader.handed? with
  | none =>
    exfalso
    unfold turn at continued
    dsimp only at continued
    split at continued
    · cases continued
    · next running =>
      split at continued
      · cases continued
      · cases continued
      · next peeked =>
        rw [handed_of_peek (Bool.eq_false_iff.mpr running) peeked] at handed
        cases handed
  | some byte =>
    refine ⟨byte, rfl, ?_⟩
    obtain ⟨running, -⟩ := handed_spec handed
    rw [turn_handed flags handed] at continued
    dsimp only at continued
    split at continued
    · obtain rfl := Turn.goesOn.inj continued
      exact .inl rfl
    · cases continued
    · cases continued
    · next stepped =>
      obtain rfl := Turn.goesOn.inj continued
      exact .inr ⟨rfl, rfl, Mode.weight_of_release stepped⟩
    · cases continued
    · next stepped => exact absurd stepped (Mode.step_ne_stay running flags byte)

def share (reader : Reader) (place : Nat) : Nat :=
  if place < reader.source.offset then 0
  else if place = reader.source.offset then reader.mode.weight
  else 2

theorem share_le (reader : Reader) (place : Nat) : reader.share place ≤ 2 := by
  rw [share]
  split
  · exact Nat.zero_le 2
  · split
    · exact reader.mode.weight_le
    · exact Nat.le_refl 2

theorem isHanded_le (reader : Reader) (place : Nat) :
    (if reader.isHanded place then 1 else 0) ≤ reader.share place := by
  split
  · next here =>
    obtain ⟨some, same⟩ := Bool.and_eq_true_iff.mp here
    obtain ⟨byte, handed⟩ := Option.isSome_iff_exists.mp some
    have running := Mode.weight_pos (handed_spec handed).1
    obtain rfl := beq_iff_eq.mp same
    rwa [share, if_neg (Nat.lt_irrefl _), if_pos rfl]
  · exact Nat.zero_le _

/-- A turn that does not end the read uses up a part of what is left of each byte. -/
theorem share_goesOn (continued : turn flags reader = .goesOn next) (place : Nat) :
    next.share place + (if reader.isHanded place then 1 else 0) ≤ reader.share place := by
  obtain ⟨byte, handed, moved⟩ := turn_goesOn continued
  have running := Mode.weight_pos (handed_spec handed).1
  have few := next.mode.weight_le
  have idle : Mode.idle.weight = 1 := rfl
  have here : reader.isHanded place = (reader.source.offset == place) := by
    rw [isHanded, handed, Option.isSome_some, Bool.true_and]
  rw [here]
  obtain taken | ⟨same, left, busy⟩ := moved
  · have behind : next.source.offset = reader.source.offset + 1 := congrArg Source.offset taken
    simp only [share, behind, beq_iff_eq]
    grind
  · simp only [share, same, left, busy, idle, beq_iff_eq]
    grind

/-- Two turns for each byte and one for the end are enough for a read. -/
theorem loop_spec (flags : ReadFlags) (turns : Nat) (reader : Reader) (positive : 1 ≤ turns)
    (enough : 2 * reader.source.unread.length + reader.mode.weight ≤ turns + 1) :
    ∃ visited, loop flags turns reader = some (visited, read flags reader) ∧
      ∀ place, visited.countP (isHanded place) ≤ reader.share place := by
  induction turns generalizing reader with
  | zero => cases positive
  | succ turns ih =>
    rw [loop, read_turn]
    cases turned : turn flags reader with
    | ends answer next =>
      refine ⟨[reader], rfl, fun place => ?_⟩
      rw [List.countP_singleton]
      exact isHanded_le reader place
    | goesOn next =>
      obtain ⟨byte, handed, moved⟩ := turn_goesOn turned
      obtain ⟨running, -, ahead⟩ := handed_spec handed
      have weighs := Mode.weight_pos running
      have few := next.mode.weight_le
      rw [ahead, List.length_cons] at enough
      -- A byte that is taken counts twice, so the mode behind it may weigh more than this one.
      have left : 1 ≤ turns ∧
          2 * next.source.unread.length + next.mode.weight ≤ turns + 1 := by
        obtain taken | ⟨same, idle, busy⟩ := moved
        · rw [taken]
          omega
        · have light : Mode.idle.weight = 1 := rfl
          rw [same, ahead, List.length_cons, idle, light]
          omega
      obtain ⟨later, result, counts⟩ := ih next left.1 left.2
      refine ⟨reader :: later, by simp only [result, Option.map_some], fun place => ?_⟩
      rw [List.countP_cons]
      exact Nat.le_trans (Nat.add_le_add_right (counts place) _) (share_goesOn turned place)

/-- Between tokens no byte is handed back. -/
theorem moves_idle (flags : ReadFlags) (handed : reader.handed? = some byte)
    (idle : reader.mode = .idle) : (turn flags reader).Moves reader.source := by
  rw [turn_handed flags handed, idle]
  dsimp only
  cases stepped : Mode.idle.step flags byte with
  | take | complete | refuse => trivial
  | release token => exact absurd stepped (Mode.idleStep_ne_release flags byte token)
  | stay => exact absurd stepped (Mode.step_ne_stay rfl flags byte)

/-- A turn takes its byte, fails, or leaves the byte to a reader that is idle and moves on. -/
theorem turn_spends (flags : ReadFlags) (handed : reader.handed? = some byte) :
    let next := (turn flags reader).behind
    next.source = reader.source.advance ∨ (∃ fault, turn flags reader = .ends (.error fault) next) ∨
      next.mode = .idle ∧ next.source = reader.source ∧ next.handed? = some byte ∧
        ∀ later, (turn later next).Moves reader.source := by
  obtain ⟨running, peeked, -⟩ := handed_spec handed
  have back {next : Reader} (idle : next.mode = .idle) (same : next.source = reader.source) :
      next.mode = .idle ∧ next.source = reader.source ∧ next.handed? = some byte ∧
        ∀ later, (turn later next).Moves reader.source := by
    rw [← same] at peeked
    have again : next.handed? = some byte := handed_of_peek (by rw [idle]; rfl) peeked
    exact ⟨idle, same, again, fun later => same ▸ moves_idle later again idle⟩
  rw [turn_handed flags handed]
  dsimp only
  cases stepped : reader.mode.step flags byte with
  | take | complete => exact .inl rfl
  | release token =>
    right; right
    cases token <;> exact back rfl rfl
  | refuse fault => exact .inr (.inl ⟨fault, rfl⟩)
  | stay => exact absurd stepped (Mode.step_ne_stay running flags byte)

end Turns

/-- A read ends, whatever the reader is in the middle of, and its loop spends at most two turns on
each byte. A turn that neither takes its byte nor fails leaves the reader idle, and the next turn on
the byte takes it or ends a read. -/
theorem read_progress (flags : ReadFlags) (reader : Reader) :
    ∃ visited,
      loop flags (2 * reader.source.unread.length + 1) reader =
          some (visited, read flags reader) ∧
        (∀ place, visited.countP (isHanded place) ≤ 2) ∧
        ∀ seen ∈ visited, ∀ byte, seen.handed? = some byte →
          seen.mode.step flags byte ≠ .stay ∧
            let next := (turn flags seen).behind
            next.source = seen.source.advance ∨
              (∃ fault, turn flags seen = .ends (.error fault) next) ∨
              next.mode = .idle ∧ next.source = seen.source ∧ next.handed? = some byte ∧
                ∀ later, (turn later next).Moves seen.source := by
  have weighs := reader.mode.weight_le
  obtain ⟨visited, result, counts⟩ :=
    loop_spec flags (2 * reader.source.unread.length + 1) reader (by omega) (by omega)
  refine ⟨visited, result, fun place => ?_, fun seen _ byte handed => ?_⟩
  · exact Nat.le_trans (counts place) (share_le reader place)
  · exact ⟨Mode.step_ne_stay (handed_spec handed).1 flags byte, turn_spends flags handed⟩

/-- The line feed behind a comment is handed over twice. -/
theorem comment_break_twice :
    let reader := ofBytes [0x25, 0x0a, 0x37, 0x20]
    ∃ visited, loop .none 9 reader = some (visited, read .none reader) ∧
      visited.countP (isHanded 1) = 2 ∧ ∀ place, visited.countP (isHanded place) ≤ 2 := by
  intro reader
  obtain ⟨visited, result, counts, -⟩ := read_progress .none reader
  have twice : (loop .none 9 reader).map (fun found => found.1.countP (isHanded 1)) = some 2 := by
    decide +kernel
  have result : loop .none 9 reader = some (visited, read .none reader) := result
  rw [result] at twice
  exact ⟨visited, result, Option.some.inj twice, counts⟩

end Reader

end PdfPrimitives
