import Mathlib.Data.List.Forall2
import PdfPrimitives.Proofs.Calculator.Layout
import PdfPrimitives.Proofs.Calculator.Splitting

/-!
Places of code and the bytes where they begin. Either one gives the other, since no
instruction is empty, so a skip to a place and a skip to a byte say the same.
-/

namespace PdfPrimitives.Calculator

namespace Bytecode

theorem size_pos (instruction : Instruction) : 0 < size instruction := by
  cases instruction <;> exact Nat.zero_lt_succ _

def extent : List Instruction → Nat
  | [] => 0
  | instruction :: rest => size instruction + extent rest

theorem extent_append (front back : List Instruction) :
    extent (front ++ back) = extent front + extent back := by
  induction front with
  | nil => exact (Nat.zero_add _).symm
  | cons instruction front ih => rw [List.cons_append, extent, extent, ih, Nat.add_assoc]

theorem extent_take_succ (code : List Instruction) (place : Nat) (instruction : Instruction)
    (here : code[place]? = some instruction) :
    extent (code.take (place + 1)) = extent (code.take place) + size instruction := by
  rw [List.take_add_one, here, extent_append, Option.toList_some, extent]
  rfl

theorem extent_take_le (code : List Instruction) (place : Nat) :
    extent (code.take place) ≤ extent code := by
  have whole := extent_append (code.take place) (code.drop place)
  rw [List.take_append_drop] at whole
  omega

theorem extent_take_mono (code : List Instruction) (place later : Nat) (ordered : place ≤ later) :
    extent (code.take place) ≤ extent (code.take later) := by
  have within := extent_take_le (code.take later) place
  rwa [List.take_take, Nat.min_eq_left ordered] at within

theorem offset_iff (start : Nat) (code : List Instruction) (place offset : Nat) :
    (offsetsFrom start code)[place]? = some offset ↔
      place ≤ code.length ∧ start + extent (code.take place) = offset := by
  induction code generalizing start place with
  | nil => cases place <;> simp [offsetsFrom, extent]
  | cons instruction rest ih =>
    cases place with
    | zero => simp [offsetsFrom, extent]
    | succ place =>
      rw [offsetsFrom, List.getElem?_cons_succ, ih, List.take_succ_cons, extent,
        List.length_cons, Nat.add_le_add_iff_right, Nat.add_assoc]

theorem place_iff (start : Nat) (code : List Instruction) (place offset : Nat) :
    (offsetsFrom start code).idxOf? offset = some place ↔
      (offsetsFrom start code)[place]? = some offset := by
  rw [offset_iff]
  induction code generalizing start place with
  | nil => cases place <;> simp [offsetsFrom, extent, List.idxOf?_cons]
  | cons instruction rest ih =>
    have positive := size_pos instruction
    rw [offsetsFrom, List.idxOf?_cons]
    cases place with
    | zero => simp [extent]
    | succ place =>
      -- Everything behind an instruction has another offset, since it is not empty.
      rw [List.take_succ_cons, extent, List.length_cons, Nat.add_le_add_iff_right]
      split
      · next same =>
        have := beq_iff_eq.mp same
        simp
        omega
      · rw [Option.map_eq_some_iff]
        simp only [Nat.add_right_cancel_iff, exists_eq_right, ih, Nat.add_assoc]

/-- Two instructions that agree apart from a skip, which leads to a place and to the byte where
the place begins. -/
def Measures (offsets : List Nat) (instruction encoded : Instruction) : Prop :=
  retarget? (fun place => offsets[place]?) instruction = some encoded

theorem retarget_iff {find back : Nat → Option Nat}
    (inverse : ∀ place target, find place = some target ↔ back target = some place)
    (instruction encoded : Instruction) :
    retarget? find instruction = some encoded ↔ retarget? back encoded = some instruction := by
  cases instruction <;> cases encoded <;> simp [retarget?, inverse, eq_comm]

theorem Measures.size_eq {table : List Nat} {instruction encoded : Instruction}
    (measures : Measures table instruction encoded) : size encoded = size instruction := by
  cases instruction <;> simp only [Measures, retarget?, Option.map_eq_some_iff,
    Option.some.injEq] at measures
  case skip | skipUnless =>
    obtain ⟨_, -, rfl⟩ := measures
    rfl
  all_goals subst measures; rfl

theorem Measures.reached {table : List Nat} {instruction encoded : Instruction}
    (measures : Measures table instruction encoded) (target : Nat)
    (carries : instruction.carried? = some target) :
    ∃ byte, table[target]? = some byte ∧ encoded.carried? = some byte := by
  cases instruction <;> cases carries
  all_goals
    obtain ⟨byte, found, rfl⟩ := Option.map_eq_some_iff.mp measures
    exact ⟨byte, found, rfl⟩

theorem Measures.carried {table : List Nat} {instruction encoded : Instruction}
    (measures : Measures table instruction encoded) (byte : Nat)
    (carries : encoded.carried? = some byte) :
    ∃ target, instruction.carried? = some target ∧ table[target]? = some byte := by
  cases carried : instruction.carried? with
  | some target =>
    obtain ⟨other, found, carried⟩ := measures.reached target carried
    exact ⟨target, rfl, found.trans (carried.symm.trans carries)⟩
  | none =>
    -- An instruction that is no skip stays the same.
    cases instruction <;> cases carried <;> cases measures <;> cases carries

def Measured (code raw : List Instruction) : Prop :=
  List.Forall₂ (Measures (offsets code)) code raw

theorem offsetsFrom_measured {table : List Nat} {code raw : List Instruction}
    (measured : List.Forall₂ (Measures table) code raw) (start : Nat) :
    offsetsFrom start raw = offsetsFrom start code := by
  induction measured generalizing start with
  | nil => rfl
  | cons measures _ ih => rw [offsetsFrom, offsetsFrom, measures.size_eq, ih]

theorem mapM_some_iff {β γ : Type} {step : β → Option γ} {items : List β} {values : List γ} :
    items.mapM step = some values ↔
      List.Forall₂ (fun item value => step item = some value) items values := by
  induction items generalizing values with
  | nil => simp [eq_comm]
  | cons item rest ih =>
    rw [List.mapM_cons]
    constructor
    · intro done
      obtain ⟨value, first, done⟩ := Option.bind_eq_some_iff.mp done
      obtain ⟨others, mapped, same⟩ := Option.bind_eq_some_iff.mp done
      obtain rfl := Option.some.inj same
      exact .cons first (ih.mp mapped)
    · rintro (_ | ⟨first, mapped⟩)
      simp only [first, ih.mpr mapped]
      rfl

theorem resolve_iff (raw code : List Instruction) :
    resolve raw = some code ↔ Measured code raw := by
  have pointwise (instruction encoded : Instruction) :
      retarget? (fun offset => (offsets raw).idxOf? offset) encoded = some instruction ↔
        Measures (offsets raw) instruction encoded :=
    retarget_iff (fun offset place => place_iff 0 raw place offset) encoded instruction
  rw [resolve, mapM_some_iff]
  simp only [pointwise]
  constructor
  · intro found
    have measured := List.Forall₂.flip found
    rwa [offsets, offsetsFrom_measured measured] at measured
  · intro measured
    rw [offsets, offsetsFrom_measured measured]
    exact measured.flip

theorem encodeFrom_measured {table : List Nat} {code raw : List Instruction}
    (measured : List.Forall₂ (Measures table) code raw) (start : Nat) :
    encodeFrom table start code = (chunks start raw).flatten := by
  induction measured generalizing start with
  | nil => rfl
  | @cons instruction encoded _ _ measures _ ih =>
    have first : encodeOne table start instruction = spell start encoded := by
      cases instruction <;> simp only [Measures, retarget?, Option.map_eq_some_iff,
        Option.some.injEq] at measures
      case skip | skipUnless =>
        obtain ⟨offset, found, rfl⟩ := measures
        simp only [encodeOne, distance, found, Option.getD_some, spell]
      all_goals subst measures; rfl
    rw [encodeFrom, chunks, List.flatten_cons, first, ih, measures.size_eq]

theorem exists_retargeted (find : Nat → Option Nat) (code : List Instruction)
    (found : ∀ instruction ∈ code, ∀ target, instruction.carried? = some target →
      ∃ other, find target = some other) :
    ∃ others, List.Forall₂ (fun instruction other => retarget? find instruction = some other)
      code others := by
  induction code with
  | nil => exact ⟨[], .nil⟩
  | cons instruction rest ih =>
    obtain ⟨head, tail⟩ := List.forall_mem_cons.mp found
    obtain ⟨others, retargeted⟩ := ih tail
    have first : ∃ other, retarget? find instruction = some other := by
      cases instruction with
      | skip target | skipUnless target =>
        obtain ⟨other, leads⟩ := head target rfl
        exact ⟨_, Option.map_eq_some_iff.mpr ⟨other, leads, rfl⟩⟩
      | literal | operator | placeholder | stop => exact ⟨_, rfl⟩
    obtain ⟨other, leads⟩ := first
    exact ⟨other :: others, .cons leads retargeted⟩

theorem related_at {β γ : Type} {related : β → γ → Prop} {first : List β} {second : List γ}
    (pairs : List.Forall₂ related first second) (place : Nat) (item : β)
    (here : first[place]? = some item) :
    ∃ other, second[place]? = some other ∧ related item other := by
  obtain ⟨within, rfl⟩ := List.getElem?_eq_some_iff.mp here
  have reached : place < second.length := pairs.length_eq ▸ within
  exact ⟨second[place], List.getElem?_eq_getElem reached, pairs.get within reached⟩

theorem nearFrom_iff (start : Nat) (raw : List Instruction) :
    NearFrom start raw ↔ ∀ place instruction, raw[place]? = some instruction →
      Near (start + extent (raw.take place)) instruction := by
  induction raw generalizing start with
  | nil => simp [NearFrom]
  | cons first rest ih =>
    rw [NearFrom, ih]
    constructor
    · rintro ⟨near, others⟩ (_ | place) instruction here
      · obtain rfl := Option.some.inj here
        exact near
      · rw [List.take_succ_cons, extent, ← Nat.add_assoc]
        exact others place instruction here
    · intro all
      refine ⟨all 0 first rfl, ?_⟩
      intro place instruction here
      have near := all (place + 1) instruction here
      rwa [List.take_succ_cons, extent, ← Nat.add_assoc] at near

theorem extent_take_measured {table : List Nat} {code raw : List Instruction}
    (measured : List.Forall₂ (Measures table) code raw) (place : Nat) :
    extent (raw.take place) = extent (code.take place) := by
  induction measured generalizing place with
  | nil => rfl
  | cons measures _ ih =>
    cases place with
    | zero => rfl
    | succ place =>
      rw [List.take_succ_cons, List.take_succ_cons, extent, extent, measures.size_eq, ih]

theorem size_of_carried (instruction : Instruction) (target : Nat)
    (carried : instruction.carried? = some target) : size instruction = 5 := by
  cases instruction <;> cases carried <;> rfl

theorem target_of_carried (instruction : Instruction) (place target : Nat)
    (carried : instruction.carried? = some target) :
    instruction.target? place = some target := by
  cases instruction <;> cases carried <;> rfl

theorem carried_of_target (instruction : Instruction) (place target : Nat)
    (leads : instruction.target? place = some target) :
    instruction.carried? = some target ∨ target = place + 1 := by
  cases instruction <;> cases leads
  case literal | operator => exact .inr rfl
  case skip | skipUnless => exact .inl rfl

/-- In code that leads forward, every skip has a distance. -/
theorem measured_of_forward (code : List Instruction) (forward : Forward code)
    (short : extent code < 2 ^ 31) : ∃ raw, Measured code raw ∧ NearFrom 0 raw := by
  obtain ⟨raw, measured⟩ : ∃ raw, Measured code raw := by
    refine exists_retargeted (fun target => (offsets code)[target]?) code ?_
    intro instruction member target carried
    obtain ⟨place, here⟩ := List.mem_iff_getElem?.mp member
    have leads := target_of_carried instruction place target carried
    exact ⟨_, (offset_iff 0 code target _).mpr ⟨(forward place target _ here leads).2, rfl⟩⟩
  refine ⟨raw, measured, (nearFrom_iff 0 raw).mpr ?_⟩
  intro place encoded here byte carried
  have flipped : List.Forall₂ (flip (Measures (offsets code))) raw code := measured.flip
  obtain ⟨instruction, found, measures⟩ := related_at flipped place encoded here
  obtain ⟨target, carries, reached⟩ := Measures.carried measures byte carried
  obtain ⟨-, begins⟩ := (offset_iff 0 code target byte).mp reached
  have ahead := (forward place target instruction found
    (target_of_carried instruction place target carries)).1
  have behind := extent_take_succ code place instruction found
  have ordered := extent_take_mono code (place + 1) target ahead
  have within := extent_take_le code target
  rw [size_of_carried instruction target carries] at behind
  rw [extent_take_measured measured]
  omega

/-- Where every skip has a distance, no instruction leads back. -/
theorem forward_of_measured (code raw : List Instruction) (measured : Measured code raw)
    (near : NearFrom 0 raw) : Forward code := by
  intro place target instruction here leads
  rcases carried_of_target instruction place target leads with carried | rfl
  · obtain ⟨encoded, found, measures⟩ := related_at measured place instruction here
    obtain ⟨byte, reached, carries⟩ := measures.reached target carried
    obtain ⟨within, begins⟩ := (offset_iff 0 code target byte).mp reached
    obtain ⟨behind, -⟩ := (nearFrom_iff 0 raw).mp near place encoded found byte carries
    rw [extent_take_measured measured] at behind
    have ordered := extent_take_mono code target place
    exact ⟨by omega, within⟩
  · exact ⟨Nat.lt_succ_self place, (List.getElem?_eq_some_iff.mp here).1⟩

end Bytecode

end PdfPrimitives.Calculator
