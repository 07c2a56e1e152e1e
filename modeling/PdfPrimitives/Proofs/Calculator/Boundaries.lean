import PdfPrimitives.Calculator.Machine

/-!
The states of a machine at the boundaries between instructions. A run goes from each of them
to at most one other, and where it comes to rest depends on none of those before.
-/

namespace PdfPrimitives.Calculator.Machine

variable {α : Type} [Elementary α]

inductive Reaches (code : List Instruction) : Nat → Stack α → Nat → Stack α → Prop
  | stays (place : Nat) (stack : Stack α) : Reaches code place stack place stack
  | goes (place next last : Nat) (stack after left : Stack α) (instruction : Instruction)
    (here : code[place]? = some instruction)
    (moves : perform place stack instruction = .goes next after)
    (continues : Reaches code next after last left) : Reaches code place stack last left

def Halts (code : List Instruction) (place : Nat) (stack : Stack α) (halt : Halt α) : Prop :=
  ∃ turns, run code turns place stack = some halt

variable {code : List Instruction} {place next last : Nat} {stack after left : Stack α}
  {instruction : Instruction} {halt : Halt α}

theorem reaches_of_goes (here : code[place]? = some instruction)
    (moves : perform place stack instruction = .goes next after) :
    Reaches code place stack last left ↔
      (last = place ∧ left = stack) ∨ Reaches code next after last left := by
  constructor
  · intro reaches
    cases reaches with
    | stays => exact .inl ⟨rfl, rfl⟩
    | goes _ _ _ _ _ _ _ found moved continues =>
      cases here.symm.trans found
      cases moves.symm.trans moved
      exact .inr continues
  · rintro (⟨rfl, rfl⟩ | continues)
    · exact .stays _ _
    · exact .goes _ _ _ _ _ _ _ here moves continues

theorem reaches_of_rests {fault : Option Fault} {rest : Stack α}
    (here : code[place]? = some instruction)
    (done : perform place stack instruction = .rests rest fault) :
    Reaches code place stack last left ↔ last = place ∧ left = stack := by
  constructor
  · intro reaches
    cases reaches with
    | stays => exact ⟨rfl, rfl⟩
    | goes _ _ _ _ _ _ _ found moved =>
      cases here.symm.trans found
      cases done.symm.trans moved
  · rintro ⟨rfl, rfl⟩
    exact .stays _ _

theorem Reaches.trans (reaches : Reaches code place stack next after)
    (continues : Reaches code next after last left) : Reaches code place stack last left := by
  induction reaches with
  | stays => exact continues
  | goes place next _ stack after _ instruction here moves _ ih =>
    exact .goes _ _ _ _ _ _ _ here moves (ih continues)

theorem run_outside (turns : Nat) (beyond : code[place]? = none) :
    run code (turns + 1) place stack = some ⟨place, stack, some .programStructure⟩ := by
  rw [run, beyond]

theorem run_of_goes (turns : Nat) (here : code[place]? = some instruction)
    (moves : perform place stack instruction = .goes next after) :
    run code (turns + 1) place stack = run code turns next after := by
  simp only [run, here, moves]

theorem run_of_rests {fault : Option Fault} (turns : Nat)
    (here : code[place]? = some instruction)
    (done : perform place stack instruction = .rests left fault) :
    run code (turns + 1) place stack = some ⟨place + 1, left, fault⟩ := by
  simp only [run, here, done]

/-- Turns that are left over do not change the result. -/
theorem run_mono {turns more : Nat} (fewer : turns ≤ more)
    (halts : run code turns place stack = some halt) : run code more place stack = some halt := by
  induction turns generalizing more place stack with
  | zero => cases halts
  | succ turns ih =>
    cases more with
    | zero => cases fewer
    | succ more =>
      cases here : code[place]? with
      | none =>
        rw [run_outside turns here] at halts
        rw [run_outside more here, halts]
      | some instruction =>
        cases progress : perform place stack instruction with
        | goes next after =>
          rw [run_of_goes turns here progress] at halts
          rw [run_of_goes more here progress]
          exact ih (Nat.le_of_succ_le_succ fewer) halts
        | rests left fault =>
          rw [run_of_rests turns here progress] at halts
          rw [run_of_rests more here progress, halts]

namespace Halts

theorem unique {other : Halt α} (halts : Halts code place stack halt)
    (again : Halts code place stack other) : other = halt := by
  obtain ⟨turns, first⟩ := halts
  obtain ⟨more, second⟩ := again
  rcases Nat.le_total turns more with fewer | fewer
  · exact Option.some.inj (second.symm.trans (run_mono fewer first))
  · exact Option.some.inj ((run_mono fewer second).symm.trans first)

theorem of_rests {fault : Option Fault} (here : code[place]? = some instruction)
    (done : perform place stack instruction = .rests left fault) :
    Halts code place stack ⟨place + 1, left, fault⟩ :=
  ⟨1, run_of_rests 0 here done⟩

theorem of_goes (here : code[place]? = some instruction)
    (moves : perform place stack instruction = .goes next after)
    (halts : Halts code next after halt) : Halts code place stack halt := by
  obtain ⟨turns, ends⟩ := halts
  exact ⟨turns + 1, (run_of_goes turns here moves).trans ends⟩

/-- A run that ends is at a place where nothing follows, or where an instruction rests. -/
theorem reaches_end (halts : Halts code place stack halt) :
    ∃ last left, Reaches code place stack last left ∧
      ((code[last]? = none ∧ halt = ⟨last, left, some .programStructure⟩) ∨
        ∃ instruction, code[last]? = some instruction ∧
          perform last left instruction = .rests halt.stack halt.fault ∧
          halt.next = last + 1) := by
  obtain ⟨turns, ends⟩ := halts
  induction turns generalizing place stack with
  | zero => cases ends
  | succ turns ih =>
    cases here : code[place]? with
    | none =>
      rw [run_outside turns here] at ends
      exact ⟨place, stack, .stays _ _, .inl ⟨here, (Option.some.inj ends).symm⟩⟩
    | some instruction =>
      cases progress : perform place stack instruction with
      | goes next after =>
        rw [run_of_goes turns here progress] at ends
        obtain ⟨last, left, continues, stops⟩ := ih ends
        exact ⟨last, left, .goes _ _ _ _ _ _ _ here progress continues, stops⟩
      | rests left fault =>
        rw [run_of_rests turns here progress] at ends
        obtain rfl := Option.some.inj ends
        exact ⟨place, stack, .stays _ _, .inr ⟨instruction, here, progress, rfl⟩⟩

end Halts

theorem Reaches.halts (reaches : Reaches code place stack last left)
    (halts : Halts code last left halt) : Halts code place stack halt := by
  induction reaches with
  | stays => exact halts
  | goes place next _ stack after _ instruction here moves _ ih =>
    exact .of_goes here moves (ih halts)

end PdfPrimitives.Calculator.Machine
