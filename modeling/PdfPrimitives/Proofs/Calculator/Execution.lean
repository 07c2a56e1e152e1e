import Mathlib.Data.List.Perm.Subperm
import PdfPrimitives.Scalar.Double
import PdfPrimitives.Proofs.Calculator.Boundaries
import PdfPrimitives.Proofs.Calculator.Encoding
import PdfPrimitives.Proofs.Calculator.Operands

/-!
Runs of programs. Where every instruction leads forward, a run goes through increasing places,
so no instruction is executed twice and a turn for each of them is enough. Code that was
compiled or decoded leads forward. A run of compiled code never leaves it, and all that can go
wrong is an operand.
-/

namespace PdfPrimitives.Calculator

namespace Machine

variable {α : Type}

theorem behind_goes (place next : Nat) (result : EStateM.Result Fault (Stack α) Unit)
    (after : Stack α) (moves : behind place result = .goes next after) : next = place + 1 := by
  cases result <;> cases moves
  rfl

theorem behind_rests (place : Nat) (action : Action α Unit) (stack left : Stack α)
    (fault : Option Fault) (fine : Action.OnOperands action)
    (done : behind place (action stack) = .rests left fault) :
    ∃ reason ∈ operandFaults, fault = some reason := by
  cases result : action stack with
  | ok _ next => simp [behind, result] at done
  | error reason after =>
    rw [result] at done
    cases done
    exact ⟨reason, fine stack reason left result, rfl⟩

variable [Elementary α]

/-- A whole run from a place on, with the places of the instructions that it executes. -/
inductive Executes (code : List Instruction) :
    Nat → Stack α → List Nat → Halt α → Prop
  | outside (place : Nat) (stack : Stack α) (beyond : code[place]? = none) :
    Executes code place stack [] ⟨place, stack, some .programStructure⟩
  | rests (place : Nat) (stack left : Stack α) (instruction : Instruction)
    (fault : Option Fault) (here : code[place]? = some instruction)
    (done : perform place stack instruction = .rests left fault) :
    Executes code place stack [place] ⟨place + 1, left, fault⟩
  | goes (place next : Nat) (stack after : Stack α) (instruction : Instruction)
    (places : List Nat) (halt : Halt α) (here : code[place]? = some instruction)
    (moves : perform place stack instruction = .goes next after)
    (continues : Executes code next after places halt) :
    Executes code place stack (place :: places) halt

/-- A machine goes on where the instruction leads, or behind a skip that is not taken. -/
theorem place_of_goes (place next : Nat) (stack after : Stack α) (instruction : Instruction)
    (moves : perform place stack instruction = .goes next after) :
    instruction.target? place = some next ∨ (instruction ≠ .stop ∧ next = place + 1) := by
  cases instruction with
  | literal bits => exact .inr ⟨by simp, behind_goes place next _ after moves⟩
  | operator operator => exact .inr ⟨by simp, behind_goes place next _ after moves⟩
  | skipUnless target =>
    rw [perform] at moves
    split at moves <;> cases moves
    · exact .inr ⟨by simp, rfl⟩
    · exact .inl rfl
  | skip target =>
    cases moves
    exact .inl rfl
  | placeholder => cases moves
  | stop => cases moves

theorem fault_of_rests (place : Nat) (stack left : Stack α) (instruction : Instruction)
    (fault : Option Fault) (done : perform place stack instruction = .rests left fault) :
    (instruction = .stop ∧ fault = none) ∨ instruction = .placeholder ∨
      ∃ reason ∈ operandFaults, fault = some reason := by
  cases instruction with
  | literal bits =>
    exact .inr (.inr (behind_rests place _ stack left fault (Action.onOperands_push _) done))
  | operator operator =>
    exact .inr (.inr (behind_rests place _ stack left fault operator.onOperands_apply done))
  | skipUnless target =>
    rw [perform] at done
    split at done
    · cases done
    · cases done
    · cases done
      exact .inr (.inr ⟨.typeCheck, by decide, rfl⟩)
    · next reason after popped =>
      cases done
      exact .inr (.inr ⟨reason, Action.onOperands_pop stack reason left popped, rfl⟩)
  | skip target => cases done
  | placeholder => exact .inr (.inl rfl)
  | stop =>
    cases done
    exact .inl ⟨rfl, rfl⟩

theorem goes_forward {code : List Instruction} (forward : Forward code) (place next : Nat)
    (stack after : Stack α) (instruction : Instruction)
    (here : code[place]? = some instruction)
    (moves : perform place stack instruction = .goes next after) :
    place < next ∧ next ≤ code.length := by
  rcases place_of_goes place next stack after instruction moves with leads | ⟨-, rfl⟩
  · exact forward place next instruction here leads
  · exact ⟨Nat.lt_succ_self place, (List.getElem?_eq_some_iff.mp here).1⟩

namespace Executes

variable {code : List Instruction} {place : Nat} {stack : Stack α} {places : List Nat}
  {halt : Halt α}

theorem visited (forward : Forward code) (executes : Executes code place stack places halt) :
    ∀ other ∈ places, place ≤ other ∧ other < code.length := by
  induction executes with
  | outside place stack beyond => simp
  | rests place stack left instruction fault here done =>
    intro other member
    obtain rfl := List.mem_singleton.mp member
    exact ⟨Nat.le_refl _, (List.getElem?_eq_some_iff.mp here).1⟩
  | goes place next stack after instruction places halt here moves continues ih =>
    have ahead := (goes_forward forward place next stack after instruction here moves).1
    intro other member
    rcases List.mem_cons.mp member with rfl | later
    · exact ⟨Nat.le_refl _, (List.getElem?_eq_some_iff.mp here).1⟩
    · exact ⟨Nat.le_trans (Nat.le_of_lt ahead) (ih other later).1, (ih other later).2⟩

theorem increasing (forward : Forward code) (executes : Executes code place stack places halt) :
    places.Pairwise (· < ·) := by
  induction executes with
  | outside place stack beyond => exact .nil
  | rests place stack left instruction fault here done => exact List.pairwise_singleton _ _
  | goes place next stack after instruction places halt here moves continues ih =>
    refine .cons ?_ ih
    intro other later
    have ahead := (goes_forward forward place next stack after instruction here moves).1
    exact Nat.lt_of_lt_of_le ahead (continues.visited forward other later).1

theorem nodup (forward : Forward code) (executes : Executes code place stack places halt) :
    places.Nodup :=
  (executes.increasing forward).imp Nat.ne_of_lt

theorem length_le (forward : Forward code) (executes : Executes code place stack places halt) :
    places.length ≤ code.length := by
  have within : places ⊆ List.range code.length := by
    intro other member
    exact List.mem_range.mpr (executes.visited forward other member).2
  have := (List.subperm_of_subset (executes.nodup forward) within).length_le
  rwa [List.length_range] at this

theorem unique (executes : Executes code place stack places halt) (others : List Nat)
    (other : Halt α) (again : Executes code place stack others other) :
    others = places ∧ other = halt := by
  induction executes generalizing others other with
  | outside place stack beyond =>
    cases again with
    | outside => exact ⟨rfl, rfl⟩
    | rests _ _ _ _ _ here => simp [beyond] at here
    | goes _ _ _ _ _ _ _ here => simp [beyond] at here
  | rests place stack left instruction fault here done =>
    cases again with
    | outside _ _ beyond => simp [beyond] at here
    | rests _ _ _ _ _ found rested =>
      obtain rfl := Option.some.inj (here.symm.trans found)
      obtain ⟨rfl, rfl⟩ := Progress.rests.inj (done.symm.trans rested)
      exact ⟨rfl, rfl⟩
    | goes _ _ _ _ _ _ _ found moved =>
      obtain rfl := Option.some.inj (here.symm.trans found)
      cases done.symm.trans moved
  | goes place next stack after instruction places halt here moves continues ih =>
    cases again with
    | outside _ _ beyond => simp [beyond] at here
    | rests _ _ _ _ _ found rested =>
      obtain rfl := Option.some.inj (here.symm.trans found)
      cases moves.symm.trans rested
    | goes _ _ _ _ _ _ _ found moved continued =>
      obtain rfl := Option.some.inj (here.symm.trans found)
      obtain ⟨rfl, rfl⟩ := Progress.goes.inj (moves.symm.trans moved)
      obtain ⟨rfl, rfl⟩ := ih _ _ continued
      exact ⟨rfl, rfl⟩

end Executes

theorem executes_of_run (code : List Instruction) (turns place : Nat) (stack : Stack α)
    (halt : Halt α) (ends : run code turns place stack = some halt) :
    ∃ places, Executes code place stack places halt := by
  induction turns generalizing place stack with
  | zero => cases ends
  | succ turns ih =>
    cases here : code[place]? with
    | none =>
      rw [run_outside turns here] at ends
      obtain rfl := Option.some.inj ends
      exact ⟨[], .outside place stack here⟩
    | some instruction =>
      cases progress : perform place stack instruction with
      | rests left fault =>
        rw [run_of_rests turns here progress] at ends
        obtain rfl := Option.some.inj ends
        exact ⟨_, .rests place stack left instruction fault here progress⟩
      | goes next after =>
        rw [run_of_goes turns here progress] at ends
        obtain ⟨places, continues⟩ := ih next after ends
        exact ⟨_, .goes place next stack after instruction places halt here progress continues⟩

/-- Code that leads forward comes to rest within a turn for each place that is left. -/
theorem run_enough (code : List Instruction) (forward : Forward code) (turns place : Nat)
    (stack : Stack α) (enough : code.length < place + turns) (within : place ≤ code.length) :
    ∃ halt, run code turns place stack = some halt := by
  induction turns generalizing place stack with
  | zero => omega
  | succ turns ih =>
    cases here : code[place]? with
    | none => exact ⟨_, run_outside turns here⟩
    | some instruction =>
      cases progress : perform place stack instruction with
      | rests left fault => exact ⟨_, run_of_rests turns here progress⟩
      | goes next after =>
        rw [run_of_goes turns here progress]
        obtain ⟨ahead, inside⟩ :=
          goes_forward forward place next stack after instruction here progress
        exact ih next after (by omega) inside

end Machine

/-- A stack that is not the results has too many operands or faulty ones. -/
theorem Machine.fault_of_collect {α : Type} [Elementary α] (stack : Stack α)
    (range : List (Interval α)) (fault : Fault) (failed : collect stack range = .error fault) :
    fault ∈ .stackExcess :: operandFaults := by
  unfold collect at failed
  split at failed
  · cases failed
    decide
  · split at failed
    · cases failed
      exact List.mem_cons_self
    · refine List.mem_cons_of_mem _ (OperandResult.mapM ?_ fault failed)
      rintro ⟨operand, interval⟩
      exact operand.toNumber_result.bind fun value => .ite (.error (by decide)) (.ok _)

theorem Program.forward_of_accepted (program : Program)
    (accepted : (∃ text, compile text = .ok program) ∨ ∃ bytes, ofBytes bytes = .ok program) :
    Forward program.instructions := by
  obtain ⟨text, compiled⟩ | ⟨bytes, decoded⟩ := accepted
  · exact (wellFormed_of_compiled text program compiled).leads_forward
  · exact forward_of_decoded bytes program decoded

theorem Program.run_of_forward {α : Type} [Elementary α] (program : Program)
    (forward : Forward program.instructions) (stack : Stack α) :
    ∃ halt, program.run stack = some halt :=
  Machine.run_enough program.instructions forward _ 0 stack (by omega) (Nat.zero_le _)

theorem Program.run_of_halts {α : Type} [Elementary α] (program : Program)
    (forward : Forward program.instructions) (stack : Stack α) (halt : Halt α)
    (halts : Machine.Halts program.instructions 0 stack halt) : program.run stack = some halt := by
  obtain ⟨other, ends⟩ := program.run_of_forward forward stack
  rw [ends, Machine.Halts.unique halts ⟨_, ends⟩]

namespace Program.WellFormed

variable {program : Program} (wellFormed : program.WellFormed)
include wellFormed

theorem next_within (place : Nat) (instruction : Instruction)
    (here : program.instructions[place]? = some instruction) (goes : instruction ≠ .stop) :
    place + 1 < program.instructions.length := by
  obtain ⟨front, code, -⟩ := wellFormed.ends
  obtain ⟨within, found⟩ := List.getElem?_eq_some_iff.mp here
  rw [code, List.length_append, List.length_singleton] at within ⊢
  rcases Nat.lt_or_ge place front.length with before | last
  · omega
  · obtain rfl : place = front.length := by omega
    simp [code] at here
    exact absurd here.symm goes

theorem fault_of_executes {α : Type} [Elementary α] (place : Nat) (stack : Stack α)
    (places : List Nat) (halt : Halt α)
    (executes : Machine.Executes program.instructions place stack places halt)
    (within : place < program.instructions.length) (fault : Fault)
    (failed : halt.fault = some fault) : fault ∈ operandFaults := by
  induction executes with
  | outside place stack beyond =>
    exact absurd within (Nat.not_lt.mpr (List.getElem?_eq_none_iff.mp beyond))
  | rests place stack left instruction reason here done =>
    rcases Machine.fault_of_rests place stack left instruction reason done with
      ⟨-, rfl⟩ | rfl | ⟨reason, member, rfl⟩
    · cases failed
    · exact absurd (List.mem_of_getElem? here) wellFormed.claimed
    · cases failed
      exact member
  | goes place next stack after instruction places halt here moves continues ih =>
    refine ih ?_ failed
    rcases Machine.place_of_goes place next stack after instruction moves with
      leads | ⟨goes, rfl⟩
    · exact (wellFormed.forward place next instruction here leads).2
    · exact wellFormed.next_within place instruction here goes

theorem fault_of_execute {α : Type} [Elementary α] (input : List α)
    (range : List (Interval α)) (failure : Failure)
    (failed : program.execute input range = .error failure) :
    failure.fault ∈ .stackExcess :: operandFaults := by
  unfold Program.execute at failed
  cases loaded : Action.load input [] with
  | error fault left =>
    simp only [loaded, Except.error.injEq] at failed
    subst failed
    exact List.mem_cons_of_mem _ (Action.onOperands_load input [] fault left loaded)
  | ok _ stack =>
    obtain ⟨front, code, -⟩ := wellFormed.ends
    have within : 0 < program.instructions.length := by simp [code]
    obtain ⟨halt, ends⟩ := program.run_of_forward wellFormed.leads_forward stack
    obtain ⟨places, executes⟩ := Machine.executes_of_run _ _ 0 stack halt ends
    have stops := wellFormed.fault_of_executes 0 stack places halt executes within
    simp only [loaded, ends] at failed
    cases rested : halt.fault with
    | some fault =>
      simp only [rested, Except.error.injEq] at failed
      subst failed
      exact List.mem_cons_of_mem _ (stops fault rested)
    | none =>
      simp only [rested] at failed
      split at failed
      · cases failed
      · next fault collected =>
        cases failed
        exact Machine.fault_of_collect _ range fault collected

end Program.WellFormed

/-- Compiled code is well formed and cannot leave its own structure. What was compiled or decoded
leads forward, so that a run comes to rest and executes no instruction twice. -/
theorem Program.runs_forward :
    (∀ text program, compile text = .ok program →
      program.WellFormed ∧
      ∀ (α : Type) [Elementary α] (input : List α) (range : List (Interval α)) (failure),
        program.execute input range = .error failure → failure.fault ≠ .programStructure) ∧
    (∀ program : Program,
      ((∃ text, compile text = .ok program) ∨ ∃ bytes, ofBytes bytes = .ok program) →
        Forward program.instructions ∧
        ∀ (α : Type) [Elementary α] (stack : Stack α),
          ∃ places halt, Machine.Executes program.instructions 0 stack places halt ∧
            program.run stack = some halt ∧
            places.Nodup ∧ places.length ≤ program.instructions.length ∧
            ∀ others other, Machine.Executes program.instructions 0 stack others other →
              others = places ∧ other = halt) := by
  constructor
  · intro text program accepted
    have wellFormed := wellFormed_of_compiled text program accepted
    refine ⟨wellFormed, ?_⟩
    intro α _ input range failure failed broken
    have member := wellFormed.fault_of_execute input range failure failed
    rw [broken] at member
    revert member
    decide
  · intro program accepted
    have forward := program.forward_of_accepted accepted
    refine ⟨forward, ?_⟩
    intro α _ stack
    obtain ⟨halt, ends⟩ := program.run_of_forward forward stack
    obtain ⟨places, executes⟩ := Machine.executes_of_run _ _ 0 stack halt ends
    exact ⟨places, halt, executes, ends, executes.nodup forward, executes.length_le forward,
      executes.unique⟩

/-- The block is entered with nothing to pop, so the last instruction is never reached. -/
theorem Program.popping_text_runs_forward :
    compile (Text.ascii "\x7b true \x7b pop \x7d if \x7d") =
        .ok ⟨[.operator .pushTrue, .skipUnless 3, .operator .pop, .stop]⟩ ∧
      Program.WellFormed ⟨[.operator .pushTrue, .skipUnless 3, .operator .pop, .stop]⟩ ∧
      Program.execute ⟨[.operator .pushTrue, .skipUnless 3, .operator .pop, .stop]⟩
        ([] : List Float) [] = .error (Machine.failure .stackUnderflow 2 0) ∧
      (Machine.failure .stackUnderflow 2 0).fault ≠ .programStructure ∧
      Forward [.operator .pushTrue, .skipUnless 3, .operator .pop, .stop] :=
  have accepted : compile (Text.ascii "\x7b true \x7b pop \x7d if \x7d") =
      .ok ⟨[.operator .pushTrue, .skipUnless 3, .operator .pop, .stop]⟩ := rfl
  have failed : Program.execute ⟨[.operator .pushTrue, .skipUnless 3, .operator .pop, .stop]⟩
      ([] : List Float) [] = .error (Machine.failure .stackUnderflow 2 0) := rfl
  have compiled := runs_forward.1 _ _ accepted
  ⟨accepted, compiled.1, failed, compiled.2 Float [] [] _ failed,
    (runs_forward.2 _ (.inl ⟨_, accepted⟩)).1⟩

/-- Without the decoder's check, a skip to itself would never come to rest. -/
example : Program.run ⟨[.skip 0]⟩ ([] : Stack Float) = none := rfl

end PdfPrimitives.Calculator
