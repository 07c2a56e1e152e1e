import PdfPrimitives.Proofs.Calculator.Boundaries
import PdfPrimitives.Proofs.Calculator.Finiteness
import PdfPrimitives.Proofs.Function.Outcome
import PdfPrimitives.Proofs.Scalar.Partial

/-!
Finite numbers throughout a run. A program with finite literals that starts with finite
numbers never meets any other. An undefined result is therefore always that of an operator at
two finite numbers, and never one of the numbers that the program leaves.
-/

namespace PdfPrimitives.Calculator

def Program.FiniteLiterals (program : Program) : Prop :=
  ∀ bits, .literal bits ∈ program.instructions → Numeral.isFiniteDouble bits

namespace Builder

def FiniteLiterals (builder : Builder) : Prop :=
  ∀ (place : Nat) (bits : UInt64), builder.code[place]? = some (.literal bits) →
    Numeral.isFiniteDouble bits

theorem finiteLiterals_emit {builder : Builder} (finite : FiniteLiterals builder)
    {instruction : Instruction}
    (fine : ∀ bits, instruction = .literal bits → Numeral.isFiniteDouble bits) :
    FiniteLiterals (builder.emit instruction) := by
  intro place bits here
  rcases code_of_emit builder instruction place _ here with ⟨-, same⟩ | old
  · exact fine bits same.symm
  · exact finite place bits old

theorem finiteLiterals_patch {builder : Builder} (finite : FiniteLiterals builder) (block : Block)
    (skip : Instruction) (skips : ∀ bits, skip ≠ .literal bits) :
    FiniteLiterals (builder.patch block skip) := by
  intro place bits here
  rcases code_of_patch builder block skip place _ here with ⟨-, same⟩ | ⟨-, old⟩
  · exact absurd same.symm (skips bits)
  · exact finite place bits old

theorem finite_of_number {word : List UInt8} {bits : UInt64} (spelled : number? word = some bits) :
    Numeral.isFiniteDouble bits :=
  (Option.filter_eq_some_iff.mp spelled).2

theorem finiteLiterals_step (builder : Builder) (word : List UInt8) (next : Builder)
    (finite : FiniteLiterals builder) (step : Step builder word next) : FiniteLiterals next := by
  cases step with
  | opens =>
    apply finiteLiterals_emit finite
    rintro bits ⟨⟩
  | closes => exact finite
  | claimsOne block closed _ waiting adjacent _ _ _ claimed =>
    rw [conditional_eq builder block closed waiting adjacent] at claimed
    cases claimed
    exact finiteLiterals_patch finite block (.skipUnless block.stop) nofun
  | claimsTwo second first closed _ waiting adjacent neighbours _ _ _ claimed =>
    rw [alternative_eq builder second first closed waiting adjacent neighbours] at claimed
    cases claimed
    have inner := finiteLiterals_patch finite first (.skipUnless (second.start + 1)) nofun
    exact finiteLiterals_patch inner second (.skip second.stop) nofun
  | literal literal =>
    apply finiteLiterals_emit finite
    rintro bits same
    cases same
    exact finite_of_number literal.spelled
  | operator operator =>
    apply finiteLiterals_emit finite
    rintro bits ⟨⟩

end Builder

theorem Program.finiteLiterals_of_compiled (text : List UInt8) (program : Program)
    (accepted : compile text = .ok program) : program.FiniteLiterals := by
  have starts : Builder.FiniteLiterals .empty := by
    intro place bits here
    cases here
  rcases built_of_compiled starts Builder.finiteLiterals_step text program accepted with
    ⟨builder, finite, -, -, code⟩
  intro bits member
  rw [code, List.mem_append] at member
  rcases member with inside | last
  · rcases List.mem_iff_getElem?.mp inside with ⟨place, here⟩
    rw [Array.getElem?_toList] at here
    exact finite place bits here
  · cases List.mem_singleton.mp last

section Runs

variable {α : Type} [Elementary α]

/-- The stacks that a program comes upon: those with a part of the input, those between two
instructions, and the one that it halts with. -/
inductive Program.Occurs (program : Program) (input : List α) : Stack α → Prop
  | loading (values : List α) (first : values <+: input) (stack : Stack α)
    (loaded : Action.load values [] = .ok () stack) : Occurs program input stack
  | running (start : Stack α) (loaded : Action.load input [] = .ok () start) (place : Nat)
    (stack : Stack α) (reaches : Machine.Reaches program.instructions 0 start place stack) :
    Occurs program input stack
  | halting (start : Stack α) (loaded : Action.load input [] = .ok () start) (halt : Halt α)
    (halts : Machine.Halts program.instructions 0 start halt) : Occurs program input halt.stack

def Instruction.UndefinedAt (instruction : Instruction) (stack rest : Stack α) : Prop :=
  ∃ operator first second, instruction = .operator operator ∧
    stack = .number second :: .number first :: rest ∧ Undefined operator first second

namespace Machine

def FiniteProgress (undefined : Stack α → Prop) : Progress α → Prop
  | .goes _ after => Stack.IsFinite after
  | .rests left fault => Stack.IsFinite left ∧ (fault = some .undefinedResult → undefined left)

theorem finite_behind {undefined : Stack α → Prop} {result : EStateM.Result Fault (Stack α) Unit}
    (place : Nat) (finite : Action.Finite (fun _ => True) undefined result) :
    FiniteProgress undefined (behind place result) := by
  cases result with
  | ok value after => exact finite.2
  | error fault left => exact ⟨finite.1, fun same => finite.2 (Option.some.inj same)⟩

variable [FiniteScalar α] {code : List Instruction} {stack left : Stack α} {place last : Nat}

/-- A finite number can be clipped. -/
theorem clip_defined {operand : Operand α}
    (finite : operand.IsFinite) (interval : Interval α) :
    (operand.toNumber >>= interval.clip) ≠ .error .undefinedResult := by
  cases operand with
  | boolean value => nofun
  | number value =>
    change interval.clip value ≠ _
    rw [Interval.clip, FiniteScalar.number_of_finite finite]
    nofun

theorem finite_collect (finite : Stack.IsFinite stack) (range : List (Interval α)) :
    collect stack range ≠ .error .undefinedResult := by
  unfold collect
  split
  · nofun
  · split
    · nofun
    · intro failed
      rcases error_of_mapM failed with ⟨⟨operand, interval⟩, member, refused⟩
      have inside := finite operand (List.mem_reverse.mp (List.of_mem_zip member).1)
      exact clip_defined inside interval refused

variable [FiniteFunctions α]

theorem finite_perform {instruction : Instruction} (finite : Stack.IsFinite stack)
    (fine : ∀ bits, instruction = .literal bits → Numeral.isFiniteDouble bits) (place : Nat) :
    FiniteProgress (instruction.UndefinedAt stack) (perform place stack instruction) := by
  cases instruction with
  | literal bits =>
    exact finite_behind place (Action.finite_push (FiniteScalar.ofBits (fine bits rfl)) finite)
  | operator operator =>
    apply finite_behind place
    apply (operator.finite_apply finite).mono
    rintro rest ⟨first, second, pair, undefined⟩
    exact ⟨operator, first, second, rfl, pair, undefined⟩
  | skipUnless target =>
    match stack with
    | [] => exact ⟨finite, nofun⟩
    | .number value :: rest => exact ⟨(List.forall_mem_cons.mp finite).2, nofun⟩
    | .boolean true :: rest | .boolean false :: rest => exact (List.forall_mem_cons.mp finite).2
  | skip target => exact finite
  | placeholder | stop => exact ⟨finite, nofun⟩

theorem Reaches.finite (reaches : Reaches code place stack last left)
    (literals : ∀ bits, .literal bits ∈ code → Numeral.isFiniteDouble bits)
    (finite : Stack.IsFinite stack) : Stack.IsFinite left := by
  induction reaches with
  | stays => exact finite
  | goes place next last stack after left instruction here moves _ ih =>
    have progress := finite_perform finite
      (fun bits same => literals bits (same ▸ List.mem_of_getElem? here)) place
    rw [moves] at progress
    exact ih progress

/-- A run halts with finite numbers, and halts as undefined only at an instruction without a
defined result. -/
theorem Halts.finite {halt : Halt α} (halts : Halts code 0 stack halt)
    (literals : ∀ bits, .literal bits ∈ code → Numeral.isFiniteDouble bits)
    (finite : Stack.IsFinite stack) :
    Stack.IsFinite halt.stack ∧
      (halt.fault = some .undefinedResult → ∃ place left instruction,
        Reaches code 0 stack place left ∧ code[place]? = some instruction ∧
        instruction.UndefinedAt left halt.stack ∧ halt.next = place + 1) := by
  rcases halts.reaches_end with ⟨last, left, reaches, ⟨-, rfl⟩ |
    ⟨instruction, here, rests, next⟩⟩
  · exact ⟨reaches.finite literals finite, nofun⟩
  · have progress := finite_perform (reaches.finite literals finite)
      (fun bits same => literals bits (same ▸ List.mem_of_getElem? here)) last
    rw [rests] at progress
    refine ⟨progress.1, ?_⟩
    intro undefined
    exact ⟨last, left, instruction, reaches, here, progress.2 undefined, next⟩

end Machine

theorem Action.finite_load [FiniteScalar α] {input : List α}
    (numbers : ∀ value ∈ input, Scalar.isFinite value) {stack : Stack α}
    (finite : Stack.IsFinite stack) :
    Action.Finite (fun _ => True) (fun _ => False) (Action.load input stack) := by
  induction input generalizing stack with
  | nil => exact ⟨trivial, finite⟩
  | cons value rest ih =>
    rcases List.forall_mem_cons.mp numbers with ⟨first, others⟩
    have pushed : Operand.IsFinite (.number value) := first
    apply finite_bind (finite_push pushed finite)
    intro _ after _ _ left
    exact ih others left

namespace Program

variable [FiniteScalar α] [FiniteFunctions α] {program : Program} {input : List α}

theorem Occurs.finite {stack : Stack α} (occurs : program.Occurs input stack)
    (literals : program.FiniteLiterals) (numbers : ∀ value ∈ input, Scalar.isFinite value) :
    Stack.IsFinite stack := by
  have starts (values : List α) (first : values <+: input) (start : Stack α)
      (loaded : Action.load values [] = .ok () start) : Stack.IsFinite start := by
    have outcome : Action.Finite _ _ (Action.load values []) :=
      Action.finite_load (fun value member => numbers value (first.subset member)) nofun
    rw [loaded] at outcome
    exact outcome.2
  cases occurs with
  | loading values first _ loaded => exact starts values first stack loaded
  | running start loaded place _ reaches =>
    exact reaches.finite literals (starts input List.prefix_rfl start loaded)
  | halting start loaded halt halts =>
    exact (halts.finite literals (starts input List.prefix_rfl start loaded)).1

/-- An undefined result is that of an operator which took two numbers that were reached. -/
theorem undefined_of_execute (literals : program.FiniteLiterals)
    (numbers : ∀ value ∈ input, Scalar.isFinite value) {range : List (Interval α)}
    {failure : Failure} (failed : program.execute input range = .error failure)
    (undefined : failure.fault = .undefinedResult) :
    ∃ start place operator first second rest,
      Action.load input [] = .ok () start ∧
      Machine.Reaches program.instructions 0 start place
        (.number second :: .number first :: rest) ∧
      program.instructions[place]? = some (.operator operator) ∧
      Undefined operator first second ∧
      failure = Machine.failure .undefinedResult place rest.length := by
  have outcome : Action.Finite _ _ (Action.load input []) := Action.finite_load numbers nofun
  unfold execute at failed
  cases loaded : Action.load input [] with
  | error fault left =>
    rw [loaded] at failed outcome
    cases failed
    exact (outcome.2 undefined).elim
  | ok _ start =>
    rw [loaded] at failed outcome
    dsimp only at failed
    cases ends : program.run start with
    | none =>
      rw [ends] at failed
      cases failed
      cases undefined
    | some halt =>
      have halted := Machine.Halts.finite ⟨_, ends⟩ literals outcome.2
      rw [ends] at failed
      dsimp only at failed
      cases fault : halt.fault with
      | none =>
        rw [fault] at failed
        dsimp only at failed
        split at failed
        · cases failed
        · next reason refused =>
          cases failed
          cases undefined
          exact absurd refused (Machine.finite_collect halted.1 range)
      | some reason =>
        rw [fault] at failed
        cases failed
        cases undefined
        rcases halted.2 fault with ⟨place, left, instruction, reaches, here,
          ⟨operator, first, second, rfl, rfl, undefined⟩, next⟩
        rw [next, Nat.add_sub_cancel]
        exact ⟨start, place, operator, first, second, _, rfl, reaches, here, undefined, rfl⟩

/-- A program with finite literals, as every compiled one is, comes upon no other numbers if its
input is finite. A quotient by zero, the angle of the origin and a power out of range are then
all that can be undefined, and the numbers that the program leaves never are. -/
theorem finite_throughout :
    (∀ text program, compile text = .ok program → program.FiniteLiterals) ∧
    ∀ (program : Program) (input : List α), program.FiniteLiterals →
      (∀ value ∈ input, Scalar.isFinite value) →
      (∀ stack, program.Occurs input stack → Stack.IsFinite stack ∧
        ∀ range, Machine.collect stack range ≠ .error .undefinedResult) ∧
      ∀ range failure, program.execute input range = .error failure →
        failure.fault = .undefinedResult →
        ∃ start place operator first second rest,
          Action.load input [] = .ok () start ∧
          Machine.Reaches program.instructions 0 start place
            (.number second :: .number first :: rest) ∧
          program.instructions[place]? = some (.operator operator) ∧
          Undefined operator first second ∧
          failure = Machine.failure .undefinedResult place rest.length := by
  constructor
  · exact finiteLiterals_of_compiled
  · intro program input literals numbers
    constructor
    · intro stack occurs
      have finite := occurs.finite literals numbers
      exact ⟨finite, Machine.finite_collect finite⟩
    · intro range failure failed undefined
      exact undefined_of_execute literals numbers failed undefined

end Program

end Runs

/-- One divided by zero is undefined, although both numbers are finite. -/
theorem Program.quotient_by_zero_undefined : letI := Exact.Approximations.zero
    compile (Text.ascii "\x7b 0 div \x7d") = .ok ⟨[.literal 0, .operator .div, .stop]⟩ ∧
    FiniteLiterals ⟨[.literal 0, .operator .div, .stop]⟩ ∧
    (∀ value ∈ [(1.0 : Partial)], Scalar.isFinite value) ∧
    (∀ stack : Stack Partial, Occurs ⟨[.literal 0, .operator .div, .stop]⟩ [1.0] stack →
      Stack.IsFinite stack) ∧
    execute ⟨[.literal 0, .operator .div, .stop]⟩ [(1.0 : Partial)] [] =
      .error (Machine.failure .undefinedResult 1 0) ∧
    ∃ place operator, ∃ first second : Partial, ∃ rest,
      Machine.Reaches [.literal 0, .operator .div, .stop] 0 [.number (1.0 : Partial)] place
        (.number second :: .number first :: rest) ∧
      [Instruction.literal 0, .operator .div, .stop][place]? = some (.operator operator) ∧
      Undefined operator first second := by
  let _ := Exact.Approximations.zero
  have accepted : compile (Text.ascii "\x7b 0 div \x7d") =
      .ok ⟨[.literal 0, .operator .div, .stop]⟩ := rfl
  have numbers : ∀ value ∈ [(1.0 : Partial)], Scalar.isFinite value := by
    intro value member
    cases List.mem_singleton.mp member
    rfl
  have failed : execute ⟨[.literal 0, .operator .div, .stop]⟩ [(1.0 : Partial)] [] =
      .error (Machine.failure .undefinedResult 1 0) := rfl
  have throughout := finite_throughout (α := Partial)
  have literals := throughout.1 _ _ accepted
  have runs := throughout.2 _ _ literals numbers
  rcases runs.2 _ _ failed rfl with
    ⟨start, place, operator, first, second, rest, loaded, reaches, here, undefined, -⟩
  cases loaded
  exact ⟨accepted, literals, numbers, fun stack occurs => (runs.1 stack occurs).1, failed, place,
    operator, first, second, rest, reaches, here, undefined⟩

end PdfPrimitives.Calculator
