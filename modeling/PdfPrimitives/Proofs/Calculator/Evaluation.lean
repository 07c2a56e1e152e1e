import PdfPrimitives.Proofs.Calculator.Execution

/-!
Compiled programs run like their syntax trees. A tree is evaluated item by item, and only
the block that a condition chooses is entered. The machine runs the code of the tree with
the same results and the same faults.
-/

namespace PdfPrimitives.Calculator

namespace Body

variable {α : Type} [Elementary α]

def branch (yes no : Action α Unit) : Action α Unit := do
  match ← Action.pop with
  | .boolean true => yes
  | .boolean false => no
  | .number _ => throw .typeCheck

/-- Evaluate the items in order. A conditional enters the block that its condition
chooses, or none. -/
def eval : Body → Action α Unit
  | done => pure ()
  | literal number rest => do
    Action.push (.number (Elementary.ofBits number.bits))
    rest.eval
  | operator name rest => do
    name.apply
    rest.eval
  | conditional inner rest => do
    branch inner.eval (pure ())
    rest.eval
  | alternative first second rest => do
    branch first.eval second.eval
    rest.eval

def evaluate (body : Body) (input : List α) (range : List (Interval α)) :
    Except Fault (List α) :=
  match (do Action.load input; body.eval : Action α Unit) [] with
  | .ok _ stack => Machine.collect stack range
  | .error fault _ => .error fault

end Body

namespace Machine

def Stands (whole : List Instruction) (start : Nat) (piece : List Instruction) : Prop :=
  ∀ place instruction, piece[place]? = some instruction →
    whole[start + place]? = some instruction

namespace Stands

variable {whole : List Instruction} {start : Nat}

theorem head {instruction : Instruction} {rest : List Instruction}
    (stands : Stands whole start (instruction :: rest)) : whole[start]? = some instruction :=
  stands 0 instruction rfl

theorem tail {instruction : Instruction} {rest : List Instruction}
    (stands : Stands whole start (instruction :: rest)) : Stands whole (start + 1) rest := by
  intro place other here
  rw [Nat.add_assoc, Nat.add_comm 1 place]
  exact stands (place + 1) other here

theorem left {front back : List Instruction} (stands : Stands whole start (front ++ back)) :
    Stands whole start front := by
  intro place instruction here
  have within := (List.getElem?_eq_some_iff.mp here).1
  exact stands place instruction ((List.getElem?_append_left within).trans here)

theorem right {front back : List Instruction} (stands : Stands whole start (front ++ back)) :
    Stands whole (start + front.length) back := by
  intro place instruction here
  rw [Nat.add_assoc]
  refine stands (front.length + place) instruction ?_
  rwa [List.getElem?_append_right (Nat.le_add_right _ _), Nat.add_sub_cancel_left]

end Stands

variable {α : Type} [Elementary α]

/-- From a place on, code does what an action did: it comes to another place with the stack
that the action left, or rests with the fault of the action. -/
def Follows (whole : List Instruction) (place : Nat) (stack : Stack α) (goal : Nat) :
    EStateM.Result Fault (Stack α) Unit → Prop
  | .ok _ next => Reaches whole place stack goal next
  | .error fault left => ∃ next, Halts whole place stack ⟨next, left, some fault⟩

theorem Follows.behind {whole : List Instruction} {place next goal : Nat} {stack after : Stack α}
    {result : EStateM.Result Fault (Stack α) Unit}
    (reaches : Reaches whole place stack next after)
    (follows : Follows whole next after goal result) : Follows whole place stack goal result := by
  cases result with
  | ok _ left => exact reaches.trans follows
  | error fault left =>
    obtain ⟨last, halts⟩ := follows
    exact ⟨last, reaches.halts halts⟩

theorem Follows.onto {whole : List Instruction} {place middle goal : Nat} {stack : Stack α}
    {result : EStateM.Result Fault (Stack α) Unit}
    (follows : Follows whole place stack middle result)
    (continues : ∀ after : Stack α, Reaches whole middle after goal after) :
    Follows whole place stack goal result := by
  cases result with
  | ok _ left => exact Reaches.trans follows (continues left)
  | error fault left => exact follows

def Performs (start : Nat) (piece : List Instruction) (goal : Nat) (action : Action α Unit) :
    Prop :=
  ∀ (whole : List Instruction) (stack : Stack α), Stands whole start piece →
    Follows whole start stack goal (action stack)

theorem performs_nil (start : Nat) : Performs (α := α) start [] start (pure ()) :=
  fun _ _ _ => .stays _ _

theorem performs_append {front back : List Instruction} {start middle goal : Nat}
    {first second : Action α Unit} (one : Performs start front middle first)
    (two : Performs middle back goal second) (between : middle = start + front.length) :
    Performs start (front ++ back) goal (do first; second) := by
  intro whole stack stands
  subst between
  have head := one whole stack stands.left
  simp only [bind, EStateM.bind]
  cases done : first stack with
  | ok _ next =>
    rw [done] at head
    exact .behind head (two whole next stands.right)
  | error fault left =>
    rw [done] at head
    exact head

theorem performs_behind (start : Nat) (instruction : Instruction) (action : Action α Unit)
    (goes : ∀ stack, perform start stack instruction = behind start (action stack)) :
    Performs start [instruction] (start + 1) action := by
  intro whole stack stands
  have moves := goes stack
  cases done : action stack with
  | ok _ next =>
    rw [done] at moves
    exact .goes _ _ _ _ _ _ _ stands.head moves (.stays _ _)
  | error fault left =>
    rw [done] at moves
    exact ⟨_, .of_rests stands.head moves⟩

/-- A condition chooses between the place behind it and the target of its skip. -/
theorem performs_branch {start target goal : Nat} {yes no : Action α Unit}
    (whole : List Instruction) (here : whole[start]? = some (.skipUnless target))
    (chosen : ∀ stack, Follows whole (start + 1) stack goal (yes stack))
    (skipped : ∀ stack, Follows whole target stack goal (no stack)) (stack : Stack α) :
    Follows whole start stack goal (Body.branch yes no stack) := by
  rcases stack with _ | ⟨_ | condition, stack⟩
  · exact ⟨_, .of_rests here rfl⟩
  · exact ⟨_, .of_rests here rfl⟩
  · cases condition with
    | true => exact .behind (.goes _ _ _ _ _ _ _ here rfl (.stays _ _)) (chosen stack)
    | false => exact .behind (.goes _ _ _ _ _ _ _ here rfl (.stays _ _)) (skipped stack)

theorem performs_conditional {inner : List Instruction} {start goal : Nat}
    {yes : Action α Unit} (chosen : Performs (start + 1) inner goal yes) :
    Performs start (.skipUnless goal :: inner) goal (Body.branch yes (pure ())) := by
  intro whole stack stands
  have skipped (stack : Stack α) :
      Follows whole goal stack goal ((pure () : Action α Unit) stack) := .stays _ _
  exact performs_branch whole stands.head (fun stack => chosen whole stack stands.tail) skipped
    stack

theorem performs_alternative {first second : List Instruction} {start middle goal : Nat}
    {yes no : Action α Unit} (chosen : Performs (start + 1) first middle yes)
    (other : Performs (middle + 1) second goal no) (between : middle = start + 1 + first.length) :
    Performs start (.skipUnless (middle + 1) :: first ++ .skip goal :: second) goal
      (Body.branch yes no) := by
  intro whole stack stands
  have tail := Stands.right stands.tail
  rw [← between] at tail
  -- Behind the first block the skip passes over the second one.
  have passes (after : Stack α) : Reaches whole middle after goal after :=
    .goes _ _ _ _ _ _ _ tail.head rfl (.stays _ _)
  exact performs_branch whole stands.head
    (fun stack => .onto (chosen whole stack (Stands.left stands.tail)) passes)
    (fun stack => other whole stack tail.tail) stack

theorem performs_body (body : Body) (start : Nat) :
    Performs (α := α) start (body.code start) (start + (body.code start).length) body.eval := by
  induction body generalizing start with
  | done => exact performs_nil start
  | literal literal body ih =>
    have rest := ih (start + 1)
    rw [Nat.add_right_comm] at rest
    exact performs_append (performs_behind start (.literal literal.bits) _ fun _ => rfl) rest rfl
  | operator operator body ih =>
    have rest := ih (start + 1)
    rw [Nat.add_right_comm] at rest
    exact performs_append (performs_behind start (.operator operator) _ fun _ => rfl) rest rfl
  | conditional inner body innerIh ih =>
    let block := inner.code (start + 1)
    let stop := start + 1 + block.length
    have chosen : Performs start (.skipUnless stop :: block) stop
        (Body.branch inner.eval (pure ())) := performs_conditional (innerIh (start + 1))
    have whole : start + (Body.code start (.conditional inner body)).length =
        stop + (body.code stop).length := by
      simp only [Body.code, List.length_append, List.length_cons, stop, block]
      omega
    rw [whole]
    refine performs_append chosen (ih stop) ?_
    simp only [List.length_cons, stop, block]
    omega
  | alternative first second body firstIh secondIh ih =>
    let block := first.code (start + 1)
    let middle := start + 1 + block.length
    let other := second.code (middle + 1)
    let stop := middle + 1 + other.length
    have chosen : Performs start (.skipUnless (middle + 1) :: block ++ .skip stop :: other) stop
        (Body.branch first.eval second.eval) :=
      performs_alternative (firstIh (start + 1)) (secondIh (middle + 1)) rfl
    have whole : start + (Body.code start (.alternative first second body)).length =
        stop + (body.code stop).length := by
      simp only [Body.code, List.length_append, List.length_cons, stop, middle, other, block]
      omega
    rw [whole]
    refine performs_append chosen (ih stop) ?_
    simp only [List.length_append, List.length_cons, stop, middle, other, block]
    omega

end Machine

namespace Program

/-- The machine gives what evaluating the tree gives, apart from the place of a fault. -/
theorem execute_code {α : Type} [Elementary α] (body : Body)
    (forward : Forward (body.code 0 ++ [.stop])) (input : List α) (range : List (Interval α)) :
    (execute ⟨body.code 0 ++ [.stop]⟩ input range).mapError Failure.fault =
      body.evaluate input range := by
  unfold execute Body.evaluate
  simp only [bind, EStateM.bind]
  cases loaded : Action.load input ([] : Stack α) with
  | error fault stack => rfl
  | ok _ stack =>
    have stands : Machine.Stands (body.code 0 ++ [.stop]) 0 (body.code 0 ++ [.stop]) := by
      intro place instruction here
      rwa [Nat.zero_add]
    have performed := Machine.performs_body body 0 _ stack stands.left
    have runs := run_of_halts ⟨body.code 0 ++ [.stop]⟩ forward stack
    simp only
    cases done : body.eval stack with
    | ok _ next =>
      -- Behind the body only the stop is left, which makes the operands the results.
      rw [done] at performed
      rw [runs _ (performed.halts (.of_rests stands.right.head rfl))]
      simp only
      cases Machine.collect next range <;> rfl
    | error fault left =>
      rw [done] at performed
      obtain ⟨last, halts⟩ := performed
      rw [runs _ halts]
      rfl

/-- A text that is spelled by a syntax tree compiles, and running the program gives the same
values or the same fault as evaluating the tree. -/
theorem compiled_runs_as_evaluated (text : List UInt8) (body : Body)
    (spelled : lexemes text = braced body.words) (nested : body.depth ≤ nestingLimit) :
    ∃ program, compile text = .ok program ∧
      ∀ {α : Type} [Elementary α] (input : List α) (range : List (Interval α)),
        (program.execute input range).mapError Failure.fault = body.evaluate input range :=
  have compiled := compile_of_lexemes text body spelled nested
  have forward := (wellFormed_of_compiled text _ compiled).leads_forward
  ⟨_, compiled, execute_code body forward⟩

theorem nested_text_runs_as_evaluated :
    ∃ body : Body,
      (lexemes (Text.ascii "\x7b 2 exch \x7b \x7b \x7d if \x7d \x7b 1.5 add \x7d ifelse \x7d") =
          braced body.words ∧ body.depth = 2 ∧ body.depth ≤ nestingLimit) ∧
        ∃ program, compile (Text.ascii
            "\x7b 2 exch \x7b \x7b \x7d if \x7d \x7b 1.5 add \x7d ifelse \x7d") = .ok program ∧
          ∀ {α : Type} [Elementary α] (input : List α) (range : List (Interval α)),
            (program.execute input range).mapError Failure.fault = body.evaluate input range :=
  let two : Literal := ⟨Text.ascii "2", 0x4000000000000000, by decide +kernel, by decide⟩
  let more : Literal := ⟨Text.ascii "1.5", 0x3ff8000000000000, by decide +kernel, by decide⟩
  let body : Body := .literal two (.operator .exch (.alternative (.conditional .done .done)
    (.literal more (.operator .add .done)) .done))
  ⟨body, ⟨by decide +kernel, by decide, by decide⟩,
    compiled_runs_as_evaluated _ body (by decide +kernel) (by decide)⟩

end Program

end PdfPrimitives.Calculator
