import Mathlib.Order.Bounds.Basic
import PdfPrimitives.Scalar.Double
import PdfPrimitives.Proofs.Calculator.Boundaries
import PdfPrimitives.Proofs.Calculator.Rolling

/-!
Operands below the ones that a program works on. They do not change what it does, as long as
there is room for all operands together. Otherwise the first instruction that does not find
room overflows the stack.
-/

namespace PdfPrimitives.Calculator

namespace Action

section Local

variable {α β γ : Type}

def Taking (action : Action α β) : Prop :=
  ∀ stack value after, action stack = .ok value after → after.length ≤ stack.length ∧
    ∀ below, action (stack ++ below) = .ok value (after ++ below)

/-- Actions that succeed as well with more operands below if there is room for what they
leave, and otherwise overflow. -/
def Local (action : Action α β) : Prop :=
  ∀ stack value after, action stack = .ok value after → ∀ below,
    stack.length + below.length ≤ stackCapacity →
    (after.length + below.length ≤ stackCapacity →
      action (stack ++ below) = .ok value (after ++ below)) ∧
    (stackCapacity < after.length + below.length →
      ∃ left, action (stack ++ below) = .error .stackOverflow left)

theorem taking_pure (value : β) : Taking (pure value : Action α β) := by
  intro stack result after done
  cases done
  exact ⟨Nat.le_refl _, fun _ => rfl⟩

theorem taking_throw (fault : Fault) : Taking (throw fault : Action α β) := by
  intro stack result after done
  cases done

theorem taking_ofExcept (result : Except Fault β) : Taking (ofExcept result : Action α β) := by
  cases result with
  | ok value => exact taking_pure value
  | error fault => exact taking_throw fault

theorem taking_pop : Taking (pop : Action α (Operand α)) := by
  intro stack value after done
  cases stack with
  | nil => cases done
  | cons operand rest =>
    cases done
    exact ⟨Nat.le_succ _, fun _ => rfl⟩

theorem taking_bind {action : Action α β} {next : β → Action α γ} (first : Taking action)
    (second : ∀ value, Taking (next value)) : Taking (action >>= next) := by
  intro stack result last done
  rcases parts_of_ok done with ⟨value, after, taken, rest⟩
  have before := first stack value after taken
  have behind := second value after result last rest
  constructor
  · exact Nat.le_trans behind.1 before.1
  · intro below
    rw [bind_of_ok (before.2 below)]
    exact behind.2 below

theorem Taking.isLocal {action : Action α β} (taking : Taking action) : Local action := by
  intro stack value after done below room
  have taken := taking stack value after done
  constructor
  · intro _
    exact taken.2 below
  · intro full
    have := taken.1
    omega

theorem local_bind {action : Action α β} {next : β → Action α γ} (first : Taking action)
    (second : ∀ value, Local (next value)) : Local (action >>= next) := by
  intro stack result last done below room
  rcases parts_of_ok done with ⟨value, after, taken, rest⟩
  have before := first stack value after taken
  have behind := second value after result last rest below (by have := before.1; omega)
  rw [bind_of_ok (before.2 below)]
  exact behind

theorem local_push (operand : Operand α) : Local (push operand) := by
  intro stack value after done below _
  have pushed : after = operand :: stack := by
    unfold push at done
    split at done <;> cases done
    rfl
  subst pushed
  unfold push
  rw [List.length_append, List.length_cons]
  constructor
  · intro room
    rw [if_pos (by omega)]
    rfl
  · intro full
    rw [if_neg (by omega)]
    exact ⟨_, rfl⟩

/-- Two operands that were taken fit again. -/
theorem local_exchange : Local (exchange : Action α Unit) := by
  intro stack value after done below room
  have pushes (first second : Operand α) (rest : Stack α)
      (fits : rest.length + 2 ≤ stackCapacity) :
      exchange (second :: first :: rest) = .ok () (first :: second :: rest) := by
    have lower : push second rest = .ok () (second :: rest) := if_pos (by omega)
    have upper : push first (second :: rest) = .ok () (first :: second :: rest) :=
      if_pos (by rw [List.length_cons]; omega)
    change (push second >>= fun _ => push first) rest = _
    rw [bind_of_ok lower, upper]
  match stack with
  | [] => cases done
  | [_] => cases done
  | second :: first :: rest =>
    rw [List.length_cons, List.length_cons] at room
    rw [pushes first second rest (by omega)] at done
    cases done
    constructor
    · intro _
      exact pushes first second (rest ++ below) (by rw [List.length_append]; omega)
    · intro full
      rw [List.length_cons, List.length_cons] at full
      omega

theorem local_duplicateTop : Local (duplicateTop : Action α Unit) := by
  intro stack value after done
  cases stack with
  | nil => cases done
  | cons operand rest => exact local_push operand _ value after done

theorem taking_popNumber : Taking (popNumber : Action α α) :=
  taking_bind taking_pop fun _ => taking_ofExcept _

theorem local_pushNumber (value : Except Fault α) : Local (pushNumber value) :=
  local_bind (taking_ofExcept _) fun _ => local_push _

theorem local_unary (f : α → Except Fault α) : Local (unary f) :=
  local_bind taking_popNumber fun _ => local_pushNumber _

theorem local_binary (f : α → α → Except Fault α) : Local (binary f) :=
  local_bind taking_popNumber fun _ => local_bind taking_popNumber fun _ => local_pushNumber _

theorem local_comparison (f : α → α → Bool) : Local (comparison f) :=
  local_bind taking_popNumber fun _ => local_bind taking_popNumber fun _ => local_push _

/-- An action on a counted part of the stack, which operands below do not lengthen. -/
theorem local_counted (n : Int32) (next : Stack α → Nat → Action α Unit)
    (inside : ∀ stack count after, count ≤ stack.length →
      next stack count stack = .ok () after → ∀ below,
      stack.length + below.length ≤ stackCapacity →
      (after.length + below.length ≤ stackCapacity →
        next (stack ++ below) count (stack ++ below) = .ok () (after ++ below)) ∧
      (stackCapacity < after.length + below.length →
        ∃ left, next (stack ++ below) count (stack ++ below) = .error .stackOverflow left)) :
    Local (do
      let stack ← get
      let count ← ofExcept (count n stack.length)
      next stack count) := by
  intro stack value after done below room
  have opened (other : Stack α) : (do
      let stack ← get
      let count ← ofExcept (Action.count n stack.length)
      next stack count : Action α Unit) other =
        (ofExcept (Action.count n other.length) >>= next other : Action α Unit) other := rfl
  rw [opened] at done ⊢
  cases counted : Action.count n stack.length with
  | error fault =>
    rw [counted] at done
    cases done
  | ok count =>
    rw [counted] at done
    have within := count_eq_ok_iff.mp counted
    have again : Action.count n (stack.length + below.length) = .ok count :=
      count_eq_ok_iff.mpr ⟨within.1, Nat.le_add_right_of_le within.2⟩
    rw [List.length_append, again]
    exact inside stack count after within.2 done below room

end Local

section Operators

variable {α : Type} [Elementary α]

theorem taking_popInteger : Taking (popInteger : Action α Int32) :=
  taking_bind taking_pop fun _ => taking_ofExcept _

theorem local_integral (f : Int32 → Int32 → Except Fault Int32) :
    Local (integral f : Action α Unit) :=
  local_bind taking_popInteger fun _ => local_bind taking_popInteger fun _ =>
    local_bind (taking_ofExcept _) fun _ => local_push _

theorem local_bitwise (words : Int32 → Int32 → Int32) (truths : Bool → Bool → Bool) :
    Local (bitwise words truths : Action α Unit) := by
  apply local_bind taking_pop
  intro second
  apply local_bind taking_pop
  intro first
  cases first with
  | boolean first =>
    cases second with
    | boolean second => exact local_push _
    | number second => exact (taking_throw _).isLocal
  | number first =>
    cases second with
    | boolean second => exact (taking_throw _).isLocal
    | number second =>
      exact local_bind (taking_ofExcept _) fun _ => local_bind (taking_ofExcept _) fun _ =>
        local_push _

theorem local_complement : Local (complement : Action α Unit) := by
  apply local_bind taking_pop
  intro operand
  cases operand with
  | boolean value => exact local_push _
  | number value => exact local_bind (taking_ofExcept _) fun _ => local_push _

theorem local_equality (wanted : Bool) : Local (equality wanted : Action α Unit) := by
  apply local_bind taking_pop
  intro second
  apply local_bind taking_pop
  intro first
  cases first <;> cases second <;>
    first | exact local_push _ | exact (taking_throw _).isLocal

theorem local_copyTop : Local (copyTop : Action α Unit) := by
  apply local_bind taking_popInteger
  intro n
  apply local_counted
  intro stack count after within done below room
  have top : (stack ++ below).take count = stack.take count :=
    List.take_append_of_le_length within
  split at done
  · cases done
  · cases done
    rw [List.length_append, List.length_append, List.length_take, Nat.min_eq_left within, top]
    constructor
    · intro fits
      rw [if_neg (by omega), ← List.append_assoc]
      rfl
    · intro full
      rw [if_pos (by omega)]
      exact ⟨_, rfl⟩

theorem local_pushIndexed : Local (pushIndexed : Action α Unit) := by
  apply local_bind taking_popInteger
  intro n
  apply local_counted
  intro stack count after within done below room
  cases found : stack[count]? with
  | none =>
    rw [found] at done
    cases done
  | some operand =>
    rw [found] at done
    have inside := (List.getElem?_eq_some_iff.mp found).1
    rw [List.getElem?_append_left inside, found]
    exact local_push operand stack () after done below room

theorem local_rollTop : Local (rollTop : Action α Unit) := by
  apply local_bind taking_popInteger
  intro places
  apply local_bind taking_popInteger
  intro n
  apply local_counted
  intro stack count after within done below room
  cases done
  have kept : (rotate (stack.take count) places.toInt ++ stack.drop count).length =
      stack.length := by
    rw [List.length_append, length_rotate, ← List.length_append, List.take_append_drop]
  rw [kept, List.take_append_of_le_length within, List.drop_append_of_le_length within,
    ← List.append_assoc]
  constructor
  · intro _
    rfl
  · intro full
    omega

end Operators

end Action

section Runs

variable {α : Type} [Elementary α]

theorem Operator.local_apply (operator : Operator) :
    Action.Local (operator.apply : Action α Unit) := by
  open PdfPrimitives.Calculator.Action in
  cases operator with
  | abs | neg | ceiling | cos | cvi | cvr | floor | ln | log | round | sin | sqrt | truncate =>
    exact local_unary _
  | add | atan | div | exp | mul | sub => exact local_binary _
  | bitshift | idiv | mod => exact local_integral _
  | and | or | xor => exact local_bitwise _ _
  | not => exact local_complement
  | eq | ne => exact local_equality _
  | ge | gt | le | lt => exact local_comparison _
  | pushFalse | pushTrue => exact local_push _
  | copy => exact local_copyTop
  | dup => exact local_duplicateTop
  | exch => exact local_exchange
  | index => exact local_pushIndexed
  | pop => exact local_bind taking_pop fun _ => (taking_pure ()).isLocal
  | roll => exact local_rollTop

namespace Machine

variable {place next : Nat} {stack after : Stack α}

omit [Elementary α] in
theorem behind_below {action : Action α Unit} (isLocal : Action.Local action)
    (moves : behind place (action stack) = .goes next after) (below : Stack α)
    (room : stack.length + below.length ≤ stackCapacity) :
    (after.length + below.length ≤ stackCapacity →
      behind place (action (stack ++ below)) = .goes next (after ++ below)) ∧
    (stackCapacity < after.length + below.length →
      ∃ left, behind place (action (stack ++ below)) = .rests left (some .stackOverflow)) := by
  cases done : action stack with
  | error fault left =>
    rw [done] at moves
    cases moves
  | ok value final =>
    rw [done] at moves
    cases moves
    have apart := isLocal stack value _ done below room
    constructor
    · intro fits
      rw [apart.1 fits]
      rfl
    · intro full
      rcases apart.2 full with ⟨left, overflows⟩
      exact ⟨left, by rw [overflows]; rfl⟩

/-- An instruction does the same with more operands below, or it overflows the stack. -/
theorem perform_below {instruction : Instruction}
    (moves : perform place stack instruction = .goes next after) (below : Stack α)
    (room : stack.length + below.length ≤ stackCapacity) :
    (after.length + below.length ≤ stackCapacity →
      perform place (stack ++ below) instruction = .goes next (after ++ below)) ∧
    (stackCapacity < after.length + below.length →
      ∃ left, perform place (stack ++ below) instruction =
        .rests left (some .stackOverflow)) := by
  cases instruction with
  | literal bits => exact behind_below (Action.local_push _) moves below room
  | operator operator => exact behind_below operator.local_apply moves below room
  | skipUnless target =>
    match stack with
    | [] => cases moves
    | .number value :: rest => cases moves
    | .boolean true :: rest | .boolean false :: rest =>
      cases moves
      rw [List.length_cons] at room
      constructor
      · intro _
        rfl
      · intro full
        omega
  | skip target =>
    cases moves
    constructor
    · intro _
      rfl
    · intro full
      omega
  | placeholder => cases moves
  | stop => cases moves

def depths (code : List Instruction) (place : Nat) (stack : Stack α) : Set Nat :=
  {depth | ∃ last left, Reaches code place stack last left ∧ left.length = depth}

theorem depths_of_goes {code : List Instruction} {instruction : Instruction}
    (here : code[place]? = some instruction)
    (moves : perform place stack instruction = .goes next after) :
    depths code place stack = insert stack.length (depths code next after) := by
  ext depth
  constructor
  · rintro ⟨last, left, reaches, rfl⟩
    rcases (reaches_of_goes here moves).mp reaches with ⟨-, rfl⟩ | continues
    · exact .inl rfl
    · exact .inr ⟨last, left, continues, rfl⟩
  · rintro (rfl | ⟨last, left, continues, rfl⟩)
    · exact ⟨place, stack, .stays _ _, rfl⟩
    · exact ⟨last, left, .goes _ _ _ _ _ _ _ here moves continues, rfl⟩

theorem depths_of_rests {code : List Instruction} {instruction : Instruction} {left : Stack α}
    {fault : Option Fault} (here : code[place]? = some instruction)
    (done : perform place stack instruction = .rests left fault) :
    depths code place stack = {stack.length} := by
  ext depth
  constructor
  · rintro ⟨last, other, reaches, rfl⟩
    rcases (reaches_of_rests here done).mp reaches with ⟨-, rfl⟩
    rfl
  · rintro rfl
    exact ⟨place, stack, .stays _ _, rfl⟩

end Machine

/-- A program that stops runs in the same way above other operands, which it leaves as they
are, if its largest depth leaves room for them, and otherwise overflows the stack. -/
theorem Program.runs_above (program : Program) (place last : Nat) (stack final : Stack α)
    (reaches : Machine.Reaches program.instructions place stack last final)
    (stops : program.instructions[last]? = some .stop) :
    ∃ depth, IsGreatest (Machine.depths program.instructions place stack) depth ∧
      ∀ below : Stack α, below.length + stack.length ≤ stackCapacity →
        (below.length + depth ≤ stackCapacity →
          Machine.Reaches program.instructions place (stack ++ below) last (final ++ below) ∧
          Machine.Halts program.instructions place (stack ++ below)
            ⟨last + 1, final ++ below, none⟩) ∧
        (stackCapacity < below.length + depth → ∃ next left,
          Machine.Halts program.instructions place (stack ++ below)
            ⟨next, left, some .stackOverflow⟩) := by
  induction reaches with
  | stays place stack =>
    refine ⟨stack.length, ?_, ?_⟩
    · rw [Machine.depths_of_rests stops rfl]
      exact isGreatest_singleton
    · intro below room
      constructor
      · intro _
        exact ⟨.stays _ _, .of_rests stops rfl⟩
      · intro full
        omega
  | goes place next last stack after left instruction here moves continues ih =>
    rcases ih stops with ⟨later, greatest, above⟩
    refine ⟨max stack.length later, ?_, ?_⟩
    · rw [Machine.depths_of_goes here moves]
      exact greatest.insert stack.length
    · intro below room
      have first := Machine.perform_below moves below (by omega)
      have entered : after.length ≤ later := greatest.2 ⟨next, after, .stays _ _, rfl⟩
      constructor
      · intro fits
        have moved := first.1 (by omega)
        rcases (above below (by omega)).1 (by omega) with ⟨behind, halts⟩
        exact ⟨.goes _ _ _ _ _ _ _ here moved behind, .of_goes here moved halts⟩
      · intro full
        by_cases fits : after.length + below.length ≤ stackCapacity
        · rcases (above below (by omega)).2 (by omega) with ⟨stop, rest, halts⟩
          exact ⟨stop, rest, .of_goes here (first.1 fits) halts⟩
        · rcases first.2 (by omega) with ⟨rest, overflows⟩
          exact ⟨_, _, .of_rests here overflows⟩

end Runs

/-- An operand that is duplicated and dropped again needs one place more, which 98 other
operands leave free and 99 do not. -/
theorem Program.duplicate_runs_above :
    (Machine.Reaches [.operator .dup, .operator .pop, .stop] 0
        ([.number 1] : Stack Float) 2 [.number 1] ∧
      [Instruction.operator .dup, .operator .pop, .stop][2]? = some .stop) ∧
    Machine.Halts [.operator .dup, .operator .pop, .stop] 0
        (.number 1 :: List.replicate 98 (.boolean true) : Stack Float)
      ⟨3, .number 1 :: List.replicate 98 (.boolean true), none⟩ ∧
    ∃ next left, Machine.Halts [.operator .dup, .operator .pop, .stop] 0
        (.number 1 :: List.replicate 99 (.boolean true) : Stack Float)
      ⟨next, left, some .stackOverflow⟩ := by
  have reaches : Machine.Reaches [.operator .dup, .operator .pop, .stop] 0
      ([.number 1] : Stack Float) 2 [.number 1] :=
    .goes _ _ _ _ _ _ _ rfl rfl (.goes _ _ _ _ _ _ _ rfl rfl (.stays _ _))
  rcases runs_above ⟨[.operator .dup, .operator .pop, .stop]⟩ 0 2 _ _ reaches rfl with
    ⟨depth, greatest, above⟩
  rw [Machine.depths_of_goes rfl rfl, Machine.depths_of_goes rfl rfl,
    Machine.depths_of_rests rfl rfl] at greatest
  have deep : 2 ≤ depth := greatest.2 (.inr (.inl rfl))
  have shallow : depth ≤ 2 := by
    rcases greatest.1 with rfl | rfl | rfl <;> decide
  refine ⟨⟨reaches, rfl⟩, ?_, ?_⟩
  · exact ((above (List.replicate 98 (.boolean true)) (by decide)).1
      (Nat.add_le_add_left shallow 98)).2
  · exact (above (List.replicate 99 (.boolean true)) (by decide)).2
      (Nat.lt_of_lt_of_le (by decide) (Nat.add_le_add_left deep 99))

end PdfPrimitives.Calculator
