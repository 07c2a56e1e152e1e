import PdfPrimitives.Calculator.Apply

/-!
What operators can fail with. Whatever is on the stack, they complain about operands only:
there are too few or too many, or they are of the wrong type or out of range.
-/

namespace PdfPrimitives.Calculator

def operandFaults : List Fault :=
  [.stackUnderflow, .stackOverflow, .typeCheck, .rangeCheck, .undefinedResult, .limitCheck]

def OperandResult {β : Type} (result : Except Fault β) : Prop :=
  ∀ fault, result = .error fault → fault ∈ operandFaults

namespace OperandResult

variable {β γ : Type}

theorem ok (value : β) : OperandResult (.ok value) := by
  intro fault failed
  cases failed

theorem error {fault : Fault} (member : fault ∈ operandFaults) :
    OperandResult (.error fault : Except Fault β) := by
  intro other failed
  cases failed
  exact member

theorem ite {condition : Prop} [Decidable condition] {positive negative : Except Fault β}
    (first : OperandResult positive) (second : OperandResult negative) :
    OperandResult (if condition then positive else negative) := by
  split
  · exact first
  · exact second

theorem bind {result : Except Fault β} {next : β → Except Fault γ}
    (first : OperandResult result) (second : ∀ value, OperandResult (next value)) :
    OperandResult (result >>= next) := by
  cases result with
  | ok value => exact second value
  | error fault => exact .error (first fault rfl)

theorem mapM {items : List β} {f : β → Except Fault γ}
    (fine : ∀ item, OperandResult (f item)) : OperandResult (items.mapM f) := by
  induction items with
  | nil => exact .ok []
  | cons item rest ih =>
    rw [List.mapM_cons]
    exact (fine item).bind fun value => ih.bind fun values => .ok _

end OperandResult

namespace Operand

variable {α : Type}

theorem toNumber_result (operand : Operand α) : OperandResult operand.toNumber := by
  cases operand with
  | number value => exact .ok value
  | boolean value => exact .error (by decide)

theorem toInteger_result [Scalar α] (operand : Operand α) : OperandResult operand.toInteger := by
  refine .bind operand.toNumber_result fun value => ?_
  split
  · exact .error (by decide)
  · exact .ite (.error (by decide)) (.ok _)

end Operand

namespace Action

variable {α β γ : Type}

def OnOperands (action : Action α β) : Prop :=
  ∀ stack fault left, action stack = .error fault left → fault ∈ operandFaults

theorem onOperands_pure (value : β) : OnOperands (pure value : Action α β) := by
  intro stack fault left failed
  cases failed

theorem onOperands_bind {action : Action α β} {next : β → Action α γ}
    (first : OnOperands action) (second : ∀ value, OnOperands (next value)) :
    OnOperands (action >>= next) := by
  intro stack fault left failed
  change EStateM.bind action next stack = .error fault left at failed
  cases done : action stack with
  | ok value after =>
    rw [EStateM.bind, done] at failed
    exact second value after fault left failed
  | error other after =>
    rw [EStateM.bind, done] at failed
    cases failed
    exact first stack fault left done

theorem onOperands_throw {fault : Fault} (member : fault ∈ operandFaults) :
    OnOperands (throw fault : Action α β) := by
  intro stack other left failed
  cases failed
  exact member

theorem onOperands_ofExcept {result : Except Fault β} (fine : OperandResult result) :
    OnOperands (ofExcept result : Action α β) := by
  cases result with
  | ok value => exact onOperands_pure value
  | error fault => exact onOperands_throw (fine fault rfl)

theorem onOperands_get : OnOperands (get : Action α (Stack α)) := by
  intro stack fault left failed
  cases failed

theorem onOperands_set (next : Stack α) : OnOperands (set next : Action α PUnit) := by
  intro stack fault left failed
  cases failed

theorem onOperands_push (operand : Operand α) : OnOperands (push operand) := by
  intro stack fault left failed
  unfold push at failed
  split at failed
  · cases failed
  · cases failed
    decide

theorem onOperands_pop : OnOperands (pop : Action α (Operand α)) := by
  intro stack fault left failed
  cases stack with
  | nil =>
    cases failed
    decide
  | cons operand rest => cases failed

theorem onOperands_popNumber : OnOperands (popNumber : Action α α) :=
  onOperands_bind onOperands_pop fun operand => onOperands_ofExcept operand.toNumber_result

theorem onOperands_load (values : List α) : OnOperands (load values) := by
  induction values with
  | nil => exact onOperands_pure ()
  | cons value rest ih => exact onOperands_bind (onOperands_push _) fun _ => ih

theorem onOperands_unary (f : α → Except Fault α) (fine : ∀ value, OperandResult (f value)) :
    OnOperands (unary f) := by
  refine onOperands_bind onOperands_popNumber fun value => ?_
  exact onOperands_bind (onOperands_ofExcept (fine value)) fun result => onOperands_push _

theorem onOperands_binary (f : α → α → Except Fault α)
    (fine : ∀ first second, OperandResult (f first second)) : OnOperands (binary f) := by
  refine onOperands_bind onOperands_popNumber fun second => ?_
  refine onOperands_bind onOperands_popNumber fun first => ?_
  exact onOperands_bind (onOperands_ofExcept (fine first second)) fun result => onOperands_push _

theorem onOperands_comparison (f : α → α → Bool) : OnOperands (comparison f) := by
  refine onOperands_bind onOperands_popNumber fun second => ?_
  exact onOperands_bind onOperands_popNumber fun first => onOperands_push _

theorem onOperands_duplicateTop : OnOperands (duplicateTop : Action α Unit) := by
  intro stack fault left failed
  cases stack with
  | nil =>
    cases failed
    decide
  | cons operand rest => exact onOperands_push operand _ fault left failed

theorem onOperands_exchange : OnOperands (exchange : Action α Unit) := by
  refine onOperands_bind onOperands_pop fun second => ?_
  refine onOperands_bind onOperands_pop fun first => ?_
  exact onOperands_bind (onOperands_push _) fun _ => onOperands_push _

theorem count_result (n : Int32) (limit : Nat) : OperandResult (count n limit) :=
  .ite (.ok _) (.error (by decide))

/-- Some operators take a count, which has to lie within the stack, and act on that much
of it. -/
theorem onOperands_counted {next : Stack α → Nat → Action α Unit} (n : Int32)
    (fine : ∀ stack n, OnOperands (next stack n)) :
    OnOperands (do
      let stack ← get
      let n ← ofExcept (count n stack.length)
      next stack n) := by
  refine onOperands_bind onOperands_get fun stack => ?_
  exact onOperands_bind (onOperands_ofExcept (count_result n _)) fun n => fine stack n

end Action

namespace Action

variable {α : Type} [Elementary α]

theorem onOperands_popInteger : OnOperands (popInteger : Action α Int32) :=
  onOperands_bind onOperands_pop fun operand => onOperands_ofExcept operand.toInteger_result

theorem onOperands_integral (f : Int32 → Int32 → Except Fault Int32)
    (fine : ∀ first second, OperandResult (f first second)) :
    OnOperands (integral f : Action α Unit) := by
  refine onOperands_bind onOperands_popInteger fun second => ?_
  refine onOperands_bind onOperands_popInteger fun first => ?_
  exact onOperands_bind (onOperands_ofExcept (fine first second)) fun result => onOperands_push _

theorem onOperands_bitwise (words : Int32 → Int32 → Int32) (truths : Bool → Bool → Bool) :
    OnOperands (bitwise words truths : Action α Unit) := by
  refine onOperands_bind onOperands_pop fun second => ?_
  refine onOperands_bind onOperands_pop fun first => ?_
  cases first with
  | boolean first =>
    cases second with
    | boolean second => exact onOperands_push _
    | number second => exact onOperands_throw (by decide)
  | number first =>
    cases second with
    | boolean second => exact onOperands_throw (by decide)
    | number second =>
      refine onOperands_bind (onOperands_ofExcept (Operand.toInteger_result _)) fun left => ?_
      refine onOperands_bind (onOperands_ofExcept (Operand.toInteger_result _)) fun right => ?_
      exact onOperands_push _

theorem onOperands_complement : OnOperands (complement : Action α Unit) := by
  refine onOperands_bind onOperands_pop fun operand => ?_
  cases operand with
  | boolean value => exact onOperands_push _
  | number value =>
    refine onOperands_bind (onOperands_ofExcept (Operand.toInteger_result _)) fun word => ?_
    exact onOperands_push _

theorem onOperands_equality (wanted : Bool) :
    OnOperands (equality wanted : Action α Unit) := by
  refine onOperands_bind onOperands_pop fun second => ?_
  refine onOperands_bind onOperands_pop fun first => ?_
  cases first <;> cases second <;>
    first | exact onOperands_push _ | exact onOperands_throw (by decide)

theorem onOperands_copyTop : OnOperands (copyTop : Action α Unit) := by
  refine onOperands_bind onOperands_popInteger fun n => onOperands_counted n fun stack n => ?_
  split
  · exact onOperands_throw (by decide)
  · exact onOperands_set _

theorem onOperands_pushIndexed : OnOperands (pushIndexed : Action α Unit) := by
  refine onOperands_bind onOperands_popInteger fun n => onOperands_counted n fun stack n => ?_
  split
  · exact onOperands_push _
  · exact onOperands_throw (by decide)

theorem onOperands_rollTop : OnOperands (rollTop : Action α Unit) := by
  refine onOperands_bind onOperands_popInteger fun places => ?_
  refine onOperands_bind onOperands_popInteger fun n => ?_
  exact onOperands_counted n fun stack n => onOperands_set _

end Action

namespace Arithmetic

variable {α : Type} [Elementary α]

theorem limited_result (value : α) : OperandResult (limited value) :=
  .ite (.ok _) (.error (by decide))

theorem angle_result (y x : α) : OperandResult (angle y x) :=
  .ite (.error (by decide)) (.ok _)

theorem toInteger_result (value : α) : OperandResult (toInteger value) :=
  .ite (.error (by decide)) (.ok _)

theorem quotient_result (dividend divisor : α) : OperandResult (quotient dividend divisor) :=
  .ite (.error (by decide)) (limited_result _)

theorem power_result (base exponent : α) : OperandResult (power base exponent) :=
  .ite (.ok _) (.error (by decide))

theorem logarithm_result (log : α → α) (value : α) : OperandResult (logarithm log value) :=
  .ite (.error (by decide)) (.ok _)

theorem squareRoot_result (value : α) : OperandResult (squareRoot value) :=
  .ite (.error (by decide)) (.ok _)

end Arithmetic

namespace Integer

theorem quotient_result (n divisor : Int32) : OperandResult (quotient n divisor) :=
  .ite (.ok _) (.error (by decide))

theorem remainder_result (n divisor : Int32) : OperandResult (remainder n divisor) :=
  .ite (.ok _) (.error (by decide))

end Integer

/-- Operators fail at most for their operands. -/
theorem Operator.onOperands_apply {α : Type} [Elementary α] (operator : Operator) :
    Action.OnOperands (operator.apply : Action α Unit) := by
  open PdfPrimitives.Calculator.Action in
  cases operator with
  | abs | neg => exact onOperands_unary _ fun _ => Arithmetic.limited_result _
  | add | mul | sub => exact onOperands_binary _ fun _ _ => Arithmetic.limited_result _
  | atan => exact onOperands_binary _ Arithmetic.angle_result
  | ceiling | cos | cvr | floor | round | sin | truncate =>
    exact onOperands_unary _ fun _ => .ok _
  | cvi => exact onOperands_unary _ Arithmetic.toInteger_result
  | div => exact onOperands_binary _ Arithmetic.quotient_result
  | exp => exact onOperands_binary _ Arithmetic.power_result
  | idiv => exact onOperands_integral _ Integer.quotient_result
  | mod => exact onOperands_integral _ Integer.remainder_result
  | bitshift => exact onOperands_integral _ fun _ _ => .ok _
  | ln | log => exact onOperands_unary _ (Arithmetic.logarithm_result _)
  | sqrt => exact onOperands_unary _ Arithmetic.squareRoot_result
  | and | or | xor => exact onOperands_bitwise _ _
  | not => exact onOperands_complement
  | eq | ne => exact onOperands_equality _
  | ge | gt | le | lt => exact onOperands_comparison _
  | pushFalse | pushTrue => exact onOperands_push _
  | copy => exact onOperands_copyTop
  | dup => exact onOperands_duplicateTop
  | exch => exact onOperands_exchange
  | index => exact onOperands_pushIndexed
  | pop => exact onOperands_bind onOperands_pop fun _ => onOperands_pure ()
  | roll => exact onOperands_rollTop

end PdfPrimitives.Calculator
