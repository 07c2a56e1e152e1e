import PdfPrimitives.Proofs.Calculator.Actions
import PdfPrimitives.Proofs.Scalar.Finite

/-!
Finite numbers among the operands. Every operator that can exceed the range of numbers checks
its result, and the others stay within it, so that no operator turns finite numbers into
others. Three of them have no defined result at some numbers, which they say.
-/

namespace PdfPrimitives.Calculator

namespace Operand

variable {α : Type} [Scalar α]

theorem toInteger_defined (operand : Operand α) :
    operand.toInteger ≠ .error .undefinedResult := by
  cases operand with
  | boolean value => nofun
  | number value =>
    change (if _ then _ else if _ then _ else _) ≠ _
    split
    · nofun
    · split <;> nofun

def IsFinite : Operand α → Prop
  | .number value => Scalar.isFinite value
  | .boolean _ => True

end Operand

def Stack.IsFinite {α : Type} [Scalar α] (stack : Stack α) : Prop :=
  ∀ operand ∈ stack, operand.IsFinite

inductive Undefined {α : Type} [Elementary α] : Operator → α → α → Prop
  | quotient (dividend divisor : α) (zero : divisor == 0.0) : Undefined .div dividend divisor
  | angle (y x : α) (vertical : y == 0.0) (horizontal : x == 0.0) : Undefined .atan y x
  | power (base exponent : α)
    (infinite : Scalar.isFinite (Elementary.power base exponent) = false) :
    Undefined .exp base exponent

namespace Arithmetic

def FiniteOr {α : Type} [Scalar α] (undefined : Prop) : Except Fault α → Prop
  | .ok value => Scalar.isFinite value
  | .error fault => fault = .undefinedResult → undefined

theorem FiniteOr.mono {α : Type} [Scalar α] {undefined allowed : Prop} {result : Except Fault α}
    (fine : FiniteOr undefined result) (weaker : undefined → allowed) :
    FiniteOr allowed result := by
  cases result with
  | ok value => exact fine
  | error fault => exact fun same => weaker (fine same)

variable {α : Type} [Elementary α] {undefined : Prop}

theorem finite_ite {condition : Prop} [Decidable condition] {x y : α}
    (first : condition → Scalar.isFinite x) (second : ¬condition → Scalar.isFinite y) :
    Scalar.isFinite (if condition then x else y) := by
  split
  · next holds => exact first holds
  · next fails => exact second fails

theorem finite_limited (value : α) : FiniteOr undefined (limited value) := by
  unfold limited
  split
  · assumption
  · nofun

theorem finite_quotient (dividend divisor : α) :
    FiniteOr (Undefined .div dividend divisor) (quotient dividend divisor) := by
  unfold quotient
  split
  · next zero => exact fun _ => .quotient _ _ zero
  · exact finite_limited _

theorem finite_power (base exponent : α) :
    FiniteOr (Undefined .exp base exponent) (power base exponent) := by
  unfold power
  dsimp only
  split
  · assumption
  · next infinite => exact fun _ => .power _ _ (Bool.eq_false_iff.mpr infinite)

variable [FiniteFunctions α]

theorem finite_angle [FiniteScalar α] {y x : α} (first : Scalar.isFinite y)
    (second : Scalar.isFinite x) : FiniteOr (Undefined .atan y x) (angle y x) := by
  unfold angle
  split
  · next zeros =>
    rw [Bool.and_eq_true] at zeros
    exact fun _ => .angle _ _ zeros.1 zeros.2
  · have signed := FiniteFunctions.angle first second
    apply finite_ite
    · exact fun _ => FiniteScalar.zero
    · intro _
      apply finite_ite
      · exact fun negative => FiniteFunctions.addTurn signed negative
      · exact fun _ => signed

theorem finite_toInteger {value : α} (finite : Scalar.isFinite value) :
    FiniteOr undefined (toInteger value) := by
  unfold toInteger
  dsimp only
  split
  · nofun
  · exact FiniteFunctions.truncate finite

omit [FiniteFunctions α] in
theorem finite_logarithm (log : α → α) {value : α}
    (fine : ¬value ≤ 0.0 → Scalar.isFinite (log value)) :
    FiniteOr undefined (logarithm log value) := by
  unfold logarithm
  split
  · nofun
  · next positive => exact fine positive

theorem finite_squareRoot {value : α} (finite : Scalar.isFinite value) :
    FiniteOr undefined (squareRoot value) := by
  unfold squareRoot
  split
  · nofun
  · next natural => exact FiniteFunctions.sqrt finite natural

end Arithmetic

namespace Action

open Arithmetic (FiniteOr)

section Outcomes

variable {α β γ : Type}

theorem count_defined (n : Int32) (limit : Nat) : count n limit ≠ .error .undefinedResult := by
  unfold count
  split <;> nofun

theorem popNumber_eq_ok {stack after : Stack α} {value : α}
    (done : popNumber stack = .ok value after) : stack = .number value :: after := by
  match stack with
  | [] | .boolean _ :: _ => cases done
  | .number _ :: _ =>
    cases done
    rfl

theorem rotate_subset (window : Stack α) (places : Int) : rotate window places ⊆ window := by
  unfold rotate
  dsimp only
  split <;> exact List.append_subset.mpr ⟨List.drop_subset _ _, List.take_subset _ _⟩

variable [Elementary α] {good : β → Prop} {better : γ → Prop} {undefined : Stack α → Prop}
  {stack : Stack α}

def Finite (good : β → Prop) (undefined : Stack α → Prop) :
    EStateM.Result Fault (Stack α) β → Prop
  | .ok value after => good value ∧ Stack.IsFinite after
  | .error fault left => Stack.IsFinite left ∧ (fault = .undefinedResult → undefined left)

theorem Finite.mono {allowed : Stack α → Prop} {result : EStateM.Result Fault (Stack α) β}
    (finite : Finite good undefined result) (weaker : ∀ rest, undefined rest → allowed rest) :
    Finite good allowed result := by
  cases result with
  | ok value after => exact finite
  | error fault left => exact ⟨finite.1, fun same => weaker left (finite.2 same)⟩

theorem finite_bind {action : Action α β} {next : β → Action α γ}
    (first : Finite good undefined (action stack))
    (second : ∀ value after, action stack = .ok value after → good value →
      Stack.IsFinite after → Finite better undefined (next value after)) :
    Finite better undefined ((action >>= next) stack) := by
  cases done : action stack with
  | ok value after =>
    rw [done] at first
    rw [bind_of_ok done]
    exact second value after done first.1 first.2
  | error fault left =>
    rw [done] at first
    rw [bind_of_error done]
    exact first

theorem finite_throw {fault : Fault} (defined : fault ≠ .undefinedResult)
    (finite : Stack.IsFinite stack) :
    Finite good undefined ((throw fault : Action α β) stack) :=
  ⟨finite, fun same => absurd same defined⟩

theorem finite_ofExcept {result : Except Fault β} (defined : result ≠ .error .undefinedResult)
    (finite : Stack.IsFinite stack) :
    Finite (fun _ => True) undefined ((ofExcept result : Action α β) stack) := by
  cases result with
  | ok value => exact ⟨trivial, finite⟩
  | error fault => exact ⟨finite, fun same => absurd (congrArg _ same) defined⟩

theorem finite_push {operand : Operand α} (fine : operand.IsFinite)
    (finite : Stack.IsFinite stack) :
    Finite (fun _ => True) undefined (push operand stack) := by
  unfold push
  split
  · exact ⟨trivial, List.forall_mem_cons.mpr ⟨fine, finite⟩⟩
  · exact ⟨finite, nofun⟩

theorem finite_pop (finite : Stack.IsFinite stack) :
    Finite Operand.IsFinite undefined (pop stack) := by
  cases stack with
  | nil => exact ⟨finite, nofun⟩
  | cons operand rest => exact List.forall_mem_cons.mp finite

theorem finite_popNumber (finite : Stack.IsFinite stack) :
    Finite (fun value : α => Scalar.isFinite value) undefined (popNumber stack) := by
  apply finite_bind (finite_pop finite)
  intro operand rest _ fine left
  cases operand with
  | number value => exact ⟨fine, left⟩
  | boolean value => exact ⟨left, nofun⟩

theorem finite_popInteger (finite : Stack.IsFinite stack) :
    Finite (fun _ => True) undefined (popInteger stack) := by
  apply finite_bind (finite_pop finite)
  intro operand rest _ _ left
  exact finite_ofExcept operand.toInteger_defined left

theorem finite_pushNumber {result : Except Fault α} (fine : FiniteOr (undefined stack) result)
    (finite : Stack.IsFinite stack) :
    Finite (fun _ => True) undefined (pushNumber result stack) := by
  cases result with
  | ok value => exact finite_push fine finite
  | error fault => exact ⟨finite, fine⟩

theorem finite_unary {f : α → Except Fault α}
    (fine : ∀ value, Scalar.isFinite value → FiniteOr False (f value))
    (finite : Stack.IsFinite stack) : Finite (fun _ => True) undefined (unary f stack) := by
  apply finite_bind (finite_popNumber finite)
  intro value rest _ number left
  exact finite_pushNumber ((fine value number).mono False.elim) left

/-- A function of two numbers is undefined only on a condition that both of them meet. -/
theorem finite_binary {f : α → α → Except Fault α} {condition : α → α → Prop}
    (fine : ∀ first second, Scalar.isFinite first → Scalar.isFinite second →
      FiniteOr (condition first second) (f first second))
    (finite : Stack.IsFinite stack) :
    Finite (fun _ => True)
      (fun rest => ∃ first second, stack = .number second :: .number first :: rest ∧
        condition first second) (binary f stack) := by
  apply finite_bind (finite_popNumber finite)
  intro second behind taken upper left
  apply finite_bind (finite_popNumber left)
  intro first rest again lower left
  have pair : stack = .number second :: .number first :: rest := by
    rw [popNumber_eq_ok taken, popNumber_eq_ok again]
  apply finite_pushNumber _ left
  exact (fine first second lower upper).mono fun met => ⟨first, second, pair, met⟩

theorem finite_comparison (f : α → α → Bool) (finite : Stack.IsFinite stack) :
    Finite (fun _ => True) undefined (comparison f stack) := by
  apply finite_bind (finite_popNumber finite)
  intro second rest _ _ left
  apply finite_bind (finite_popNumber left)
  intro first rest _ _ left
  exact finite_push trivial left

theorem finite_equality (wanted : Bool) (finite : Stack.IsFinite stack) :
    Finite (fun _ => True) undefined (equality wanted stack) := by
  apply finite_bind (finite_pop finite)
  intro second rest _ _ left
  apply finite_bind (finite_pop left)
  intro first rest _ _ left
  cases first <;> cases second <;>
    first | exact finite_push trivial left | exact finite_throw nofun left

theorem finite_duplicateTop (finite : Stack.IsFinite stack) :
    Finite (fun _ => True) undefined (duplicateTop stack) := by
  cases stack with
  | nil => exact ⟨finite, nofun⟩
  | cons operand rest => exact finite_push (finite operand List.mem_cons_self) finite

theorem finite_exchange (finite : Stack.IsFinite stack) :
    Finite (fun _ => True) undefined (exchange stack) := by
  apply finite_bind (finite_pop finite)
  intro second rest _ upper left
  apply finite_bind (finite_pop left)
  intro first rest _ lower left
  apply finite_bind (finite_push upper left)
  intro _ after _ _ left
  exact finite_push lower left

/-- An action on a counted part of the stack. -/
theorem finite_counted (n : Int32) {next : Stack α → Nat → Action α Unit}
    (finite : Stack.IsFinite stack)
    (inside : ∀ count, Finite (fun _ => True) undefined (next stack count stack)) :
    Finite (fun _ => True) undefined ((do
      let stack ← get
      let count ← ofExcept (count n stack.length)
      next stack count : Action α Unit) stack) := by
  change Finite _ _ ((ofExcept (count n stack.length) >>= next stack : Action α Unit) stack)
  cases counted : count n stack.length with
  | ok count => exact inside count
  | error fault =>
    refine ⟨finite, ?_⟩
    rintro rfl
    exact absurd counted (count_defined n stack.length)

end Outcomes

section Operators

variable {α : Type} [Elementary α] {undefined : Stack α → Prop} {stack : Stack α}

theorem finite_copyTop (finite : Stack.IsFinite stack) :
    Finite (fun _ => True) undefined (copyTop stack) := by
  apply finite_bind (finite_popInteger finite)
  intro n rest _ _ left
  apply finite_counted n left
  intro count
  split
  · exact ⟨left, nofun⟩
  · refine ⟨trivial, List.forall_mem_append.mpr ⟨?_, left⟩⟩
    intro operand member
    exact left operand (List.mem_of_mem_take member)

theorem finite_pushIndexed (finite : Stack.IsFinite stack) :
    Finite (fun _ => True) undefined (pushIndexed stack) := by
  apply finite_bind (finite_popInteger finite)
  intro n rest _ _ left
  apply finite_counted n left
  intro count
  cases found : rest[count]? with
  | none => exact ⟨left, nofun⟩
  | some operand => exact finite_push (left operand (List.mem_of_getElem? found)) left

theorem finite_rollTop (finite : Stack.IsFinite stack) :
    Finite (fun _ => True) undefined (rollTop stack) := by
  apply finite_bind (finite_popInteger finite)
  intro places rest _ _ left
  apply finite_bind (finite_popInteger left)
  intro n rest _ _ left
  apply finite_counted n left
  intro count
  refine ⟨trivial, List.forall_mem_append.mpr ⟨?_, ?_⟩⟩
  · intro operand member
    exact left operand (List.mem_of_mem_take (rotate_subset _ _ member))
  · intro operand member
    exact left operand (List.mem_of_mem_drop member)

variable [FiniteScalar α]

theorem finite_integral (f : Int32 → Int32 → Except Fault Int32)
    (defined : ∀ first second, f first second ≠ .error .undefinedResult)
    (finite : Stack.IsFinite stack) : Finite (fun _ => True) undefined (integral f stack) := by
  apply finite_bind (finite_popInteger finite)
  intro second rest _ _ left
  apply finite_bind (finite_popInteger left)
  intro first rest _ _ left
  apply finite_bind (finite_ofExcept (defined first second) left)
  intro n rest _ _ left
  exact finite_push (FiniteScalar.ofInt n) left

theorem finite_bitwise (words : Int32 → Int32 → Int32) (truths : Bool → Bool → Bool)
    (finite : Stack.IsFinite stack) :
    Finite (fun _ => True) undefined (bitwise words truths stack) := by
  apply finite_bind (finite_pop finite)
  intro second rest _ _ left
  apply finite_bind (finite_pop left)
  intro first rest _ _ left
  cases first with
  | boolean first =>
    cases second with
    | boolean second => exact finite_push trivial left
    | number second => exact finite_throw nofun left
  | number first =>
    cases second with
    | boolean second => exact finite_throw nofun left
    | number second =>
      apply finite_bind (finite_ofExcept (Operand.toInteger_defined _) left)
      intro upper rest _ _ left
      apply finite_bind (finite_ofExcept (Operand.toInteger_defined _) left)
      intro lower rest _ _ left
      exact finite_push (FiniteScalar.ofInt _) left

theorem finite_complement (finite : Stack.IsFinite stack) :
    Finite (fun _ => True) undefined (complement stack) := by
  apply finite_bind (finite_pop finite)
  intro operand rest _ _ left
  cases operand with
  | boolean value => exact finite_push trivial left
  | number value =>
    apply finite_bind (finite_ofExcept (Operand.toInteger_defined _) left)
    intro word rest _ _ left
    exact finite_push (FiniteScalar.ofInt _) left

end Operators

end Action

namespace Integer

theorem quotient_defined (n divisor : Int32) : quotient n divisor ≠ .error .undefinedResult := by
  unfold quotient
  split <;> nofun

theorem remainder_defined (n divisor : Int32) :
    remainder n divisor ≠ .error .undefinedResult := by
  unfold remainder
  split <;> nofun

end Integer

/-- An operator leaves finite numbers, and is undefined at the two numbers that it took only
where it has no defined result. -/
theorem Operator.finite_apply {α : Type} [Elementary α] [FiniteScalar α] [FiniteFunctions α]
    (operator : Operator) {stack : Stack α} (finite : Stack.IsFinite stack) :
    Action.Finite (fun _ => True)
      (fun rest => ∃ first second, stack = .number second :: .number first :: rest ∧
        Undefined operator first second) (operator.apply stack) := by
  open PdfPrimitives.Calculator.Action PdfPrimitives.Calculator.Arithmetic in
  cases operator with
  | abs | neg => exact finite_unary (fun _ _ => finite_limited _) finite
  | ceiling => exact finite_unary (fun _ number => FiniteFunctions.ceiling number) finite
  | cos =>
    exact finite_unary
      (fun _ number => FiniteFunctions.cos (FiniteFunctions.radians number)) finite
  | cvi => exact finite_unary (fun _ number => finite_toInteger number) finite
  | cvr => exact finite_unary (fun _ number => number) finite
  | floor => exact finite_unary (fun _ number => FiniteFunctions.floor number) finite
  | ln =>
    exact finite_unary
      (fun _ number => finite_logarithm _ (FiniteFunctions.ln number)) finite
  | log =>
    exact finite_unary
      (fun _ number => finite_logarithm _ (FiniteFunctions.log number)) finite
  | round =>
    exact finite_unary
      (fun _ number => FiniteFunctions.floor (FiniteFunctions.addHalf number)) finite
  | sin =>
    exact finite_unary
      (fun _ number => FiniteFunctions.sin (FiniteFunctions.radians number)) finite
  | sqrt => exact finite_unary (fun _ number => finite_squareRoot number) finite
  | truncate => exact finite_unary (fun _ number => FiniteFunctions.truncate number) finite
  | add | mul | sub => exact finite_binary (fun _ _ _ _ => finite_limited _) finite
  | atan => exact finite_binary (fun _ _ => finite_angle) finite
  | div => exact finite_binary (fun _ _ _ _ => finite_quotient _ _) finite
  | exp => exact finite_binary (fun _ _ _ _ => finite_power _ _) finite
  | bitshift => exact finite_integral _ nofun finite
  | idiv => exact finite_integral _ Integer.quotient_defined finite
  | mod => exact finite_integral _ Integer.remainder_defined finite
  | and | or | xor => exact finite_bitwise _ _ finite
  | not => exact finite_complement finite
  | eq | ne => exact finite_equality _ finite
  | ge | gt | le | lt => exact finite_comparison _ finite
  | pushFalse | pushTrue => exact finite_push trivial finite
  | copy => exact finite_copyTop finite
  | dup => exact finite_duplicateTop finite
  | exch => exact finite_exchange finite
  | index => exact finite_pushIndexed finite
  | pop =>
    apply finite_bind (finite_pop finite)
    intro operand rest _ _ left
    exact ⟨trivial, left⟩
  | roll => exact finite_rollTop finite

end PdfPrimitives.Calculator
