import PdfPrimitives.Calculator.Apply

/-!
One action behind another. A sequence fails with its first part, and otherwise goes on where
that leaves the stack.
-/

namespace PdfPrimitives.Calculator.Action

variable {α β γ : Type}

theorem bind_of_ok {action : Action α β} {stack after : Stack α} {value : β}
    (done : action stack = .ok value after) (next : β → Action α γ) :
    (action >>= next) stack = next value after := by
  change EStateM.bind action next stack = _
  rw [EStateM.bind, done]

theorem bind_of_error {action : Action α β} {stack left : Stack α} {fault : Fault}
    (failed : action stack = .error fault left) (next : β → Action α γ) :
    (action >>= next) stack = .error fault left := by
  change EStateM.bind action next stack = _
  rw [EStateM.bind, failed]

/-- What succeeds as a whole succeeds in both parts. -/
theorem parts_of_ok {action : Action α β} {next : β → Action α γ} {stack last : Stack α}
    {result : γ} (done : (action >>= next) stack = .ok result last) :
    ∃ value after, action stack = .ok value after ∧ next value after = .ok result last := by
  cases first : action stack with
  | ok value after =>
    rw [bind_of_ok first] at done
    exact ⟨value, after, rfl, done⟩
  | error fault left =>
    rw [bind_of_error first] at done
    cases done

theorem count_eq_ok_iff {n : Int32} {limit size : Nat} :
    count n limit = .ok size ↔ n.toInt = size ∧ size ≤ limit := by
  unfold count
  split
  · next fits =>
    simp only [Bool.and_eq_true, decide_eq_true_eq] at fits
    rw [Except.ok.injEq]
    constructor <;> omega
  · next outside =>
    simp only [Bool.and_eq_true, decide_eq_true_eq] at outside
    refine iff_of_false (by simp) ?_
    omega

theorem count_refused {n : Int32} {limit : Nat} (outside : n.toInt < 0 ∨ limit < n.toInt) :
    count n limit = .error .rangeCheck := by
  unfold count
  apply if_neg
  simp only [Bool.and_eq_true, decide_eq_true_eq]
  omega

variable [Scalar α]

theorem popInteger_reads {operand : Operand α} {n : Int32} (reads : operand.toInteger = .ok n)
    (stack : Stack α) : popInteger (operand :: stack) = .ok n stack := by
  change (ofExcept operand.toInteger : Action α Int32) stack = _
  rw [reads]
  rfl

end PdfPrimitives.Calculator.Action
