import PdfPrimitives.Interval

/-!
The operand stack of the calculator.
-/

namespace PdfPrimitives.Calculator

inductive Operand (α : Type) where
  | number (value : α)
  | boolean (value : Bool)
  deriving Repr

abbrev Stack (α : Type) := List (Operand α)

def stackCapacity : Nat := 100

/-- A computation on the stack. Operands that it took before it failed are gone. -/
abbrev Action (α β : Type) := EStateM Fault (Stack α) β

namespace Operand

variable {α : Type} [Scalar α]

def toNumber : Operand α → Except Fault α
  | .number value => .ok value
  | .boolean _ => .error .typeCheck

def toInteger (operand : Operand α) : Except Fault Int32 := do
  let value ← operand.toNumber
  if !(value == Scalar.floor value) then .error .typeCheck
  else if value < Scalar.ofInt Int32.minValue.toInt || Scalar.ofInt Int32.maxValue.toInt < value
    then .error .rangeCheck
  else .ok (Int32.ofInt (Scalar.toInt value))

def ofInteger (value : Int32) : Operand α := .number (Scalar.ofInt value.toInt)

end Operand

namespace Action

variable {α : Type}

def push (operand : Operand α) : Action α Unit := fun stack =>
  if stack.length < stackCapacity then .ok () (operand :: stack) else .error .stackOverflow stack

def pop : Action α (Operand α)
  | [] => .error .stackUnderflow []
  | operand :: stack => .ok operand stack

variable [Scalar α]

def popNumber : Action α α := do
  let operand ← pop
  ofExcept operand.toNumber

def popInteger : Action α Int32 := do
  let operand ← pop
  ofExcept operand.toInteger

def pushNumber (value : Except Fault α) : Action α Unit := do
  let value ← ofExcept value
  push (.number value)

def pushInteger (value : Except Fault Int32) : Action α Unit := do
  let value ← ofExcept value
  push (.ofInteger value)

def load : List α → Action α Unit
  | [] => pure ()
  | value :: rest => do
    push (.number value)
    load rest

end Action

end PdfPrimitives.Calculator
