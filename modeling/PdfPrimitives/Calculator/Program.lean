import PdfPrimitives.Calculator.Operator
import PdfPrimitives.Numeral.Single

/-!
Compiled calculator programs. Conditionals are lowered to skips to other places in the
code.
-/

namespace PdfPrimitives.Calculator

inductive Instruction where
  /-- Push the number with the given binary64 pattern. -/
  | literal (bits : UInt64)
  | operator (operator : Operator)
  /-- Pop a boolean and go on at the place `target` if it is false. -/
  | skipUnless (target : Nat)
  | skip (target : Nat)
  /-- The start of a block that no conditional has claimed. -/
  | placeholder
  /-- The end of the program, where the operands become its results. -/
  | stop
  deriving Repr, DecidableEq

namespace Instruction

/-- Where an instruction at a place leads to. A conditional skip may go on with the next
place instead. -/
def target? (place : Nat) : Instruction → Option Nat
  | .literal _ | .operator _ => some (place + 1)
  | .skipUnless target | .skip target => some target
  | .placeholder | .stop => none

/-- Equality as the machine sees it: literals are compared as numbers, so that zeros
agree and NaN agrees with nothing. -/
def agrees : Instruction → Instruction → Bool
  | .literal left, .literal right => Float.ofBits left == Float.ofBits right
  | left, right => left = right

end Instruction

structure Program where
  instructions : List Instruction
  deriving Repr, DecidableEq

namespace Program

def agrees (left right : Program) : Bool :=
  left.instructions.length == right.instructions.length &&
    (left.instructions.zip right.instructions).all fun pair => pair.1.agrees pair.2

end Program

end PdfPrimitives.Calculator
