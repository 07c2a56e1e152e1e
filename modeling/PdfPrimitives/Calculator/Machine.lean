import PdfPrimitives.Calculator.Apply
import PdfPrimitives.Calculator.Program

/-!
The machine that runs compiled calculator programs.
-/

namespace PdfPrimitives.Calculator

inductive Progress (α : Type) where
  | goes (place : Nat) (stack : Stack α)
  | rests (stack : Stack α) (fault : Option Fault)

structure Halt (α : Type) where
  /-- The place behind the last instruction, or the one where there was none to go on with. -/
  next : Nat
  stack : Stack α
  fault : Option Fault

namespace Machine

def behind {α : Type} (place : Nat) : EStateM.Result Fault (Stack α) Unit → Progress α
  | .ok _ next => .goes (place + 1) next
  | .error fault left => .rests left (some fault)

variable {α : Type} [Elementary α]

def perform (place : Nat) (stack : Stack α) : Instruction → Progress α
  | .literal bits => behind place (Action.push (.number (Elementary.ofBits bits)) stack)
  | .operator operator => behind place (operator.apply stack)
  | .skipUnless target =>
    match Action.pop stack with
    | .ok (.boolean true) next => .goes (place + 1) next
    | .ok (.boolean false) next => .goes target next
    | .ok (.number _) next => .rests next (some .typeCheck)
    | .error fault left => .rests left (some fault)
  | .skip target => .goes target stack
  | .placeholder => .rests stack (some .programStructure)
  | .stop => .rests stack none

/-- Run code from a place on, for as many turns as are left. There is no result if the
machine does not come to rest in these. -/
def run (code : List Instruction) : Nat → Nat → Stack α → Option (Halt α)
  | 0, _, _ => none
  | turns + 1, place, stack =>
    match code[place]? with
    | none => some ⟨place, stack, some .programStructure⟩
    | some instruction =>
      match perform place stack instruction with
      | .goes next after => run code turns next after
      | .rests left fault => some ⟨place + 1, left, fault⟩

def collect (stack : Stack α) (range : List (Interval α)) : Except Fault (List α) :=
  if stack.length < range.length then .error .stackUnderflow
  else if range.length < stack.length then .error .stackExcess
  else
    (stack.reverse.zip range).mapM fun (operand, interval) => do
      let value ← operand.toNumber
      interval.clip value

def failure (fault : Fault) (place depth : Nat) : Failure :=
  ⟨fault, [s!"PostScript function failed at instruction {place} with {depth} operands on " ++
    "the stack: " ++ fault.message]⟩

end Machine

namespace Program

variable {α : Type} [Elementary α]

/-- Run a program from its start. One turn for each instruction and one behind them is
enough where skips only lead forward. -/
def run (program : Program) (stack : Stack α) : Option (Halt α) :=
  Machine.run program.instructions (program.instructions.length + 1) 0 stack

def execute (program : Program) (input : List α) (range : List (Interval α)) :
    Except Failure (List α) :=
  match Action.load input [] with
  | .error fault stack => .error (Machine.failure fault 0 stack.length)
  | .ok _ stack =>
    match program.run stack with
    -- No program that is compiled or decoded goes in a circle.
    | none => .error (Failure.silent .programStructure)
    | some halt =>
      let result : Except Fault (List α) := match halt.fault with
        | some fault => .error fault
        | none => Machine.collect halt.stack range
      match result with
      | .ok values => .ok values
      | .error fault => .error (Machine.failure fault (halt.next - 1) halt.stack.length)

end Program

end PdfPrimitives.Calculator
