import PdfPrimitives.Calculator.Operator
import PdfPrimitives.Calculator.Stack

/-!
What each operator does to the stack. Operands are taken from the top, the last one
first, and each is checked when it is taken.
-/

namespace PdfPrimitives.Calculator

namespace Integer

def divides (n divisor : Int32) : Bool :=
  divisor != 0 && !(n == Int32.minValue && divisor == -1)

def quotient (n divisor : Int32) : Except Fault Int32 :=
  if divides n divisor then .ok (n / divisor) else .error .rangeCheck

def remainder (n divisor : Int32) : Except Fault Int32 :=
  if divides n divisor then .ok (n % divisor) else .error .rangeCheck

/-- The bits of `n` moved up, or down by a negative amount. Bits that leave the word
are lost, and zeros come in. -/
def shift (n amount : Int32) : Int32 :=
  let distance := amount.toInt.natAbs
  if 32 ≤ distance then 0
  else if 0 ≤ amount.toInt then (n.toUInt32 <<< UInt32.ofNat distance).toInt32
  else (n.toUInt32 >>> UInt32.ofNat distance).toInt32

end Integer

namespace Arithmetic

variable {α : Type} [Elementary α]

def limited (value : α) : Except Fault α :=
  if Scalar.isFinite value then .ok value else .error .limitCheck

def angle (y x : α) : Except Fault α :=
  if y == (0.0 : α) && x == (0.0 : α) then .error .undefinedResult
  else
    let signed := Elementary.degreesOfRadians (Elementary.atan y x)
    let turned := if signed < (0.0 : α) then signed + (360.0 : α) else signed
    .ok (if (360.0 : α) ≤ turned then 0.0 else turned)

def toInteger (value : α) : Except Fault α :=
  let whole := Elementary.truncate value
  if whole < Scalar.ofInt Int32.minValue.toInt || Scalar.ofInt Int32.maxValue.toInt < whole then
    .error .rangeCheck
  else .ok whole

def quotient (dividend divisor : α) : Except Fault α :=
  if divisor == (0.0 : α) then .error .undefinedResult else limited (dividend / divisor)

def power (base exponent : α) : Except Fault α :=
  let value := Elementary.power base exponent
  if Scalar.isFinite value then .ok value else .error .undefinedResult

def logarithm (log : α → α) (value : α) : Except Fault α :=
  if value ≤ (0.0 : α) then .error .rangeCheck else .ok (log value)

def squareRoot (value : α) : Except Fault α :=
  if value < (0.0 : α) then .error .rangeCheck else .ok (Elementary.sqrt value)

end Arithmetic

namespace Action

variable {α : Type} [Elementary α]

def unary (f : α → Except Fault α) : Action α Unit := do
  let value ← popNumber
  pushNumber (f value)

def binary (f : α → α → Except Fault α) : Action α Unit := do
  let second ← popNumber
  let first ← popNumber
  pushNumber (f first second)

def integral (f : Int32 → Int32 → Except Fault Int32) : Action α Unit := do
  let second ← popInteger
  let first ← popInteger
  pushInteger (f first second)

def comparison (f : α → α → Bool) : Action α Unit := do
  let second ← popNumber
  let first ← popNumber
  push (.boolean (f first second))

def bitwise (words : Int32 → Int32 → Int32) (truths : Bool → Bool → Bool) : Action α Unit := do
  let second ← pop
  let first ← pop
  match first, second with
  | .boolean first, .boolean second => push (.boolean (truths first second))
  | .number _, .number _ =>
    let left ← ofExcept first.toInteger
    let right ← ofExcept second.toInteger
    push (.ofInteger (words left right))
  | _, _ => throw .typeCheck

def complement : Action α Unit := do
  match ← pop with
  | .boolean value => push (.boolean !value)
  | .number value =>
    let word ← ofExcept (Operand.number value).toInteger
    push (.ofInteger (~~~word))

def equality (wanted : Bool) : Action α Unit := do
  let second ← pop
  let first ← pop
  match first, second with
  | .number first, .number second => push (.boolean ((first == second) == wanted))
  | .boolean first, .boolean second => push (.boolean ((first == second) == wanted))
  | _, _ => throw .typeCheck

def count (n : Int32) (limit : Nat) : Except Fault Nat :=
  if 0 ≤ n.toInt && n.toInt.toNat ≤ limit then .ok n.toInt.toNat else .error .rangeCheck

def duplicateTop : Action α Unit := fun stack =>
  match stack with
  | [] => .error .stackUnderflow []
  | operand :: _ => push operand stack

def exchange : Action α Unit := do
  let second ← pop
  let first ← pop
  push second
  push first

def copyTop : Action α Unit := do
  let n ← popInteger
  let stack ← get
  let n ← ofExcept (count n stack.length)
  if stackCapacity < stack.length + n then throw .stackOverflow
  else set (stack.take n ++ stack)

def pushIndexed : Action α Unit := do
  let n ← popInteger
  let stack ← get
  let n ← ofExcept (count n stack.length)
  match stack[n]? with
  | some operand => push operand
  | none => throw .rangeCheck

/-- Move the operands of a window up by some places, with its top first. Operands that
leave the window at its top come in again at its bottom. -/
def rotate (window : Stack α) (places : Int) : Stack α :=
  let distance := places.natAbs % window.length
  if places < 0 then
    window.drop (window.length - distance) ++ window.take (window.length - distance)
  else window.drop distance ++ window.take distance

def rollTop : Action α Unit := do
  let places ← popInteger
  let n ← popInteger
  let stack ← get
  let n ← ofExcept (count n stack.length)
  set (rotate (stack.take n) places.toInt ++ stack.drop n)

end Action

namespace Operator

open Arithmetic

variable {α : Type} [Elementary α]

def apply : Operator → Action α Unit
  | .abs => Action.unary fun x => limited (Elementary.abs x)
  | .add => Action.binary fun x y => limited (x + y)
  | .atan => Action.binary angle
  | .ceiling => Action.unary fun x => .ok (Elementary.ceiling x)
  | .cos => Action.unary fun x => .ok (Elementary.cos (Elementary.radiansOfDegrees x))
  | .cvi => Action.unary toInteger
  | .cvr => Action.unary .ok
  | .div => Action.binary quotient
  | .exp => Action.binary power
  | .floor => Action.unary fun x => .ok (Scalar.floor x)
  | .idiv => Action.integral Integer.quotient
  | .ln => Action.unary (logarithm Elementary.ln)
  | .log => Action.unary (logarithm Elementary.log)
  | .mod => Action.integral Integer.remainder
  | .mul => Action.binary fun x y => limited (x * y)
  | .neg => Action.unary fun x => limited (-x)
  | .round => Action.unary fun x => .ok (Scalar.floor (x + (0.5 : α)))
  | .sin => Action.unary fun x => .ok (Elementary.sin (Elementary.radiansOfDegrees x))
  | .sqrt => Action.unary squareRoot
  | .sub => Action.binary fun x y => limited (x - y)
  | .truncate => Action.unary fun x => .ok (Elementary.truncate x)
  | .and => Action.bitwise (· &&& ·) (· && ·)
  | .bitshift => Action.integral fun n amount => .ok (Integer.shift n amount)
  | .eq => Action.equality true
  | .pushFalse => Action.push (.boolean false)
  | .ge => Action.comparison fun x y => decide (y ≤ x)
  | .gt => Action.comparison fun x y => decide (y < x)
  | .le => Action.comparison fun x y => decide (x ≤ y)
  | .lt => Action.comparison fun x y => decide (x < y)
  | .ne => Action.equality false
  | .not => Action.complement
  | .or => Action.bitwise (· ||| ·) (· || ·)
  | .pushTrue => Action.push (.boolean true)
  | .xor => Action.bitwise (· ^^^ ·) (· ^^ ·)
  | .copy => Action.copyTop
  | .dup => Action.duplicateTop
  | .exch => Action.exchange
  | .index => Action.pushIndexed
  | .pop => do let _ ← Action.pop
  | .roll => Action.rollTop

end Operator

end PdfPrimitives.Calculator
