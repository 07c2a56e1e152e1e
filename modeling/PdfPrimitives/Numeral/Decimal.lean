import PdfPrimitives.Numeral.Digits

/-!
Decimal numbers: their values, their spelling with an optional exponent, and
their positional text.
-/

namespace PdfPrimitives.Numeral

/-- The number `coefficient * 10 ^ exponent`, with a sign that zero has as well. -/
structure Decimal where
  negative : Bool
  coefficient : Nat
  exponent : Int
  deriving Repr, DecidableEq

namespace Decimal

def ofDigits (negative : Bool) (whole fraction : List UInt8) : Decimal :=
  ⟨negative, valueOf (whole ++ fraction), -(fraction.length : Int)⟩

def splitSign : List UInt8 → Bool × List UInt8
  | [] => (false, [])
  | byte :: rest =>
    if byte = 0x2b then (false, rest)
    else if byte = 0x2d then (true, rest)
    else (false, byte :: rest)

/-- An exponent: `e` or `E`, a sign if wanted, and digits up to the end. Nothing at
all is the exponent zero. -/
def exponent? : List UInt8 → Option Int
  | [] => some 0
  | byte :: rest =>
    if byte = 0x65 || byte = 0x45 then
      let (negative, run) := splitSign rest
      if !run.isEmpty && run.all isDigit then
        some (if negative then -(valueOf run : Int) else valueOf run)
      else none
    else none

def splitFraction : List UInt8 → List UInt8 × List UInt8
  | [] => ([], [])
  | byte :: rest => if byte = 0x2e then spanDigits rest else ([], byte :: rest)

/-- Read a number in scientific spelling: a sign if wanted, digits with a point
anywhere among them or none, and an exponent if wanted. At least one digit stands
before the exponent. -/
def parse? (bytes : List UInt8) : Option Decimal :=
  let (negative, unsigned) := splitSign bytes
  let (whole, afterWhole) := spanDigits unsigned
  let (fraction, afterFraction) := splitFraction afterWhole
  if whole.isEmpty && fraction.isEmpty then none
  else
    (exponent? afterFraction).map fun exponent =>
      let number := ofDigits negative whole fraction
      { number with exponent := number.exponent + exponent }

/-- The digits of a magnitude without an exponent. A point is written only if
digits follow it, and a digit always stands before it. -/
def positional (coefficient : Nat) (exponent : Int) : List UInt8 :=
  if 0 ≤ exponent then
    digitsOf (coefficient * Nat.pow 10 exponent.toNat)
  else
    let places := (-exponent).toNat
    digitsOf (coefficient / Nat.pow 10 places) ++
      0x2e :: padded places (digitsOf (coefficient % Nat.pow 10 places))

def text (number : Decimal) : List UInt8 :=
  let magnitude := positional number.coefficient number.exponent
  if number.negative then 0x2d :: magnitude else magnitude

end Decimal

end PdfPrimitives.Numeral
