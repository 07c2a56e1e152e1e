import PdfPrimitives.Numeral.Shortest
import PdfPrimitives.Text.Ascii

/-!
Binary32 numbers, kept as their patterns. They are read, written and compared, but
nothing is computed with them.
-/

namespace PdfPrimitives.Numeral

structure Single where
  bits : UInt32
  deriving Repr, DecidableEq

namespace Single

def signWeight : Nat := Nat.pow 2 31

def isNegative (number : Single) : Bool := signWeight ≤ number.bits.toNat

def magnitude (number : Single) : Nat := number.bits.toNat % signWeight

def isNaN (number : Single) : Bool := Format.binary32.infinity < number.magnitude

def isFinite (number : Single) : Bool := number.magnitude < Format.binary32.infinity

def ofMagnitude (negative : Bool) (pattern : Nat) : Single :=
  ⟨UInt32.ofNat (if negative then signWeight + pattern else pattern)⟩

def ofDecimal (number : Decimal) : Single :=
  ofMagnitude number.negative (Format.binary32.roundDecimal number.coefficient number.exponent)

def toDecimal (number : Single) : Decimal :=
  let (coefficient, exponent) := Format.binary32.shortest number.magnitude
  ⟨number.isNegative, coefficient, exponent⟩

def text (number : Single) : List UInt8 :=
  if number.isNaN then Text.ascii "NaN"
  else if number.isFinite then number.toDecimal.text
  else if number.isNegative then Text.ascii "-inf"
  else Text.ascii "inf"

/-- Equality of values: the two zeros are equal, and NaN equals nothing. -/
def sameValue (left right : Single) : Bool :=
  !left.isNaN && (left = right || (left.magnitude == 0 && right.magnitude == 0))

def toDoubleBits (number : Single) : UInt64 :=
  let sign : Nat := if number.isNegative then Nat.pow 2 63 else 0
  if number.isNaN then UInt64.ofNat (Format.binary64.infinity + Format.binary64.unit / 2)
  else if number.isFinite then
    let (numerator, denominator) := Format.binary32.fraction number.magnitude
    UInt64.ofNat (sign + Format.binary64.round numerator denominator)
  else UInt64.ofNat (sign + Format.binary64.infinity)

end Single

def doubleBits (number : Decimal) : UInt64 :=
  let pattern := Format.binary64.roundDecimal number.coefficient number.exponent
  UInt64.ofNat (if number.negative then Nat.pow 2 63 + pattern else pattern)

def isFiniteDouble (bits : UInt64) : Bool :=
  bits.toNat % Nat.pow 2 63 < Format.binary64.infinity

end PdfPrimitives.Numeral
