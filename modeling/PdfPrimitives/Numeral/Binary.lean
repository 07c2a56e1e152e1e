import PdfPrimitives.Numeral.Decimal

/-!
Binary interchange formats. A magnitude is kept as the pattern of its bits without
the sign, and patterns are ordered like the magnitudes. Every conversion is done
on exact fractions and rounds once.
-/

namespace PdfPrimitives.Numeral

/-- A format with `precision` significant bits, the first of which is not stored. -/
structure Format where
  precision : Nat
  exponentBits : Nat
  deriving Repr, DecidableEq

namespace Format

def binary32 : Format := ⟨24, 8⟩

def binary64 : Format := ⟨53, 11⟩

def unit (format : Format) : Nat := Nat.pow 2 (format.precision - 1)

def ceiling (format : Format) : Nat := Nat.pow 2 (format.exponentBits - 1)

def floor (format : Format) : Int := 3 - format.ceiling - format.precision

/-- The pattern of infinity. Patterns above it stand for no number. -/
def infinity (format : Format) : Nat := (Nat.pow 2 format.exponentBits - 1) * format.unit

/-- The integer nearest to a fraction, the even one of two. -/
def nearest (numerator denominator : Nat) : Nat :=
  let quotient := numerator / denominator
  let twice := 2 * (numerator % denominator)
  if denominator < twice || (twice == denominator && quotient % 2 == 1) then quotient + 1
  else quotient

def scale (base numerator denominator : Nat) (exponent : Int) : Nat × Nat :=
  if 0 ≤ exponent then (numerator * Nat.pow base exponent.toNat, denominator)
  else (numerator, denominator * Nat.pow base (-exponent).toNat)

def logFloor (numerator denominator : Nat) : Int :=
  let estimate : Int := numerator.log2 - denominator.log2
  let (lower, upper) := scale 2 denominator numerator estimate
  if lower ≤ upper then estimate else estimate - 1

/-- The pattern nearest to a fraction, the even one of two. Magnitudes from half a
unit beyond the largest one are infinite. -/
def round (format : Format) (numerator denominator : Nat) : Nat :=
  if numerator = 0 then 0
  else
    let exponent := max format.floor (logFloor numerator denominator - (format.precision - 1))
    let (upper, lower) := scale 2 numerator denominator (-exponent)
    min format.infinity ((exponent - format.floor).toNat * format.unit + nearest upper lower)

/-- The pattern nearest to a decimal magnitude. Exponents far out of reach are not
worked out. -/
def roundDecimal (format : Format) (coefficient : Nat) (exponent : Int) : Nat :=
  let size : Int := coefficient.log2 + 3 * exponent
  if coefficient = 0 then 0
  else if 0 ≤ exponent && format.ceiling ≤ size then format.infinity
  else if exponent < 0 && size + 1 < format.floor then 0
  else
    let (numerator, denominator) := scale 10 coefficient 1 exponent
    format.round numerator denominator

/-- The magnitude of a finite pattern as an integer and the exponent of two that it
is to be multiplied with. -/
def split (format : Format) (pattern : Nat) : Nat × Int :=
  let field := pattern / format.unit
  let stored := pattern % format.unit
  if field = 0 then (stored, format.floor)
  else (format.unit + stored, format.floor + field - 1)

def fraction (format : Format) (pattern : Nat) : Nat × Nat :=
  let (significand, exponent) := format.split pattern
  scale 2 significand 1 exponent

end Format

end PdfPrimitives.Numeral
