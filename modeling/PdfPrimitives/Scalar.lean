/-!
The numbers that functions compute with. The operations are kept apart from their
laws, so that the same definitions run on binary64 numbers, where `+` rounds and
`<` is false at a NaN, and can be reasoned about over exact numbers.
-/

namespace PdfPrimitives

class Scalar (α : Type) extends Add α, Sub α, Mul α, Div α, Neg α, LT α, LE α, BEq α,
    OfScientific α where
  decidableLT : DecidableLT α
  decidableLE : DecidableLE α
  /-- Whether this is no number at all, the result of an undefined operation. -/
  isNaN : α → Bool
  /-- Whether this is a number and not an infinity. -/
  isFinite : α → Bool
  ofInt : Int → α
  /-- The largest integer that is not above a number. -/
  floor : α → α
  /-- The integer that a number without a fraction stands for. -/
  toInt : α → Int

instance Scalar.instDecidableLT {α : Type} [Scalar α] : DecidableLT α := Scalar.decidableLT

instance Scalar.instDecidableLE {α : Type} [Scalar α] : DecidableLE α := Scalar.decidableLE

/-- The functions of a pocket calculator. Angles are in radians. -/
class Elementary (α : Type) extends Scalar α where
  abs : α → α
  ceiling : α → α
  /-- A number without its fraction. -/
  truncate : α → α
  sqrt : α → α
  sin : α → α
  cos : α → α
  /-- `atan y x` is the angle of the point `(x, y)`, from minus to plus half a turn. -/
  atan : α → α → α
  /-- The natural logarithm. -/
  ln : α → α
  /-- The logarithm to base ten. -/
  log : α → α
  /-- `power base exponent`. -/
  power : α → α → α
  radiansOfDegrees : α → α
  degreesOfRadians : α → α
  /-- The number with the given binary64 pattern. -/
  ofBits : UInt64 → α

end PdfPrimitives
