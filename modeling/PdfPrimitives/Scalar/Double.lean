import PdfPrimitives.Scalar

/-!
Binary64 numbers as scalars. Every operation rounds once, to nearest, and in the
order in which it is written.
-/

namespace PdfPrimitives.Double

def pi : Float := 3.141592653589793

def truncate (x : Float) : Float := if x < 0.0 then x.ceil else x.floor

instance : Scalar Float where
  decidableLT := inferInstance
  decidableLE := inferInstance
  isNaN := Float.isNaN
  isFinite := Float.isFinite
  ofInt := Float.ofInt
  floor := Float.floor
  toInt x := x.toInt64.toInt

instance : Elementary Float where
  abs := Float.abs
  ceiling := Float.ceil
  truncate := truncate
  sqrt := Float.sqrt
  sin := Float.sin
  cos := Float.cos
  atan := Float.atan2
  ln := Float.log
  log := Float.log10
  power := Float.pow
  radiansOfDegrees x := x * (pi / 180.0)
  degreesOfRadians x := x * (180.0 / pi)
  ofBits := Float.ofBits

end PdfPrimitives.Double
