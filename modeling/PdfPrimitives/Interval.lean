import PdfPrimitives.Scalar
import PdfPrimitives.Function.Fault

/-!
Intervals that values are clipped to, and the affine maps between them.
-/

namespace PdfPrimitives

structure Interval (α : Type) where
  low : α
  high : α
  deriving Repr

namespace Interval

variable {α : Type} [Scalar α]

/-- The value in an interval that is nearest to a number. A number at the place of the
upper end becomes that end, so that a zero takes its sign, and one at the place of the
lower end stays what it is. In an inverted interval the nearest value is the upper end, and
an end that is no number does not clip. -/
def nearest (interval : Interval α) (value : α) : α :=
  let raised := if value < interval.low then interval.low else value
  if interval.high ≤ raised then interval.high else raised

def clip (interval : Interval α) (value : α) : Except Fault α :=
  if Scalar.isNaN value then .error .undefinedResult else .ok (interval.nearest value)

def clipAll : List (Interval α) → List α → Except Fault (List α)
  | interval :: intervals, value :: values => do
    let clipped ← interval.clip value
    let rest ← clipAll intervals values
    return clipped :: rest
  | _, values => .ok values

end Interval

structure Affine (α : Type) where
  scale : α
  offset : α
  deriving Repr

namespace Affine

variable {α : Type} [Scalar α]

/-- The map that takes the ends of one interval to those of another. An interval
without width is taken to the lower end. -/
def between (source target : Interval α) : Affine α :=
  let width := source.high - source.low
  if width == (0.0 : α) then ⟨0.0, target.low⟩
  else
    let scale := (target.high - target.low) / width
    ⟨scale, target.low - source.low * scale⟩

def apply (map : Affine α) (x : α) : α := x * map.scale + map.offset

end Affine

end PdfPrimitives
