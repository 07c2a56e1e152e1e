import PdfPrimitives.Interval

/-!
Exponential functions of one input: each output goes from its first to its second
value as a power of the input goes from zero to one.
-/

namespace PdfPrimitives

def clipToRange {α : Type} [Scalar α] (range : Option (List (Interval α)))
    (values : List α) : Except Fault (List α) :=
  match range with
  | some intervals => Interval.clipAll intervals values
  | none => if values.any Scalar.isNaN then .error .undefinedResult else .ok values

structure ExponentialDescription (α : Type) where
  domain : List (Interval α)
  range : Option (List (Interval α))
  exponent : α
  /-- The values at zero, which are zero if absent. -/
  start : Option (List α)
  /-- The values at one, which are one if absent. -/
  stop : Option (List α)

structure Exponential (α : Type) where
  domain : Interval α
  range : Option (List (Interval α))
  exponent : α
  channels : List (α × α)

namespace Exponential

variable {α : Type} [Elementary α]

def outputCount (description : ExponentialDescription α) : Nat :=
  match description.start <|> description.stop with
  | some values => values.length
  | none => (description.range.map List.length).getD 1

def ofDescription (description : ExponentialDescription α) : Except Fault (Exponential α) :=
  let count := outputCount description
  let start := description.start.getD (List.replicate count 0.0)
  let stop := description.stop.getD (List.replicate count 1.0)
  match description.domain with
  | [domain] =>
    if count = 0 || start.length ≠ count || stop.length ≠ count ||
        description.range.any (·.length ≠ count) then
      .error (.parameter .dimensionMismatch)
    else .ok ⟨domain, description.range, description.exponent, start.zip stop⟩
  | _ => .error (.parameter .dimensionMismatch)

/-- Evaluate the function. A pole is no fault if the range clips it. -/
def evaluate (function : Exponential α) (x : α) : Except Fault (List α) := do
  let clipped ← function.domain.clip x
  let factor := Elementary.power clipped function.exponent
  let raw := function.channels.map fun (start, stop) => start + factor * (stop - start)
  let values ← clipToRange function.range raw
  if values.all Scalar.isFinite then return values else throw .undefinedResult

end Exponential

end PdfPrimitives
