import PdfPrimitives.Function.Exponential

/-!
The division of a domain into subdomains, one for each of the functions that are
stitched together.
-/

namespace PdfPrimitives

structure Stitching (α : Type) where
  domain : Interval α
  range : Option (List (Interval α))
  /-- The bounds between subdomains in ascending order, one less than there are of these. -/
  bounds : List α
  /-- For each subdomain the map to the input of its function. -/
  encode : List (Affine α)
  /-- The number of outputs of each function. -/
  outputCount : Nat

namespace Stitching

variable {α : Type} [Scalar α]

def intervals : α → List α → α → List (Interval α)
  | low, [], high => [⟨low, high⟩]
  | low, bound :: bounds, high => ⟨low, bound⟩ :: intervals bound bounds high

def ofParts (domain : List (Interval α)) (range : Option (List (Interval α)))
    (shapes : List (Nat × Nat)) (bounds : List α) (encode : List (Interval α)) :
    Except Fault (Stitching α) :=
  match domain, shapes with
  | [whole], (_, outputCount) :: _ =>
    if range.any (·.isEmpty) || bounds.length + 1 ≠ shapes.length ||
        encode.length ≠ shapes.length ||
        shapes.any (fun shape => shape.1 ≠ 1 || shape.2 ≠ outputCount) ||
        range.any (·.length ≠ outputCount) then
      .error (.parameter .dimensionMismatch)
    else
      let subdomains := intervals whole.low bounds whole.high
      if subdomains.all fun subdomain => decide (subdomain.low ≤ subdomain.high) then
        .ok ⟨whole, range, bounds, (subdomains.zip encode).map fun (source, target) =>
          Affine.between source target, outputCount⟩
      else .error (.parameter .malformedBounds)
  | _, _ => .error (.parameter .dimensionMismatch)

/-- The subdomain that `x` belongs to, and `x` clipped to the domain. A subdomain has
its lower bound but not its upper one, except for the last, which has both. What is no
number counts as below the domain. -/
def locate (stitching : Stitching α) (x : α) : Nat × α :=
  if stitching.domain.high ≤ x then (stitching.bounds.length, stitching.domain.high)
  else if stitching.domain.low ≤ x then
    ((stitching.bounds.takeWhile fun bound => decide (bound ≤ x)).length, x)
  else (0, stitching.domain.low)

def encodeAt (stitching : Stitching α) (index : Nat) (x : α) : α :=
  match stitching.encode[index]? with
  | some map => map.apply x
  | none => x

end Stitching

end PdfPrimitives
