import PdfPrimitives.Function.Scratch
import PdfPrimitives.Interval
import PdfPrimitives.Samples

/-!
Sampled functions: a table of samples on a grid, interpolated between grid points.
-/

namespace PdfPrimitives

def inputLimit : Nat := 12

structure SampledDescription (α : Type) where
  domain : List (Interval α)
  range : List (Interval α)
  /-- The number of samples for each input. -/
  size : List Nat
  bitsPerSample : Nat
  order : Nat
  /-- The coordinates that the domain is mapped to, the whole grid if absent. -/
  encode : Option (List (Interval α))
  /-- The values that the samples are mapped to, the range if absent. -/
  decode : Option (List (Interval α))
  data : List UInt8

structure SampledInput (α : Type) where
  domain : Interval α
  axis : Grid.Axis
  encode : Affine α

structure SampledOutput (α : Type) where
  range : Interval α
  decode : Affine α

structure Sampled (α : Type) where
  inputs : List (SampledInput α)
  outputs : List (SampledOutput α)
  order : Grid.Order
  table : Grid.Table α

namespace Sampled

variable {α : Type} [Scalar α]

def isSampleWidth (width : Nat) : Bool := [1, 2, 4, 8, 12, 16, 24, 32].contains width

def order? : Nat → Option Grid.Order
  | 1 => some .linear
  | 3 => some .cubic
  | _ => none

def points? (size : List Nat) : Option Nat :=
  size.foldlM (fun product count =>
    if product * count < Samples.countLimit then some (product * count) else none) 1

def wholeAxis (count : Nat) : Interval α := ⟨0.0, Scalar.ofInt (count - 1 : Nat)⟩

/-- Samples that do not match their geometry are bad, except that there may be too
many of them to count. -/
def unpack (data : List UInt8) (width points channels : Nat) : Except Fault (Array UInt32) :=
  match Samples.unpack data width points channels with
  | .ok samples => .ok samples
  | .error .overflow => .error .overflow
  | .error _ => .error .badSampleData

def ofDescription (description : SampledDescription α) : Except Fault (Sampled α) := do
  let width := description.bitsPerSample
  if !isSampleWidth width then throw (.parameter (.bitsPerSample width))
  let order ← match order? description.order with
    | some order => pure order
    | none => throw (.parameter (.order description.order))
  let domain := description.domain
  let range := description.range
  if range.isEmpty then throw (.parameter .missingRange)
  if domain.isEmpty then throw (.parameter .dimensionMismatch)
  if inputLimit < domain.length then throw (.parameter (.tooManyInputs domain.length))
  let size := description.size
  if size.length ≠ domain.length then throw (.parameter .dimensionMismatch)
  if size.contains 0 then throw (.parameter .size)
  let encode := description.encode.getD (size.map wholeAxis)
  let decode := description.decode.getD range
  if encode.length ≠ domain.length || decode.length ≠ range.length then
    throw (.parameter .dimensionMismatch)
  let points ← match points? size with
    | some points => pure points
    | none => throw .overflow
  let samples ← unpack description.data width points range.length
  let sampleRange : Interval α := ⟨0.0, Scalar.ofInt (Bits.mask width).toNat⟩
  return {
    inputs := (domain.zip ((Grid.axes 1 size).zip encode)).map fun (domain, axis, target) =>
      ⟨domain, axis, Affine.between domain target⟩
    outputs := (range.zip decode).map fun (range, target) =>
      ⟨range, Affine.between sampleRange target⟩
    order
    table := ⟨samples.map fun sample => Scalar.ofInt sample.toNat, range.length⟩ }

def locate (order : Grid.Order) :
    List (SampledInput α × α) → Nat → Scratch α → Except Fault Unit × Scratch α
  | [], _, scratch => (.ok (), scratch)
  | (input, x) :: rest, dimension, scratch =>
    let encoded := input.encode.apply x
    if Scalar.isNaN encoded then (.error .undefinedResult, scratch)
    else
      let size := input.axis.size
      let coordinate := (wholeAxis size).nearest encoded
      locate order rest (dimension + 1)
        (scratch.put dimension (Grid.Cell.ofCoordinate order coordinate size))

def values (function : Sampled α) (cells : List (Grid.Cell α)) : Except Fault (List α) := do
  let axes := function.inputs.map (·.axis)
  let decoded ← function.outputs.zipIdx.mapM fun (output, channel) => do
    let value ← Grid.interpolate function.table axes cells channel
    return output.decode.apply value
  Interval.clipAll (function.outputs.map (·.range)) decoded

def evaluate (function : Sampled α) (point : List α) (scratch : Scratch α) :
    Except Fault (List α) × Scratch α :=
  match Interval.clipAll (function.inputs.map (·.domain)) point with
  | .error fault => (.error fault, scratch)
  | .ok clipped =>
    let count := function.inputs.length
    match locate function.order (function.inputs.zip clipped) 0 (scratch.reserve count) with
    | (.error fault, left) => (.error fault, left)
    | (.ok (), filled) => (function.values (filled.cells.toList.take count), filled)

end Sampled

end PdfPrimitives
