import PdfPrimitives.Scalar
import PdfPrimitives.Function.Fault

/-!
Interpolation over a grid of samples with any number of dimensions. In each dimension
a point lies at or behind some grid index, and up to four samples around it have a
weight. The value at the point is the weighted sum over all combinations, worked out
one dimension at a time. A weight of exactly zero means that a sample is not looked
at, which keeps the sum inside the grid.
-/

namespace PdfPrimitives.Grid

inductive Order where
  | linear
  | cubic
  deriving Repr, DecidableEq

/-- The place of a point along one dimension, and the weights of the samples before
its index, at it, and one and two behind it. -/
structure Cell (α : Type) where
  index : Nat
  before : α
  here : α
  after : α
  beyond : α
  deriving Repr

namespace Cell

variable {α : Type} [Scalar α]

def empty : Cell α := ⟨0, 0.0, 0.0, 0.0, 0.0⟩

def onSample (index : Nat) : Cell α := ⟨index, 0.0, 1.0, 0.0, 0.0⟩

def linear (index : Nat) (v : α) : Cell α := ⟨index, 0.0, 1.0 - v, v, 0.0⟩

def cubicFirst (index : Nat) (v : α) : Cell α :=
  ⟨index, 0.0, (0.5 * v - 1.5) * v + 1.0, (2.0 - v) * v, 0.5 * (v - 1.0) * v⟩

def cubicInner (index : Nat) (v : α) : Cell α :=
  ⟨index,
    ((-0.5 * v + 1.0) * v - 0.5) * v,
    (1.5 * v - 2.5) * v * v + 1.0,
    ((-1.5 * v + 2.0) * v + 0.5) * v,
    (0.5 * v - 0.5) * v * v⟩

def cubicLast (index : Nat) (v : α) : Cell α :=
  ⟨index, -0.5 * v * (1.0 - v), 1.0 - v * v, 0.5 * v * (1.0 + v), 0.0⟩

def ofCoordinate (order : Order) (coordinate : α) (size : Nat) : Cell α :=
  let last := size - 1
  if Scalar.ofInt last ≤ coordinate then onSample last
  else
    let index := (Scalar.toInt (Scalar.floor coordinate)).toNat
    let v := coordinate - Scalar.ofInt index
    match order with
    | .linear => linear index v
    | .cubic =>
      if last ≤ index + 1 then
        if 1 ≤ index then cubicLast index v else linear index v
      else if 1 ≤ index then cubicInner index v
      else cubicFirst index v

def taps (cell : Cell α) : List (α × Int) :=
  [(cell.before, -1), (cell.here, 0), (cell.after, 1), (cell.beyond, 2)]

end Cell

structure Axis where
  /-- The number of samples along it. -/
  size : Nat
  /-- The distance between two neighbours, in grid points. -/
  stride : Nat
  deriving Repr, DecidableEq

/-- Axes of the given sizes, the first of which varies fastest. -/
def axes : Nat → List Nat → List Axis
  | _, [] => []
  | stride, size :: sizes => ⟨size, stride⟩ :: axes (stride * size) sizes

variable {α : Type} [Scalar α]

structure Table (α : Type) where
  samples : Array α
  channels : Nat

def Table.sample (table : Table α) (point channel : Nat) : Except Fault α :=
  match table.samples[point * table.channels + channel]? with
  | some value => .ok value
  | none => .error .badSampleData

/-- The weighted sum over the given dimensions, the last one first, from the grid point
`offset` on. -/
def blend (table : Table α) (channel : Nat) : List (Axis × Cell α) → Nat → Except Fault α
  | [], offset => table.sample offset channel
  | (axis, cell) :: rest, offset =>
    cell.taps.foldlM (fun sum (weight, distance) =>
      if weight == (0.0 : α) then .ok sum
      else
        let index := (cell.index : Int) + distance
        if 0 ≤ index && index < axis.size then do
          let value ← blend table channel rest (offset + index.toNat * axis.stride)
          return sum + weight * value
        else .error .badSampleData) 0.0

def interpolate (table : Table α) (axes : List Axis) (cells : List (Cell α)) (channel : Nat) :
    Except Fault α :=
  blend table channel (axes.zip cells).reverse 0

end PdfPrimitives.Grid
