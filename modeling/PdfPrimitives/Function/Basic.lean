import PdfPrimitives.Calculator.Compile
import PdfPrimitives.Calculator.Machine
import PdfPrimitives.Function.Sampled
import PdfPrimitives.Function.Stitching

/-!
The four kinds of functions, and how each is built and evaluated.
-/

namespace PdfPrimitives

structure Calculation (α : Type) where
  domain : List (Interval α)
  range : List (Interval α)
  program : Calculator.Program

inductive PdfFunction (α : Type) where
  | sampled (function : Sampled α)
  | exponential (function : Exponential α)
  | stitching (parts : Stitching α) (pieces : List (PdfFunction α))
  | calculation (function : Calculation α)

namespace Calculation

variable {α : Type} [Elementary α]

def ofText (domain range : List (Interval α)) (text : List UInt8) :
    Except Failure (Calculation α) :=
  if range.isEmpty then .error (Failure.silent (.parameter .missingRange))
  else if domain.isEmpty then .error (Failure.silent (.parameter .dimensionMismatch))
  else
    match Calculator.Program.compile text with
    | .ok program => .ok ⟨domain, range, program⟩
    | .error failure => .error { failure with fault := .badProgram }

def evaluate (function : Calculation α) (input : List α) : Except Failure (List α) := do
  let clipped ← (Interval.clipAll function.domain input : Except Fault (List α))
  function.program.execute clipped function.range

end Calculation

namespace PdfFunction

variable {α : Type} [Elementary α]

def domain : PdfFunction α → List (Interval α)
  | sampled function => function.inputs.map (·.domain)
  | exponential function => [function.domain]
  | stitching parts _ => [parts.domain]
  | calculation function => function.domain

def range : PdfFunction α → Option (List (Interval α))
  | sampled function => some (function.outputs.map (·.range))
  | exponential function => function.range
  | stitching parts _ => parts.range
  | calculation function => some function.range

def inputCount (function : PdfFunction α) : Nat := function.domain.length

def outputCount : PdfFunction α → Nat
  | sampled function => function.outputs.length
  | exponential function => function.channels.length
  | stitching parts _ => parts.outputCount
  | calculation function => function.range.length

def creating {β : Type} (kind : String) : Except Failure β → Except Failure β
  | .ok value => .ok value
  | .error failure =>
    .error (failure.warn ("failed to create " ++ kind ++ " function: " ++ failure.fault.message))

def ofSampled (description : SampledDescription α) : Except Failure (PdfFunction α) :=
  creating "sampled" do
    let function ← (Sampled.ofDescription description : Except Fault (Sampled α))
    return sampled function

def ofExponential (description : ExponentialDescription α) : Except Failure (PdfFunction α) :=
  creating "exponential" do
    let function ← (Exponential.ofDescription description : Except Fault (Exponential α))
    return exponential function

def ofStitching (domain : List (Interval α)) (range : Option (List (Interval α)))
    (pieces : List (PdfFunction α)) (bounds : List α) (encode : List (Interval α)) :
    Except Failure (PdfFunction α) :=
  creating "stitching" do
    let shapes := pieces.map fun piece => (piece.inputCount, piece.outputCount)
    let parts ←
      (Stitching.ofParts domain range shapes bounds encode : Except Fault (Stitching α))
    return stitching parts pieces

def ofProgram (domain range : List (Interval α)) (text : List UInt8) :
    Except Failure (PdfFunction α) :=
  creating "PostScript" do
    let function ← Calculation.ofText domain range text
    return calculation function

mutual

def scratchSize : PdfFunction α → Nat
  | sampled function => function.inputs.length
  | exponential _ => 0
  | stitching _ pieces => scratchSizes pieces
  | calculation _ => 0

def scratchSizes : List (PdfFunction α) → Nat
  | [] => 0
  | piece :: rest => max (scratchSize piece) (scratchSizes rest)

end

def scratch (function : PdfFunction α) : Scratch α :=
  Scratch.empty.reserve function.scratchSize

def mismatch {β : Type} : Except Failure β :=
  .error (Failure.silent (.parameter .dimensionMismatch))

def silently {β : Type} : Except Fault β → Except Failure β
  | .ok value => .ok value
  | .error fault => .error (Failure.silent fault)

mutual

def evaluateWith : PdfFunction α → List α → Scratch α → Except Failure (List α) × Scratch α
  | sampled function, input, scratch =>
    if input.length ≠ function.inputs.length then (mismatch, scratch)
    else
      let (result, left) := function.evaluate input scratch
      (silently result, left)
  | exponential function, input, scratch =>
    match input with
    | [x] => (silently (function.evaluate x), scratch)
    | _ => (mismatch, scratch)
  | stitching parts pieces, input, scratch =>
    match input with
    | [x] =>
      let (index, inside) := parts.locate x
      let (result, left) :=
        evaluatePiece pieces index [parts.encodeAt index inside] scratch
      match result with
      | .ok values => (silently (clipToRange parts.range values), left)
      | .error failure => (.error failure, left)
    | _ => (mismatch, scratch)
  | calculation function, input, scratch =>
    if input.length ≠ function.domain.length then (mismatch, scratch)
    else (function.evaluate input, scratch)

def evaluatePiece :
    List (PdfFunction α) → Nat → List α → Scratch α → Except Failure (List α) × Scratch α
  | [], _, _, scratch => (mismatch, scratch)
  | piece :: _, 0, input, scratch => evaluateWith piece input scratch
  | _ :: rest, index + 1, input, scratch => evaluatePiece rest index input scratch

end

def evaluate (function : PdfFunction α) (input : List α) : Except Failure (List α) :=
  (function.evaluateWith input function.scratch).1

end PdfFunction

end PdfPrimitives
