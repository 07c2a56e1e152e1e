import PdfPrimitives.Function.Basic

/-!
Functions from the entries of a dictionary. Pairs are written flat there, and entries
that a kind of function does not have are not looked at.
-/

namespace PdfPrimitives

structure FunctionDictionary (α : Type) where
  functionType : Int
  domain : List α
  range : Option (List α)
  size : List Nat
  bitsPerSample : Nat
  order : Option Nat
  encode : Option (List α)
  decode : Option (List α)
  start : Option (List α)
  stop : Option (List α)
  exponent : α
  functions : List (FunctionDictionary α)
  bounds : List α
  stream : List UInt8

namespace FunctionDictionary

variable {α : Type}

def pairs : List α → Except Fault (List (Interval α))
  | [] => .ok []
  | [_] => .error (.parameter .dimensionMismatch)
  | low :: high :: rest => do
    let intervals ← pairs rest
    return ⟨low, high⟩ :: intervals

def optionalPairs : Option (List α) → Except Fault (Option (List (Interval α)))
  | none => .ok none
  | some values => do
    let intervals ← pairs values
    return some intervals

variable [Elementary α]

mutual

def build : FunctionDictionary α → Except Failure (PdfFunction α)
  | ⟨functionType, domain, range, size, bitsPerSample, order, encode, decode, start, stop,
      exponent, functions, bounds, stream⟩ => do
    let domain ← (pairs domain : Except Fault _)
    let range ← (optionalPairs range : Except Fault _)
    if functionType = 0 then
      let encode ← (optionalPairs encode : Except Fault _)
      let decode ← (optionalPairs decode : Except Fault _)
      PdfFunction.ofSampled
        ⟨domain, range.getD [], size, bitsPerSample, order.getD 1, encode, decode, stream⟩
    else if functionType = 2 then
      PdfFunction.ofExponential ⟨domain, range, exponent, start, stop⟩
    else if functionType = 3 then
      let pieces ← buildAll functions
      let encode ← (pairs (encode.getD []) : Except Fault _)
      PdfFunction.ofStitching domain range pieces bounds encode
    else if functionType = 4 then
      PdfFunction.ofProgram domain (range.getD []) stream
    else
      .error ⟨.parameter (.functionType functionType),
        ["unknown function type " ++ toString functionType]⟩

def buildAll : List (FunctionDictionary α) → Except Failure (List (PdfFunction α))
  | [] => .ok []
  | dictionary :: rest => do
    let function ← build dictionary
    let functions ← buildAll rest
    return function :: functions

end

end FunctionDictionary

end PdfPrimitives
