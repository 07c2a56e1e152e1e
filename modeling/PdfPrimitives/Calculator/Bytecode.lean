import PdfPrimitives.Calculator.Program
import PdfPrimitives.Function.Fault

/-!
The byte encoding of calculator programs. An operator is its tag, a number a tag and
its pattern, and a skip a tag and the number of bytes that it passes over. Words are
stored with their lowest byte first.
-/

namespace PdfPrimitives.Calculator

namespace Bytecode

def literalTag : UInt8 := 0xf0

def skipTag : UInt8 := 0xf1

def skipUnlessTag : UInt8 := 0xf2

def placeholderTag : UInt8 := 0xf3

def stopTag : UInt8 := 0xf4

def wordBytes : Nat → Nat → List UInt8
  | 0, _ => []
  | count + 1, n => UInt8.ofNat n :: wordBytes count (n / 256)

def wordValue : List UInt8 → Nat
  | [] => 0
  | byte :: rest => byte.toNat + 256 * wordValue rest

def size : Instruction → Nat
  | .literal _ => 9
  | .skipUnless _ | .skip _ => 5
  | .operator _ | .placeholder | .stop => 1

def offsetsFrom (start : Nat) : List Instruction → List Nat
  | [] => [start]
  | instruction :: rest => start :: offsetsFrom (start + size instruction) rest

def offsets (code : List Instruction) : List Nat := offsetsFrom 0 code

/-- How far behind a skip that ends at `stop` its target begins. A target that is no place
of the code, or that lies before the end of the skip, has no distance. -/
def distance (offsets : List Nat) (stop target : Nat) : Nat :=
  offsets[target]?.getD stop - stop

def encodeOne (offsets : List Nat) (start : Nat) : Instruction → List UInt8
  | .literal bits => literalTag :: wordBytes 8 bits.toNat
  | .operator operator => [operator.tag]
  | .skipUnless target => skipUnlessTag :: wordBytes 4 (distance offsets (start + 5) target)
  | .skip target => skipTag :: wordBytes 4 (distance offsets (start + 5) target)
  | .placeholder => [placeholderTag]
  | .stop => [stopTag]

def encodeFrom (offsets : List Nat) : Nat → List Instruction → List UInt8
  | _, [] => []
  | start, instruction :: rest =>
    encodeOne offsets start instruction ++ encodeFrom offsets (start + size instruction) rest

def distance? (bytes : List UInt8) : Option Nat :=
  if wordValue bytes < Nat.pow 2 31 then some (wordValue bytes) else none

/-- Split bytes into instructions whose skips lead to bytes. The first one has the offset
`start`. -/
def splitFrom (start : Nat) : List UInt8 → Option (List Instruction)
  | [] => some []
  | tag :: payload =>
    if tag = literalTag then
      match payload with
      | a :: b :: c :: d :: e :: f :: g :: h :: rest => do
        let instructions ← splitFrom (start + 9) rest
        return .literal (UInt64.ofNat (wordValue [a, b, c, d, e, f, g, h])) :: instructions
      | _ => none
    else if tag = skipTag || tag = skipUnlessTag then
      match payload with
      | a :: b :: c :: d :: rest => do
        let distance ← distance? [a, b, c, d]
        let target := start + 5 + distance
        let instructions ← splitFrom (start + 5) rest
        return (if tag = skipTag then .skip target else .skipUnless target) :: instructions
      | _ => none
    else do
      let instruction ←
        if tag = placeholderTag then some .placeholder
        else if tag = stopTag then some .stop
        else (Operator.ofTag? tag).map .operator
      let instructions ← splitFrom (start + 1) payload
      return instruction :: instructions

def retarget? (find : Nat → Option Nat) : Instruction → Option Instruction
  | .skipUnless target => (find target).map .skipUnless
  | .skip target => (find target).map .skip
  | other => some other

/-- Turn skips to bytes into skips to the instructions that begin there, or to the end. -/
def resolve (raw : List Instruction) : Option (List Instruction) :=
  let offsets := offsets raw
  raw.mapM (retarget? fun target => offsets.idxOf? target)

end Bytecode

namespace Program

def toBytes (program : Program) : List UInt8 :=
  Bytecode.encodeFrom (Bytecode.offsets program.instructions) 0 program.instructions

def ofBytes (bytes : List UInt8) : Except Failure Program :=
  match Bytecode.splitFrom 0 bytes with
  | none => .error (Failure.silent .programStructure)
  | some raw =>
    match Bytecode.resolve raw with
    | none =>
      .error ⟨.programStructure, ["invalid jump target in encoded PostScript function"]⟩
    | some instructions => .ok ⟨instructions⟩

end Program

end PdfPrimitives.Calculator
