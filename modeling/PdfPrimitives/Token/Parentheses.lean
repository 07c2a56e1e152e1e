import PdfPrimitives.Text.Byte

/-!
Which parentheses of a string have no partner. A closing one takes the last one that
is open as its partner.
-/

namespace PdfPrimitives.Parentheses

structure Scan where
  position : Nat
  /-- The opening ones, which may still find a partner, last one first. -/
  opened : List Nat
  /-- The closing ones, last one first. -/
  unopened : List Nat

namespace Scan

def start : Scan := ⟨0, [], []⟩

def push (scan : Scan) (byte : UInt8) : Scan :=
  let position := scan.position + 1
  if byte = Byte.openParen then ⟨position, scan.position :: scan.opened, scan.unopened⟩
  else if byte = Byte.closeParen then
    match scan.opened with
    | _ :: opened => ⟨position, opened, scan.unopened⟩
    | [] => ⟨position, [], scan.position :: scan.unopened⟩
  else { scan with position }

end Scan

/-- The places of the parentheses without a partner. They ascend: a closing one without
a partner finds nothing open, so what stays open comes behind it. -/
def unmatched (bytes : List UInt8) : List Nat :=
  let scan := bytes.foldl Scan.push Scan.start
  scan.unopened.reverse ++ scan.opened.reverse

structure Walk where
  position : Nat
  pending : List Nat
  /-- Of each byte so far, whether its place is one of them. -/
  marks : Array Bool

def Walk.push (walk : Walk) (_ : UInt8) : Walk :=
  match walk.pending with
  | [] => ⟨walk.position + 1, [], walk.marks.push false⟩
  | next :: later =>
    if next = walk.position then ⟨walk.position + 1, later, walk.marks.push true⟩
    else ⟨walk.position + 1, next :: later, walk.marks.push false⟩

def marks (bytes : List UInt8) : List Bool :=
  (bytes.foldl Walk.push ⟨0, unmatched bytes, #[]⟩).marks.toList

end PdfPrimitives.Parentheses
