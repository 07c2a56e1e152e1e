/-!
Fields of up to 32 bits, laid out most significant bit first and without any
alignment between one field and the next.
-/

namespace PdfPrimitives.Bits

def isWidth (width : Nat) : Bool := 1 ≤ width && width ≤ 32

def mask (width : Nat) : UInt32 := UInt32.ofNat (Nat.pow 2 width - 1)

def countLimit : Nat := Nat.pow 2 64

/-- The number of bytes that hold `count` fields of `width` bits. There is none
if the number of bits is too large to count. -/
def packedLength (count width : Nat) : Option Nat :=
  if count * width < countLimit then some ((count * width + 7) / 8) else none

end PdfPrimitives.Bits
