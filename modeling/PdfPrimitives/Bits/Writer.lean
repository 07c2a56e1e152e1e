import PdfPrimitives.Bits.Field

/-!
Writing of bit fields into a buffer that already has its final size. A field is
written piece by piece, one piece for each byte it touches, and a piece changes
no other bit of its byte.
-/

namespace PdfPrimitives.Bits

structure Writer where
  buffer : Array UInt8
  position : Nat
  width : Nat
  isWidth_width : isWidth width
  deriving Repr

namespace Writer

def new? (buffer : Array UInt8) (width : Nat) : Option Writer :=
  if valid : isWidth width then some ⟨buffer, 0, width, valid⟩ else none

def merge (byte : UInt8) (take shift : Nat) (chunk : UInt32) : UInt8 :=
  let window := (mask take).toUInt8 <<< shift.toUInt8
  let bits := (chunk &&& mask take).toUInt8 <<< shift.toUInt8
  (byte &&& ~~~window) ||| bits

/-- Write the lowest `remaining` bits of `value`. The pieces before the end of
the buffer are written even if the field does not fit. -/
def put (value : UInt32) (remaining : Nat) (writer : Writer) : Bool × Writer :=
  if open_ : remaining = 0 then (true, writer)
  else if inside : writer.position / 8 < writer.buffer.size then
    let free := 8 - writer.position % 8
    let take := min free remaining
    let left := remaining - take
    let byte := merge writer.buffer[writer.position / 8] take (free - take)
      (value >>> left.toUInt32)
    put value left { writer with
      buffer := writer.buffer.set (writer.position / 8) byte
      position := writer.position + take }
  else (false, writer)
termination_by remaining
decreasing_by
  have := Nat.mod_lt writer.position (by decide : 0 < 8)
  omega

def write (writer : Writer) (value : UInt32) : Bool × Writer :=
  put (value &&& mask writer.width) writer.width writer

def writeAll (writer : Writer) : List UInt32 → Bool × Writer
  | [] => (true, writer)
  | value :: rest =>
    match writer.write value with
    | (true, next) => next.writeAll rest
    | failed => failed

end Writer

end PdfPrimitives.Bits
