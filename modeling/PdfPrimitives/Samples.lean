import PdfPrimitives.Bits.Reader
import PdfPrimitives.Bits.Writer
import PdfPrimitives.Function.Fault

/-!
Sample tables as streams of packed bits. No padding stands between two samples.
-/

namespace PdfPrimitives.Samples

def countLimit : Nat := Nat.pow 2 32

def unpack (data : List UInt8) (width points channels : Nat) :
    Except Fault (Array UInt32) :=
  if !Bits.isWidth width then .error (.parameter (.bitsPerSample width))
  else
    let count := points * channels
    if countLimit ≤ count then .error .overflow
    else if (Bits.packedLength count width).any (· ≤ data.length) then
      match Bits.Reader.readMany width count (.ofBytes data) #[] with
      | some samples => .ok samples
      | none => .error .truncated
    else .error .truncated

def pack (samples : List UInt32) (width : Nat) : Option (List UInt8) := do
  let length ← Bits.packedLength samples.length width
  let writer ← Bits.Writer.new? (Array.replicate length 0) width
  match writer.writeAll samples with
  | (true, written) => return written.buffer.toList
  | (false, _) => none

end PdfPrimitives.Samples
