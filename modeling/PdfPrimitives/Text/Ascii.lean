/-!
ASCII text as bytes.
-/

namespace PdfPrimitives.Text

def ascii (text : String) : List UInt8 := text.toList.map fun c => UInt8.ofNat c.toNat

end PdfPrimitives.Text
