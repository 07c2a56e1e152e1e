import PdfPrimitives.Bits.Field

/-!
Reading of bit fields. Whole bytes are shifted into a word until it holds enough
bits for the field, which is then taken from its top. Between two reads the word
holds exactly the bits that were shifted in and not yet handed out.
-/

namespace PdfPrimitives.Bits

structure Reader where
  rest : List UInt8
  taken : Nat
  word : UInt64
  held : Nat
  deriving Repr, DecidableEq

namespace Reader

def ofBytes (bytes : List UInt8) : Reader := ⟨bytes, 0, 0, 0⟩

def fill (width : Nat) : List UInt8 → Nat → UInt64 → Nat → Reader
  | [], taken, word, held => ⟨[], taken, word, held⟩
  | byte :: rest, taken, word, held =>
    if held < width then
      fill width rest (taken + 1) (word <<< 8 ||| byte.toUInt64) (held + 8)
    else ⟨byte :: rest, taken, word, held⟩

/-- The next `width` bits as a number. There is none if `width` is not a field
width or fewer bits are left; the bits that are left stay available. -/
def read (reader : Reader) (width : Nat) : Option UInt32 × Reader :=
  if isWidth width then
    let filled := fill width reader.rest reader.taken reader.word reader.held
    if filled.held < width then (none, filled)
    else
      let held := filled.held - width
      let value := (filled.word >>> held.toUInt64).toUInt32 &&& mask width
      (some value, { filled with
        held
        word := filled.word &&& ((1 <<< held.toUInt64) - 1) })
  else (none, reader)

def bitsRead (reader : Reader) : Nat := reader.taken * 8 - reader.held

def atEnd (reader : Reader) : Bool := reader.held == 0 && reader.rest.isEmpty

def readMany (width : Nat) : Nat → Reader → Array UInt32 → Option (Array UInt32)
  | 0, _, fields => some fields
  | count + 1, reader, fields =>
    match reader.read width with
    | (some value, next) => readMany width count next (fields.push value)
    | (none, _) => none

end Reader

end PdfPrimitives.Bits
