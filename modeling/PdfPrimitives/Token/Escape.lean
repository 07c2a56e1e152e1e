import PdfPrimitives.Numeral.Digits
import PdfPrimitives.Text.Utf8
import PdfPrimitives.Token.Parentheses

/-!
Escapes in strings and names. A byte of a string is escaped by a letter that stands for
it, or by the fewest octal digits that what follows it allows. A byte of a name is
escaped by two hexadecimal digits.
-/

namespace PdfPrimitives

structure WriteFlags where
  /-- Names that would need an escape are refused. -/
  plainNames : Bool
  /-- Strings are written in hexadecimal digits. -/
  hexStrings : Bool
  /-- Control characters in strings are escaped, and so are bytes outside ASCII unless
  the string is UTF-8. -/
  readable : Bool
  deriving Repr, DecidableEq

def WriteFlags.ofBits (bits : Nat) : WriteFlags :=
  ⟨bits.testBit 0, bits.testBit 3, bits.testBit 4⟩

structure StringByte where
  value : UInt8
  /-- The byte that follows it in the string. -/
  next : Option UInt8
  /-- Whether it is a parenthesis without a partner. -/
  unmatched : Bool
  deriving Repr, DecidableEq

namespace StringByte

def all (bytes : List UInt8) : List StringByte :=
  let followed := bytes.zip (bytes.tail.map some ++ [none])
  followed.zipWith (fun (value, next) unmatched => ⟨value, next, unmatched⟩)
    (Parentheses.marks bytes)

def isControl (byte : UInt8) : Bool := byte == 0x7f || (byte < 0x20 && byte != Byte.lineFeed)

def isEscaped (readable utf8 : Bool) (byte : StringByte) : Bool :=
  if byte.value = Byte.backslash || byte.value = Byte.carriageReturn then true
  else if Byte.isParen byte.value then byte.unmatched
  else readable && (isControl byte.value || (0x80 ≤ byte.value && !utf8))

/-- How many octal digits stand for a byte. In front of a digit there are always three,
since the digit would be read as one of them. -/
def octalWidth (byte : StringByte) : Nat :=
  if byte.next.any Numeral.isDigit || 0o100 ≤ byte.value then 3
  else if 0o10 ≤ byte.value then 2
  else 1

def octalDigits (width : Nat) (value : UInt8) : List UInt8 :=
  (List.range width).reverse.map fun place =>
    0x30 + ((value >>> UInt8.ofNat (3 * place)) &&& 0o7)

def letter? (value : UInt8) : Option UInt8 :=
  if value = 0x08 then some 0x62
  else if value = 0x09 then some 0x74
  else if value = Byte.lineFeed then some 0x6e
  else if value = 0x0c then some 0x66
  else if value = Byte.carriageReturn then some 0x72
  else if Byte.isParen value || value = Byte.backslash then some value
  else none

def escape (byte : StringByte) : List UInt8 :=
  Byte.backslash ::
    match letter? byte.value with
    | some letter => [letter]
    | none => octalDigits byte.octalWidth byte.value

def escapeLength (byte : StringByte) : Nat :=
  let value := byte.value
  if value = 0x08 || value = 0x09 || value = Byte.lineFeed || value = 0x0c ||
      value = Byte.carriageReturn || Byte.isParen value || value = Byte.backslash then 2
  else 1 + byte.octalWidth

def piece (readable utf8 : Bool) (byte : StringByte) : List UInt8 :=
  if byte.isEscaped readable utf8 then byte.escape else [byte.value]

def pieceLength (readable utf8 : Bool) (byte : StringByte) : Nat :=
  if byte.isEscaped readable utf8 then byte.escapeLength else 1

end StringByte

namespace Escape

def keepsUtf8 (flags : WriteFlags) (bytes : List UInt8) : Bool :=
  flags.readable && Utf8.isValid bytes

def pieces (flags : WriteFlags) (bytes : List UInt8) : List (List UInt8) :=
  (StringByte.all bytes).map (StringByte.piece flags.readable (keepsUtf8 flags bytes))

def length (flags : WriteFlags) (bytes : List UInt8) : Nat :=
  ((StringByte.all bytes).map
    (StringByte.pieceLength flags.readable (keepsUtf8 flags bytes))).foldr (· + ·) 0

def isNameEscaped (byte : UInt8) : Bool :=
  !Byte.isRegular byte || byte == Byte.hash || !Byte.isVisible byte

/-- A byte of a name as it is written. Some have no spelling: NUL, and without escapes
all bytes that are not regular. -/
def nameByte? (flags : WriteFlags) (byte : UInt8) : Option (List UInt8) :=
  if byte = 0 then none
  else if flags.plainNames then
    if Byte.isRegular byte then some [byte] else none
  else if isNameEscaped byte then some (Byte.hash :: Byte.hexDigits byte)
  else some [byte]

def name? (flags : WriteFlags) (bytes : List UInt8) : Option (List UInt8) :=
  (bytes.mapM (nameByte? flags)).map fun pieces => Byte.slash :: pieces.flatten

end Escape

end PdfPrimitives
