import PdfPrimitives.Token.Basic
import PdfPrimitives.Token.Escape
import PdfPrimitives.Token.Line

/-!
How a token is written on a line: the pieces that go to the sink one after the other,
with what separates the token from the one before.
-/

namespace PdfPrimitives

namespace Delimiter

def spelling : Delimiter → List UInt8
  | dictionaryStart => [Byte.less, Byte.less]
  | dictionaryEnd => [Byte.greater, Byte.greater]
  | arrayStart => [Byte.openBracket]
  | arrayEnd => [Byte.closeBracket]
  | procedureStart => [Byte.openBrace]
  | procedureEnd => [Byte.closeBrace]

end Delimiter

namespace Token

def realSpelling? (value : Numeral.Single) : Option (List UInt8) :=
  if value.isFinite then
    let text := value.text
    some (if text.contains Byte.point then text else text ++ [Byte.point])
  else none

/-- How many bytes of a string have to fit on the line. The rest may be broken off. -/
def stringReserve : Nat := 20

end Token

namespace Line

def separated (line : Line) (spaced : Bool) (pieces : List (List UInt8)) : List (List UInt8) :=
  line.separator spaced pieces.flatten.length :: pieces

def hexPieces (line : Line) (bytes : List UInt8) : List (List UInt8) :=
  let separator := line.separator false (min (2 * bytes.length + 2) Token.stringReserve)
  [separator, (line.advance separator).hexadecimal bytes]

def literalPieces (flags : WriteFlags) (line : Line) (bytes : List UInt8) :
    List (List UInt8) :=
  let separator := line.separator false (min (bytes.length + 2) Token.stringReserve)
  [separator, (line.advance separator).literal (Escape.pieces flags bytes)]

/-- A string in the shorter form, which is the one in parentheses unless escapes make
it longer than two digits a byte. -/
def stringPieces (flags : WriteFlags) (line : Line) (bytes : List UInt8) :
    List (List UInt8) :=
  if flags.hexStrings || 2 * bytes.length < Escape.length flags bytes then line.hexPieces bytes
  else line.literalPieces flags bytes

def pieces? (flags : WriteFlags) (line : Line) : Token → Option (List (List UInt8))
  | .integer value => some (line.separated true [Numeral.signedDigitsOf value.toInt])
  | .real value => (Token.realSpelling? value).map fun text => line.separated true [text]
  | .string bytes => some (line.stringPieces flags bytes)
  | .name bytes => (Escape.name? flags bytes).map fun text => line.separated false [text]
  | .keyword bytes => if bytes.contains 0 then none else some (line.separated true [bytes])
  | .comment bytes =>
    if bytes.any Byte.isLineBreak then none
    else
      some [line.separator false (bytes.length + 1), [Byte.percent], bytes, [Byte.lineFeed]]
  | .delimiter kind => some (line.separated false [kind.spelling])

/-- The line behind a token whose pieces are on it. A regular byte would go on with a
name even if the name is empty. -/
def behind (line : Line) : Token → Line
  | .name _ => { line with touching := true }
  | _ => line

end Line

end PdfPrimitives
