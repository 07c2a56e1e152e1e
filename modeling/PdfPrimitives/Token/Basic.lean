import PdfPrimitives.Numeral.Single

/-!
The tokens of PDF syntax.
-/

namespace PdfPrimitives

inductive Delimiter where
  | dictionaryStart
  | dictionaryEnd
  | arrayStart
  | arrayEnd
  | procedureStart
  | procedureEnd
  deriving Repr, DecidableEq

inductive Token where
  | integer (value : Int32)
  | real (value : Numeral.Single)
  /-- A string, without its escapes. -/
  | string (bytes : List UInt8)
  /-- A name, without its slash and its escapes. -/
  | name (bytes : List UInt8)
  /-- A run of regular bytes that is not a number. -/
  | keyword (bytes : List UInt8)
  /-- A comment, without its percent sign and its line break. -/
  | comment (bytes : List UInt8)
  | delimiter (delimiter : Delimiter)
  deriving Repr, DecidableEq

namespace Token

def bytes? : Token → Option (List UInt8)
  | .string bytes | .name bytes | .keyword bytes | .comment bytes => some bytes
  | .integer _ | .real _ | .delimiter _ => none

def doubleBits? : Token → Option UInt64
  | .integer value =>
    some (Numeral.doubleBits ⟨value.toInt < 0, value.toInt.natAbs, 0⟩)
  | .real value => some value.toDoubleBits
  | _ => none

def isKeyword (token : Token) (word : List UInt8) : Bool := token = .keyword word

def sameValue : Token → Token → Bool
  | .real left, .real right => left.sameValue right
  | left, right => left = right

end Token

end PdfPrimitives
