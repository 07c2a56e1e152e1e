import PdfPrimitives.Proofs.Token.Nesting
import PdfPrimitives.Proofs.Token.UnbrokenLines

/-!
Spaces between tokens. A space is written behind a token that a regular byte would go on with, in
front of a token that begins with one, and just these two can not be read one right behind the
other.
-/

namespace PdfPrimitives

open Lexical

namespace Token

def isWord : Token → Bool
  | .integer _ | .real _ | .keyword _ => true
  | _ => false

def isOpen : Token → Bool
  | .name _ => true
  | token => token.isWord

end Token

namespace Line

variable {line : Line}

def gap (line : Line) (token : Token) : List UInt8 :=
  if token.isWord && line.touching then [Byte.space] else []

end Line

namespace Token

variable {style : WriteFlags} {token : Token} {text : List UInt8}

end Token

namespace Line

end Line

/-- A token that default flags let a reader give back: no comment, a name with its escapes, a
word or a name that fits into the reader, and a string whose pairs are counted in 32 bits. -/
def Token.Stands (style : WriteFlags) : Token → Prop
  | .string bytes => bytes.length < 2 ^ 32
  | .name bytes => style.plainNames = false ∧ bytes.length ≤ wordCapacity
  | .keyword bytes => IsWord bytes ∧ number? bytes = none
  | .comment _ => False
  | _ => True

section Neighbours

variable {style other : WriteFlags} {token : Token} {text : List UInt8}

theorem Token.Stands.fits (stands : token.Stands style) : token.Fits := by
  cases token with
  | name bytes => exact stands.2
  | keyword bytes => exact stands
  | comment bytes => exact stands.elim
  | integer | real | string | delimiter => trivial

theorem Token.Stands.suits (stands : token.Stands style) : token.Suits .none := by
  cases token with
  | name bytes => nofun
  | comment bytes => exact stands.elim
  | integer | real | string | keyword | delimiter => trivial

variable {flags : ReadFlags}

end Neighbours

namespace Writer

def alone (style : WriteFlags) (token : Token) : List UInt8 :=
  ((new.setLimit 0).write style token).2.output

end Writer

end PdfPrimitives
