import PdfPrimitives.Text.Byte

/-!
The text of a calculator program as a list of words. Braces are words of their own;
whitespace and comments only separate words.
-/

namespace PdfPrimitives.Calculator

namespace Lexeme

inductive Place where
  | between
  | comment
  | word (bytes : Array UInt8)

def scan : Place → List UInt8 → List (List UInt8)
  | .word bytes, [] => [bytes.toList]
  | _, [] => []
  | .between, byte :: rest =>
    if Byte.isBlank byte then scan .between rest
    else if byte == Byte.percent then scan .comment rest
    else if Byte.isBrace byte then [byte] :: scan .between rest
    else scan (.word #[byte]) rest
  | .comment, byte :: rest =>
    if Byte.isLineBreak byte then scan .between rest else scan .comment rest
  | .word bytes, byte :: rest =>
    if Byte.isBlank byte then bytes.toList :: scan .between rest
    else if byte == Byte.percent then bytes.toList :: scan .comment rest
    else if Byte.isBrace byte then bytes.toList :: [byte] :: scan .between rest
    else scan (.word (bytes.push byte)) rest

end Lexeme

def lexemes (text : List UInt8) : List (List UInt8) := Lexeme.scan .between text

end PdfPrimitives.Calculator
