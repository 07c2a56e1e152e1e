/-!
The classes of bytes that the syntax of tokens and of calculator programs is made of.
-/

namespace PdfPrimitives.Byte

def lineFeed : UInt8 := 0x0a

def carriageReturn : UInt8 := 0x0d

def space : UInt8 := 0x20

def hash : UInt8 := 0x23

def percent : UInt8 := 0x25

def openParen : UInt8 := 0x28

def closeParen : UInt8 := 0x29

def point : UInt8 := 0x2e

def slash : UInt8 := 0x2f

def less : UInt8 := 0x3c

def greater : UInt8 := 0x3e

def openBracket : UInt8 := 0x5b

def backslash : UInt8 := 0x5c

def closeBracket : UInt8 := 0x5d

def openBrace : UInt8 := 0x7b

def closeBrace : UInt8 := 0x7d

def isBlank (byte : UInt8) : Bool :=
  byte == 0x00 || byte == 0x09 || byte == lineFeed || byte == 0x0c ||
    byte == carriageReturn || byte == space

def isLineBreak (byte : UInt8) : Bool := byte == lineFeed || byte == carriageReturn

def isParen (byte : UInt8) : Bool := byte == openParen || byte == closeParen

def isBrace (byte : UInt8) : Bool := byte == openBrace || byte == closeBrace

def isDelimiter (byte : UInt8) : Bool :=
  isParen byte || byte == less || byte == greater || byte == openBracket ||
    byte == closeBracket || isBrace byte || byte == slash || byte == percent

def isRegular (byte : UInt8) : Bool := !isBlank byte && !isDelimiter byte

def isVisible (byte : UInt8) : Bool := 0x21 ≤ byte && byte ≤ 0x7e

def hexValue? (byte : UInt8) : Option UInt8 :=
  if 0x30 ≤ byte && byte ≤ 0x39 then some (byte - 0x30)
  else if 0x41 ≤ byte && byte ≤ 0x46 then some (byte - 0x41 + 10)
  else if 0x61 ≤ byte && byte ≤ 0x66 then some (byte - 0x61 + 10)
  else none

def hexDigit (value : UInt8) : UInt8 := if value < 10 then 0x30 + value else 0x37 + value

def hexDigits (byte : UInt8) : List UInt8 := [hexDigit (byte >>> 4), hexDigit (byte &&& 0x0f)]

end PdfPrimitives.Byte
