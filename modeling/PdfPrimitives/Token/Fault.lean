import PdfPrimitives.Text.Byte

/-!
What can go wrong when tokens are read or written.
-/

namespace PdfPrimitives

inductive StreamFault where
  | unexpectedEnd
  | brokenPipe
  | permissionDenied
  | timedOut
  | other
  | writeZero
  deriving Repr, DecidableEq

inductive TokenFault where
  /-- A byte that may not stand where it stands. -/
  | invalidCharacter (byte : UInt8)
  | unterminatedString
  | unterminatedHexString
  /-- One closing angle bracket where there should be two. -/
  | unterminatedDictionary
  /-- A name that ends inside an escape. -/
  | unterminatedName
  /-- A name or keyword that is too long. -/
  | bufferExhausted
  /-- A token that has no spelling. -/
  | badToken
  | stream (fault : StreamFault)
  deriving Repr, DecidableEq

namespace StreamFault

def message : StreamFault → String
  | .unexpectedEnd => "unexpected end of file"
  | .brokenPipe => "broken pipe"
  | .permissionDenied => "permission denied"
  | .timedOut => "timed out"
  | .other => "other error"
  | .writeZero => "write zero"

end StreamFault

namespace TokenFault

def hexText (byte : UInt8) : String :=
  String.ofList ((Byte.hexDigits byte).map fun digit => (Char.ofNat digit.toNat).toLower)

def message : TokenFault → String
  | .invalidCharacter byte => "invalid character 0x" ++ hexText byte
  | .unterminatedString => "unterminated string"
  | .unterminatedHexString => "unterminated hex string"
  | .unterminatedDictionary => "unterminated dictionary end marker"
  | .unterminatedName => "unterminated name escape"
  | .bufferExhausted => "token buffer exhausted"
  | .badToken => "token can't be written"
  | .stream fault => "I/O error: " ++ fault.message

end TokenFault

end PdfPrimitives
