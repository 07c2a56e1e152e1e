/-!
Decimal digits as ASCII bytes.
-/

namespace PdfPrimitives.Numeral

def isDigit (byte : UInt8) : Bool := 0x30 ≤ byte && byte ≤ 0x39

def digitValue (byte : UInt8) : Nat := byte.toNat - 0x30

def digitByte (n : Nat) : UInt8 := UInt8.ofNat (0x30 + n)

def valueOf (run : List UInt8) : Nat :=
  run.foldl (fun value byte => 10 * value + digitValue byte) 0

def digitsOf (n : Nat) : List UInt8 :=
  if n < 10 then [digitByte n] else digitsOf (n / 10) ++ [digitByte (n % 10)]

def signedDigitsOf (n : Int) : List UInt8 :=
  if n < 0 then 0x2d :: digitsOf n.natAbs else digitsOf n.natAbs

def padded (width : Nat) (run : List UInt8) : List UInt8 :=
  List.replicate (width - run.length) 0x30 ++ run

def spanDigits (bytes : List UInt8) : List UInt8 × List UInt8 :=
  (bytes.takeWhile isDigit, bytes.dropWhile isDigit)

end PdfPrimitives.Numeral
