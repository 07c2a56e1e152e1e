import PdfPrimitives.Text.Byte
import PdfPrimitives.Token.Basic

/-!
Numbers among words. A word of digits, after a sign if wanted, is an integer, and a
real if there is one point among the digits. There are no exponents. An integer that
does not fit into 32 bits is a real.
-/

namespace PdfPrimitives.Token

def fits (value : Int) : Bool :=
  Int32.minValue.toInt ≤ value && value ≤ Int32.maxValue.toInt

/-- Go on with an integer digit by digit, away from zero, while it fits. -/
def accumulate (negative : Bool) : List UInt8 → Int → Option Int
  | [], value => some value
  | byte :: rest, value =>
    let digit : Int := Numeral.digitValue byte
    let next := if negative then 10 * value - digit else 10 * value + digit
    if fits next then accumulate negative rest next else none

def number? (word : List UInt8) : Option Token :=
  let (negative, run) := Numeral.Decimal.splitSign word
  let (whole, rest) := Numeral.spanDigits run
  match rest with
  | [] =>
    if whole.isEmpty then none
    else
      match accumulate negative whole 0 with
      | some value => some (.integer (Int32.ofInt value))
      | none => some (.real (.ofDecimal (.ofDigits negative whole [])))
  | byte :: fraction =>
    if byte = Byte.point && fraction.all Numeral.isDigit &&
        !(whole.isEmpty && fraction.isEmpty) then
      some (.real (.ofDecimal (.ofDigits negative whole fraction)))
    else none

def ofWord (word : List UInt8) : Token := (number? word).getD (.keyword word)

end PdfPrimitives.Token
