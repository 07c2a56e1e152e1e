import PdfPrimitives.Numeral.Binary

/-!
The shortest decimal that reads back as a given binary number. Grids of powers of
ten are tried from coarse to fine; the number lies between two neighbours on each,
and the first grid with a neighbour that reads back gives the fewest digits. The
finest grid holds every number of the format exactly.
-/

namespace PdfPrimitives.Numeral.Format

/-- The neighbour of a pattern's magnitude on the grid of `10 ^ exponent` that reads
back as the pattern: the nearer one of two, and the upper one of two equally near. -/
def neighbour? (format : Format) (pattern : Nat) (exponent : Int) : Option Nat :=
  let (numerator, denominator) := format.fraction pattern
  let (upper, lower) := scale 10 numerator denominator (-exponent)
  let below := upper / lower
  let above := below + 1
  let fitsBelow := format.roundDecimal below exponent == pattern
  let fitsAbove := format.roundDecimal above exponent == pattern
  if fitsAbove && (!fitsBelow || lower ≤ 2 * (upper % lower)) then some above
  else if fitsBelow then some below
  else none

def search (format : Format) (pattern : Nat) : Nat → Nat × Int
  | 0 =>
    let (numerator, denominator) := format.fraction pattern
    let (upper, lower) := scale 10 numerator denominator (-format.floor)
    (upper / lower, format.floor)
  | steps + 1 =>
    let exponent := format.floor + (steps + 1 : Nat)
    match format.neighbour? pattern exponent with
    | some coefficient => (coefficient, exponent)
    | none => search format pattern steps

def shortest (format : Format) (pattern : Nat) : Nat × Int :=
  if pattern = 0 then (0, 0)
  else format.search pattern ((format.ceiling / 3 + 1 : Nat) - format.floor).toNat

end PdfPrimitives.Numeral.Format
