import PdfPrimitives.Text.Byte

/-!
The line that tokens are written on: how long it is, how long it may become, and what
separates the next token from the one before.
-/

namespace PdfPrimitives

structure Line where
  /-- The number of bytes on the line. -/
  column : Nat
  /-- The longest line that is wanted, or zero if lines are not broken. -/
  limit : Nat
  /-- Whether a regular byte put next would run into the token before. -/
  touching : Bool
  deriving Repr, DecidableEq

namespace Line

def defaultLimit : Nat := 255

def empty : Line := ⟨0, defaultLimit, false⟩

def nextColumn (column : Nat) (byte : UInt8) : Nat :=
  if Byte.isLineBreak byte then 0 else column + 1

def advance (line : Line) (bytes : List UInt8) : Line :=
  { line with
    column := bytes.foldl nextColumn line.column
    touching := (bytes.getLast?.map Byte.isRegular).getD line.touching }

/-- What goes in front of a token of some length. A token that does not fit on the line
starts a new one. A token that is `spaced` must not touch the one before. -/
def separator (line : Line) (spaced : Bool) (length : Nat) : List UInt8 :=
  let gap := spaced && line.touching
  let width := if gap then length + 1 else length
  if 0 < line.limit && 0 < line.column && line.limit < line.column + width then
    [Byte.lineFeed]
  else if gap then [Byte.space]
  else []

end Line

structure Draft where
  column : Nat
  bytes : Array UInt8

namespace Draft

def start (line : Line) (delimiter : UInt8) : Draft := ⟨line.column + 1, #[delimiter]⟩

def push (draft : Draft) (bytes : List UInt8) : Draft :=
  ⟨bytes.foldl Line.nextColumn draft.column, draft.bytes ++ bytes⟩

def finish (draft : Draft) (delimiter : UInt8) : List UInt8 :=
  (draft.bytes.push delimiter).toList

/-- Go on with a piece of a string in parentheses. A line that the piece would fill up
is broken by a backslash, for which there has to be room. -/
def pushPiece (limit : Nat) (draft : Draft) (piece : List UInt8) : Draft :=
  if 0 < limit && !piece.head?.any Byte.isLineBreak && limit ≤ draft.column + piece.length then
    (draft.push [Byte.backslash, Byte.lineFeed]).push piece
  else draft.push piece

def pushDigits (limit : Nat) (draft : Draft) (digits : List UInt8) : Draft :=
  if 0 < limit && limit < draft.column + 2 then
    (draft.push [Byte.lineFeed]).push digits
  else draft.push digits

end Draft

namespace Line

def literal (line : Line) (pieces : List (List UInt8)) : List UInt8 :=
  (pieces.foldl (Draft.pushPiece line.limit) (Draft.start line Byte.openParen)).finish
    Byte.closeParen

def lastDigits (byte : UInt8) : List UInt8 :=
  if byte &&& 0x0f = 0 then [Byte.hexDigit (byte >>> 4)] else Byte.hexDigits byte

def digitPairs (bytes : List UInt8) : List (List UInt8) :=
  bytes.dropLast.map Byte.hexDigits ++ (bytes.getLast?.map lastDigits).toList

def hexadecimal (line : Line) (bytes : List UInt8) : List UInt8 :=
  ((digitPairs bytes).foldl (Draft.pushDigits line.limit) (Draft.start line Byte.less)).finish
    Byte.greater

end Line

end PdfPrimitives
