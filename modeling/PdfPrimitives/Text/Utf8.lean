/-!
UTF-8 among arbitrary bytes. What is not UTF-8 is divided into parts that are as long
as possible while they could still have become a character.
-/

namespace PdfPrimitives.Utf8

/-- How many bytes follow the first byte of a character of several bytes, and which
values the first of them may have. -/
def continuation? (lead : UInt8) : Option (Nat × UInt8 × UInt8) :=
  if 0xc2 ≤ lead && lead ≤ 0xdf then some (1, 0x80, 0xbf)
  else if lead = 0xe0 then some (2, 0xa0, 0xbf)
  else if lead = 0xed then some (2, 0x80, 0x9f)
  else if 0xe1 ≤ lead && lead ≤ 0xef then some (2, 0x80, 0xbf)
  else if lead = 0xf0 then some (3, 0x90, 0xbf)
  else if 0xf1 ≤ lead && lead ≤ 0xf3 then some (3, 0x80, 0xbf)
  else if lead = 0xf4 then some (3, 0x80, 0x8f)
  else none

inductive Place where
  | between
  /-- Inside a character: its bytes so far, how many are missing, and which values the
  next one may have. -/
  | inside (seen : List UInt8) (missing : Nat) (low high : UInt8)
  deriving Repr, DecidableEq

inductive Part where
  | character (bytes : List UInt8)
  | malformed (bytes : List UInt8)
  deriving Repr, DecidableEq

def start (byte : UInt8) : List Part × Place :=
  if byte < 0x80 then ([.character [byte]], .between)
  else
    match continuation? byte with
    | some (missing, low, high) => ([], .inside [byte] missing low high)
    | none => ([.malformed [byte]], .between)

def step : Place → UInt8 → List Part × Place
  | .between, byte => start byte
  | .inside seen missing low high, byte =>
    if low ≤ byte && byte ≤ high then
      if missing ≤ 1 then ([.character (seen ++ [byte])], .between)
      else ([], .inside (seen ++ [byte]) (missing - 1) 0x80 0xbf)
    else
      let (parts, place) := start byte
      (.malformed seen :: parts, place)

structure Scan where
  completed : Array Part
  place : Place

def Scan.start : Scan := ⟨#[], .between⟩

def Scan.push (scan : Scan) (byte : UInt8) : Scan :=
  let (parts, place) := step scan.place byte
  ⟨scan.completed ++ parts, place⟩

def Scan.finish (scan : Scan) : List Part :=
  match scan.place with
  | .between => scan.completed.toList
  | .inside seen _ _ _ => scan.completed.toList ++ [.malformed seen]

def parts (bytes : List UInt8) : List Part := (bytes.foldl Scan.push Scan.start).finish

def Part.isCharacter : Part → Bool
  | .character _ => true
  | .malformed _ => false

def isValid (bytes : List UInt8) : Bool := (parts bytes).all Part.isCharacter

def replacement : List UInt8 := [0xef, 0xbf, 0xbd]

def Part.shown : Part → List UInt8
  | .character bytes => bytes
  | .malformed _ => replacement

def shown (bytes : List UInt8) : List UInt8 := (parts bytes).flatMap Part.shown

end PdfPrimitives.Utf8
