import PdfPrimitives.Token.Fault
import PdfPrimitives.Token.Number

/-!
One step of reading tokens: what becomes of what the reader is in the middle of when it
is handed a byte. A byte that ends a token without being part of it is not taken, and
is handed over again when the reader is between tokens.
-/

namespace PdfPrimitives

structure ReadFlags where
  /-- A `#` in a name is a byte like any other and starts no escape. -/
  plainNames : Bool
  /-- Comments are tokens and not only skipped. -/
  comments : Bool
  /-- Reading ends behind the first line feed, and only blanks and comments may stand
  before it. -/
  toLineFeed : Bool
  deriving Repr, DecidableEq

namespace ReadFlags

def ofBits (bits : Nat) : ReadFlags := ⟨bits.testBit 0, bits.testBit 1, bits.testBit 2⟩

def none : ReadFlags := ofBits 0

end ReadFlags

def wordCapacity : Nat := 32768

inductive NameEscape where
  | none
  | first
  /-- Behind `#` and a digit of this value. -/
  | second (high : UInt8)
  deriving Repr, DecidableEq

inductive StringPlace where
  | plain
  /-- Behind a carriage return, to which a line feed would belong. -/
  | afterReturn
  | escape
  /-- Behind some digits of an octal escape, with their value. -/
  | octal (digits : Nat) (value : UInt8)
  deriving Repr, DecidableEq

/-- What a reader is in the middle of, with the bytes of the token so far. -/
inductive Mode where
  | idle
  /-- A comment, which is dropped if its bytes are not wanted. -/
  | comment (body : Array UInt8) (dropped : Bool)
  | word (bytes : Array UInt8)
  | name (bytes : Array UInt8) (escape : NameEscape)
  /-- A string in parentheses, inside `depth` pairs of its own. -/
  | string (bytes : Array UInt8) (depth : Nat) (place : StringPlace)
  /-- A string of hexadecimal digits. It may turn out to be the start of a dictionary
  until it has `started`. The digit `high` waits for a second one. -/
  | hex (bytes : Array UInt8) (started : Bool) (high : Option UInt8)
  | closing
  | delimiter (delimiter : Delimiter)
  | ended
  deriving Repr, DecidableEq

inductive Outcome where
  /-- The byte is taken and the reader goes on in a mode. -/
  | take (mode : Mode)
  /-- The byte is taken and completes a token. -/
  | complete (token : Token)
  /-- The byte is not taken. It ends a token, or a comment that is no token. -/
  | release (token : Option Token)
  /-- The byte may not stand here. It is not taken, and the mode stays what it is. -/
  | refuse (fault : TokenFault) (mode : Mode)
  | stay
  deriving Repr, DecidableEq

namespace Mode

def isIdle : Mode → Bool
  | idle => true
  | _ => false

def isEnded : Mode → Bool
  | ended => true
  | _ => false

def finish (flags : ReadFlags) : Mode → Except TokenFault (Option Token)
  | idle | ended => .ok none
  | comment body dropped =>
    .ok (if dropped || !flags.comments then none else some (.comment body.toList))
  | word bytes => .ok (some (Token.ofWord bytes.toList))
  | name bytes .none => .ok (some (.name bytes.toList))
  | name _ _ => .error .unterminatedName
  | string _ _ _ => .error .unterminatedString
  | hex _ _ _ => .error .unterminatedHexString
  | closing => .error .unterminatedDictionary
  | delimiter kind => .ok (some (.delimiter kind))

def release (flags : ReadFlags) (mode : Mode) : Outcome :=
  match mode.finish flags with
  | .ok token => .release token
  | .error fault => .refuse fault mode

def store (bytes : Array UInt8) (byte : UInt8) (before after : Array UInt8 → Mode) : Outcome :=
  if wordCapacity ≤ bytes.size then .refuse .bufferExhausted (before bytes)
  else .take (after (bytes.push byte))

def stringByte (bytes : Array UInt8) (depth : Nat) (byte : UInt8) : Outcome :=
  if byte = Byte.backslash then .take (string bytes depth .escape)
  else if byte = Byte.carriageReturn then
    .take (string (bytes.push Byte.lineFeed) depth .afterReturn)
  else if byte = Byte.openParen then .take (string (bytes.push byte) (depth + 1) .plain)
  else if byte = Byte.closeParen then
    match depth with
    | 0 => .complete (.string bytes.toList)
    | outer + 1 => .take (string (bytes.push byte) outer .plain)
  else .take (string (bytes.push byte) depth .plain)

def isOctalDigit (byte : UInt8) : Bool := 0x30 ≤ byte && byte ≤ 0x37

def escaped (byte : UInt8) : UInt8 :=
  if byte = 0x62 then 0x08
  else if byte = 0x66 then 0x0c
  else if byte = 0x6e then Byte.lineFeed
  else if byte = 0x72 then Byte.carriageReturn
  else if byte = 0x74 then 0x09
  else byte

def stringStep (bytes : Array UInt8) (depth : Nat) (place : StringPlace) (byte : UInt8) :
    Outcome :=
  match place with
  | .plain => stringByte bytes depth byte
  | .afterReturn =>
    if byte = Byte.lineFeed then .take (string bytes depth .plain)
    else stringByte bytes depth byte
  | .escape =>
    if byte = Byte.lineFeed then .take (string bytes depth .plain)
    else if byte = Byte.carriageReturn then .take (string bytes depth .afterReturn)
    else if isOctalDigit byte then .take (string bytes depth (.octal 1 (byte - 0x30)))
    else .take (string (bytes.push (escaped byte)) depth .plain)
  | .octal digits value =>
    if isOctalDigit byte then
      let value := (value <<< 3) ||| (byte - 0x30)
      if digits = 2 then .take (string (bytes.push value) depth .plain)
      else .take (string bytes depth (.octal (digits + 1) value))
    else stringByte (bytes.push value) depth byte

def hexStep (bytes : Array UInt8) (started : Bool) (high : Option UInt8) (byte : UInt8) :
    Outcome :=
  if !started && byte = Byte.less then .complete (.delimiter .dictionaryStart)
  else if Byte.isBlank byte then .take (hex bytes true high)
  else if byte = Byte.greater then
    match high with
    | some high => .complete (.string (bytes.push (high <<< 4)).toList)
    | none => .complete (.string bytes.toList)
  else
    match Byte.hexValue? byte, high with
    | none, high => .refuse (.invalidCharacter byte) (hex bytes started high)
    | some digit, some high => .take (hex (bytes.push ((high <<< 4) ||| digit)) true none)
    | some digit, none => .take (hex bytes true (some digit))

def nameStep (flags : ReadFlags) (bytes : Array UInt8) (escape : NameEscape) (byte : UInt8) :
    Outcome :=
  match escape with
  | .none =>
    if !Byte.isVisible byte then .refuse (.invalidCharacter byte) (name bytes .none)
    else if byte = Byte.hash && !flags.plainNames then .take (name bytes .first)
    else store bytes byte (name · .none) (name · .none)
  | .first =>
    match Byte.hexValue? byte with
    | some high => .take (name bytes (.second high))
    | none => .refuse (.invalidCharacter byte) (name bytes .first)
  | .second high =>
    match Byte.hexValue? byte with
    | some low =>
      let value := (high <<< 4) ||| low
      if value = 0 then .refuse (.invalidCharacter byte) (name bytes (.second high))
      else store bytes value (name · (.second high)) (name · .none)
    | none => .refuse (.invalidCharacter byte) (name bytes (.second high))

def opening? (byte : UInt8) : Option Mode :=
  if byte = Byte.percent then some (comment #[] false)
  else if byte = Byte.openParen then some (string #[] 0 .plain)
  else if byte = Byte.slash then some (name #[] .none)
  else if byte = Byte.less then some (hex #[] false none)
  else if byte = Byte.greater then some closing
  else if byte = Byte.openBracket then some (delimiter .arrayStart)
  else if byte = Byte.closeBracket then some (delimiter .arrayEnd)
  else if byte = Byte.openBrace then some (delimiter .procedureStart)
  else if byte = Byte.closeBrace then some (delimiter .procedureEnd)
  else none

def idleStep (flags : ReadFlags) (byte : UInt8) : Outcome :=
  if Byte.isBlank byte then
    .take (if flags.toLineFeed && byte = Byte.lineFeed then ended else idle)
  else if flags.toLineFeed && byte ≠ Byte.percent then .refuse (.invalidCharacter byte) idle
  else if Byte.isDelimiter byte then
    match opening? byte with
    | some mode => .take mode
    | none => .refuse (.invalidCharacter byte) idle
  else .take (word #[byte])

inductive Role where
  | boundary
  | regular
  | illegal
  deriving Repr, DecidableEq

def role (flags : ReadFlags) (byte : UInt8) : Role :=
  if Byte.isBlank byte then .boundary
  else if flags.toLineFeed && byte ≠ Byte.percent then .illegal
  else if Byte.isDelimiter byte then .boundary
  else .regular

def step (flags : ReadFlags) (mode : Mode) (byte : UInt8) : Outcome :=
  match mode with
  | idle => idleStep flags byte
  | comment body dropped =>
    if Byte.isLineBreak byte then release flags (comment body dropped)
    else if dropped || !flags.comments then .take (comment body true)
    else .take (comment (body.push byte) false)
  | word bytes =>
    match role flags byte with
    | .boundary => release flags (word bytes)
    | .regular => store bytes byte word word
    | .illegal => .refuse (.invalidCharacter byte) (word bytes)
  | name bytes escape =>
    match role flags byte with
    | .boundary => release flags (name bytes escape)
    | .regular => nameStep flags bytes escape byte
    | .illegal => .refuse (.invalidCharacter byte) (name bytes escape)
  | string bytes depth place => stringStep bytes depth place byte
  | hex bytes started high => hexStep bytes started high byte
  | closing =>
    if byte = Byte.greater then .complete (.delimiter .dictionaryEnd)
    else .refuse .unterminatedDictionary closing
  | delimiter kind =>
    match role flags byte with
    | .boundary | .regular => release flags (delimiter kind)
    | .illegal => .refuse (.invalidCharacter byte) (delimiter kind)
  | ended => .stay

/-- How far a mode is from the end: a mode with a token in it can still become idle, and
an idle one can only end. -/
def weight : Mode → Nat
  | ended => 0
  | idle => 1
  | _ => 2

theorem idleStep_ne_release (flags : ReadFlags) (byte : UInt8) (token : Option Token) :
    idleStep flags byte ≠ .release token := by
  unfold idleStep
  split
  · simp
  · split
    · simp
    · split
      · split <;> simp
      · simp

/-- Only a mode with a token in it lets go of a byte. -/
theorem weight_of_release {flags : ReadFlags} {mode : Mode} {byte : UInt8}
    {token : Option Token} (stepped : step flags mode byte = .release token) :
    mode.weight = 2 := by
  cases mode with
  | idle => exact absurd stepped (idleStep_ne_release flags byte token)
  | ended => simp [step] at stepped
  | _ => rfl

/-- A fault leaves the mode as it is. -/
theorem mode_of_refuse {flags : ReadFlags} {mode left : Mode} {byte : UInt8}
    {fault : TokenFault} (stepped : step flags mode byte = .refuse fault left) : left = mode := by
  cases mode with
  | idle =>
    simp only [step, idleStep] at stepped
    grind
  | comment body dropped =>
    simp only [step, release] at stepped
    grind
  | word bytes =>
    simp only [step, release, store] at stepped
    grind
  | name bytes escape =>
    cases escape <;> simp only [step, release, nameStep, store] at stepped <;> grind
  | string bytes depth place =>
    cases place <;> simp only [step, stringStep, stringByte] at stepped <;> grind
  | hex bytes started high =>
    simp only [step, hexStep] at stepped
    grind
  | closing =>
    simp only [step] at stepped
    grind
  | delimiter kind =>
    simp only [step, release] at stepped
    grind
  | ended => simp [step] at stepped

theorem weight_le (mode : Mode) : mode.weight ≤ 2 := by
  cases mode <;> simp [weight]

theorem weight_pos {mode : Mode} (open_ : mode.isEnded = false) : 1 ≤ mode.weight := by
  cases mode <;> simp_all [weight, isEnded]

end Mode

end PdfPrimitives
