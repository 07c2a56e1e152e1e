import PdfPrimitives.Calculator.Lexeme
import PdfPrimitives.Calculator.Program
import PdfPrimitives.Function.Fault

/-!
Compilation of calculator programs. The words are read once. A block leaves a
placeholder where it starts; the conditional that follows the block turns it into a
skip over the block.
-/

namespace PdfPrimitives.Calculator

def nestingLimit : Nat := 32

def wordLimit : Nat := 127

inductive CompileFault where
  | missingStart
  | missingEnd
  | wordAfterEnd
  | nestedTooDeeply
  | unclaimedBlock
  | misplacedConditional
  | wordTooLong
  | invalidNumber
  | unknownOperator
  deriving Repr, DecidableEq

namespace CompileFault

def message : CompileFault → String
  | .missingStart => "program doesn't start with `\x7b`"
  | .missingEnd => "missing `\x7d` at the end of the program"
  | .wordAfterEnd => "unexpected token after the end of the program"
  | .nestedTooDeeply => "blocks are nested too deeply"
  | .unclaimedBlock => "block without `if` or `ifelse`"
  | .misplacedConditional => "`if` or `ifelse` without the blocks right before it"
  | .wordTooLong => "token is too long"
  | .invalidNumber => "invalid number"
  | .unknownOperator => "unknown operator"

end CompileFault

structure Block where
  /-- The place of its placeholder. -/
  start : Nat
  /-- The place behind its last instruction. -/
  stop : Nat
  deriving Repr, DecidableEq

structure Builder where
  code : Array Instruction
  /-- The starts of the blocks that are still open, innermost first. -/
  opened : List Nat
  /-- The blocks that wait for a conditional, last one first. -/
  closed : List Block
  deriving Repr

namespace Builder

def empty : Builder := ⟨#[], [], []⟩

def emit (builder : Builder) (instruction : Instruction) : Builder :=
  { builder with code := builder.code.push instruction }

def openBlock (builder : Builder) : Except CompileFault Builder :=
  if nestingLimit ≤ builder.opened.length then .error .nestedTooDeeply
  else .ok { builder.emit .placeholder with opened := builder.code.size :: builder.opened }

def takeBlock (builder : Builder) (stop : Nat) : Except CompileFault (Block × Builder) :=
  match builder.closed with
  | block :: closed =>
    if block.stop = stop then .ok (block, { builder with closed })
    else .error .misplacedConditional
  | [] => .error .misplacedConditional

def patch (builder : Builder) (block : Block) (skip : Instruction) : Builder :=
  { builder with code := builder.code.setIfInBounds block.start skip }

def conditional (builder : Builder) : Except CompileFault Builder := do
  let (block, rest) ← builder.takeBlock builder.code.size
  return rest.patch block (.skipUnless block.stop)

/-- `ifelse`: unless the condition holds, go on behind the skip that ends the first
block and passes over the second. -/
def alternative (builder : Builder) : Except CompileFault Builder := do
  let (second, rest) ← builder.takeBlock builder.code.size
  let (first, rest) ← rest.takeBlock second.start
  return (rest.patch first (.skipUnless (second.start + 1))).patch second (.skip second.stop)

def isNumeric (word : List UInt8) : Bool :=
  word.head?.any fun byte => !(0x61 ≤ byte && byte ≤ 0x7a)

def number? (word : List UInt8) : Option UInt64 :=
  ((Numeral.Decimal.parse? word).map Numeral.doubleBits).filter Numeral.isFiniteDouble

def word (builder : Builder) (word : List UInt8) : Except CompileFault Builder :=
  if wordLimit < word.length then .error .wordTooLong
  else if isNumeric word then
    match number? word with
    | some bits => .ok (builder.emit (.literal bits))
    | none => .error .invalidNumber
  else if word = Text.ascii "if" then builder.conditional
  else if word = Text.ascii "ifelse" then builder.alternative
  else
    match Operator.ofName? word with
    | some operator => .ok (builder.emit (.operator operator))
    | none => .error .unknownOperator

/-- Compile the words behind the first brace. The brace that closes no block ends the
program, and no word may follow it. -/
def body (builder : Builder) : List (List UInt8) → Except CompileFault Program
  | [] => .error .missingEnd
  | lexeme :: rest =>
    if lexeme = [Byte.openBrace] then do
      let next ← builder.openBlock
      next.body rest
    else if lexeme = [Byte.closeBrace] then
      match builder.opened with
      | start :: opened =>
        let block := ⟨start, builder.code.size⟩
        { builder with opened, closed := block :: builder.closed }.body rest
      | [] =>
        if !builder.closed.isEmpty then .error .unclaimedBlock
        else if !rest.isEmpty then .error .wordAfterEnd
        else .ok ⟨(builder.emit .stop).code.toList⟩
    else do
      let next ← builder.word lexeme
      next.body rest

end Builder

namespace Program

def ofLexemes : List (List UInt8) → Except CompileFault Program
  | [] => .error .missingStart
  | lexeme :: rest =>
    if lexeme = [Byte.openBrace] then Builder.empty.body rest else .error .missingStart

def compile (text : List UInt8) : Except Failure Program :=
  match ofLexemes (lexemes text) with
  | .ok program => .ok program
  | .error fault =>
    .error ⟨.compile, ["failed to compile PostScript function: " ++ fault.message]⟩

end Program

end PdfPrimitives.Calculator
