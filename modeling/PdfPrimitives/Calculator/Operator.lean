import PdfPrimitives.Text.Ascii

/-!
The operators of calculator programs.
-/

namespace PdfPrimitives.Calculator

inductive Operator where
  | abs | add | atan | ceiling | cos | cvi | cvr | div | exp | floor | idiv | ln | log | mod
  | mul | neg | round | sin | sqrt | sub | truncate
  | and | bitshift | eq | pushFalse | ge | gt | le | lt | ne | not | or | pushTrue | xor
  | copy | dup | exch | index | pop | roll
  deriving Repr, DecidableEq

namespace Operator

def all : List Operator :=
  [abs, add, atan, ceiling, cos, cvi, cvr, div, exp, floor, idiv, ln, log, mod,
    mul, neg, round, sin, sqrt, sub, truncate,
    and, bitshift, eq, pushFalse, ge, gt, le, lt, ne, not, or, pushTrue, xor,
    copy, dup, exch, index, pop, roll]

def tag (operator : Operator) : UInt8 := UInt8.ofNat operator.ctorIdx

def ofTag? (tag : UInt8) : Option Operator := all[tag.toNat]?

def name : Operator → String
  | abs => "abs"
  | add => "add"
  | atan => "atan"
  | ceiling => "ceiling"
  | cos => "cos"
  | cvi => "cvi"
  | cvr => "cvr"
  | div => "div"
  | exp => "exp"
  | floor => "floor"
  | idiv => "idiv"
  | ln => "ln"
  | log => "log"
  | mod => "mod"
  | mul => "mul"
  | neg => "neg"
  | round => "round"
  | sin => "sin"
  | sqrt => "sqrt"
  | sub => "sub"
  | truncate => "truncate"
  | and => "and"
  | bitshift => "bitshift"
  | eq => "eq"
  | pushFalse => "false"
  | ge => "ge"
  | gt => "gt"
  | le => "le"
  | lt => "lt"
  | ne => "ne"
  | not => "not"
  | or => "or"
  | pushTrue => "true"
  | xor => "xor"
  | copy => "copy"
  | dup => "dup"
  | exch => "exch"
  | index => "index"
  | pop => "pop"
  | roll => "roll"

def ofName? (word : List UInt8) : Option Operator :=
  all.find? fun operator => Text.ascii operator.name = word

end Operator

end PdfPrimitives.Calculator
