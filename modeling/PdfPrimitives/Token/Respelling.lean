import PdfPrimitives.Token.Reader
import PdfPrimitives.Token.Writer

/-!
Reading all tokens of a text and writing each of them again.
-/

namespace PdfPrimitives

structure Respelling.Settings where
  read : ReadFlags
  write : WriteFlags
  limit : Nat
  deriving Repr, DecidableEq

structure Writing where
  writer : Writer
  written : Array Token
  faults : Array TokenFault

namespace Writing

def start (limit : Nat) : Writing := ⟨Writer.new.setLimit limit, #[], #[]⟩

def push (flags : WriteFlags) (writing : Writing) (token : Token) : Writing :=
  let ⟨writer, written, faults⟩ := writing
  match writer.write flags token with
  | (.ok (), writer) => ⟨writer, written.push token, faults⟩
  | (.error fault, writer) => ⟨writer, written, faults.push fault⟩

def ofTokens (flags : WriteFlags) (limit : Nat) (tokens : List Token) : Writing :=
  tokens.foldl (push flags) (start limit)

def output (writing : Writing) : List UInt8 := writing.writer.sink.received.toList

end Writing

structure Respelling where
  reading : Reader.Reading
  writing : Writing
  again : Reader.Reading

namespace Respelling

def ofBytes (settings : Settings) (bytes : List UInt8) : Respelling :=
  let reading := (Reader.ofBytes bytes).tokens settings.read
  let writing := Writing.ofTokens settings.write settings.limit reading.tokens
  ⟨reading, writing, (Reader.ofBytes writing.output).tokens settings.read⟩

def faults (respelling : Respelling) : List TokenFault :=
  respelling.writing.faults.toList ++ respelling.reading.fault.toList

def sameValues : List Token → List Token → Bool
  | [], [] => true
  | left :: lefts, right :: rights => left.sameValue right && sameValues lefts rights
  | _, _ => false

/-- Whether the output reads as the tokens that were written, if it can be read. -/
def isFaithful (respelling : Respelling) : Except TokenFault Bool :=
  match respelling.again.fault with
  | some fault => .error fault
  | none => .ok (sameValues respelling.again.tokens respelling.writing.written.toList)

end Respelling

end PdfPrimitives
