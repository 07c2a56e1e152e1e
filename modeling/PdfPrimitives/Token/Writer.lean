import PdfPrimitives.Token.Fault
import PdfPrimitives.Token.Spelling

/-!
The token writer. What it writes goes to a sink, which may have no room for all of it.
A token without a spelling is refused before any byte of it is written.
-/

namespace PdfPrimitives

structure Sink where
  received : Array UInt8
  /-- How many bytes it still takes, or none if it takes all. -/
  room : Option Nat
  /-- How it fails when there is no room. -/
  fault : StreamFault
  deriving Repr, DecidableEq

namespace Sink

def unlimited : Sink := ⟨#[], none, .other⟩

/-- Write bytes. What does not fit is lost, and nothing fits afterwards. -/
def write (sink : Sink) (bytes : List UInt8) : Except TokenFault Unit × Sink :=
  let ⟨received, room, fault⟩ := sink
  match room with
  | none => (.ok (), ⟨received ++ bytes, none, fault⟩)
  | some room =>
    if bytes.length ≤ room then (.ok (), ⟨received ++ bytes, some (room - bytes.length), fault⟩)
    else (.error (.stream fault), ⟨received ++ bytes.take room, some 0, fault⟩)

end Sink

structure Writer where
  line : Line
  sink : Sink
  deriving Repr, DecidableEq

namespace Writer

def ofSink (sink : Sink) : Writer := ⟨.empty, sink⟩

def new : Writer := ofSink .unlimited

/-- Break lines that become longer than this, or none for zero. -/
def setLimit (writer : Writer) (limit : Nat) : Writer :=
  { writer with line := { writer.line with limit } }

def reset (writer : Writer) : Writer :=
  { writer with line := { writer.line with column := 0, touching := false } }

def emit (writer : Writer) : List (List UInt8) → Except TokenFault Unit × Writer
  | [] => (.ok (), writer)
  | piece :: rest =>
    let ⟨line, sink⟩ := writer
    match sink.write piece with
    | (.ok (), sink) => emit ⟨line.advance piece, sink⟩ rest
    | (.error fault, sink) => (.error fault, ⟨line, sink⟩)

def write (flags : WriteFlags) (writer : Writer) (token : Token) :
    Except TokenFault Unit × Writer :=
  match writer.line.pieces? flags token with
  | none => (.error .badToken, writer)
  | some pieces =>
    match writer.emit pieces with
    | (.ok (), ⟨line, sink⟩) => (.ok (), ⟨line.behind token, sink⟩)
    | (.error fault, failed) => (.error fault, failed)

end Writer

end PdfPrimitives
