import PdfPrimitives.Text.Utf8
import PdfPrimitives.Token.Listing
import PdfPrimitives.Token.Writer

/-!
What the tokenizing program prints: the tokens of a file line by line, or the tokens
written again.
-/

namespace PdfPrimitives

namespace Delimiter

def label : Delimiter → List UInt8
  | dictionaryStart => Text.ascii "DictStart"
  | dictionaryEnd => Text.ascii "DictEnd"
  | arrayStart => Text.ascii "ArrayStart"
  | arrayEnd => Text.ascii "ArrayEnd"
  | procedureStart => Text.ascii "ProcStart"
  | procedureEnd => Text.ascii "ProcEnd"

end Delimiter

namespace Token

def labelled (label : String) (value : List UInt8) : List UInt8 :=
  Text.ascii label ++ Byte.openParen :: value ++ [Byte.closeParen]

def description : Token → List UInt8
  | integer value => labelled "Integer" (Numeral.signedDigitsOf value.toInt)
  | real value => labelled "Real" value.text
  | string bytes => labelled "String" (Utf8.shown bytes)
  | name bytes => labelled "Name" (Utf8.shown bytes)
  | keyword bytes => labelled "Keyword" (Utf8.shown bytes)
  | comment bytes => labelled "Comment" (Utf8.shown bytes)
  | delimiter kind => kind.label

end Token

def Entry.line (entry : Entry) : List UInt8 :=
  let offset := Numeral.digitsOf entry.offset
  List.replicate (8 - offset.length) Byte.space ++ offset ++
    Byte.space :: entry.token.description ++ [Byte.lineFeed]

structure Report where
  succeeded : Bool
  output : List UInt8
  errors : List UInt8
  deriving Repr, DecidableEq

namespace Report

def unreadable (listing : Listing) : List UInt8 :=
  match listing.fault with
  | some (offset, fault) =>
    Text.ascii "Error at offset " ++ Numeral.digitsOf offset ++
      Text.ascii (": " ++ fault.message ++ "\n")
  | none => []

def unwritable (token : Token) (fault : TokenFault) : List UInt8 :=
  Text.ascii "Error writing " ++ token.description ++ Text.ascii (": " ++ fault.message ++ "\n")

def ofListing (listing : Listing) : Report :=
  ⟨true, listing.entries.flatMap Entry.line ++ [Byte.lineFeed], unreadable listing⟩

def writeFlags : WriteFlags := ⟨false, false, true⟩

structure Copy where
  writer : Writer
  errors : Array UInt8

def Copy.push (copy : Copy) (entry : Entry) : Copy :=
  let ⟨writer, errors⟩ := copy
  match writer.write writeFlags entry.token with
  | (.ok (), writer) => ⟨writer, errors⟩
  | (.error fault, writer) => ⟨writer, errors ++ unwritable entry.token fault⟩

def ofCopy (listing : Listing) : Report :=
  let copy := listing.entries.foldl Copy.push ⟨.new, #[]⟩
  ⟨true, copy.writer.sink.received.toList ++ [Byte.lineFeed],
    copy.errors.toList ++ unreadable listing⟩

def ofFile (copying : Bool) (bytes : List UInt8) : Report :=
  let listing := Listing.ofBytes bytes
  if copying then ofCopy listing else ofListing listing

def usage : Report := ⟨false, [], Text.ascii "Usage: tokenize [--rewrite] <file>\n"⟩

def request : List String → Bool × Option String
  | "--rewrite" :: rest => (true, rest.head?)
  | arguments => (false, arguments.head?)

end Report

end PdfPrimitives
