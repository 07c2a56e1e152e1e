import PdfPrimitives.Text.Ascii
import PdfPrimitives.Token.Reader

/-!
Listings of the tokens of a file. What stands between the keywords `stream` and
`endstream` is not made of tokens and is passed over.
-/

namespace PdfPrimitives

structure Entry where
  offset : Nat
  token : Token
  deriving Repr, DecidableEq

structure Listing where
  entries : List Entry
  fault : Option (Nat × TokenFault)
  deriving Repr, DecidableEq

namespace Listing

def flags : ReadFlags := ⟨false, true, false⟩

def streamFlags : ReadFlags := ⟨false, false, true⟩

structure Cursor where
  /-- Where the source of the reader begins in the file. -/
  base : Nat
  reader : Reader

namespace Cursor

def start (bytes : List UInt8) : Cursor := ⟨0, .ofBytes bytes⟩

/-- Pass over the data of a stream. The data begins behind the line of the keyword
`stream`. Without `endstream` behind it there is nothing more to read. -/
def skipStream (cursor : Cursor) : Cursor :=
  if cursor.reader.mode.isEnded then cursor
  else
    match cursor.reader.read streamFlags with
    | (.error _, reader) => { cursor with reader }
    | (.ok _, reader) =>
      match reader.source.find? (Text.ascii "endstream") with
      | none => { cursor with reader }
      | some source =>
        ⟨cursor.base + source.offset, .ofSource { source with offset := 0 }⟩

def behind (cursor : Cursor) (token : Token) : Cursor :=
  if token.isKeyword (Text.ascii "stream") then cursor.skipStream else cursor

theorem size_skipStream_le (cursor : Cursor) :
    cursor.skipStream.reader.size ≤ cursor.reader.size := by
  unfold skipStream
  split
  · exact Nat.le_refl _
  · rename_i running
    have smaller := Reader.size_read_le streamFlags cursor.reader
    have shorter := Reader.length_ahead_read_le streamFlags cursor.reader
    split
    · simp_all
    · split
      · simp_all
      · rename_i found
        have inside := Source.length_find_le found
        have := Mode.weight_pos (Bool.eq_false_iff.2 running)
        have idle : Mode.idle.weight = 1 := rfl
        simp_all only [Reader.size, Reader.ofSource]
        omega

theorem size_behind_le (cursor : Cursor) (token : Token) :
    (cursor.behind token).reader.size ≤ cursor.reader.size := by
  unfold behind
  split
  · exact cursor.size_skipStream_le
  · exact Nat.le_refl _

end Cursor

def collect (found : Array Entry) (cursor : Cursor) : Listing :=
  match _ : cursor.reader.read flags with
  | (.error fault, reader) =>
    ⟨found.toList, some (cursor.base + reader.tokenStart, fault)⟩
  | (.ok none, _) => ⟨found.toList, none⟩
  | (.ok (some token), reader) =>
    collect (found.push ⟨cursor.base + reader.tokenStart, token⟩)
      (Cursor.behind ⟨cursor.base, reader⟩ token)
termination_by cursor.reader.size
decreasing_by
  exact Nat.lt_of_le_of_lt (Cursor.size_behind_le _ _) (Reader.size_read_lt ‹_›)

def ofBytes (bytes : List UInt8) : Listing := collect #[] (.start bytes)

end Listing

end PdfPrimitives
