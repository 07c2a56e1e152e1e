import PdfPrimitives.Token.Fault

/-!
Byte sources with one byte of lookahead. A source is what will be seen when it is
looked at: its bytes in order, and between them the failures that looking meets
before it gets to the next byte. A byte that was seen stays to be seen until it is
taken, so failures never cost a byte.
-/

namespace PdfPrimitives

inductive Sight where
  | byte (value : UInt8)
  | failure (fault : StreamFault)
  /-- The source seems to be at its end, though bytes may follow. -/
  | lull
  deriving Repr, DecidableEq

def Sight.byte? : Sight → Option UInt8
  | .byte value => some value
  | _ => none

structure Source where
  ahead : List Sight
  offset : Nat
  deriving Repr, DecidableEq

namespace Source

def ofBytes (bytes : List UInt8) : Source := ⟨bytes.map .byte, 0⟩

/-- A source on which `count` looks meet `sight` once `place` bytes were taken. -/
def interrupted (bytes : List UInt8) (place count : Nat) (sight : Sight) : Source :=
  let interruption := if place ≤ bytes.length then List.replicate count sight else []
  ⟨(bytes.take place).map .byte ++ interruption ++ (bytes.drop place).map .byte, 0⟩

def unread (source : Source) : List UInt8 := source.ahead.filterMap Sight.byte?

def peek (source : Source) : Except StreamFault (Option UInt8) × Source :=
  match source.ahead with
  | [] => (.ok none, source)
  | .byte value :: _ => (.ok (some value), source)
  | .failure fault :: rest => (.error fault, { source with ahead := rest })
  | .lull :: rest => (.ok none, { source with ahead := rest })

def advance (source : Source) : Source := ⟨source.ahead.tail, source.offset + 1⟩

def take (source : Source) : Except StreamFault (Option UInt8) × Source :=
  match source.peek with
  | (.ok (some value), seen) => (.ok (some value), seen.advance)
  | other => other

def findFrom (word : List Sight) (offset : Nat) : List Sight → Option Source
  | [] => none
  | sight :: rest =>
    if word.isPrefixOf (sight :: rest) then some ⟨sight :: rest, offset⟩
    else findFrom word (offset + 1) rest

def find? (source : Source) (word : List UInt8) : Option Source :=
  findFrom (word.map .byte) source.offset source.ahead

theorem length_findFrom_le {word ahead : List Sight} {offset : Nat} {found : Source}
    (here : findFrom word offset ahead = some found) : found.ahead.length ≤ ahead.length := by
  induction ahead generalizing offset with
  | nil => simp [findFrom] at here
  | cons sight rest ih =>
    rw [findFrom] at here
    split at here
    · obtain rfl := Option.some.inj here
      exact Nat.le_refl _
    · exact Nat.le_succ_of_le (ih here)

theorem length_find_le {source found : Source} {word : List UInt8}
    (here : source.find? word = some found) : found.ahead.length ≤ source.ahead.length :=
  length_findFrom_le here

theorem ahead_of_peek {source seen : Source} {value : UInt8}
    (peeked : source.peek = (.ok (some value), seen)) :
    seen = source ∧ source.ahead ≠ [] := by
  unfold peek at peeked
  split at peeked <;> simp_all

theorem length_peek_le {source seen : Source} {sight : Except StreamFault (Option UInt8)}
    (peeked : source.peek = (sight, seen)) : seen.ahead.length ≤ source.ahead.length := by
  unfold peek at peeked
  split at peeked <;> simp only [Prod.mk.injEq] at peeked <;> obtain ⟨_, rfl⟩ := peeked <;>
    simp_all

theorem length_advance {source : Source} (nonempty : source.ahead ≠ []) :
    source.advance.ahead.length + 1 = source.ahead.length := by
  cases h : source.ahead with
  | nil => exact absurd h nonempty
  | cons sight rest => simp [advance, h]

end Source

end PdfPrimitives
