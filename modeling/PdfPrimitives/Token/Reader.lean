import PdfPrimitives.Token.Source
import PdfPrimitives.Token.Step

/-!
The token reader. It looks at one byte at a time and takes only bytes that it accepts,
so that after a fault its source stands at the byte that caused it.
-/

namespace PdfPrimitives

structure Reader where
  source : Source
  mode : Mode
  /-- Where the token began that the reader is in the middle of. -/
  start : Nat
  tokenStart : Nat
  deriving Repr, DecidableEq

namespace Reader

def ofSource (source : Source) : Reader := ⟨source, .idle, 0, 0⟩

def ofBytes (bytes : List UInt8) : Reader := ofSource (.ofBytes bytes)

def reset (reader : Reader) : Reader := { reader with mode := .idle }

def size (reader : Reader) : Nat := 2 * reader.source.ahead.length + reader.mode.weight

theorem size_take_lt {source : Source} {mode : Mode} {start tokenStart : Nat}
    (running : mode.isEnded = false) (nonempty : source.ahead ≠ [])
    (next : Mode) (start' tokenStart' : Nat) :
    size ⟨source.advance, next, start', tokenStart'⟩ < size ⟨source, mode, start, tokenStart⟩ := by
  have := Source.length_advance nonempty
  have := next.weight_le
  have := Mode.weight_pos running
  simp only [size]
  omega

theorem size_idle_lt {source : Source} {mode : Mode} {start tokenStart : Nat}
    (busy : mode.weight = 2) (start' tokenStart' : Nat) :
    size ⟨source, .idle, start', tokenStart'⟩ < size ⟨source, mode, start, tokenStart⟩ := by
  have : Mode.idle.weight = 1 := rfl
  simp only [size]
  omega

theorem size_ended_lt {source seen : Source} {mode : Mode} {start tokenStart : Nat}
    (running : mode.isEnded = false) (shorter : seen.ahead.length ≤ source.ahead.length)
    (start' tokenStart' : Nat) :
    size ⟨seen, .ended, start', tokenStart'⟩ < size ⟨source, mode, start, tokenStart⟩ := by
  have := Mode.weight_pos running
  have : Mode.ended.weight = 0 := rfl
  simp only [size]
  omega

def finish (flags : ReadFlags) (reader : Reader) : Except TokenFault (Option Token) × Reader :=
  match reader.mode.finish flags with
  | .error fault => (.error fault, reader)
  | .ok none => (.ok none, { reader with mode := .ended })
  | .ok (some token) =>
    (.ok (some token), { reader with mode := .ended, tokenStart := reader.start })

/-- Read the next token. There is none at the end of the source and, where reading goes
up to a line feed, behind that line feed. -/
def read (flags : ReadFlags) (reader : Reader) : Except TokenFault (Option Token) × Reader :=
  let ⟨source, mode, begun, tokenStart⟩ := reader
  if mode.isEnded then (.ok none, ⟨source, mode, begun, tokenStart⟩)
  else
    match _ : source.peek with
    | (.error fault, source) => (.error (.stream fault), ⟨source, mode, begun, tokenStart⟩)
    | (.ok none, source) => finish flags ⟨source, mode, begun, tokenStart⟩
    | (.ok (some byte), source) =>
      let start := if mode.isIdle then source.offset else begun
      match _ : mode.step flags byte with
      | .take mode => read flags ⟨source.advance, mode, start, tokenStart⟩
      | .complete token => (.ok (some token), ⟨source.advance, .idle, start, start⟩)
      | .release (some token) => (.ok (some token), ⟨source, .idle, start, start⟩)
      | .release none => read flags ⟨source, .idle, start, tokenStart⟩
      | .refuse fault mode => (.error fault, ⟨source, mode, start, tokenStart⟩)
      | .stay => (.ok none, ⟨source, .ended, start, tokenStart⟩)
termination_by reader.size
decreasing_by
  · obtain ⟨rfl, nonempty⟩ := Source.ahead_of_peek ‹_›
    exact size_take_lt (Bool.eq_false_iff.2 ‹_›) nonempty _ _ _
  · obtain ⟨rfl, _⟩ := Source.ahead_of_peek ‹_›
    exact size_idle_lt (Mode.weight_of_release ‹mode.step _ _ = _›) _ _

def faultMessage (reader : Reader) (fault : TokenFault) : String :=
  s!"failed to read token at offset {reader.source.offset}: " ++ fault.message

theorem finish_eq_token {flags : ReadFlags} {reader next : Reader} {token : Token}
    (finished : finish flags reader = (.ok (some token), next)) :
    next = { reader with mode := .ended, tokenStart := reader.start } := by
  unfold finish at finished
  split at finished <;> simp_all

/-- A read that gives a token brings the end nearer. -/
theorem size_read_lt {flags : ReadFlags} {reader next : Reader} {token : Token}
    (done : read flags reader = (.ok (some token), next)) : next.size < reader.size := by
  fun_induction read flags reader with
  | case1 | case2 | case8 | case9 => simp at done
  | case3 source mode begun tokenStart running seen peeked =>
    rw [finish_eq_token done]
    exact size_ended_lt (Bool.eq_false_iff.2 running) (Source.length_peek_le peeked) _ _
  | case4 source mode begun tokenStart running byte seen peeked start after stepped ih =>
    obtain ⟨rfl, nonempty⟩ := Source.ahead_of_peek peeked
    exact Nat.lt_trans (ih done) (size_take_lt (Bool.eq_false_iff.2 running) nonempty _ _ _)
  | case5 source mode begun tokenStart running byte seen peeked start given stepped =>
    obtain ⟨rfl, nonempty⟩ := Source.ahead_of_peek peeked
    simp only [Prod.mk.injEq] at done
    rw [← done.2]
    exact size_take_lt (Bool.eq_false_iff.2 running) nonempty _ _ _
  | case6 source mode begun tokenStart running byte seen peeked start given stepped =>
    obtain ⟨rfl, _⟩ := Source.ahead_of_peek peeked
    simp only [Prod.mk.injEq] at done
    rw [← done.2]
    exact size_idle_lt (Mode.weight_of_release stepped) _ _
  | case7 source mode begun tokenStart running byte seen peeked start stepped ih =>
    obtain ⟨rfl, _⟩ := Source.ahead_of_peek peeked
    exact Nat.lt_trans (ih done) (size_idle_lt (Mode.weight_of_release stepped) _ _)

theorem size_finish_le (flags : ReadFlags) (reader : Reader) :
    (finish flags reader).2.size ≤ reader.size := by
  have : Mode.ended.weight = 0 := rfl
  unfold finish
  split <;> simp only [size] <;> omega

theorem size_read_le (flags : ReadFlags) (reader : Reader) :
    (read flags reader).2.size ≤ reader.size := by
  fun_induction read flags reader with
  | case1 => exact Nat.le_refl _
  | case2 source mode begun tokenStart running fault seen peeked =>
    have := Source.length_peek_le peeked
    simp only [size]
    omega
  | case3 source mode begun tokenStart running seen peeked =>
    have := Source.length_peek_le peeked
    refine Nat.le_trans (size_finish_le flags _) ?_
    simp only [size]
    omega
  | case4 source mode begun tokenStart running byte seen peeked start after stepped ih =>
    obtain ⟨rfl, nonempty⟩ := Source.ahead_of_peek peeked
    exact Nat.le_trans ih
      (Nat.le_of_lt (size_take_lt (Bool.eq_false_iff.2 running) nonempty _ _ _))
  | case5 source mode begun tokenStart running byte seen peeked start given stepped =>
    obtain ⟨rfl, nonempty⟩ := Source.ahead_of_peek peeked
    exact Nat.le_of_lt (size_take_lt (Bool.eq_false_iff.2 running) nonempty _ _ _)
  | case6 source mode begun tokenStart running byte seen peeked start given stepped =>
    obtain ⟨rfl, _⟩ := Source.ahead_of_peek peeked
    exact Nat.le_of_lt (size_idle_lt (Mode.weight_of_release stepped) _ _)
  | case7 source mode begun tokenStart running byte seen peeked start stepped ih =>
    obtain ⟨rfl, _⟩ := Source.ahead_of_peek peeked
    exact Nat.le_trans ih (Nat.le_of_lt (size_idle_lt (Mode.weight_of_release stepped) _ _))
  | case8 source mode begun tokenStart running byte seen peeked start fault after stepped =>
    obtain ⟨rfl, _⟩ := Source.ahead_of_peek peeked
    obtain rfl := Mode.mode_of_refuse stepped
    exact Nat.le_refl _
  | case9 source mode begun tokenStart running byte seen peeked start stepped =>
    obtain ⟨rfl, _⟩ := Source.ahead_of_peek peeked
    exact Nat.le_of_lt (size_ended_lt (Bool.eq_false_iff.2 running) (Nat.le_refl _) _ _)

/-- Reading brings nothing new into the source. -/
theorem length_ahead_read_le (flags : ReadFlags) (reader : Reader) :
    (read flags reader).2.source.ahead.length ≤ reader.source.ahead.length := by
  fun_induction read flags reader with
  | case1 => exact Nat.le_refl _
  | case2 source mode begun tokenStart running fault seen peeked =>
    exact Source.length_peek_le peeked
  | case3 source mode begun tokenStart running seen peeked =>
    have := Source.length_peek_le peeked
    unfold finish
    split <;> exact this
  | case4 source mode begun tokenStart running byte seen peeked start after stepped ih =>
    obtain ⟨rfl, nonempty⟩ := Source.ahead_of_peek peeked
    have := Source.length_advance nonempty
    exact Nat.le_trans ih (by simp only; omega)
  | case5 source mode begun tokenStart running byte seen peeked start given stepped =>
    obtain ⟨rfl, nonempty⟩ := Source.ahead_of_peek peeked
    have := Source.length_advance nonempty
    simp only
    omega
  | case7 source mode begun tokenStart running byte seen peeked start stepped ih =>
    obtain ⟨rfl, _⟩ := Source.ahead_of_peek peeked
    exact ih
  | case6 _ _ _ _ _ _ _ peeked | case8 _ _ _ _ _ _ _ peeked | case9 _ _ _ _ _ _ _ peeked =>
    obtain ⟨rfl, _⟩ := Source.ahead_of_peek peeked
    exact Nat.le_refl _

structure Reading where
  tokens : List Token
  fault : Option TokenFault
  reader : Reader

def collect (flags : ReadFlags) (found : Array Token) (reader : Reader) : Reading :=
  match _ : read flags reader with
  | (.error fault, next) => ⟨found.toList, some fault, next⟩
  | (.ok none, next) => ⟨found.toList, none, next⟩
  | (.ok (some token), next) => collect flags (found.push token) next
termination_by reader.size
decreasing_by exact size_read_lt ‹_›

def tokens (flags : ReadFlags) (reader : Reader) : Reading := collect flags #[] reader

end Reader

end PdfPrimitives
