import PdfPrimitives.Calculator.Compile

/-!
The grammar of calculator programs as a syntax tree. A tree spells a list of words, and a
program is what stands between the outer braces. Beside it stands a weaker reading of the
same words, which only counts the blocks that wait for a conditional.
-/

namespace PdfPrimitives.Calculator

structure Literal where
  word : List UInt8
  bits : UInt64
  spelled : Builder.number? word = some bits
  short : word.length ≤ wordLimit

inductive Body where
  | done
  | literal (literal : Literal) (rest : Body)
  | operator (operator : Operator) (rest : Body)
  | conditional (inner rest : Body)
  | alternative (first second rest : Body)

def braced (words : List (List UInt8)) : List (List UInt8) :=
  [Byte.openBrace] :: words ++ [[Byte.closeBrace]]

namespace Body

def words : Body → List (List UInt8)
  | done => []
  | literal number rest => number.word :: rest.words
  | operator name rest => Text.ascii name.name :: rest.words
  | conditional inner rest => braced inner.words ++ Text.ascii "if" :: rest.words
  | alternative first second rest =>
    braced first.words ++ braced second.words ++ Text.ascii "ifelse" :: rest.words

def depth : Body → Nat
  | done => 0
  | literal _ rest | operator _ rest => rest.depth
  | conditional inner rest => max (inner.depth + 1) rest.depth
  | alternative first second rest => max (max (first.depth + 1) (second.depth + 1)) rest.depth

end Body

/-- Whether no brace closes a block in which a block still waits for its conditional. The
blocks that wait are counted level by level: `inside` counts those of the innermost open
block and `outside` those of the blocks around it. -/
def leavesNoneWaiting (inside : Nat) (outside : List Nat) : List (List UInt8) → Bool
  | [] => true
  | word :: rest =>
    if word = [Byte.openBrace] then leavesNoneWaiting 0 (inside :: outside) rest
    else if word = [Byte.closeBrace] then
      match outside with
      | [] => true
      | waiting :: outside => inside == 0 && leavesNoneWaiting (waiting + 1) outside rest
    else if word = Text.ascii "if" then leavesNoneWaiting (inside - 1) outside rest
    else if word = Text.ascii "ifelse" then leavesNoneWaiting (inside - 2) outside rest
    else leavesNoneWaiting inside outside rest

def IsPlain (word : List UInt8) : Prop :=
  word ≠ [Byte.openBrace] ∧ word ≠ [Byte.closeBrace] ∧
    word ≠ Text.ascii "if" ∧ word ≠ Text.ascii "ifelse"

section Words

theorem parse_head (word : List UInt8) (number : Numeral.Decimal)
    (parsed : Numeral.Decimal.parse? word = some number) :
    ∃ byte rest, word = byte :: rest ∧
      (byte = 0x2b ∨ byte = 0x2d ∨ byte = 0x2e ∨ Numeral.isDigit byte = true) := by
  cases word with
  | nil => simp [Numeral.Decimal.parse?, Numeral.Decimal.splitSign, Numeral.spanDigits,
      Numeral.Decimal.splitFraction] at parsed
  | cons byte rest =>
    refine ⟨byte, rest, rfl, ?_⟩
    apply Decidable.byContradiction
    intro other
    simp only [not_or] at other
    obtain ⟨plus, minus, point, digit⟩ := other
    simp [Numeral.Decimal.parse?, Numeral.Decimal.splitSign, Numeral.spanDigits,
      Numeral.Decimal.splitFraction, plus, minus, point, digit] at parsed

theorem numeric_of_number (word : List UInt8) (bits : UInt64)
    (spelled : Builder.number? word = some bits) : Builder.isNumeric word = true := by
  obtain ⟨present, -⟩ := Option.filter_eq_some_iff.mp spelled
  obtain ⟨number, parsed, -⟩ := Option.map_eq_some_iff.mp present
  obtain ⟨byte, rest, rfl, start⟩ := parse_head word number parsed
  have high : byte < 0x61 := by
    rcases start with rfl | rfl | rfl | digit
    · decide
    · decide
    · decide
    · simp only [Numeral.isDigit, Bool.and_eq_true, decide_eq_true_eq] at digit
      exact UInt8.lt_of_le_of_lt digit.2 (by decide)
  simp [Builder.isNumeric, UInt8.not_le.mpr high]

theorem literal_plain (literal : Literal) : IsPlain literal.word := by
  have apart (word : List UInt8) (none : Builder.number? word = none) : literal.word ≠ word := by
    rintro rfl
    simp [literal.spelled] at none
  exact ⟨apart _ rfl, apart _ rfl, apart _ rfl, apart _ rfl⟩

theorem name_plain (operator : Operator) : IsPlain (Text.ascii operator.name) := by
  cases operator <;> refine ⟨?_, ?_, ?_, ?_⟩ <;> decide

theorem name_not_numeric (operator : Operator) :
    Builder.isNumeric (Text.ascii operator.name) = false := by
  cases operator <;> decide

theorem name_short (operator : Operator) :
    (Text.ascii operator.name).length ≤ wordLimit := by
  cases operator <;> decide

theorem ofName_name (operator : Operator) :
    Operator.ofName? (Text.ascii operator.name) = some operator := by
  cases operator <;> decide

theorem name_of_ofName (word : List UInt8) (operator : Operator)
    (named : Operator.ofName? word = some operator) : word = Text.ascii operator.name := by
  simpa [eq_comm] using List.find?_some named

end Words

section Waiting

variable (inside : Nat) (outside : List Nat) (rest : List (List UInt8))

theorem waiting_open :
    leavesNoneWaiting inside outside ([Byte.openBrace] :: rest) =
      leavesNoneWaiting 0 (inside :: outside) rest := rfl

theorem waiting_close (waiting : Nat) :
    leavesNoneWaiting inside (waiting :: outside) ([Byte.closeBrace] :: rest) =
      (inside == 0 && leavesNoneWaiting (waiting + 1) outside rest) := rfl

theorem waiting_if :
    leavesNoneWaiting inside outside (Text.ascii "if" :: rest) =
      leavesNoneWaiting (inside - 1) outside rest := rfl

theorem waiting_ifelse :
    leavesNoneWaiting inside outside (Text.ascii "ifelse" :: rest) =
      leavesNoneWaiting (inside - 2) outside rest := rfl

theorem waiting_plain (word : List UInt8) (plain : IsPlain word) :
    leavesNoneWaiting inside outside (word :: rest) = leavesNoneWaiting inside outside rest := by
  obtain ⟨opening, closing, single, double⟩ := plain
  simp [leavesNoneWaiting, opening, closing, single, double]

theorem waiting_words (body : Body) :
    leavesNoneWaiting inside outside (body.words ++ rest) =
      leavesNoneWaiting inside outside rest := by
  induction body generalizing inside outside rest with
  | done => rfl
  | literal literal body ih =>
    rw [Body.words, List.cons_append, waiting_plain _ _ _ _ (literal_plain literal), ih]
  | operator operator body ih =>
    rw [Body.words, List.cons_append, waiting_plain _ _ _ _ (name_plain operator), ih]
  | conditional inner body innerIh ih =>
    simp only [Body.words, braced, List.cons_append, List.append_assoc, List.nil_append]
    rw [waiting_open, innerIh, waiting_close, waiting_if, ih]
    rfl
  | alternative first second body firstIh secondIh ih =>
    simp only [Body.words, braced, List.cons_append, List.append_assoc, List.nil_append]
    rw [waiting_open, firstIh, waiting_close, waiting_open, secondIh, waiting_close,
      waiting_ifelse, ih]
    rfl

theorem waiting_block (body : Body) :
    leavesNoneWaiting inside outside (braced body.words ++ rest) =
      leavesNoneWaiting (inside + 1) outside rest := by
  rw [braced, List.cons_append, List.cons_append, List.append_assoc, waiting_open, waiting_words]
  exact waiting_close 0 outside rest inside

theorem waiting_braced (body : Body) : leavesNoneWaiting 0 [] (braced body.words) = true := by
  rw [← List.append_nil (braced body.words), waiting_block]
  rfl

end Waiting

end PdfPrimitives.Calculator
