import Mathlib.Algebra.Group.Nat.Defs
import PdfPrimitives.Calculator.Bytecode

/-!
Splitting bytes into instructions, and spelling them. A skip leads to a byte here, since the
places where instructions begin are not known before all bytes are split.
-/

namespace PdfPrimitives.Calculator

theorem Operator.ofTag_tag (operator : Operator) :
    Operator.ofTag? operator.tag = some operator := by
  cases operator <;> rfl

theorem Operator.tag_of_ofTag (tag : UInt8) (operator : Operator)
    (known : Operator.ofTag? tag = some operator) : operator.tag = tag := by
  obtain ⟨within, rfl⟩ := List.getElem?_eq_some_iff.mp known
  have placed : ∀ place : Fin Operator.all.length,
      (Operator.all.get place).tag.toNat = place := by decide
  exact UInt8.toNat_inj.mp (placed ⟨tag.toNat, within⟩)

/-- The tags of operators lie below those of the other instructions. -/
theorem Operator.tag_small (operator : Operator) : operator.tag < 0x28 := by
  cases operator <;> decide

namespace Bytecode

section Words

theorem length_wordBytes (count n : Nat) : (wordBytes count n).length = count := by
  induction count generalizing n with
  | zero => rfl
  | succ count ih => rw [wordBytes, List.length_cons, ih]

theorem wordValue_wordBytes (count n : Nat) (fits : n < 256 ^ count) :
    wordValue (wordBytes count n) = n := by
  induction count generalizing n with
  | zero =>
    rw [Nat.pow_zero, Nat.lt_one_iff] at fits
    rw [fits]
    rfl
  | succ count ih =>
    rw [Nat.pow_succ] at fits
    rw [wordBytes, wordValue, ih _ (Nat.div_lt_of_lt_mul (by omega)), UInt8.toNat_ofNat']
    omega

theorem wordValue_lt (bytes : List UInt8) : wordValue bytes < 256 ^ bytes.length := by
  induction bytes with
  | nil => decide
  | cons byte rest ih =>
    have := byte.toNat_lt
    rw [wordValue, List.length_cons, Nat.pow_succ]
    omega

theorem wordBytes_wordValue (bytes : List UInt8) :
    wordBytes bytes.length (wordValue bytes) = bytes := by
  induction bytes with
  | nil => rfl
  | cons byte rest ih =>
    have low := byte.toNat_lt
    rw [List.length_cons, wordValue, wordBytes]
    rw [show (byte.toNat + 256 * wordValue rest) / 256 = wordValue rest by omega, ih]
    congr
    apply UInt8.toNat_inj.mp
    rw [UInt8.toNat_ofNat']
    omega

end Words

end Bytecode

namespace Instruction

def carried? : Instruction → Option Nat
  | .skipUnless target | .skip target => some target
  | _ => none

end Instruction

namespace Bytecode

def spell (start : Nat) : Instruction → List UInt8
  | .literal bits => literalTag :: wordBytes 8 bits.toNat
  | .operator operator => [operator.tag]
  | .skipUnless target => skipUnlessTag :: wordBytes 4 (target - (start + 5))
  | .skip target => skipTag :: wordBytes 4 (target - (start + 5))
  | .placeholder => [placeholderTag]
  | .stop => [stopTag]

def chunks (start : Nat) : List Instruction → List (List UInt8)
  | [] => []
  | instruction :: rest => spell start instruction :: chunks (start + size instruction) rest

/-- A skip at `start` leads to a byte behind it, at a distance that fits into its word. -/
def Near (start : Nat) (instruction : Instruction) : Prop :=
  ∀ target, instruction.carried? = some target →
    start + 5 ≤ target ∧ target < start + 5 + 2 ^ 31

def NearFrom (start : Nat) : List Instruction → Prop
  | [] => True
  | instruction :: rest => Near start instruction ∧ NearFrom (start + size instruction) rest

theorem near_of_plain (start : Nat) (instruction : Instruction)
    (plain : instruction.carried? = none) : Near start instruction := by
  intro target carried
  rw [plain] at carried
  cases carried

theorem length_spell (start : Nat) (instruction : Instruction) :
    (spell start instruction).length = size instruction := by
  cases instruction <;> simp [spell, size, length_wordBytes]

theorem spell_literal (start : Nat) (payload : List UInt8) (complete : payload.length = 8) :
    spell start (.literal (UInt64.ofNat (wordValue payload))) = literalTag :: payload := by
  have small := wordValue_lt payload
  have same := wordBytes_wordValue payload
  rw [complete] at small same
  rw [spell, UInt64.toNat_ofNat_of_lt' small, same]

theorem spell_skip (start : Nat) (payload : List UInt8) (complete : payload.length = 4) :
    spell start (.skip (start + 5 + wordValue payload)) = skipTag :: payload := by
  have same := wordBytes_wordValue payload
  rw [complete] at same
  rw [spell, Nat.add_sub_cancel_left, same]

theorem spell_skipUnless (start : Nat) (payload : List UInt8) (complete : payload.length = 4) :
    spell start (.skipUnless (start + 5 + wordValue payload)) = skipUnlessTag :: payload := by
  have same := wordBytes_wordValue payload
  rw [complete] at same
  rw [spell, Nat.add_sub_cancel_left, same]

section Splitting

variable (start : Nat)

theorem split_literal (payload rest : List UInt8) (complete : payload.length = 8) :
    splitFrom start (literalTag :: (payload ++ rest)) =
      (splitFrom (start + 9) rest).map (.literal (UInt64.ofNat (wordValue payload)) :: ·) := by
  match payload, complete with
  | [a, b, c, d, e, f, g, h], _ =>
    simp only [List.cons_append, List.nil_append, splitFrom, if_pos]
    cases splitFrom (start + 9) rest <;> rfl

theorem split_skip (tag : UInt8) (payload rest : List UInt8) (complete : payload.length = 4)
    (skips : tag = skipTag ∨ tag = skipUnlessTag) (near : wordValue payload < 2 ^ 31) :
    splitFrom start (tag :: (payload ++ rest)) =
      (splitFrom (start + 5) rest).map ((if tag = skipTag
        then .skip (start + 5 + wordValue payload)
        else .skipUnless (start + 5 + wordValue payload)) :: ·) := by
  match payload, complete with
  | [a, b, c, d], _ =>
    have known : tag ≠ literalTag := by
      rcases skips with rfl | rfl <;> decide
    have either : (tag = skipTag || tag = skipUnlessTag) = true := by simpa using skips
    rw [List.cons_append, List.cons_append, List.cons_append, List.cons_append, List.nil_append,
      splitFrom.eq_def]
    simp only [known, either, distance?, Nat.pow_eq, near, if_true, if_false]
    cases splitFrom (start + 5) rest <;> rfl

theorem split_operator (operator : Operator) (rest : List UInt8) :
    splitFrom start (operator.tag :: rest) =
      (splitFrom (start + 1) rest).map (.operator operator :: ·) := by
  have apart (tag : UInt8) (large : 0x28 ≤ tag) : operator.tag ≠ tag := by
    rintro rfl
    exact absurd operator.tag_small (UInt8.not_lt.mpr large)
  rw [splitFrom.eq_def]
  simp only [apart literalTag (by decide), apart skipTag (by decide),
    apart skipUnlessTag (by decide), apart placeholderTag (by decide), apart stopTag (by decide),
    Operator.ofTag_tag, if_false, decide_false, Bool.or_false, Bool.false_eq_true]
  cases splitFrom (start + 1) rest <;> rfl

theorem split_placeholder (rest : List UInt8) :
    splitFrom start (placeholderTag :: rest) =
      (splitFrom (start + 1) rest).map (.placeholder :: ·) := by
  rw [splitFrom.eq_def]
  simp only [show placeholderTag ≠ literalTag by decide, show placeholderTag ≠ skipTag by decide,
    show placeholderTag ≠ skipUnlessTag by decide, if_false, if_true, decide_false,
    Bool.or_false, Bool.false_eq_true]
  cases splitFrom (start + 1) rest <;> rfl

theorem split_stop (rest : List UInt8) :
    splitFrom start (stopTag :: rest) = (splitFrom (start + 1) rest).map (.stop :: ·) := by
  rw [splitFrom.eq_def]
  simp only [show stopTag ≠ literalTag by decide, show stopTag ≠ skipTag by decide,
    show stopTag ≠ skipUnlessTag by decide, show stopTag ≠ placeholderTag by decide, if_false,
    if_true, decide_false, Bool.or_false, Bool.false_eq_true]
  cases splitFrom (start + 1) rest <;> rfl

theorem split_spell (instruction : Instruction) (rest : List UInt8)
    (near : Near start instruction) :
    splitFrom start (spell start instruction ++ rest) =
      (splitFrom (start + size instruction) rest).map (instruction :: ·) := by
  cases instruction with
  | literal bits =>
    rw [spell, List.cons_append, split_literal _ _ rest (length_wordBytes 8 _),
      wordValue_wordBytes 8 _ bits.toNat_lt, UInt64.ofNat_toNat]
    rfl
  | operator operator => exact split_operator start operator rest
  | skipUnless target =>
    obtain ⟨ahead, small⟩ := near target rfl
    have value := wordValue_wordBytes 4 (target - (start + 5)) (by omega)
    rw [spell, List.cons_append, split_skip _ _ _ rest (length_wordBytes 4 _) (.inr rfl)
      (by omega), value, Nat.add_sub_of_le ahead]
    rfl
  | skip target =>
    obtain ⟨ahead, small⟩ := near target rfl
    have value := wordValue_wordBytes 4 (target - (start + 5)) (by omega)
    rw [spell, List.cons_append, split_skip _ _ _ rest (length_wordBytes 4 _) (.inl rfl)
      (by omega), value, Nat.add_sub_of_le ahead]
    rfl
  | placeholder => exact split_placeholder start rest
  | stop => exact split_stop start rest

theorem split_chunks (raw : List Instruction) (near : NearFrom start raw) :
    splitFrom start (chunks start raw).flatten = some raw := by
  induction raw generalizing start with
  | nil => rfl
  | cons instruction rest ih =>
    rw [chunks, List.flatten_cons, split_spell start instruction _ near.1, ih _ near.2]
    rfl

theorem parts_of_rest (instruction : Instruction) (bytes rest : List UInt8)
    (raw : List Instruction) (near : Near start instruction)
    (first : bytes = spell start instruction ++ rest)
    (parts : (do
      let instructions ← splitFrom (start + size instruction) rest
      return instruction :: instructions) = some raw) :
    ∃ first rest others, raw = first :: others ∧ Near start first ∧
      bytes = spell start first ++ rest ∧
      splitFrom (start + size first) rest = some others := by
  obtain ⟨others, remaining, same⟩ := Option.bind_eq_some_iff.mp parts
  exact ⟨instruction, rest, others, (Option.some.inj same).symm, near, first, remaining⟩

theorem near_of_distance (distance : Nat) (small : distance < 2 ^ 31) (skip : Instruction)
    (carries : skip.carried? = some (start + 5 + distance)) : Near start skip := by
  intro target carried
  obtain rfl := Option.some.inj (carries.symm.trans carried)
  omega

theorem parts_of_split (tag : UInt8) (payload : List UInt8) (raw : List Instruction)
    (parts : splitFrom start (tag :: payload) = some raw) :
    ∃ first rest others, raw = first :: others ∧ Near start first ∧
      tag :: payload = spell start first ++ rest ∧
      splitFrom (start + size first) rest = some others := by
  rw [splitFrom.eq_def] at parts
  simp only at parts
  split at parts
  · next literal =>
    split at parts
    · next a b c d e f g h rest =>
      refine parts_of_rest start (.literal _) _ rest raw (near_of_plain _ _ rfl) ?_ parts
      rw [spell_literal _ _ rfl, literal]
      rfl
    · cases parts
  · split at parts
    · next skips =>
      split at parts
      · next a b c d rest =>
        obtain ⟨distance, word, parts⟩ := Option.bind_eq_some_iff.mp parts
        obtain ⟨near, value⟩ := Option.ite_none_right_eq_some.mp word
        obtain rfl := Option.some.inj value
        by_cases skip : tag = skipTag
        · simp only [skip, if_true] at parts
          refine parts_of_rest start (.skip _) _ rest raw
            (near_of_distance start _ near _ rfl) ?_ parts
          rw [spell_skip _ _ rfl, skip]
          rfl
        · simp only [skip, if_false] at parts
          have conditional : tag = skipUnlessTag := by simpa [skip] using skips
          refine parts_of_rest start (.skipUnless _) _ rest raw
            (near_of_distance start _ near _ rfl) ?_ parts
          rw [spell_skipUnless _ _ rfl, conditional]
          rfl
      · cases parts
    · split at parts
      · next placeholder =>
        rw [placeholder]
        exact parts_of_rest start .placeholder _ payload raw (near_of_plain _ _ rfl) rfl parts
      · split at parts
        · next stop =>
          rw [stop]
          exact parts_of_rest start .stop _ payload raw (near_of_plain _ _ rfl) rfl parts
        · obtain ⟨instruction, known, parts⟩ := Option.bind_eq_some_iff.mp parts
          obtain ⟨operator, named, rfl⟩ := Option.map_eq_some_iff.mp known
          rw [← Operator.tag_of_ofTag tag operator named]
          exact parts_of_rest start (.operator operator) _ payload raw (near_of_plain _ _ rfl)
            rfl parts

theorem chunks_of_split (bytes : List UInt8) (raw : List Instruction)
    (parts : splitFrom start bytes = some raw) :
    (chunks start raw).flatten = bytes ∧ NearFrom start raw := by
  induction raw generalizing start bytes with
  | nil =>
    cases bytes with
    | nil => exact ⟨rfl, trivial⟩
    | cons tag payload =>
      obtain ⟨_, _, _, same, -⟩ := parts_of_split start tag payload [] parts
      cases same
  | cons instruction others ih =>
    cases bytes with
    | nil => cases parts
    | cons tag payload =>
      obtain ⟨_, rest, _, same, near, first, remaining⟩ := parts_of_split start tag payload _ parts
      obtain ⟨rfl, rfl⟩ := List.cons.inj same
      obtain ⟨spelled, nearby⟩ := ih _ rest remaining
      exact ⟨by rw [chunks, List.flatten_cons, spelled, first], near, nearby⟩

end Splitting

end Bytecode

end PdfPrimitives.Calculator
