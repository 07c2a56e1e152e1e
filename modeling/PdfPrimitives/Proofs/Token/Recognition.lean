import Mathlib.Data.Nat.Digits.Defs
import PdfPrimitives.Proofs.Token.Numbers

/-!
Which words are numbers. A word of digits after a sign, if wanted, is an integer exactly if its
value fits into 32 bits, however many zeros it begins with. With one point anywhere among the
digits, or with a value that does not fit, it is a real. All other words are no numbers.
-/

namespace PdfPrimitives

open Numeral

namespace Token

section Shapes

inductive Sign : List UInt8 → Bool → Prop
  | absent : Sign [] false
  | plus : Sign [0x2b] false
  | minus : Sign [0x2d] true

def decimalValue (run : List UInt8) : ℕ := Nat.ofDigits 10 (run.reverse.map digitValue)

inductive IntegerShaped : List UInt8 → ℤ → Prop
  | spelled {sign run : List UInt8} {negative : Bool} (signed : Sign sign negative)
    (nonempty : run ≠ []) (digits : ∀ byte ∈ run, isDigit byte = true) :
    IntegerShaped (sign ++ run) (if negative then -decimalValue run else decimalValue run)

inductive PointShaped : List UInt8 → Prop
  | spelled {sign run : List UInt8} {negative : Bool} (signed : Sign sign negative)
    (point : run.count Byte.point = 1)
    (bytes : ∀ byte ∈ run, isDigit byte = true ∨ byte = Byte.point)
    (present : ∃ byte ∈ run, isDigit byte = true) : PointShaped (sign ++ run)

end Shapes

section Values

theorem decimalValue_eq (run : List UInt8) : decimalValue run = valueOf run := by
  induction run using List.reverseRecOn with
  | nil => rfl
  | append_singleton run byte ih =>
    rw [valueOf_concat, ← ih, decimalValue, List.reverse_append, List.reverse_singleton,
      List.singleton_append, List.map_cons, Nat.ofDigits_cons]
    exact Nat.add_comm _ _

theorem fits_iff_exists (value : ℤ) : fits value = true ↔ ∃ n : Int32, n.toInt = value := by
  rw [fits_iff]
  constructor
  · rintro ⟨low, high⟩
    exact ⟨Int32.ofInt value, Int32.toInt_ofInt_of_le low high⟩
  · rintro ⟨n, rfl⟩
    exact ⟨n.le_toInt, n.toInt_lt⟩

/-- The digits are taken away from zero, so that the first integer that does not fit is followed
by others that do not. -/
theorem accumulate_eq (negative : Bool) (run : List UInt8) : accumulate negative run 0 =
    if fits (signed negative (valueOf run)) then some (signed negative (valueOf run))
    else none := by
  induction run using List.reverseRecOn with
  | nil => cases negative <;> rfl
  | append_singleton run byte ih =>
    have next : extended negative (signed negative (valueOf run)) byte =
        signed negative (valueOf (run ++ [byte])) := by
      rw [valueOf_concat]
      cases negative <;> simp only [extended, signed, Bool.false_eq_true, ↓reduceIte] <;> omega
    rw [accumulate_concat, ih]
    by_cases small : fits (signed negative (valueOf run)) = true
    · rw [if_pos small, Option.bind_some, next]
    · have large : ¬fits (signed negative (valueOf (run ++ [byte]))) = true := by
        rw [fits_iff] at small ⊢
        rw [valueOf_concat]
        cases negative <;> simp only [signed, Bool.false_eq_true, ↓reduceIte] at small ⊢ <;> omega
      rw [if_neg small, if_neg large]
      rfl

end Values

section Recognition

variable {word sign run : List UInt8} {negative : Bool} {value : ℤ}

theorem splitSign_signed (signed : Sign sign negative)
    (bare : ∀ byte ∈ run.head?, byte ≠ 0x2b ∧ byte ≠ 0x2d) :
    Decimal.splitSign (sign ++ run) = (negative, run) := by
  cases signed with
  | plus => rfl
  | minus => rfl
  | absent =>
    cases run with
    | nil => rfl
    | cons byte run =>
      rcases bare byte rfl with ⟨noPlus, noMinus⟩
      rw [List.nil_append, Decimal.splitSign, if_neg noPlus, if_neg noMinus]

theorem exists_splitSign (word : List UInt8) : ∃ sign negative run, Sign sign negative ∧
    word = sign ++ run ∧ Decimal.splitSign word = (negative, run) := by
  cases word with
  | nil => exact ⟨[], false, [], .absent, rfl, rfl⟩
  | cons byte rest =>
    by_cases plus : byte = 0x2b
    · exact ⟨[0x2b], false, rest, .plus, by rw [plus]; rfl, by rw [plus]; rfl⟩
    · by_cases minus : byte = 0x2d
      · exact ⟨[0x2d], true, rest, .minus, by rw [minus]; rfl, by rw [minus]; rfl⟩
      · exact ⟨[], false, byte :: rest, .absent, rfl, by
          rw [Decimal.splitSign, if_neg plus, if_neg minus]⟩

theorem digit_bare {byte : UInt8} (shown : isDigit byte = true ∨ byte = Byte.point) :
    byte ≠ 0x2b ∧ byte ≠ 0x2d := by
  rcases shown with digit | rfl
  · rcases isDigit_class byte digit with ⟨-, noPlus, noMinus, -⟩
    exact ⟨noPlus, noMinus⟩
  · decide

/-- One point among digits has digits on both sides, and some on one of them. -/
theorem halves_of_point (point : run.count Byte.point = 1)
    (bytes : ∀ byte ∈ run, isDigit byte = true ∨ byte = Byte.point)
    (present : ∃ byte ∈ run, isDigit byte = true) : ∃ whole fraction,
      run = whole ++ Byte.point :: fraction ∧ (∀ byte ∈ whole, isDigit byte = true) ∧
      (∀ byte ∈ fraction, isDigit byte = true) ∧ (whole ≠ [] ∨ fraction ≠ []) := by
  have member : Byte.point ∈ run := List.count_pos_iff.mp (by omega)
  rcases List.append_of_mem member with ⟨whole, fraction, rfl⟩
  rw [List.count_append, List.count_cons_self] at point
  have digit {byte : UInt8} (inside : byte ∈ whole ++ Byte.point :: fraction)
      (other : byte ≠ Byte.point) : isDigit byte = true := (bytes byte inside).resolve_right other
  refine ⟨whole, fraction, rfl, ?_, ?_, ?_⟩
  · intro byte inside
    apply digit (List.mem_append_left _ inside)
    rintro rfl
    have := List.count_pos_iff.mpr inside
    omega
  · intro byte inside
    apply digit (List.mem_append_right _ (List.mem_cons_of_mem _ inside))
    rintro rfl
    have := List.count_pos_iff.mpr inside
    omega
  · by_contra empty
    simp only [ne_eq, not_or, not_not] at empty
    rcases empty with ⟨rfl, rfl⟩
    rcases present with ⟨byte, inside, digit⟩
    rw [List.mem_singleton.mp inside] at digit
    cases digit

theorem number_of_integerShaped (shaped : IntegerShaped word value) :
    (fits value = true ∧ number? word = some (.integer (Int32.ofInt value))) ∨
      (fits value = false ∧ ∃ real, number? word = some (.real real)) := by
  cases shaped with
  | @spelled sign run negative signs nonempty digits =>
    have split : Decimal.splitSign (sign ++ run) = (negative, run) := by
      apply splitSign_signed signs
      intro byte head
      exact digit_bare (.inl (digits byte (List.mem_of_mem_head? head)))
    have span := spanDigits_append run [] (List.all_eq_true.mpr digits) (by simp)
    have reached := accumulate_eq negative run
    rw [List.append_nil] at span
    rw [← decimalValue_eq] at reached
    change (fits (signed negative (decimalValue run)) = true ∧
        number? (sign ++ run) =
          some (.integer (Int32.ofInt (signed negative (decimalValue run))))) ∨
      (fits (signed negative (decimalValue run)) = false ∧ _)
    simp only [number?, split, span, List.isEmpty_iff, nonempty, ↓reduceIte, reached]
    cases fits (signed negative (decimalValue run)) with
    | true => exact .inl ⟨rfl, rfl⟩
    | false => exact .inr ⟨rfl, _, rfl⟩

theorem number_of_pointShaped (shaped : PointShaped word) :
    ∃ real, number? word = some (.real real) := by
  cases shaped with
  | @spelled sign run negative signs point bytes present =>
    have split : Decimal.splitSign (sign ++ run) = (negative, run) := by
      apply splitSign_signed signs
      intro byte head
      exact digit_bare (bytes byte (List.mem_of_mem_head? head))
    rcases halves_of_point point bytes present with
      ⟨whole, fraction, rfl, before, behind, nonempty⟩
    have span := spanDigits_append whole (Byte.point :: fraction) (List.all_eq_true.mpr before)
      (by simp; rfl)
    refine ⟨.ofDecimal (.ofDigits negative whole fraction), ?_⟩
    simp only [number?, split, span]
    rw [if_pos]
    simpa [List.all_eq_true.mpr behind] using nonempty

/-- Digits around a point have one point among them. -/
theorem pointShaped_of_halves {whole fraction : List UInt8} (signs : Sign sign negative)
    (before : ∀ byte ∈ whole, isDigit byte = true)
    (behind : ∀ byte ∈ fraction, isDigit byte = true) (nonempty : whole ≠ [] ∨ fraction ≠ []) :
    PointShaped (sign ++ (whole ++ Byte.point :: fraction)) := by
  have free {run : List UInt8} (digits : ∀ byte ∈ run, isDigit byte = true) :
      run.count Byte.point = 0 := by
    rw [List.count_eq_zero]
    intro inside
    cases digits Byte.point inside
  apply PointShaped.spelled signs
  · rw [List.count_append, List.count_cons_self, free before, free behind]
  · intro byte inside
    rcases List.mem_append.mp inside with left | right
    · exact .inl (before byte left)
    · rcases List.mem_cons.mp right with rfl | right
      · exact .inr rfl
      · exact .inl (behind byte right)
  · rcases nonempty with first | second
    · rcases List.exists_mem_of_ne_nil _ first with ⟨byte, inside⟩
      exact ⟨byte, List.mem_append_left _ inside, before byte inside⟩
    · rcases List.exists_mem_of_ne_nil _ second with ⟨byte, inside⟩
      exact ⟨byte, List.mem_append_right _ (List.mem_cons_of_mem _ inside), behind byte inside⟩

/-- Only words of the two shapes are numbers. -/
theorem shaped_of_number {token : Token} (found : number? word = some token) :
    (∃ value, IntegerShaped word value) ∨ PointShaped word := by
  rcases exists_splitSign word with ⟨sign, negative, run, signs, rfl, split⟩
  have before : ∀ byte ∈ run.takeWhile isDigit, isDigit byte = true :=
    List.all_eq_true.mp List.all_takeWhile
  have parts : run.takeWhile isDigit ++ run.dropWhile isDigit = run :=
    List.takeWhile_append_dropWhile
  simp only [number?, split, spanDigits] at found
  generalize run.takeWhile isDigit = whole at before parts found
  generalize run.dropWhile isDigit = rest at parts found
  subst parts
  -- What stands behind the first digits decides: nothing, a point, or something else.
  cases rest with
  | nil =>
    rw [List.append_nil]
    by_cases empty : whole = []
    · simp [empty] at found
    · exact .inl ⟨_, .spelled signs empty before⟩
  | cons byte fraction =>
    dsimp only at found
    split at found
    · next pointed =>
      simp only [Bool.and_eq_true, decide_eq_true_eq, Bool.not_eq_true', Bool.and_eq_false_iff,
        List.isEmpty_eq_false_iff] at pointed
      rcases pointed with ⟨⟨rfl, behind⟩, nonempty⟩
      exact .inr (pointShaped_of_halves signs before (List.all_eq_true.mp behind) nonempty)
    · cases found

theorem number_eq_integer_iff (n : Int32) :
    number? word = some (.integer n) ↔ IntegerShaped word n.toInt := by
  constructor
  · intro found
    rcases shaped_of_number found with ⟨value, shaped⟩ | shaped
    · rcases number_of_integerShaped shaped with ⟨small, same⟩ | ⟨-, real, other⟩
      · rcases (fits_iff_exists value).mp small with ⟨m, rfl⟩
        rw [found, Int32.ofInt_toInt] at same
        cases same
        exact shaped
      · cases found.symm.trans other
    · rcases number_of_pointShaped shaped with ⟨real, other⟩
      cases found.symm.trans other
  · intro shaped
    rcases number_of_integerShaped shaped with ⟨-, found⟩ | ⟨large, -⟩
    · rw [found, Int32.ofInt_toInt]
    · rw [(fits_iff_exists _).mpr ⟨n, rfl⟩] at large
      cases large

theorem number_eq_real_iff : (∃ real, number? word = some (.real real)) ↔ PointShaped word ∨
    ∃ value, IntegerShaped word value ∧ ¬∃ n : Int32, n.toInt = value := by
  constructor
  · rintro ⟨real, found⟩
    rcases shaped_of_number found with ⟨value, shaped⟩ | shaped
    · rcases number_of_integerShaped shaped with ⟨-, other⟩ | ⟨large, -⟩
      · cases found.symm.trans other
      · refine .inr ⟨value, shaped, ?_⟩
        rw [← fits_iff_exists, large]
        decide
    · exact .inl shaped
  · rintro (shaped | ⟨value, shaped, large⟩)
    · exact number_of_pointShaped shaped
    · rcases number_of_integerShaped shaped with ⟨small, -⟩ | ⟨-, found⟩
      · exact absurd ((fits_iff_exists value).mp small) large
      · exact found

theorem number_eq_none_iff : number? word = none ↔
    ¬PointShaped word ∧ ¬∃ value, IntegerShaped word value := by
  constructor
  · intro nothing
    constructor
    · intro shaped
      rcases number_of_pointShaped shaped with ⟨real, found⟩
      cases nothing.symm.trans found
    · rintro ⟨value, shaped⟩
      rcases number_of_integerShaped shaped with ⟨-, found⟩ | ⟨-, real, found⟩
      · cases nothing.symm.trans found
      · cases nothing.symm.trans found
  · rintro ⟨noPoint, noInteger⟩
    cases found : number? word with
    | none => rfl
    | some token =>
      rcases shaped_of_number found with shaped | shaped
      · exact absurd shaped noInteger
      · exact absurd shaped noPoint

end Recognition

/-- A word is read as an integer exactly if it has the shape of one and its value fits into 32
bits. It is read as a real exactly if it has a point, or the shape of an integer that does not
fit. No other word is a number. -/
theorem number_recognized (word : List UInt8) :
    (∀ n : Int32, number? word = some (.integer n) ↔ IntegerShaped word n.toInt) ∧
    ((∃ real, number? word = some (.real real)) ↔ PointShaped word ∨
      ∃ value, IntegerShaped word value ∧ ¬∃ n : Int32, n.toInt = value) ∧
    (number? word = none ↔ ¬PointShaped word ∧ ¬∃ value, IntegerShaped word value) :=
  ⟨number_eq_integer_iff, number_eq_real_iff, number_eq_none_iff⟩

example : number? (Text.ascii "-0000002147483648") = some (.integer Int32.minValue) := by
  decide +kernel

end Token

end PdfPrimitives
