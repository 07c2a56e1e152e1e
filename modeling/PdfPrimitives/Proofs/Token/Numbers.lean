import PdfPrimitives.Proofs.Numeral.Text
import PdfPrimitives.Token.Number
import PdfPrimitives.Token.Spelling

/-!
The spellings of numbers are words that read back as the numbers.
-/

namespace PdfPrimitives

open Numeral

namespace Token

section Integers

theorem fits_iff (value : Int) : fits value = true ↔ -2 ^ 31 ≤ value ∧ value < 2 ^ 31 := by
  have least : Int32.minValue.toInt = -2 ^ 31 := rfl
  have greatest : Int32.maxValue.toInt = 2 ^ 31 - 1 := rfl
  simp only [fits, least, greatest, Bool.and_eq_true, decide_eq_true_eq]
  omega

def extended (negative : Bool) (value : Int) (byte : UInt8) : Int :=
  if negative then 10 * value - digitValue byte else 10 * value + digitValue byte

theorem accumulate_cons (negative : Bool) (run : List UInt8) (byte : UInt8) (value : Int) :
    accumulate negative (byte :: run) value =
      if fits (extended negative value byte) then
        accumulate negative run (extended negative value byte)
      else none := rfl

theorem accumulate_concat (negative : Bool) (run : List UInt8) (byte : UInt8) (value : Int) :
    accumulate negative (run ++ [byte]) value =
      (accumulate negative run value).bind fun reached =>
        if fits (extended negative reached byte) then some (extended negative reached byte)
        else none := by
  induction run generalizing value with
  | nil => rfl
  | cons first run ih =>
    rw [List.cons_append, accumulate_cons, accumulate_cons]
    by_cases small : fits (extended negative value first) = true
    · rw [if_pos small, if_pos small]
      exact ih _
    · rw [if_neg small, if_neg small]
      rfl

def signed (negative : Bool) (n : Nat) : Int := if negative then -n else n

theorem accumulate_digitsOf (negative : Bool) (n : Nat) (small : fits (signed negative n) = true) :
    accumulate negative (digitsOf n) 0 = some (signed negative n) := by
  have next (value : Nat) (digit : Nat) (digit_lt : digit < 10) :
      extended negative (signed negative value) (digitByte digit) =
        signed negative (10 * value + digit) := by
    rw [extended, digitValue_digitByte digit digit_lt]
    cases negative <;> simp only [signed, Bool.false_eq_true, ↓reduceIte] <;> omega
  fun_induction digitsOf n with
  | case1 n single =>
    have first := next 0 n single
    rw [Nat.mul_zero, Nat.zero_add] at first
    have zero : signed negative 0 = 0 := by cases negative <;> rfl
    rw [zero] at first
    have step := accumulate_concat negative [] (digitByte n) 0
    simpa [accumulate, first, small] using step
  | case2 n large ih =>
    -- A prefix of the digits is nearer to zero, so none is too large.
    have shorter : fits (signed negative (n / 10)) = true := by
      rw [fits_iff] at small ⊢
      cases negative <;> simp only [signed] at small ⊢ <;> omega
    have digit_lt : n % 10 < 10 := Nat.mod_lt n (by decide)
    rw [accumulate_concat, ih shorter, Option.bind_some, next _ _ digit_lt, Nat.div_add_mod,
      if_pos small]

theorem splitSign_sign (negative : Bool) (run rest : List UInt8)
    (digits : run.all isDigit = true) (nonempty : run ≠ []) :
    Decimal.splitSign (Single.sign negative ++ run ++ rest) = (negative, run ++ rest) := by
  cases negative with
  | true => rfl
  | false =>
    cases run with
    | nil => contradiction
    | cons byte run =>
      rw [List.all_cons, Bool.and_eq_true] at digits
      obtain ⟨-, noPlus, noMinus, -⟩ := isDigit_class byte digits.1
      simp [Single.sign, Decimal.splitSign, noPlus, noMinus]

theorem number_whole (negative : Bool) (run : List UInt8) (value : Int)
    (digits : run.all isDigit = true) (nonempty : run ≠ [])
    (reached : accumulate negative run 0 = some value) :
    number? (Single.sign negative ++ run) = some (.integer (Int32.ofInt value)) := by
  have split := splitSign_sign negative run [] digits nonempty
  have span := spanDigits_append run [] digits (by simp)
  rw [List.append_nil] at split span
  rw [List.append_nil] at split
  simp only [number?, split, span, List.isEmpty_iff, nonempty, reached, ↓reduceIte]

theorem number_integer (value : Int32) :
    number? (signedDigitsOf value.toInt) = some (.integer value) := by
  have spelled : signedDigitsOf value.toInt =
      Single.sign (value.toInt < 0) ++ digitsOf value.toInt.natAbs := by
    rw [signedDigitsOf, Single.sign]
    by_cases negative : value.toInt < 0 <;> simp [negative]
  have same : signed (value.toInt < 0) value.toInt.natAbs = value.toInt := by
    by_cases negative : value.toInt < 0 <;> simp only [signed, negative, decide_true, decide_false,
      Bool.false_eq_true, ↓reduceIte] <;> omega
  have small : fits (signed (value.toInt < 0) value.toInt.natAbs) = true := by
    rw [same, fits_iff]
    exact ⟨value.le_toInt, value.toInt_lt⟩
  rw [spelled, number_whole _ _ _ (digitsOf_all _) (digitsOf_ne_nil _)
    (accumulate_digitsOf _ _ small), same, Int32.ofInt_toInt]

end Integers

section Reals

theorem number_point (negative : Bool) (whole fraction : List UInt8)
    (whole_digits : whole.all isDigit = true) (fraction_digits : fraction.all isDigit = true)
    (nonempty : whole ≠ []) :
    number? (Single.sign negative ++ whole ++ Byte.point :: fraction) =
      some (.real (.ofDecimal (.ofDigits negative whole fraction))) := by
  have split := splitSign_sign negative whole (Byte.point :: fraction) whole_digits nonempty
  have span := spanDigits_append whole (Byte.point :: fraction) whole_digits (by simp; rfl)
  rw [number?, split]
  dsimp only
  rw [span]
  simp [fraction_digits, nonempty]

theorem realSpelling_spelled (value : Single) (text : List UInt8)
    (spelled : realSpelling? value = some text) : ∃ whole fraction,
      Single.Spelled value whole fraction ∧
        text = Single.sign value.isNegative ++ whole ++ Byte.point :: fraction := by
  unfold realSpelling? at spelled
  split at spelled
  · next finite =>
    obtain ⟨whole, fraction, digits, text_eq⟩ :=
      Single.text_spelled value (by simpa [Single.isFinite] using finite)
    have noPoint : (Single.sign value.isNegative ++ whole).contains Byte.point = false := by
      rw [Bool.eq_false_iff]
      intro found
      rcases List.mem_append.mp (List.contains_iff_mem.mp found) with inSign | inWhole
      · unfold Single.sign at inSign
        split at inSign
        · cases List.mem_singleton.mp inSign
        · cases inSign
      · obtain ⟨-, -, -, other⟩ :=
          isDigit_class _ (List.all_eq_true.mp digits.whole_digits _ inWhole)
        exact other rfl
    refine ⟨whole, fraction, digits, ?_⟩
    rw [← Option.some.inj spelled, text_eq]
    by_cases integral : fraction = []
    · subst integral
      rw [if_pos rfl, List.append_nil, noPoint]
      rfl
    · rw [if_neg integral, if_pos]
      simp
  · cases spelled

theorem number_real (value : Single) (text : List UInt8)
    (spelled : realSpelling? value = some text) : number? text = some (.real value) := by
  obtain ⟨whole, fraction, digits, rfl⟩ := realSpelling_spelled value text spelled
  rw [number_point _ whole fraction digits.whole_digits digits.fraction_digits digits.whole_some,
    Single.ofDecimal, Decimal.ofDigits, digits.rounds, Single.ofMagnitude_magnitude]

end Reals

section Words

theorem number_cases (word : List UInt8) (token : Token) (found : number? word = some token) :
    (∃ value, token = .integer value) ∨ ∃ decimal, token = .real (.ofDecimal decimal) := by
  unfold number? at found
  split at found
  split at found
  split at found
  · split at found
    · cases found
    · split at found
      · obtain rfl := Option.some.inj found
        exact .inl ⟨_, rfl⟩
      · obtain rfl := Option.some.inj found
        exact .inr ⟨_, rfl⟩
  · split at found
    · obtain rfl := Option.some.inj found
      exact .inr ⟨_, rfl⟩
    · cases found

theorem bytes_of_keyword {word bytes : List UInt8} (kept : ofWord word = .keyword bytes) :
    word = bytes := by
  unfold ofWord at kept
  cases found : number? word with
  | none =>
    rw [found] at kept
    exact keyword.inj kept
  | some token =>
    rw [found] at kept
    obtain rfl : token = .keyword bytes := kept
    rcases number_cases word _ found with ⟨value, other⟩ | ⟨decimal, other⟩ <;> cases other

end Words

end Token

end PdfPrimitives
