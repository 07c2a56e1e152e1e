import PdfPrimitives.Proofs.Calculator.Actions
import PdfPrimitives.Proofs.Calculator.Integers
import PdfPrimitives.Proofs.Scalar.Integral

/-!
Operators on integers. They compute on the 32-bit integers that their operands stand for, and
fail at operands that stand for none. What they fail with says whether a fraction was in the way
or a number that is too large.
-/

namespace PdfPrimitives.Calculator

namespace Operand

variable {α : Type} [Scalar α] {operand : Operand α} {n : Int32}

def IsIntegral : Operand α → Prop
  | .number value => (value == Scalar.floor value) = true
  | .boolean _ => False

def IsBeyond : Operand α → Prop
  | .number value =>
    value < Scalar.ofInt Int32.minValue.toInt ∨ Scalar.ofInt Int32.maxValue.toInt < value
  | .boolean _ => False

def IsRefused (operand : Operand α) : Prop :=
  ∃ value, operand = .number value ∧ (¬operand.IsIntegral ∨ operand.IsBeyond)

theorem number_of_reads (reads : operand.Reads n) : ∃ value, operand = .number value := by
  cases operand with
  | number value => exact ⟨value, rfl⟩
  | boolean value => cases reads

/-- An operand is read unless it has a fraction or is too large, in this order. -/
theorem toInteger_cases (operand : Operand α) :
    (∃ n, operand.Reads n) ∧ operand.IsIntegral ∧ ¬operand.IsBeyond ∨
    operand.toInteger = .error .typeCheck ∧ ¬operand.IsIntegral ∨
    operand.toInteger = .error .rangeCheck ∧ operand.IsIntegral ∧ operand.IsBeyond := by
  cases operand with
  | boolean value => exact .inr (.inl ⟨rfl, id⟩)
  | number value =>
    have unfolded : (number value).toInteger =
        if !(value == Scalar.floor value) then .error .typeCheck
        else if value < Scalar.ofInt Int32.minValue.toInt ||
          Scalar.ofInt Int32.maxValue.toInt < value then .error .rangeCheck
        else .ok (Int32.ofInt (Scalar.toInt value)) := rfl
    by_cases whole : (value == Scalar.floor value) = true
    · by_cases beyond : value < Scalar.ofInt Int32.minValue.toInt ∨
          Scalar.ofInt Int32.maxValue.toInt < value
      · refine .inr (.inr ⟨?_, whole, beyond⟩)
        rw [unfolded, whole, if_neg (by decide), if_pos (by simpa using beyond)]
      · refine .inl ⟨⟨Int32.ofInt (Scalar.toInt value), ?_⟩, whole, beyond⟩
        rw [Reads, unfolded, whole, if_neg (by decide), if_neg (by simpa using beyond)]
    · refine .inr (.inl ⟨?_, whole⟩)
      rw [unfolded, if_pos (by simpa using whole)]

theorem reads_iff (operand : Operand α) :
    (∃ n, operand.Reads n) ↔ operand.IsIntegral ∧ ¬operand.IsBeyond := by
  constructor
  · rintro ⟨n, reads⟩
    rcases operand.toInteger_cases with ⟨-, whole, inside⟩ | ⟨failed, -⟩ | ⟨failed, -⟩
    · exact ⟨whole, inside⟩
    · cases reads.symm.trans failed
    · cases reads.symm.trans failed
  · rintro ⟨whole, inside⟩
    rcases operand.toInteger_cases with ⟨reads, -⟩ | ⟨-, broken⟩ | ⟨-, -, beyond⟩
    · exact reads
    · exact absurd whole broken
    · exact absurd beyond inside

theorem accepted_of_reads (reads : operand.Reads n) : ¬operand.IsRefused := by
  have fine := operand.reads_iff.mp ⟨n, reads⟩
  rintro ⟨value, -, broken | beyond⟩
  · exact broken fine.1
  · exact fine.2 beyond

theorem accepted_boolean (value : Bool) : ¬(boolean value : Operand α).IsRefused := by
  rintro ⟨number, ⟨⟩, -⟩

end Operand

def Refuses {α : Type} [Scalar α] (operands : Stack α) (fault : Fault) : Prop :=
  (fault = .typeCheck ∧ ∃ operand ∈ operands, ¬operand.IsIntegral) ∨
    (fault = .rangeCheck ∧ ∃ operand ∈ operands, operand.IsIntegral ∧ operand.IsBeyond)

namespace Action

section Reading

variable {α : Type} [Scalar α]

theorem ofInteger_cases {operands : Stack α} {operand : Operand α} (member : operand ∈ operands)
    (stack : Stack α) :
    (∃ n, operand.Reads n) ∨
    ∃ fault, (ofExcept operand.toInteger : Action α Int32) stack = .error fault stack ∧
      Refuses operands fault := by
  rcases operand.toInteger_cases with ⟨reads, -⟩ | ⟨failed, broken⟩ | ⟨failed, beyond⟩
  · exact .inl reads
  · rw [failed]
    exact .inr ⟨.typeCheck, rfl, .inl ⟨rfl, operand, member, broken⟩⟩
  · rw [failed]
    exact .inr ⟨.rangeCheck, rfl, .inr ⟨rfl, operand, member, beyond⟩⟩

end Reading

variable {α : Type} [Elementary α] {first second operand : Operand α} {m n : Int32}
  {rest : Stack α}

section Integral

theorem integral_reads (f : Int32 → Int32 → Except Fault Int32) (lower : first.Reads m)
    (upper : second.Reads n) :
    integral f (second :: first :: rest) = pushInteger (f m n) rest := by
  change (popInteger >>= _) _ = _
  rw [bind_of_ok (popInteger_reads upper _), bind_of_ok (popInteger_reads lower _)]

/-- An action on two integers reads both, or fails with a reason. -/
theorem integral_cases (f : Int32 → Int32 → Except Fault Int32) (first second : Operand α)
    (rest : Stack α) :
    (∃ m n, first.Reads m ∧ second.Reads n) ∨
    ∃ fault left, integral f (second :: first :: rest) = .error fault left ∧
      Refuses [second, first] fault := by
  have popped (operand : Operand α) (stack : Stack α) : popInteger (operand :: stack) =
      (ofExcept operand.toInteger : Action α Int32) stack := rfl
  have upmost : second ∈ [second, first] := List.mem_cons_self
  have next : first ∈ [second, first] := List.mem_cons_of_mem second List.mem_cons_self
  rcases ofInteger_cases upmost (first :: rest) with ⟨n, upper⟩ | ⟨fault, failed, reason⟩
  · rcases ofInteger_cases next rest with ⟨m, lower⟩ | ⟨fault, failed, reason⟩
    · exact .inl ⟨m, n, lower, upper⟩
    · refine .inr ⟨fault, rest, ?_, reason⟩
      change (popInteger >>= _) _ = _
      rw [bind_of_ok (popInteger_reads upper _), bind_of_error ((popped first rest).trans failed)]
  · refine .inr ⟨fault, first :: rest, ?_, reason⟩
    change (popInteger >>= _) _ = _
    rw [bind_of_error ((popped second (first :: rest)).trans failed)]

end Integral

section Bitwise

variable (words : Int32 → Int32 → Int32) (truths : Bool → Bool → Bool)

theorem bitwise_reads (lower : first.Reads m) (upper : second.Reads n) :
    bitwise words truths (second :: first :: rest) = push (.ofInteger (words m n)) rest := by
  rcases Operand.number_of_reads lower with ⟨x, rfl⟩
  rcases Operand.number_of_reads upper with ⟨y, rfl⟩
  change (ofExcept (Operand.number x).toInteger >>= fun left =>
    ofExcept (Operand.number y).toInteger >>= fun right => _ : Action α Unit) rest = _
  rw [lower, upper]
  rfl

/-- Two numbers are read, the lower one first, and a number beside a boolean is of the wrong
type. -/
theorem bitwise_cases (first second : Operand α) (rest : Stack α) :
    (∃ m n, first.Reads m ∧ second.Reads n) ∨
    (∃ a b, first = .boolean a ∧ second = .boolean b) ∨
    ∃ fault, bitwise words truths (second :: first :: rest) = .error fault rest ∧
      Refuses [second, first] fault := by
  cases first with
  | boolean a =>
    cases second with
    | boolean b => exact .inr (.inl ⟨a, b, rfl, rfl⟩)
    | number y =>
      exact .inr (.inr ⟨.typeCheck, rfl, .inl ⟨rfl, .boolean a, by simp, id⟩⟩)
  | number x =>
    cases second with
    | boolean b => exact .inr (.inr ⟨.typeCheck, rfl, .inl ⟨rfl, .boolean b, by simp, id⟩⟩)
    | number y =>
      have upmost : .number y ∈ [Operand.number y, .number x] := List.mem_cons_self
      have next : .number x ∈ [Operand.number y, .number x] :=
        List.mem_cons_of_mem _ List.mem_cons_self
      rcases ofInteger_cases next rest with ⟨m, lower⟩ | ⟨fault, failed, reason⟩
      · rcases ofInteger_cases upmost rest with ⟨n, upper⟩ | ⟨fault, failed, reason⟩
        · exact .inl ⟨m, n, lower, upper⟩
        · refine .inr (.inr ⟨fault, ?_, reason⟩)
          change (ofExcept (Operand.number x).toInteger >>= fun left =>
            ofExcept (Operand.number y).toInteger >>= fun right => _ : Action α Unit) rest = _
          rw [lower]
          exact bind_of_error failed _
      · exact .inr (.inr ⟨fault, bind_of_error failed _, reason⟩)

theorem complement_reads (reads : operand.Reads n) :
    complement (operand :: rest) = push (.ofInteger (~~~n)) rest := by
  rcases Operand.number_of_reads reads with ⟨x, rfl⟩
  change (ofExcept (Operand.number x).toInteger >>= fun word => _ : Action α Unit) rest = _
  rw [reads]
  rfl

theorem complement_cases (operand : Operand α) (rest : Stack α) :
    (∃ n, operand.Reads n) ∨ (∃ a, operand = .boolean a) ∨
    ∃ fault, complement (operand :: rest) = .error fault rest ∧ Refuses [operand] fault := by
  cases operand with
  | boolean a => exact .inr (.inl ⟨a, rfl⟩)
  | number x =>
    have only : .number x ∈ [Operand.number x] := List.mem_cons_self
    rcases ofInteger_cases only rest with reads | ⟨fault, failed, reason⟩
    · exact .inl reads
    · exact .inr (.inr ⟨fault, bind_of_error failed _, reason⟩)

end Bitwise

end Action

namespace Operator

open Integer (Divisible Division pattern)

variable {α : Type} [Elementary α]

def Yields (operator : Operator) (operands : Stack α) (result : Operand α) : Prop :=
  ∀ rest : Stack α, operands.length + rest.length ≤ stackCapacity →
    operator.apply (operands ++ rest) = .ok () (result :: rest)

def Fails (operator : Operator) (operands : Stack α) (fault : Fault) : Prop :=
  ∀ rest : Stack α, ∃ left, operator.apply (operands ++ rest) = .error fault left

inductive Combines : Operator → (Bool → Bool → Bool) → Prop
  | and : Combines .and (· && ·)
  | or : Combines .or (· || ·)
  | xor : Combines .xor (· ^^ ·)

structure IntegerResults (first second : Operand α) (m n : Int32) : Prop where
  division : Divisible m n → ∃ quotient remainder : Int32,
    Yields .idiv [second, first] (.ofInteger quotient) ∧
    Yields .mod [second, first] (.ofInteger remainder) ∧
    Division m.toInt n.toInt quotient.toInt remainder.toInt
  undefined : ¬Divisible m n →
    Fails .idiv [second, first] .rangeCheck ∧ Fails .mod [second, first] .rangeCheck
  shift : ∃ shifted : Int32, Yields .bitshift [second, first] (.ofInteger shifted) ∧
    (pattern shifted : ℤ) = ⌊(pattern m : ℚ) * 2 ^ n.toInt⌋ % 2 ^ 32 ∧
    (32 ≤ |n.toInt| → shifted = 0)
  bits : ∀ operator truths, Combines operator truths → ∃ word : Int32,
    Yields operator [second, first] (.ofInteger word) ∧
    ∀ place < 32, (pattern word).testBit place =
      truths ((pattern m).testBit place) ((pattern n).testBit place)
  complement : ∃ word : Int32, Yields .not [first] (.ofInteger word) ∧
    ∀ place < 32, (pattern word).testBit place = !(pattern m).testBit place

def Alike (first second : Operand α) : Prop :=
  (∃ m n, first.Reads m ∧ second.Reads n) ∨ ∃ a b, first = .boolean a ∧ second = .boolean b

def DeMorgan (first second : Operand α) : Prop :=
  ∃ both either notFirst notSecond notBoth neither : Operand α,
    Yields .and [second, first] both ∧ Yields .or [second, first] either ∧
    Yields .not [first] notFirst ∧ Yields .not [second] notSecond ∧
    (Yields .not [both] notBoth ∧ Yields .or [notSecond, notFirst] notBoth) ∧
    (Yields .not [either] neither ∧ Yields .and [notSecond, notFirst] neither)

inductive TakesIntegers : Operator → Stack α → Prop
  | one (operand : Operand α) : TakesIntegers .not [operand]
  | two (operator : Operator) (member : operator ∈ [.idiv, .mod, .bitshift, .and, .or, .xor])
    (first second : Operand α) : TakesIntegers operator [second, first]

/-- An operand is a reason for the fault, or the operands are read and have no quotient. -/
def Explains (operator : Operator) (operands : Stack α) (fault : Fault) : Prop :=
  Refuses operands fault ∨
    fault = .rangeCheck ∧ (operator = .idiv ∨ operator = .mod) ∧
      ∃ first second m n, operands = [second, first] ∧ first.Reads m ∧ second.Reads n ∧
        ¬Divisible m n

section Results

variable {first second operand : Operand α} {m n : Int32}

omit [Elementary α] in
theorem push_room {operands rest : Stack α} (some : operands ≠ [])
    (room : operands.length + rest.length ≤ stackCapacity) (result : Operand α) :
    Action.push result rest = .ok () (result :: rest) := by
  have positive := List.length_pos_iff.mpr some
  exact if_pos (by omega)

theorem yields_integral {operator : Operator} {f : Int32 → Int32 → Except Fault Int32}
    (runs : (operator.apply : Action α Unit) = Action.integral f) (lower : first.Reads m)
    (upper : second.Reads n) {word : Int32} (value : f m n = .ok word) :
    Yields operator [second, first] (.ofInteger word) := by
  intro rest room
  change operator.apply (second :: first :: rest) = _
  rw [runs, Action.integral_reads f lower upper, value]
  exact push_room (List.cons_ne_nil _ _) room _

theorem fails_integral {operator : Operator} {f : Int32 → Int32 → Except Fault Int32}
    (runs : (operator.apply : Action α Unit) = Action.integral f) (lower : first.Reads m)
    (upper : second.Reads n) {fault : Fault} (undefined : f m n = .error fault) :
    Fails operator [second, first] fault := by
  intro rest
  refine ⟨rest, ?_⟩
  change operator.apply (second :: first :: rest) = _
  rw [runs, Action.integral_reads f lower upper, undefined]
  rfl

theorem Combines.runs {operator : Operator} {truths : Bool → Bool → Bool}
    (combines : Combines operator truths) : ∃ words : Int32 → Int32 → Int32,
      (operator.apply : Action α Unit) = Action.bitwise words truths ∧
      ∀ m n place, (pattern (words m n)).testBit place =
        truths ((pattern m).testBit place) ((pattern n).testBit place) := by
  cases combines with
  | and => exact ⟨(· &&& ·), rfl, fun m n _ => Integer.testBit_and m n⟩
  | or => exact ⟨(· ||| ·), rfl, fun m n _ => Integer.testBit_or m n⟩
  | xor => exact ⟨(· ^^^ ·), rfl, fun m n _ => Integer.testBit_xor m n⟩

theorem yields_bitwise {operator : Operator} {words : Int32 → Int32 → Int32}
    {truths : Bool → Bool → Bool}
    (runs : (operator.apply : Action α Unit) = Action.bitwise words truths)
    (lower : first.Reads m) (upper : second.Reads n) :
    Yields operator [second, first] (.ofInteger (words m n)) := by
  intro rest room
  change operator.apply (second :: first :: rest) = _
  rw [runs, Action.bitwise_reads words truths lower upper]
  exact push_room (List.cons_ne_nil _ _) room _

theorem yields_truth {operator : Operator} {words : Int32 → Int32 → Int32}
    {truths : Bool → Bool → Bool}
    (runs : (operator.apply : Action α Unit) = Action.bitwise words truths) (a b : Bool) :
    Yields operator [.boolean b, .boolean a] (.boolean (truths a b) : Operand α) := by
  intro rest room
  change operator.apply (.boolean b :: .boolean a :: rest) = _
  rw [runs]
  exact push_room (List.cons_ne_nil _ _) room _

theorem yields_complement (reads : operand.Reads n) :
    Yields .not [operand] (.ofInteger (~~~n)) := by
  intro rest room
  exact (Action.complement_reads reads).trans (push_room (List.cons_ne_nil _ _) room _)

theorem yields_negation (a : Bool) : Yields .not [.boolean a] (.boolean !a : Operand α) := by
  intro rest room
  exact push_room (List.cons_ne_nil _ _) room _

theorem integerResults (lower : first.Reads m) (upper : second.Reads n) :
    IntegerResults first second m n where
  division defined := by
    rcases Integer.division_of_divisible defined with ⟨quotient, remainder, division⟩
    exact ⟨m / n, m % n, yields_integral rfl lower upper quotient,
      yields_integral rfl lower upper remainder, division⟩
  undefined undefined := by
    rcases Integer.undefined_of_not_divisible undefined with ⟨quotient, remainder⟩
    exact ⟨fails_integral rfl lower upper quotient, fails_integral rfl lower upper remainder⟩
  shift := by
    refine ⟨Integer.shift m n, yields_integral rfl lower upper rfl, Integer.pattern_shift m n, ?_⟩
    intro far
    exact Integer.shift_far (by rw [Int.abs_eq_natAbs] at far; omega)
  bits operator truths combines := by
    rcases combines.runs (α := α) with ⟨words, runs, bits⟩
    exact ⟨words m n, yields_bitwise runs lower upper, fun place _ => bits m n place⟩
  complement := ⟨~~~m, yields_complement lower, fun _ inside => Integer.testBit_not m inside⟩

theorem deMorgan [IntegralScalar α] (alike : Alike first second) : DeMorgan first second := by
  have reads := Operand.reads_ofInteger (α := α)
  have conjunction : (apply .and : Action α Unit) = Action.bitwise (· &&& ·) (· && ·) := rfl
  have disjunction : (apply .or : Action α Unit) = Action.bitwise (· ||| ·) (· || ·) := rfl
  rcases alike with ⟨m, n, lower, upper⟩ | ⟨a, b, rfl, rfl⟩
  · refine ⟨_, _, _, _, _, _, yields_bitwise conjunction lower upper,
      yields_bitwise disjunction lower upper, yields_complement lower, yields_complement upper,
      ⟨yields_complement (reads _), ?_⟩, ⟨yields_complement (reads _), ?_⟩⟩
    · rw [Integer.not_and]
      exact yields_bitwise disjunction (reads _) (reads _)
    · rw [Integer.not_or]
      exact yields_bitwise conjunction (reads _) (reads _)
  · refine ⟨_, _, _, _, _, _, yields_truth conjunction a b, yields_truth disjunction a b,
      yields_negation a, yields_negation b, ⟨yields_negation _, ?_⟩, ⟨yields_negation _, ?_⟩⟩
    · rw [Bool.not_and]
      exact yields_truth disjunction _ _
    · rw [Bool.not_or]
      exact yields_truth conjunction _ _

end Results

section Faults

variable {operator : Operator} {first second : Operand α} {rest : Stack α}

def Settles (operator : Operator) (operands rest : Stack α) : Prop :=
  (∃ after, operator.apply (operands ++ rest) = .ok () after ∧
    ∀ operand ∈ operands, ¬operand.IsRefused) ∨
  ∃ fault left, operator.apply (operands ++ rest) = .error fault left ∧
    Explains operator operands fault

theorem settles_of_yields {operands : Stack α} {result : Operand α}
    (yields : Yields operator operands result)
    (accepted : ∀ operand ∈ operands, ¬operand.IsRefused)
    (room : operands.length + rest.length ≤ stackCapacity) : Settles operator operands rest :=
  .inl ⟨_, yields rest room, accepted⟩

theorem accepted_pair {m n : Int32} (lower : first.Reads m) (upper : second.Reads n) :
    ∀ operand ∈ [second, first], ¬operand.IsRefused := by
  simpa using ⟨Operand.accepted_of_reads upper, Operand.accepted_of_reads lower⟩

theorem settles_integral {f : Int32 → Int32 → Except Fault Int32}
    (runs : (operator.apply : Action α Unit) = Action.integral f)
    (settled : ∀ m n, first.Reads m → second.Reads n → (∃ word, f m n = .ok word) ∨
      ∃ fault, f m n = .error fault ∧ Explains operator [second, first] fault)
    (room : [second, first].length + rest.length ≤ stackCapacity) :
    Settles operator [second, first] rest := by
  rcases Action.integral_cases f first second rest with
    ⟨m, n, lower, upper⟩ | ⟨fault, left, failed, reason⟩
  · rcases settled m n lower upper with ⟨word, value⟩ | ⟨fault, undefined, reason⟩
    · exact settles_of_yields (yields_integral runs lower upper value) (accepted_pair lower upper)
        room
    · rcases fails_integral runs lower upper undefined rest with ⟨left, failed⟩
      exact .inr ⟨fault, left, failed, reason⟩
  · rw [← runs] at failed
    exact .inr ⟨fault, left, failed, .inl reason⟩

theorem settled_division {f : Int32 → Int32 → Except Fault Int32}
    (divides : operator = .idiv ∨ operator = .mod)
    (defined : ∀ m n, Divisible m n → ∃ word, f m n = .ok word)
    (undefined : ∀ m n, ¬Divisible m n → f m n = .error .rangeCheck) (m n : Int32)
    (lower : first.Reads m) (upper : second.Reads n) : (∃ word, f m n = .ok word) ∨
      ∃ fault, f m n = .error fault ∧ Explains operator [second, first] fault := by
  by_cases quotient : Divisible m n
  · exact .inl (defined m n quotient)
  · exact .inr ⟨.rangeCheck, undefined m n quotient,
      .inr ⟨rfl, divides, first, second, m, n, rfl, lower, upper, quotient⟩⟩

theorem settles_bitwise {truths : Bool → Bool → Bool} (combines : Combines operator truths)
    (room : [second, first].length + rest.length ≤ stackCapacity) :
    Settles operator [second, first] rest := by
  rcases combines.runs (α := α) with ⟨words, runs, -⟩
  rcases Action.bitwise_cases words truths first second rest with
    ⟨m, n, lower, upper⟩ | ⟨a, b, rfl, rfl⟩ | ⟨fault, failed, reason⟩
  · exact settles_of_yields (yields_bitwise runs lower upper) (accepted_pair lower upper) room
  · apply settles_of_yields (yields_truth runs a b) _ room
    simpa using ⟨Operand.accepted_boolean b, Operand.accepted_boolean a⟩
  · rw [← runs] at failed
    exact .inr ⟨fault, rest, failed, .inl reason⟩

theorem settles_complement {operand : Operand α}
    (room : [operand].length + rest.length ≤ stackCapacity) : Settles .not [operand] rest := by
  rcases Action.complement_cases operand rest with ⟨n, reads⟩ | ⟨a, rfl⟩ | ⟨fault, failed, reason⟩
  · apply settles_of_yields (yields_complement reads) _ room
    simpa using Operand.accepted_of_reads reads
  · apply settles_of_yields (yields_negation a) _ room
    simpa using Operand.accepted_boolean a
  · exact .inr ⟨fault, rest, failed, .inl reason⟩

theorem settles {operands : Stack α} (takes : TakesIntegers operator operands)
    (room : operands.length + rest.length ≤ stackCapacity) : Settles operator operands rest := by
  cases takes with
  | one operand => exact settles_complement room
  | two operator member first second =>
    simp only [List.mem_cons, List.not_mem_nil, or_false] at member
    rcases member with rfl | rfl | rfl | rfl | rfl | rfl
    · apply settles_integral rfl (settled_division (.inl rfl) _ _) room
      · intro m n defined
        exact ⟨_, (Integer.division_of_divisible defined).1⟩
      · intro m n undefined
        exact (Integer.undefined_of_not_divisible undefined).1
    · apply settles_integral rfl (settled_division (.inr rfl) _ _) room
      · intro m n defined
        exact ⟨_, (Integer.division_of_divisible defined).2.1⟩
      · intro m n undefined
        exact (Integer.undefined_of_not_divisible undefined).2
    · exact settles_integral rfl (fun m n _ _ => .inl ⟨_, rfl⟩) room
    · exact settles_bitwise .and room
    · exact settles_bitwise .or room
    · exact settles_bitwise .xor room

theorem Explains.check {operands : Stack α} {fault : Fault}
    (reason : Explains operator operands fault) : fault = .typeCheck ∨ fault = .rangeCheck := by
  rcases reason with (⟨type, -⟩ | ⟨range, -⟩) | ⟨range, -⟩
  · exact .inl type
  · exact .inr range
  · exact .inr range

end Faults

/-- The operators on integers compute the quotient, the remainder, the shifted pattern and the
combined bits of the integers that their operands stand for. An operand is read as an integer
unless it is no number, has a fraction or is too large, which is what an operator fails with. -/
theorem integers_computed [IntegralScalar α] :
    (∀ n : Int32, (Operand.ofInteger n : Operand α).Reads n) ∧
    (∀ operand : Operand α,
      (∃ n, operand.Reads n) ↔ operand.IsIntegral ∧ ¬operand.IsBeyond) ∧
    (∀ (m n : Int32) (first second : Operand α), first.Reads m → second.Reads n →
      IntegerResults first second m n) ∧
    (∀ first second : Operand α, Alike first second → DeMorgan first second) ∧
    ∀ (operator : Operator) (operands : Stack α), TakesIntegers operator operands →
      ∀ rest : Stack α, operands.length + rest.length ≤ stackCapacity →
        ((∃ operand ∈ operands, operand.IsRefused) →
          ∃ fault left, operator.apply (operands ++ rest) = .error fault left ∧
            (fault = .typeCheck ∨ fault = .rangeCheck)) ∧
        ∀ fault left, operator.apply (operands ++ rest) = .error fault left →
          Explains operator operands fault := by
  refine ⟨Operand.reads_ofInteger, Operand.reads_iff, fun m n first second => integerResults,
    fun first second => deMorgan, ?_⟩
  intro operator operands takes rest room
  rcases settles takes room with ⟨after, done, accepted⟩ | ⟨fault, left, failed, reason⟩
  · constructor
    · rintro ⟨operand, member, refused⟩
      exact absurd refused (accepted operand member)
    · intro fault left failed
      cases done.symm.trans failed
  · constructor
    · intro _
      exact ⟨fault, left, failed, reason.check⟩
    · intro other rest again
      cases failed.symm.trans again
      exact reason

/-- A quotient of a negative integer is rounded up. The least integer has none by minus one, a
shift by it leaves no bits, and a fraction is refused. -/
theorem extremes_computed : letI := Exact.Approximations.zero
    (∃ quotient remainder : Int32, quotient.toInt = -3 ∧ remainder.toInt = -1 ∧
      Yields .idiv ([.ofInteger 2, .ofInteger (-7)] : Stack ℚ) (.ofInteger quotient) ∧
      Yields .mod ([.ofInteger 2, .ofInteger (-7)] : Stack ℚ) (.ofInteger remainder)) ∧
    Fails .idiv ([.ofInteger (-1), .ofInteger Int32.minValue] : Stack ℚ) .rangeCheck ∧
    Yields .bitshift ([.ofInteger Int32.minValue, .ofInteger (-1)] : Stack ℚ) (.ofInteger 0) ∧
    DeMorgan (.ofInteger 12 : Operand ℚ) (.ofInteger 10) ∧
    ∃ fault left, apply .or ([.ofInteger 1, .number (5 / 2)] : Stack ℚ) = .error fault left ∧
      (fault = .typeCheck ∨ fault = .rangeCheck) := by
  let _ := Exact.Approximations.zero
  rcases integers_computed (α := ℚ) with ⟨reads, -, results, laws, faults⟩
  refine ⟨?_, ?_, ?_, ?_, ?_⟩
  · have defined : Divisible (-7) 2 := ⟨by decide, -3, by decide⟩
    rcases (results (-7) 2 _ _ (reads _) (reads _)).division defined with
      ⟨quotient, remainder, quotients, remainders, parts, small, sign⟩
    have dividend : (-7 : Int32).toInt = -7 := rfl
    have divisor : (2 : Int32).toInt = 2 := rfl
    rw [dividend, divisor] at parts
    rw [divisor] at small
    -- The remainder could be one or minus one, of which only the latter has the right sign.
    have odd : remainder.toInt ≠ 1 := by
      intro one
      rw [one, dividend] at sign
      revert sign
      decide
    exact ⟨quotient, remainder, by omega, by omega, quotients, remainders⟩
  · have undefined : ¬Divisible Int32.minValue (-1) := by
      rw [← Integer.divides_iff]
      decide
    exact ((results _ _ _ _ (reads _) (reads _)).undefined undefined).1
  · rcases (results (-1) Int32.minValue _ _ (reads _) (reads _)).shift with
      ⟨shifted, yields, -, far⟩
    rw [far (by decide)] at yields
    exact yields
  · exact laws _ _ (.inl ⟨12, 10, reads _, reads _⟩)
  · have takes : TakesIntegers .or ([.ofInteger 1, .number (5 / 2)] : Stack ℚ) :=
      .two _ (by decide) _ _
    have fraction : ¬(Operand.number (5 / 2) : Operand ℚ).IsIntegral := by
      change ¬((5 / 2 : ℚ) == ((⌊(5 / 2 : ℚ)⌋ : ℤ) : ℚ)) = true
      rw [beq_iff_eq]
      norm_num
    exact (faults _ _ takes [] (by decide)).1
      ⟨_, List.mem_cons_of_mem _ List.mem_cons_self, _, rfl, .inl fraction⟩

end Operator

end PdfPrimitives.Calculator
