import Mathlib.Data.Int.ModEq
import Mathlib.Data.List.Rotate
import PdfPrimitives.Proofs.Calculator.Actions
import PdfPrimitives.Proofs.Scalar.Integral

/-!
Rolling the operands on top of the stack. An operand moves up by a number of places, cyclically
in a window, so that one roll behind another is a roll by the sum of both.
-/

namespace PdfPrimitives.Calculator

/-- `rolled` is `stack` with each of its top `count` operands `places` higher, cyclically.
Positions are counted from the lowest of these operands. -/
structure RolledBy {α : Type} (count : Nat) (places : Int) (stack rolled : Stack α) : Prop where
  length : rolled.length = stack.length
  below : rolled.drop count = stack.drop count
  moves : ∀ position : Nat, position < count →
    (rolled.take count).reverse[((position + places) % count).toNat]? =
      (stack.take count).reverse[position]?

namespace RolledBy

variable {α : Type} {count : Nat} {places more : Int} {stack rolled twice other : Stack α}

theorem place_lt (count position : Nat) (places : Int) (within : position < count) :
    ((position + places) % count).toNat < count ∧
      (((position + places) % count).toNat : Int) = (position + places) % count := by
  have positive : (0 : Int) < count := by omega
  have low := Int.emod_nonneg (position + places) positive.ne'
  have high := Int.emod_lt_of_pos (position + places) positive
  constructor <;> omega

theorem refl (count : Nat) (stack : Stack α) : RolledBy count 0 stack stack where
  length := rfl
  below := rfl
  moves position within := by
    rw [Int.add_zero, Int.emod_eq_of_lt (Int.natCast_nonneg position) (by omega), Int.toNat_natCast]

theorem trans (first : RolledBy count places stack rolled)
    (second : RolledBy count more rolled twice) :
    RolledBy count (places + more) stack twice where
  length := second.length.trans first.length
  below := second.below.trans first.below
  moves position within := by
    have middle := place_lt count position places within
    have moved := second.moves _ middle.1
    rw [middle.2, Int.emod_add_emod, Int.add_assoc] at moved
    exact moved.trans (first.moves position within)

/-- Only the remainder of the number of places matters. -/
theorem congr (rolls : RolledBy count places stack rolled)
    (same : places % count = more % count) : RolledBy count more stack rolled where
  length := rolls.length
  below := rolls.below
  moves position within := by
    have shifted : (position + places) % count = (position + more) % count :=
      Int.ModEq.add_left position same
    rw [← shifted]
    exact rolls.moves position within

/-- Every position is reached from some other, so a roll determines the whole stack. -/
theorem unique (rolls : RolledBy count places stack rolled)
    (again : RolledBy count places stack other) : rolled = other := by
  have top : (rolled.take count).reverse = (other.take count).reverse := by
    have lengths : (rolled.take count).length = (other.take count).length := by
      rw [List.length_take, List.length_take, rolls.length, again.length]
    apply List.ext_getElem?
    intro position
    by_cases within : position < count
    · have origin := place_lt count position (-places) within
      have back : ((((position + -places) % count).toNat + places) % count).toNat = position := by
        rw [origin.2, Int.emod_add_emod, Int.neg_add_cancel_right,
          Int.emod_eq_of_lt (Int.natCast_nonneg position) (by omega), Int.toNat_natCast]
      have moved := rolls.moves _ origin.1
      have also := again.moves _ origin.1
      rw [back] at moved also
      rw [moved, also]
    · have short : (rolled.take count).length ≤ position := by
        rw [List.length_take]
        omega
      rw [List.getElem?_eq_none (by rwa [List.length_reverse]),
        List.getElem?_eq_none (by rwa [List.length_reverse, ← lengths])]
  rw [← List.take_append_drop count rolled, ← List.take_append_drop count other,
    List.reverse_injective top, rolls.below, again.below]

end RolledBy

namespace Action

variable {α : Type}

theorem rotate_eq (window : Stack α) (places : Int) :
    rotate window places = window.rotate (places % window.length).toNat := by
  rcases Nat.eq_zero_or_pos window.length with none | some
  · rw [List.length_eq_zero_iff.mp none]
    simp [rotate]
  · have positive : (0 : Int) < window.length := by omega
    have bounded := Nat.mod_lt places.natAbs some
    unfold rotate
    dsimp only
    split
    · next down =>
      have parts := Nat.mod_add_div places.natAbs window.length
      have opposite : places % window.length =
          ((window.length - places.natAbs % window.length : Nat) : Int) % window.length := by
        apply Int.modEq_iff_dvd.mpr
        refine ⟨(places.natAbs / window.length : Nat) + 1, ?_⟩
        rw [Int.mul_add, Int.mul_one, ← Int.natCast_mul]
        omega
      rw [opposite, ← Int.natCast_mod, Int.toNat_natCast, List.rotate_mod,
        List.rotate_eq_drop_append_take (Nat.sub_le _ _)]
    · next up =>
      have distance : (places % window.length).toNat = places.natAbs % window.length := by
        rw [← Int.toNat_natCast (places.natAbs % window.length), Int.natCast_mod,
          Int.natAbs_of_nonneg (Int.not_lt.mp up)]
      rw [distance, List.rotate_eq_drop_append_take bounded.le]

theorem length_rotate (window : Stack α) (places : Int) :
    (rotate window places).length = window.length := by
  rw [rotate_eq, List.length_rotate]

/-- Counted from the lowest operand, a rotation adds the number of places. -/
theorem rotate_moves (window : Stack α) (places : Int) (position : Nat)
    (within : position < window.length) :
    (rotate window places).reverse[((position + places) % window.length).toNat]? =
      window.reverse[position]? := by
  have positive : (0 : Int) < window.length := by omega
  have place := RolledBy.place_lt window.length position places within
  have low := Int.emod_nonneg places positive.ne'
  have high := Int.emod_lt_of_pos places positive
  have inside : ((position + places) % window.length).toNat < window.reverse.length := by
    rw [List.length_reverse]
    exact place.1
  rw [rotate_eq, List.reverse_rotate, List.getElem?_rotate inside, List.length_reverse]
  congr 1
  rw [Nat.mod_eq_of_lt (by omega : (places % window.length).toNat < window.length)]
  -- The two rotations cancel up to a multiple of the length.
  have cancels : ((((position + places) % window.length).toNat +
      (window.length - (places % window.length).toNat) : Nat) : Int) % window.length =
        position % window.length := by
    apply Int.modEq_iff_dvd.mpr
    refine ⟨(position + places) / window.length - places / window.length - 1, ?_⟩
    have sum := Int.mul_ediv_add_emod (position + places) window.length
    have summand := Int.mul_ediv_add_emod places window.length
    rw [Int.mul_sub, Int.mul_sub, Int.mul_one]
    omega
  rw [Int.emod_eq_of_lt (Int.natCast_nonneg position) (by omega), ← Int.natCast_mod] at cancels
  exact Int.ofNat_inj.mp cancels

theorem rotate_rolls (stack : Stack α) (count : Nat) (places : Int)
    (within : count ≤ stack.length) :
    RolledBy count places stack (rotate (stack.take count) places ++ stack.drop count) := by
  have size : (stack.take count).length = count := by
    rw [List.length_take, Nat.min_eq_left within]
  have rotated : (rotate (stack.take count) places).length = count := by
    rw [length_rotate, size]
  constructor
  case length => rw [List.length_append, rotated, List.length_drop, Nat.add_sub_cancel' within]
  case below => rw [List.drop_left' rotated]
  case moves =>
    intro position inside
    have moved := rotate_moves (stack.take count) places position (by rwa [size])
    rw [size] at moved
    rw [List.take_left' rotated, moved]

end Action

namespace Operator

variable {α : Type} [Elementary α] {count places : Operand α} {n j : Int32}

theorem roll_counted (counts : count.Reads n) (moves : places.Reads j) (stack : Stack α) :
    roll.apply (places :: count :: stack) = match Action.count n stack.length with
      | .ok size => .ok () (Action.rotate (stack.take size) j.toInt ++ stack.drop size)
      | .error fault => .error fault stack := by
  change (Action.popInteger >>= _) _ = _
  rw [Action.bind_of_ok (Action.popInteger_reads moves _),
    Action.bind_of_ok (Action.popInteger_reads counts _)]
  change (ofExcept (Action.count n stack.length) >>= _ : Action α Unit) stack = _
  cases Action.count n stack.length with
  | ok size => rfl
  | error fault => rfl

theorem roll_refused (counts : count.Reads n) (moves : places.Reads j) (stack : Stack α)
    (outside : n.toInt < 0 ∨ stack.length < n.toInt) :
    roll.apply (places :: count :: stack) = .error .rangeCheck stack := by
  rw [roll_counted counts moves, Action.count_refused outside]

theorem roll_rolls (counts : count.Reads n) (moves : places.Reads j) {size : Nat}
    (value : n.toInt = size) (stack : Stack α) (within : size ≤ stack.length) :
    ∃ rolled, roll.apply (places :: count :: stack) = .ok () rolled ∧
      RolledBy size j.toInt stack rolled := by
  rw [roll_counted counts moves, Action.count_eq_ok_iff.mpr ⟨value, within⟩]
  exact ⟨_, rfl, Action.rotate_rolls stack size j.toInt within⟩

theorem exists_remainder (n : Int32) {size : Nat} (value : n.toInt = size) (positive : 0 < size)
    (places : Int) : ∃ m : Int32, m.toInt = places % size := by
  have low := Int.emod_nonneg places (show (size : Int) ≠ 0 by omega)
  have high := Int.emod_lt_of_pos places (show (0 : Int) < size by omega)
  have bound := n.toInt_lt
  exact ⟨Int32.ofInt (places % size), Int32.toInt_ofInt_of_le (by omega) (by omega)⟩

/-- `n j roll` moves the top `n` operands up by `j` places, cyclically, and fails if there are
not as many. Rolls of one window are added like the integers modulo `n`: two of them are as one
by the remainder of the sum, and nothing is moved if that is zero. -/
theorem roll_acts_cyclically [IntegralScalar α] :
    (∀ n : Int32, (Operand.ofInteger n : Operand α).Reads n) ∧
    ∀ (stack : Stack α) (n : Int32) (count : Operand α), count.Reads n →
      (n.toInt < 0 ∨ stack.length < n.toInt → ∀ (j : Int32) (places : Operand α),
        places.Reads j → roll.apply (places :: count :: stack) = .error .rangeCheck stack) ∧
      ∀ size : Nat, n.toInt = size → size ≤ stack.length →
        ∀ (j : Int32) (places : Operand α), places.Reads j →
          ∃ rolled, roll.apply (places :: count :: stack) = .ok () rolled ∧
            RolledBy size j.toInt stack rolled ∧
            ∀ (k : Int32) (more : Operand α), more.Reads k →
              (0 < size → ∃ m : Int32, m.toInt = (j.toInt + k.toInt) % size ∧
                roll.apply (more :: count :: rolled) =
                  roll.apply (.ofInteger m :: count :: stack)) ∧
              ((j.toInt + k.toInt) % size = 0 →
                roll.apply (more :: count :: rolled) = .ok () stack) := by
  refine ⟨Operand.reads_ofInteger, ?_⟩
  intro stack n count counts
  constructor
  · intro outside j places moves
    exact roll_refused counts moves stack outside
  · intro size value within j places moves
    rcases roll_rolls counts moves value stack within with ⟨rolled, done, once⟩
    refine ⟨rolled, done, once, ?_⟩
    intro k more again
    have kept : size ≤ rolled.length := by rwa [once.length]
    rcases roll_rolls counts again value rolled kept with ⟨twice, second, also⟩
    have sum := once.trans also
    constructor
    · intro positive
      rcases exists_remainder n value positive (j.toInt + k.toInt) with ⟨m, remainder⟩
      rcases roll_rolls counts (Operand.reads_ofInteger m) value stack within with
        ⟨single, first, direct⟩
      refine ⟨m, remainder, ?_⟩
      have same : single = twice := direct.unique (sum.congr (by rw [remainder, Int.emod_emod]))
      rw [second, first, same]
    · intro vanishes
      have still : RolledBy size 0 stack twice := sum.congr (by rw [vanishes, Int.zero_emod])
      rw [second, still.unique (.refl size stack)]

/-- The smallest number of places moves three operands up by one, since it is one more than a
multiple of three. Two more places bring them back. -/
theorem smallest_roll_undone :
    letI := Exact.Approximations.zero
    ∃ rolled : Stack ℚ,
      roll.apply [.ofInteger Int32.minValue, .ofInteger 3, .number 3, .number 2, .number 1] =
        .ok () rolled ∧
      RolledBy 3 Int32.minValue.toInt [.number 3, .number 2, .number 1] rolled ∧
      roll.apply (.ofInteger 2 :: .ofInteger 3 :: rolled) =
        .ok () [.number 3, .number 2, .number 1] := by
  let _ := Exact.Approximations.zero
  have acts := roll_acts_cyclically (α := ℚ)
  have window := acts.2 [.number 3, .number 2, .number 1] 3 (.ofInteger 3) (acts.1 3)
  have rolls := window.2 3 (by decide) (by decide) Int32.minValue (.ofInteger _) (acts.1 _)
  rcases rolls with ⟨rolled, done, once, again⟩
  exact ⟨rolled, done, once, (again 2 (.ofInteger 2) (acts.1 2)).2 (by decide)⟩

/-- The smallest number of places has no opposite among the 32-bit integers. -/
theorem opposite_of_smallest_refused :
    letI := Exact.Approximations.zero
    roll.apply [.ofInteger Int32.minValue, .ofInteger 3, .number 3, .number 2, .number 1] =
        .ok () ([.number 2, .number 1, .number 3] : Stack ℚ) ∧
      roll.apply [.number (-(Int32.minValue.toInt : ℚ)), .ofInteger 3, .number 2, .number 1,
        .number 3] =
          .error .rangeCheck ([.ofInteger 3, .number 2, .number 1, .number 3] : Stack ℚ) := by
  let _ := Exact.Approximations.zero
  constructor
  · rw [roll_counted (Operand.reads_ofInteger 3) (Operand.reads_ofInteger _)]
    rfl
  · rfl

end Operator

end PdfPrimitives.Calculator
