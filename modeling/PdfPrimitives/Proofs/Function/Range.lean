import PdfPrimitives.Proofs.Function.Clipping
import PdfPrimitives.Proofs.Function.Outcome

/-!
The values that functions give. None of them is NaN, and each lies in its interval of the
range, whatever numbers the function is given and whatever it works out on the way.
-/

namespace PdfPrimitives

variable {α : Type}

section Clipped

variable [Scalar α] [OrderedScalar α]

namespace Interval.Clips

variable {interval : Interval α} {value : α}

theorem number (clips : interval.Clips value) : Scalar.isNaN value = false := by
  obtain ⟨number, clipped⟩ := clips
  unfold clip at clipped
  split at clipped
  · cases clipped
  · next defined =>
    obtain rfl := Except.ok.inj clipped
    exact (nearest_again interval number (Bool.eq_false_of_not_eq_true defined)).1

theorem within (clips : interval.Clips value) (wide : interval.low ≤ interval.high) :
    interval.low ≤ value ∧ value ≤ interval.high := by
  obtain ⟨number, clipped⟩ := clips
  have ends := OrderedScalar.numbers_of_le wide
  unfold clip at clipped
  split at clipped
  · cases clipped
  · next defined =>
    have defined := Bool.eq_false_of_not_eq_true defined
    obtain rfl := Except.ok.inj clipped
    by_cases above : interval.high ≤ number
    · rw [nearest_above above]
      exact ⟨wide, OrderedScalar.le_refl ends.2⟩
    by_cases below : number < interval.low
    · by_cases point : interval.high ≤ interval.low
      · rw [nearest_point below point]
        exact ⟨wide, OrderedScalar.le_refl ends.2⟩
      · rw [nearest_below below point]
        exact ⟨OrderedScalar.le_refl ends.1, wide⟩
    · rw [nearest_inside below above]
      exact ⟨OrderedScalar.le_of_not_lt defined ends.1 below,
        (OrderedScalar.le_total defined ends.2).resolve_right above⟩

end Interval.Clips

/-- Values that a range has clipped, or numbers that nothing has to clip. -/
def Ranged (range : Option (List (Interval α))) (values : List α) : Prop :=
  match range with
  | some intervals => List.Forall₂ Interval.Clips intervals values
  | none => ∀ value ∈ values, Scalar.isNaN value = false

omit [OrderedScalar α] in
theorem ranged_of_clipToRange {range : Option (List (Interval α))} {values clipped : List α}
    (done : clipToRange range values = .ok clipped)
    (fits : ∀ intervals ∈ range, intervals.length = values.length) : Ranged range clipped := by
  cases range with
  | some intervals => exact Interval.clips_of_clipAll done (fits intervals rfl).symm
  | none =>
    rw [clipToRange] at done
    split at done
    · cases done
    · next defined =>
      obtain rfl := Except.ok.inj done
      intro value member
      exact Bool.eq_false_of_not_eq_true fun undefined =>
        defined (List.any_eq_true.mpr ⟨value, member, undefined⟩)

theorem Ranged.number {range : Option (List (Interval α))} {values : List α}
    (ranged : Ranged range values) : ∀ value ∈ values, Scalar.isNaN value = false := by
  cases range with
  | some intervals =>
    change List.Forall₂ Interval.Clips intervals values at ranged
    induction ranged with
    | nil => nofun
    | cons clips _ ih => exact List.forall_mem_cons.mpr ⟨clips.number, ih⟩
  | none => exact ranged

end Clipped

namespace PdfFunction

variable {function : PdfFunction α} {values : List α}

theorem ok_of_silently {result : Except Fault (List α)} (done : silently result = .ok values) :
    result = .ok values := by
  cases result with
  | error fault => cases done
  | ok others => exact congrArg Except.ok (Except.ok.inj done)

variable [Elementary α]

theorem Shaped.ranged (shaped : function.Shaped) {input : List α}
    (done : valueAt function input = .ok values) : Ranged function.range values := by
  have fits : input.length = function.inputCount := by
    by_contra unfit
    rw [valueAt_mismatch input unfit] at done
    cases done
  have counts := shaped.length_range
  cases shaped with
  | sampled function =>
    rw [inputCount, domain, List.length_map] at fits
    rw [valueAt, if_neg (not_not_intro fits)] at done
    exact Sampled.clips_of_valueAt (ok_of_silently done)
  | exponential function ranged =>
    obtain ⟨x, rfl⟩ := List.length_eq_one_iff.mp fits
    obtain ⟨raw, counted, clips⟩ := Exponential.clipToRange_of_evaluate (ok_of_silently done)
    exact ranged_of_clipToRange clips fun range member =>
      (ranged range member).trans counted.symm
  | stitching parts pieces shaped joins single uniform =>
    obtain ⟨x, rfl⟩ := List.length_eq_one_iff.mp fits
    obtain ⟨piece, member, y, same⟩ := valueAt_stitching parts pieces joins x
    have inner := (shaped piece member).answers [y] (single piece member).symm
    rw [same] at done
    cases result : valueAt piece [y] with
    | error failure => rw [result] at done; cases done
    | ok raw =>
      rw [result] at done inner
      have counted : raw.length = parts.outputCount := Eq.trans inner (uniform piece member)
      exact ranged_of_clipToRange (ok_of_silently done) fun range member =>
        (joins.range range member).trans counted.symm
  | calculation function wellFormed =>
    rw [inputCount, domain] at fits
    rw [valueAt, if_neg (not_not_intro fits)] at done
    obtain ⟨clipped, -, done⟩ := ok_of_bind done
    exact Calculator.Program.clips_of_execute done

variable [OrderedScalar α]

/-- Each value of an accepted function is a number, and lies in its interval of the range
unless this is inverted. -/
theorem evaluate_within_range (accepted : function.Accepted) {input : List α}
    (done : function.evaluate input = .ok values) :
    (∀ value ∈ values, Scalar.isNaN value = false) ∧
      ∀ range ∈ function.range, List.Forall₂ (fun interval value =>
        interval.low ≤ interval.high → interval.low ≤ value ∧ value ≤ interval.high)
        range values := by
  rw [evaluate_eq_valueAt] at done
  have ranged := accepted.built.shaped.ranged done
  refine ⟨ranged.number, fun range member => ?_⟩
  rw [Option.mem_def.mp member] at ranged
  exact List.Forall₂.imp (fun _ _ clips => clips.within) ranged

def halves : FunctionDictionary Float :=
  ⟨3, [0, 2], some [0, 1], [], 0, none, some [1, -1, -1, 1], none, none, none, 0,
    [difference, difference], [1], []⟩

/-- The lower end of the domain stands for NaN, and the range clips what the program gives
there. -/
theorem halves_within_range : ∃ function, halves.build = .ok function ∧ function.Accepted ∧
    function.evaluate [0.0 / 0.0] = .ok [0] ∧
    (∀ value ∈ [(0 : Float)], Scalar.isNaN value = false) ∧
    ∀ range ∈ function.range, List.Forall₂ (fun interval value =>
      interval.low ≤ interval.high → interval.low ≤ value ∧ value ≤ interval.high)
      range [0] := by
  have value : (halves.build >>= (·.evaluate [0.0 / 0.0])) = .ok [0] := by decide +kernel
  obtain ⟨function, made, done⟩ := ok_of_bind value
  have accepted : function.Accepted := .inr ⟨halves, made⟩
  exact ⟨function, made, accepted, done, evaluate_within_range accepted done⟩

end PdfFunction

end PdfPrimitives
