import PdfPrimitives.Function.Dictionary
import PdfPrimitives.Proofs.Calculator.Layout
import PdfPrimitives.Proofs.Function.Construction

/-!
The numbers of inputs and outputs in a tree of functions. Whatever a constructor or a
dictionary gives has a shape in which they agree, from the root down to the leaves.
-/

namespace PdfPrimitives

variable {α : Type}

structure Stitching.Joins (parts : Stitching α) (count : Nat) : Prop where
  bounds : parts.bounds.length + 1 = count
  encode : parts.encode.length = count
  range : ∀ range ∈ parts.range, range.length = parts.outputCount

namespace Stitching

theorem length_intervals (low : α) (bounds : List α) (high : α) :
    (intervals low bounds high).length = bounds.length + 1 := by
  induction bounds generalizing low with
  | nil => rfl
  | cons bound bounds ih => rw [intervals, List.length_cons, List.length_cons, ih]

variable [Scalar α]

theorem joins_of_parts {domain : List (Interval α)} {range : Option (List (Interval α))}
    {shapes : List (Nat × Nat)} {bounds : List α} {encode : List (Interval α)}
    {parts : Stitching α} (made : ofParts domain range shapes bounds encode = .ok parts) :
    parts.Joins shapes.length ∧ ∀ shape ∈ shapes, shape = (1, parts.outputCount) := by
  unfold ofParts at made
  split at made
  · split at made
    · cases made
    · next whole inputs outputs others fits =>
      dsimp only at made
      split at made
      · obtain rfl := Except.ok.inj made
        simp only [Bool.or_eq_true, decide_eq_true_eq, List.any_eq_true, Option.any_eq_true,
          not_or, not_exists, not_and, ne_eq, Decidable.not_not] at fits
        obtain ⟨⟨⟨⟨-, counted⟩, encoded⟩, uniform⟩, ranged⟩ := fits
        refine ⟨⟨counted, ?_, ranged⟩, ?_⟩
        · rw [List.length_map, List.length_zip, length_intervals, counted, encoded, Nat.min_self]
        · intro shape member
          have same := uniform shape member
          exact Prod.ext same.1 same.2
      · cases made
  · cases made

end Stitching

theorem Calculation.wellFormed_of_text {domain range : List (Interval α)} {text : List UInt8}
    {function : Calculation α} (made : ofText domain range text = .ok function) :
    function.program.WellFormed := by
  unfold ofText at made
  split at made
  · cases made
  · split at made
    · cases made
    · split at made
      · next program compiled =>
        obtain rfl := Except.ok.inj made
        exact Calculator.Program.wellFormed_of_compiled text program compiled
      · cases made

namespace PdfFunction

inductive Shaped : PdfFunction α → Prop
  | sampled (function : Sampled α) : Shaped (.sampled function)
  | exponential (function : Exponential α)
      (ranged : ∀ range ∈ function.range, range.length = function.channels.length) :
      Shaped (.exponential function)
  | stitching (parts : Stitching α) (pieces : List (PdfFunction α))
      (shaped : ∀ piece ∈ pieces, Shaped piece) (joins : parts.Joins pieces.length)
      (single : ∀ piece ∈ pieces, piece.inputCount = 1)
      (uniform : ∀ piece ∈ pieces, piece.outputCount = parts.outputCount) :
      Shaped (.stitching parts pieces)
  | calculation (function : Calculation α) (wellFormed : function.program.WellFormed) :
      Shaped (.calculation function)

/-- Every range has an interval for each output. -/
theorem Shaped.length_range {function : PdfFunction α} (shaped : function.Shaped) :
    ∀ range ∈ function.range, range.length = function.outputCount := by
  cases shaped with
  | sampled function =>
    rintro range ⟨⟩
    exact List.length_map _
  | exponential function ranged => exact ranged
  | stitching parts pieces shaped joins single uniform => exact joins.range
  | calculation function wellFormed =>
    rintro range ⟨⟩
    rfl

end PdfFunction

variable [Elementary α]

theorem Exponential.range_of_description {description : ExponentialDescription α}
    {function : Exponential α} (made : ofDescription description = .ok function) :
    ∀ range ∈ function.range, range.length = function.channels.length := by
  unfold ofDescription at made
  dsimp only at made
  split at made
  · split at made
    · cases made
    · next fits =>
      obtain rfl := Except.ok.inj made
      simp only [Bool.or_eq_true, decide_eq_true_eq, Option.any_eq_true, not_or, not_exists,
        not_and, ne_eq, Decidable.not_not] at fits
      obtain ⟨⟨⟨-, started⟩, stopped⟩, ranged⟩ := fits
      intro range member
      rw [List.length_zip, started, stopped, Nat.min_self]
      exact ranged range member
  · cases made

namespace PdfFunction

theorem ok_of_lift {β : Type} {result : Except Fault β} {value : β}
    (done : (result : Except Failure β) = .ok value) : result = .ok value := by
  cases result with
  | error fault => cases done
  | ok other => exact congrArg Except.ok (Except.ok.inj done)

theorem Built.shaped {function : PdfFunction α} (built : Built function) : function.Shaped := by
  induction built with
  | sampled description made =>
    obtain ⟨sampled, -, done⟩ := ok_of_bind (ok_of_creating made)
    obtain rfl := Except.ok.inj done
    exact .sampled sampled
  | exponential description made =>
    obtain ⟨exponential, described, done⟩ := ok_of_bind (ok_of_creating made)
    obtain rfl := Except.ok.inj done
    exact .exponential exponential (Exponential.range_of_description (ok_of_lift described))
  | stitching domain range pieces bounds encode built made ih =>
    obtain ⟨parts, rfl, joined⟩ := parts_of_stitching made
    obtain ⟨joins, shapes⟩ := Stitching.joins_of_parts joined
    rw [List.length_map] at joins
    have shape (piece) (member : piece ∈ pieces) :
        (piece.inputCount, piece.outputCount) = (1, parts.outputCount) :=
      shapes _ (List.mem_map_of_mem member)
    exact .stitching parts pieces ih joins
      (fun piece member => congrArg Prod.fst (shape piece member))
      (fun piece member => congrArg Prod.snd (shape piece member))
  | program domain range text made =>
    obtain ⟨calculation, compiled, done⟩ := ok_of_bind (ok_of_creating made)
    obtain rfl := Except.ok.inj done
    exact .calculation calculation (Calculation.wellFormed_of_text compiled)

def Accepted (function : PdfFunction α) : Prop :=
  Built function ∨ ∃ dictionary : FunctionDictionary α, dictionary.build = .ok function

end PdfFunction

namespace FunctionDictionary

mutual

theorem built_of_build : ∀ (dictionary : FunctionDictionary α) (function : PdfFunction α),
    dictionary.build = .ok function → function.Built
  | ⟨functionType, domain, range, size, bitsPerSample, order, encode, decode, start, stop,
      exponent, functions, bounds, stream⟩, function, made => by
    rw [build] at made
    obtain ⟨domain, -, made⟩ := ok_of_bind made
    obtain ⟨range, -, made⟩ := ok_of_bind made
    split at made
    · obtain ⟨encode, -, made⟩ := ok_of_bind made
      obtain ⟨decode, -, made⟩ := ok_of_bind made
      exact .sampled _ made
    split at made
    · exact .exponential _ made
    split at made
    · obtain ⟨pieces, gathered, made⟩ := ok_of_bind made
      obtain ⟨encode, -, made⟩ := ok_of_bind made
      exact .stitching _ _ _ _ _ (built_of_buildAll functions pieces gathered) made
    split at made
    · exact .program _ _ _ made
    · cases made

theorem built_of_buildAll : ∀ (dictionaries : List (FunctionDictionary α))
    (pieces : List (PdfFunction α)), buildAll dictionaries = .ok pieces →
    ∀ piece ∈ pieces, piece.Built
  | [], pieces, made => by
    obtain rfl := Except.ok.inj made
    intro piece member
    cases member
  | dictionary :: rest, pieces, made => by
    rw [buildAll] at made
    obtain ⟨first, built, made⟩ := ok_of_bind made
    obtain ⟨others, gathered, made⟩ := ok_of_bind made
    obtain rfl := Except.ok.inj made
    exact List.forall_mem_cons.mpr
      ⟨built_of_build dictionary first built, built_of_buildAll rest others gathered⟩

end

end FunctionDictionary

namespace PdfFunction

theorem Accepted.built {function : PdfFunction α} (accepted : function.Accepted) :
    function.Built := by
  rcases accepted with built | ⟨dictionary, made⟩
  · exact built
  · exact dictionary.built_of_build function made

end PdfFunction

end PdfPrimitives
