import PdfPrimitives.Proofs.Function.Reuse
import PdfPrimitives.Proofs.Scalar.Order

/-!
The functions that can be built, and what building them has made sure of.
-/

namespace PdfPrimitives

variable {α : Type}

namespace Stitching

section Bounds

variable [Scalar α]

def Ordered (parts : Stitching α) : Prop :=
  ∀ subdomain ∈ intervals parts.domain.low parts.bounds parts.domain.high,
    subdomain.low ≤ subdomain.high

theorem ordered_of_parts {domain : List (Interval α)} {range : Option (List (Interval α))}
    {shapes : List (Nat × Nat)} {bounds : List α} {encode : List (Interval α)}
    {parts : Stitching α} (made : ofParts domain range shapes bounds encode = .ok parts) :
    domain = [parts.domain] ∧ parts.bounds = bounds ∧ parts.Ordered := by
  unfold ofParts at made
  split at made
  · split at made
    · cases made
    · dsimp only at made
      split at made
      · next whole _ _ _ _ ascending =>
        obtain rfl := Except.ok.inj made
        refine ⟨rfl, rfl, ?_⟩
        intro subdomain member
        exact of_decide_eq_true (List.all_eq_true.mp ascending subdomain member)
      · cases made
  · cases made

variable [OrderedScalar α]

theorem le_of_intervals {low high : α} {bounds : List α}
    (ascending : ∀ subdomain ∈ intervals low bounds high, subdomain.low ≤ subdomain.high) :
    low ≤ high := by
  induction bounds generalizing low with
  | nil => exact ascending ⟨low, high⟩ (List.mem_singleton.mpr rfl)
  | cons bound bounds ih =>
    have first : low ≤ bound := ascending ⟨low, bound⟩ List.mem_cons_self
    have others : bound ≤ high :=
      ih fun subdomain member => ascending subdomain (List.mem_cons_of_mem _ member)
    exact OrderedScalar.le_trans first others

/-- The first bound lies between the ends. -/
theorem Ordered.head {parts : Stitching α} (ordered : parts.Ordered) {bound : α}
    (first : bound ∈ parts.bounds.head?) :
    parts.domain.low ≤ bound ∧ bound ≤ parts.domain.high := by
  obtain ⟨domain, range, bounds, encode, outputCount⟩ := parts
  cases bounds with
  | nil => cases first
  | cons other bounds =>
    obtain rfl := Option.some.inj first
    have before : domain.low ≤ other := ordered ⟨domain.low, other⟩ List.mem_cons_self
    have later : ∀ subdomain ∈ intervals other bounds domain.high,
        subdomain.low ≤ subdomain.high :=
      fun subdomain member => ordered subdomain (List.mem_cons_of_mem _ member)
    exact ⟨before, le_of_intervals later⟩

end Bounds

end Stitching

namespace PdfFunction

variable [Elementary α]

/-- The functions that the constructors give, where what is stitched together is one of
them too. -/
inductive Built : PdfFunction α → Prop
  | sampled {function : PdfFunction α} (description : SampledDescription α)
      (made : ofSampled description = .ok function) : Built function
  | exponential {function : PdfFunction α} (description : ExponentialDescription α)
      (made : ofExponential description = .ok function) : Built function
  | stitching {function : PdfFunction α} (domain : List (Interval α))
      (range : Option (List (Interval α))) (pieces : List (PdfFunction α)) (bounds : List α)
      (encode : List (Interval α)) (built : ∀ piece ∈ pieces, Built piece)
      (made : ofStitching domain range pieces bounds encode = .ok function) : Built function
  | program {function : PdfFunction α} (domain range : List (Interval α)) (text : List UInt8)
      (made : ofProgram domain range text = .ok function) : Built function

theorem ok_of_creating {β : Type} {kind : String} {result : Except Failure β} {made : β}
    (done : creating kind result = .ok made) : result = .ok made := by
  cases result with
  | error failure => cases done
  | ok value => exact done

theorem parts_of_stitching {domain : List (Interval α)} {range : Option (List (Interval α))}
    {pieces : List (PdfFunction α)} {bounds : List α} {encode : List (Interval α)}
    {function : PdfFunction α}
    (made : ofStitching domain range pieces bounds encode = .ok function) :
    ∃ parts, function = .stitching parts pieces ∧
      Stitching.ofParts domain range
        (pieces.map fun piece => (piece.inputCount, piece.outputCount)) bounds encode =
          .ok parts := by
  obtain ⟨parts, joined, done⟩ := ok_of_bind (ok_of_creating made)
  refine ⟨parts, (Except.ok.inj done).symm, ?_⟩
  cases given : Stitching.ofParts domain range
      (pieces.map fun piece => (piece.inputCount, piece.outputCount)) bounds encode with
  | error fault => rw [given] at joined; cases joined
  | ok other =>
    rw [given] at joined
    exact congrArg Except.ok (Except.ok.inj joined)

theorem Built.ordered {parts : Stitching α} {pieces : List (PdfFunction α)}
    (built : Built (.stitching parts pieces)) : parts.Ordered := by
  cases built with
  | sampled description made =>
    obtain ⟨_, -, other⟩ := ok_of_bind (ok_of_creating made)
    cases other
  | exponential description made =>
    obtain ⟨_, -, other⟩ := ok_of_bind (ok_of_creating made)
    cases other
  | program domain range text made =>
    obtain ⟨_, -, other⟩ := ok_of_bind (ok_of_creating made)
    cases other
  | stitching domain range pieces bounds encode built made =>
    obtain ⟨parts, same, joined⟩ := parts_of_stitching made
    cases same
    exact (Stitching.ordered_of_parts joined).2.2

end PdfFunction

end PdfPrimitives
