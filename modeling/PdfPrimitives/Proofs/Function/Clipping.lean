import PdfPrimitives.Proofs.Function.Construction
import PdfPrimitives.Scalar.Double
import PdfPrimitives.Text.Ascii

/-!
Inputs that are clipped to the domain before a function is evaluated. Every function clips
its inputs itself, so that clipping them before does not show, except where a stitching
function chooses its piece by the number that it is given and not by the clipped one.
-/

namespace PdfPrimitives

variable {α : Type}

section Clipping

variable [Scalar α]

namespace Interval

variable {interval : Interval α} {x : α}

theorem nearest_below (below : x < interval.low) (wide : ¬interval.high ≤ interval.low) :
    interval.nearest x = interval.low := by
  simp only [nearest, below, wide, ↓reduceIte]

/-- In an interval without width the upper end is the nearest value. -/
theorem nearest_point (below : x < interval.low) (point : interval.high ≤ interval.low) :
    interval.nearest x = interval.high := by
  simp only [nearest, below, point, ↓reduceIte]

theorem nearest_inside (inside : ¬x < interval.low) (short : ¬interval.high ≤ x) :
    interval.nearest x = x := by
  simp only [nearest, inside, short, ↓reduceIte]

theorem clip_number (interval : Interval α) (x : α) (number : Scalar.isNaN x = false) :
    interval.clip x = .ok (interval.nearest x) := by
  simp only [clip, number, Bool.false_eq_true, ↓reduceIte]

theorem clipAll_single (interval : Interval α) (x : α) (number : Scalar.isNaN x = false) :
    clipAll [interval] [x] = .ok [interval.nearest x] := by
  rw [clipAll, clip_number interval x number]
  rfl

variable [OrderedScalar α]

theorem nearest_above (above : interval.high ≤ x) : interval.nearest x = interval.high := by
  by_cases below : x < interval.low
  · exact nearest_point below (OrderedScalar.le_trans above (OrderedScalar.lt_iff.mp below).1)
  · simp only [nearest, below, above, ↓reduceIte]

theorem nearest_again (interval : Interval α) (x : α) (number : Scalar.isNaN x = false) :
    Scalar.isNaN (interval.nearest x) = false ∧
      interval.nearest (interval.nearest x) = interval.nearest x := by
  by_cases below : x < interval.low
  · by_cases point : interval.high ≤ interval.low
    · have high := (OrderedScalar.numbers_of_le point).1
      rw [nearest_point below point]
      exact ⟨high, nearest_above (OrderedScalar.le_refl high)⟩
    · have low := (OrderedScalar.numbers_of_lt below).2
      rw [nearest_below below point]
      exact ⟨low, nearest_inside (OrderedScalar.lt_irrefl _) point⟩
  · by_cases above : interval.high ≤ x
    · have high := (OrderedScalar.numbers_of_le above).1
      rw [nearest_above above]
      exact ⟨high, nearest_above (OrderedScalar.le_refl high)⟩
    · have same := nearest_inside below above
      rw [same]
      exact ⟨number, same⟩

theorem clip_nearest (interval : Interval α) (x : α) (number : Scalar.isNaN x = false) :
    interval.clip (interval.nearest x) = interval.clip x := by
  obtain ⟨clipped, again⟩ := nearest_again interval x number
  rw [clip_number interval _ clipped, again, clip_number interval x number]

theorem clipAll_again (intervals : List (Interval α)) (values : List α)
    (numbers : ∀ value ∈ values, Scalar.isNaN value = false) :
    ∃ clipped, clipAll intervals values = .ok clipped ∧
      clipAll intervals clipped = .ok clipped := by
  fun_induction clipAll intervals values with
  | case1 interval intervals value values ih =>
    obtain ⟨rest, clips, again⟩ := ih fun other member => numbers other (by simp [member])
    have number := numbers value List.mem_cons_self
    have first := clip_number interval value number
    refine ⟨interval.nearest value :: rest, ?_, ?_⟩
    · rw [first, clips]
      rfl
    · rw [clipAll, clip_nearest interval value number, first, again]
      rfl
  | case2 intervals values unpaired =>
    refine ⟨values, rfl, ?_⟩
    rw [clipAll]
    exact unpaired

end Interval

namespace Stitching

variable [OrderedScalar α]

/-- Clipping `x` before does not show in the piece that is chosen for it, unless `x` lies below
the domain. There it does if the first piece has no width, so that the lower end belongs to a later
one, or if the ends are zeros of different sign, of which `x` is taken to the lower one and the
clipped number to the upper one. -/
def Seamless (parts : Stitching α) (x : α) : Prop :=
  parts.domain.low ≤ x ∨
    (∀ bound ∈ parts.bounds.head?, parts.domain.low < bound) ∧
      (parts.domain.high ≤ parts.domain.low → parts.domain.high = parts.domain.low)

theorem locate_nearest_inside (parts : Stitching α) (x : α) (inside : parts.domain.low ≤ x) :
    parts.locate (parts.domain.nearest x) = parts.locate x := by
  by_cases above : parts.domain.high ≤ x
  · have high := OrderedScalar.le_refl (OrderedScalar.numbers_of_le above).1
    rw [Interval.nearest_above above]
    simp only [locate, above, high, ↓reduceIte]
  · rw [Interval.nearest_inside (OrderedScalar.not_lt_of_le inside) above]

theorem locate_nearest_below (parts : Stitching α) (ordered : parts.Ordered) (x : α)
    (below : x < parts.domain.low) :
    parts.locate (parts.domain.nearest x) = parts.locate x ↔
      (∀ bound ∈ parts.bounds.head?, parts.domain.low < bound) ∧
        (parts.domain.high ≤ parts.domain.low → parts.domain.high = parts.domain.low) := by
  have ends : parts.domain.low ≤ parts.domain.high := le_of_intervals ordered
  have numbers := OrderedScalar.numbers_of_le ends
  have outside : ¬parts.domain.low ≤ x := (OrderedScalar.lt_iff.mp below).2
  have short : ¬parts.domain.high ≤ x := fun above => outside (OrderedScalar.le_trans ends above)
  have located : parts.locate x = (0, parts.domain.low) := by
    simp only [locate, short, outside, ↓reduceIte]
  rw [located]
  by_cases point : parts.domain.high ≤ parts.domain.low
  · -- The clipped number is the upper end, which belongs to the last piece.
    have high := OrderedScalar.le_refl numbers.2
    rw [Interval.nearest_point below point]
    simp only [locate, high, point, ↓reduceIte, Prod.mk.injEq, List.length_eq_zero_iff,
      forall_const]
    refine and_congr_left fun _ => ?_
    cases first : parts.bounds.head? with
    | none => simpa using first
    | some bound =>
      have narrow : ¬parts.domain.low < bound :=
        OrderedScalar.not_lt_of_le (OrderedScalar.le_trans (ordered.head first).2 point)
      constructor
      · intro nothing
        rw [nothing] at first
        cases first
      · intro wide
        exact absurd (wide bound rfl) narrow
  · -- The clipped number is the lower end, in the piece behind the bounds that equal it.
    have low := OrderedScalar.le_refl numbers.1
    rw [Interval.nearest_below below point]
    simp only [locate, low, point, ↓reduceIte, Prod.mk.injEq, and_true,
      false_implies, List.length_eq_zero_iff]
    cases bounds : parts.bounds with
    | nil => simp
    | cons bound rest =>
      have before := (ordered.head (show bound ∈ parts.bounds.head? by rw [bounds]; rfl)).1
      simp [List.takeWhile_cons, OrderedScalar.lt_iff, before]

theorem locate_nearest (parts : Stitching α) (ordered : parts.Ordered) (x : α)
    (number : Scalar.isNaN x = false) :
    parts.locate (parts.domain.nearest x) = parts.locate x ↔ parts.Seamless x := by
  have ends : parts.domain.low ≤ parts.domain.high := le_of_intervals ordered
  by_cases inside : parts.domain.low ≤ x
  · exact iff_of_true (locate_nearest_inside parts x inside) (.inl inside)
  · rw [Seamless, or_iff_right inside]
    exact locate_nearest_below parts ordered x
      ((OrderedScalar.not_le number (OrderedScalar.numbers_of_le ends).1).mp inside)

end Stitching

end Clipping

namespace PdfFunction

variable [Elementary α] [OrderedScalar α]

def Seamless : PdfFunction α → List α → Prop
  | stitching parts _, input => ∀ x ∈ input, parts.Seamless x
  | _, _ => True

theorem evaluate_clipped {function : PdfFunction α} (built : Built function) (input : List α)
    (fits : input.length = function.inputCount)
    (numbers : ∀ x ∈ input, Scalar.isNaN x = false) (seamless : function.Seamless input) :
    ∃ clipped, Interval.clipAll function.domain input = .ok clipped ∧
      function.evaluate clipped = function.evaluate input := by
  obtain ⟨clipped, clips, again⟩ := Interval.clipAll_again function.domain input numbers
  refine ⟨clipped, clips, ?_⟩
  have length := Interval.length_clipAll clips
  rw [evaluate_eq_valueAt, evaluate_eq_valueAt]
  cases function with
  | sampled function =>
    rw [domain] at clips again
    rw [valueAt, valueAt, length, Sampled.valueAt, Sampled.valueAt, clips, again]
  | calculation function =>
    rw [domain] at clips again
    rw [valueAt, valueAt, length, Calculation.evaluate, Calculation.evaluate, clips, again]
  | exponential function =>
    obtain ⟨x, rfl⟩ := List.length_eq_one_iff.mp fits
    have number := numbers x (List.mem_singleton.mpr rfl)
    rw [domain, Interval.clipAll_single _ x number] at clips
    obtain rfl := Except.ok.inj clips
    rw [valueAt, valueAt, Exponential.evaluate, Exponential.evaluate,
      Interval.clip_nearest _ x number]
  | stitching parts pieces =>
    obtain ⟨x, rfl⟩ := List.length_eq_one_iff.mp fits
    have member := List.mem_singleton.mpr (rfl : x = x)
    have number := numbers x member
    rw [domain, Interval.clipAll_single _ x number] at clips
    obtain rfl := Except.ok.inj clips
    rw [valueAt, valueAt, (parts.locate_nearest built.ordered x number).mpr (seamless x member)]

section Steps

variable {made first second : Except Failure (PdfFunction Float)} {function : PdfFunction Float}

/-- A function that can be built, and gives other values at a number than at any of `ends`, one
of which the number is clipped to. -/
def ShowsClipping (made : Except Failure (PdfFunction Float)) (x : Float) (ends : List Float) :
    Prop :=
  ∃ function, made = .ok function ∧ Built function ∧ function.inputCount = 1 ∧
    Scalar.isNaN x = false ∧
    (∃ clipped ∈ ends, Interval.clipAll function.domain [x] = .ok [clipped]) ∧
    ∃ values, function.evaluate [x] = .ok values ∧
      ∀ clipped ∈ ends, ∃ others, function.evaluate [clipped] = .ok others ∧ values ≠ others

theorem ShowsClipping.of_runs {x clipped : Float} {ends values others : List Float}
    (built : ∀ function, made = .ok function → Built function)
    (count : made.map inputCount = .ok 1) (number : Scalar.isNaN x = false)
    (listed : clipped ∈ ends)
    (clips : (made.map fun function => Interval.clipAll function.domain [x]) =
      .ok (.ok [clipped]))
    (value : (made >>= (·.evaluate [x])) = .ok values)
    (other : ∀ clipped ∈ ends, (made >>= (·.evaluate [clipped])) = .ok others)
    (apart : values ≠ others) : ShowsClipping made x ends := by
  cases made with
  | error failure => cases count
  | ok function =>
    exact ⟨function, rfl, built function rfl, Except.ok.inj count, number,
      ⟨clipped, listed, Except.ok.inj clips⟩, values, value,
      fun clipped member => ⟨others, other clipped member, apart⟩⟩

def calculator (domain : Interval Float) (text : String) : Except Failure (PdfFunction Float) :=
  ofProgram [domain] [⟨-9, 9⟩] (Text.ascii text)

theorem built_calculator {domain : Interval Float} {text : String}
    (made : calculator domain text = .ok function) : Built function :=
  .program _ _ _ made

def joined (bound : Float) (first second : Except Failure (PdfFunction Float)) :
    Except Failure (PdfFunction Float) := do
  let first ← first
  let second ← second
  ofStitching [⟨0, 1⟩] none [first, second] [bound] [⟨-0.0, 1⟩, ⟨0, 1⟩]

theorem built_joined {bound : Float} (left : ∀ piece, first = .ok piece → Built piece)
    (right : ∀ piece, second = .ok piece → Built piece)
    (made : joined bound first second = .ok function) : Built function := by
  obtain ⟨before, first, made⟩ := ok_of_bind made
  obtain ⟨behind, second, made⟩ := ok_of_bind made
  refine .stitching _ _ _ _ _ ?_ made
  intro piece member
  simp only [List.mem_cons, List.not_mem_nil, or_false] at member
  rcases member with rfl | rfl
  · exact left piece first
  · exact right piece second

/-- The first piece has no width and gives one, the second gives two. -/
def narrowStart : Except Failure (PdfFunction Float) :=
  joined 0 (calculator ⟨0, 1⟩ "\x7b pop 1 \x7d") (calculator ⟨0, 1⟩ "\x7b pop 2 \x7d")

theorem built_narrowStart (function : PdfFunction Float) (made : narrowStart = .ok function) :
    Built function :=
  built_joined (fun _ => built_calculator) (fun _ => built_calculator) made

/-- An identity on a domain whose ends are zeros of different sign. -/
def signedPoint : Except Failure (PdfFunction Float) := do
  let piece ← calculator ⟨-1, 1⟩ "\x7b \x7d"
  ofStitching [⟨-0.0, 0.0⟩] none [piece] [] [⟨-0.0, 1⟩]

theorem built_signedPoint (function : PdfFunction Float) (made : signedPoint = .ok function) :
    Built function := by
  obtain ⟨piece, inner, made⟩ := ok_of_bind made
  refine .stitching _ _ _ _ _ ?_ made
  intro other member
  obtain rfl := List.mem_singleton.mp member
  exact built_calculator inner

/-- A number below the domain is given to the first piece, although the lower end belongs to
the second one. If the ends are zeros of different sign, the piece is handed the lower one, but the
upper one in place of either of them. -/
theorem shows_clipping :
    ShowsClipping narrowStart (-1) [0] ∧ ShowsClipping signedPoint (-1) [-0.0, 0.0] := by
  constructor
  · have value : (narrowStart >>= (·.evaluate [-1])) = .ok [1] := by decide +kernel
    have other : (narrowStart >>= (·.evaluate [0])) = .ok [2] := by decide +kernel
    exact .of_runs built_narrowStart (by decide +kernel) (by decide +kernel)
      List.mem_cons_self (by decide +kernel) value (List.forall_mem_singleton.mpr other)
      (by decide +kernel)
  · have value : (signedPoint >>= (·.evaluate [-1])) = .ok [-0.0] := by decide +kernel
    have lower : (signedPoint >>= (·.evaluate [-0.0])) = .ok [0.0] := by decide +kernel
    have upper : (signedPoint >>= (·.evaluate [0.0])) = .ok [0.0] := by decide +kernel
    exact .of_runs built_signedPoint (by decide +kernel) (by decide +kernel)
      (List.mem_cons_of_mem _ List.mem_cons_self) (by decide +kernel) value
      (List.forall_mem_cons.mpr ⟨lower, List.forall_mem_singleton.mpr upper⟩) (by decide +kernel)

def nestedStart : Except Failure (PdfFunction Float) :=
  joined 0.5 narrowStart (calculator ⟨0, 1⟩ "\x7b pop 3 \x7d")

theorem nestedStart_evaluate_clipped : ∃ function, nestedStart = .ok function ∧
    (Built function ∧ [(-1 : Float)].length = function.inputCount ∧
      (∀ x ∈ [(-1 : Float)], Scalar.isNaN x = false) ∧ function.Seamless [-1]) ∧
    ∃ clipped, Interval.clipAll function.domain [-1] = .ok clipped ∧
      function.evaluate clipped = function.evaluate [-1] := by
  have done : nestedStart.isOk = true := by decide +kernel
  have number : Scalar.isNaN (-1 : Float) = false := by decide +kernel
  cases made : nestedStart with
  | error failure => rw [made] at done; cases done
  | ok function =>
    have built : Built function := built_joined built_narrowStart (fun _ => built_calculator) made
    obtain ⟨_, _, more⟩ := ok_of_bind made
    obtain ⟨_, _, more⟩ := ok_of_bind more
    obtain ⟨parts, rfl, joined⟩ := parts_of_stitching more
    obtain ⟨domain, bounds, -⟩ := Stitching.ordered_of_parts joined
    have numbers : ∀ x ∈ [(-1 : Float)], Scalar.isNaN x = false :=
      List.forall_mem_singleton.mpr number
    have seamless : ∀ x ∈ [(-1 : Float)], parts.Seamless x := by
      refine List.forall_mem_singleton.mpr (.inr ?_)
      rw [← List.singleton_inj.mp domain, bounds]
      constructor
      · rintro bound ⟨⟩
        decide +kernel
      · intro point
        exact absurd point (by decide +kernel)
    exact ⟨_, rfl, ⟨built, rfl, numbers, seamless⟩,
      evaluate_clipped built [-1] rfl numbers seamless⟩

end Steps

end PdfFunction

end PdfPrimitives
