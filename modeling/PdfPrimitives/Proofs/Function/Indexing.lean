import PdfPrimitives.Proofs.Function.Shape

/-!
Evaluating with every index looked up. What a well-shaped function looks up is always there,
so that it gives the same with these checks as without them.
-/

namespace PdfPrimitives

variable {α : Type}

namespace Stitching

variable [Scalar α]

def fullBounds (parts : Stitching α) : List α :=
  parts.domain.low :: parts.bounds ++ [parts.domain.high]

/-- The subdomain of `x` among `count` ones, found by indices into the full bounds. There is
none if an index lies outside. -/
def locateIndexed (parts : Stitching α) (count : Nat) (x : α) : Option (Nat × α) := do
  let low ← parts.fullBounds[0]?
  let high ← parts.fullBounds[count]?
  if count = 0 then none
  else if high ≤ x then return (count - 1, high)
  else if low ≤ x then
    let inner := (parts.fullBounds.take count).drop 1
    return ((inner.takeWhile fun bound => decide (bound ≤ x)).length, x)
  else return (0, low)

theorem locate_lt (parts : Stitching α) {count : Nat} (joins : parts.Joins count) (x : α) :
    (parts.locate x).1 < count := by
  have inner : (parts.bounds.takeWhile fun bound => decide (bound ≤ x)).length ≤
      parts.bounds.length := (List.takeWhile_sublist _).length_le
  have counted := joins.bounds
  unfold locate
  split
  · exact Nat.lt_of_succ_le counted.le
  · split
    · exact Nat.lt_of_lt_of_le (Nat.lt_succ_of_le inner) counted.le
    · omega

theorem locateIndexed_eq (parts : Stitching α) {count : Nat} (joins : parts.Joins count)
    (x : α) : parts.locateIndexed count x = some (parts.locate x) := by
  obtain ⟨rfl⟩ := joins.bounds
  have low : parts.fullBounds[0]? = some parts.domain.low := rfl
  have high : parts.fullBounds[parts.bounds.length + 1]? = some parts.domain.high := by
    simp [fullBounds]
  have inner : (parts.fullBounds.take (parts.bounds.length + 1)).drop 1 = parts.bounds := by
    simp [fullBounds]
  rw [locateIndexed, low, high, inner]
  simp only [Option.bind_eq_bind, Option.bind_some, Nat.succ_ne_zero, ↓reduceIte, locate]
  split
  · rfl
  · split <;> rfl

end Stitching

namespace Sampled

variable [Scalar α]

def locateIndexed (order : Grid.Order) : List (SampledInput α × α) → Nat → Scratch α →
    Option (Except Fault Unit × Scratch α)
  | [], _, scratch => some (.ok (), scratch)
  | (input, x) :: rest, dimension, scratch =>
    let encoded := input.encode.apply x
    if Scalar.isNaN encoded then some (.error .undefinedResult, scratch)
    else if dimension < scratch.cells.size then
      let size := input.axis.size
      let coordinate := (wholeAxis size).nearest encoded
      locateIndexed order rest (dimension + 1)
        (scratch.put dimension (Grid.Cell.ofCoordinate order coordinate size))
    else none

def evaluateIndexed (function : Sampled α) (point : List α) (scratch : Scratch α) :
    Option (Except Fault (List α) × Scratch α) :=
  match Interval.clipAll (function.inputs.map (·.domain)) point with
  | .error fault => some (.error fault, scratch)
  | .ok clipped => do
    let count := function.inputs.length
    match ← locateIndexed function.order (function.inputs.zip clipped) 0
      (scratch.reserve count) with
    | (.error fault, left) => return (.error fault, left)
    | (.ok (), filled) =>
      let cells ← (List.range count).mapM fun dimension => filled.cells[dimension]?
      return (function.values cells, filled)

theorem size_locate (order : Grid.Order) (point : List (SampledInput α × α)) (dimension : Nat)
    (scratch : Scratch α) :
    (locate order point dimension scratch).2.cells.size = scratch.cells.size := by
  induction point generalizing dimension scratch with
  | nil => rfl
  | cons first rest ih =>
    rw [locate]
    dsimp only
    split
    · rfl
    · rw [ih, Scratch.put, Array.size_setIfInBounds]

theorem locateIndexed_eq (order : Grid.Order) (point : List (SampledInput α × α))
    (dimension : Nat) (scratch : Scratch α)
    (room : dimension + point.length ≤ scratch.cells.size) :
    locateIndexed order point dimension scratch = some (locate order point dimension scratch) := by
  induction point generalizing dimension scratch with
  | nil => rfl
  | cons first rest ih =>
    rw [List.length_cons] at room
    have inside : dimension < scratch.cells.size := by omega
    obtain ⟨input, x⟩ := first
    rw [locateIndexed, locate]
    dsimp only
    by_cases undefined : Scalar.isNaN (input.encode.apply x) = true
    · rw [if_pos undefined, if_pos undefined]
    · rw [if_neg undefined, if_neg undefined, if_pos inside]
      exact ih (dimension + 1) _ (by rw [Scratch.put, Array.size_setIfInBounds]; omega)

theorem mapM_getElem? {β : Type} (items : Array β) (count : Nat) (room : count ≤ items.size) :
    (List.range count).mapM (fun place => items[place]?) = some (items.toList.take count) := by
  induction count with
  | zero => rfl
  | succ count ih =>
    have inside : count < items.size := by omega
    rw [List.range_succ, List.mapM_append, ih (by omega), List.mapM_cons, List.mapM_nil,
      Array.getElem?_eq_getElem inside, List.take_succ_eq_append_getElem (by simpa using inside),
      Array.getElem_toList]
    rfl

theorem evaluateIndexed_eq (function : Sampled α) (point : List α) (scratch : Scratch α)
    (fits : point.length = function.inputs.length) :
    function.evaluateIndexed point scratch = some (function.evaluate point scratch) := by
  rw [evaluateIndexed, evaluate]
  cases clips : Interval.clipAll (function.inputs.map (·.domain)) point with
  | error fault => rfl
  | ok clipped =>
    have whole : (function.inputs.zip clipped).length = function.inputs.length := by
      rw [List.length_zip, Interval.length_clipAll clips, fits, Nat.min_self]
    have reserved := scratch.size_reserve function.inputs.length
    have room : 0 + (function.inputs.zip clipped).length ≤
        (scratch.reserve function.inputs.length).cells.size := by
      rw [whole, Nat.zero_add]
      exact reserved
    have size := size_locate function.order (function.inputs.zip clipped) 0
      (scratch.reserve function.inputs.length)
    simp only [locateIndexed_eq _ _ _ _ room, Option.bind_eq_bind, Option.bind_some]
    generalize locate function.order (function.inputs.zip clipped) 0
      (scratch.reserve function.inputs.length) = located at size
    obtain ⟨_ | _, filled⟩ := located
    · rfl
    · have cells := mapM_getElem? filled.cells function.inputs.length (size.symm ▸ reserved)
      simp only [cells, Option.bind_some]
      rfl

end Sampled

namespace PdfFunction

variable [Elementary α]

mutual

/-- Evaluate a function with every index looked up. There is no result if an index lies outside
of the input, the domain, the bounds, the encodings, the pieces or the scratch. -/
def evaluateIndexed :
    PdfFunction α → List α → Scratch α → Option (Except Failure (List α) × Scratch α)
  | sampled function, input, scratch =>
    if input.length ≠ (sampled function).inputCount then some (mismatch, scratch)
    else (function.evaluateIndexed input scratch).map fun (result, left) =>
      (silently result, left)
  | exponential function, input, scratch =>
    if input.length ≠ (exponential function).inputCount then some (mismatch, scratch)
    else do
      let x ← input[0]?
      let domain ← (exponential function).domain[0]?
      return (silently ({ function with domain }.evaluate x), scratch)
  | stitching parts pieces, input, scratch =>
    if input.length ≠ (stitching parts pieces).inputCount then some (mismatch, scratch)
    else do
      let x ← input[0]?
      let (index, inside) ← parts.locateIndexed pieces.length x
      let map ← parts.encode[index]?
      match ← pieceIndexed pieces index [map.apply inside] scratch with
      | (.ok values, left) => return (silently (clipToRange parts.range values), left)
      | (.error failure, left) => return (.error failure, left)
  | calculation function, input, scratch =>
    if input.length ≠ (calculation function).inputCount then some (mismatch, scratch)
    else some (function.evaluate input, scratch)

def pieceIndexed : List (PdfFunction α) → Nat → List α → Scratch α →
    Option (Except Failure (List α) × Scratch α)
  | [], _, _, _ => none
  | piece :: _, 0, input, scratch => evaluateIndexed piece input scratch
  | _ :: rest, index + 1, input, scratch => pieceIndexed rest index input scratch

end

theorem pieceIndexed_eq (pieces : List (PdfFunction α)) (index : Nat) (input : List α)
    (scratch : Scratch α) (inside : index < pieces.length)
    (agree : ∀ piece ∈ pieces, ∀ input scratch,
      evaluateIndexed piece input scratch = some (evaluateWith piece input scratch)) :
    pieceIndexed pieces index input scratch = some (evaluatePiece pieces index input scratch) := by
  induction pieces generalizing index with
  | nil => cases inside
  | cons piece rest ih =>
    obtain ⟨first, others⟩ := List.forall_mem_cons.mp agree
    cases index with
    | zero => exact first input scratch
    | succ index => exact ih index (Nat.lt_of_succ_lt_succ inside) others

/-- No index that evaluating looks up lies outside. -/
theorem Shaped.evaluateIndexed_eq {function : PdfFunction α} (shaped : function.Shaped)
    (input : List α) (scratch : Scratch α) :
    function.evaluateIndexed input scratch = some (function.evaluateWith input scratch) := by
  induction shaped generalizing input scratch with
  | sampled function =>
    rw [PdfFunction.evaluateIndexed, evaluateWith, inputCount, domain, List.length_map]
    split
    · rfl
    · next fits =>
      rw [Decidable.not_not] at fits
      rw [function.evaluateIndexed_eq input scratch fits]
      rfl
  | exponential function ranged =>
    rcases input with _ | ⟨x, _ | ⟨y, more⟩⟩ <;> rfl
  | stitching parts pieces shaped joins single uniform ih =>
    rcases input with _ | ⟨x, _ | ⟨y, more⟩⟩
    case cons.nil =>
      have inside := parts.locate_lt joins x
      have encoded : (parts.locate x).1 < parts.encode.length := joins.encode ▸ inside
      have encodes : parts.encodeAt (parts.locate x).1 (parts.locate x).2 =
          parts.encode[(parts.locate x).1].apply (parts.locate x).2 := by
        rw [Stitching.encodeAt, List.getElem?_eq_getElem encoded]
      have found := pieceIndexed_eq pieces (parts.locate x).1
        [parts.encode[(parts.locate x).1].apply (parts.locate x).2] scratch inside ih
      have fits : ¬[x].length ≠ (PdfFunction.stitching parts pieces).inputCount := not_not_intro rfl
      rw [PdfFunction.evaluateIndexed, evaluateWith, if_neg fits]
      simp only [encodes, List.getElem?_cons_zero, Option.bind_eq_bind, Option.bind_some,
        parts.locateIndexed_eq joins x, List.getElem?_eq_getElem encoded, found]
      generalize evaluatePiece pieces _ _ scratch = result
      obtain ⟨_ | _, left⟩ := result <;> rfl
    all_goals rfl
  | calculation function wellFormed =>
    rw [PdfFunction.evaluateIndexed, evaluateWith, inputCount, domain]
    split <;> rfl

end PdfFunction

end PdfPrimitives
