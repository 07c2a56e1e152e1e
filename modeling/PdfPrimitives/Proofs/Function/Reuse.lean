import PdfPrimitives.Function.Basic

/-!
Evaluating with working memory that is used again. Each function has a value that is worked
out without any memory. An evaluation reads only cells that it has filled before, so that
it gives this value whatever is left in the memory it is given.
-/

namespace PdfPrimitives

theorem ok_of_bind {ε β γ : Type} {first : Except ε β} {next : β → Except ε γ} {result : γ}
    (done : first >>= next = .ok result) :
    ∃ value, first = .ok value ∧ next value = .ok result := by
  cases first with
  | error fault => cases done
  | ok value => exact ⟨value, rfl, done⟩

theorem ok_of_map {ε β γ : Type} {first : Except ε β} {next : β → γ} {result : γ}
    (done : first.map next = .ok result) : ∃ value, first = .ok value ∧ next value = result := by
  cases first with
  | error fault => cases done
  | ok value => exact ⟨value, rfl, Except.ok.inj done⟩

variable {α : Type}

section Memory

variable [Scalar α]

theorem Interval.length_clipAll {intervals : List (Interval α)} {values clipped : List α}
    (done : clipAll intervals values = .ok clipped) : clipped.length = values.length := by
  fun_induction clipAll intervals values generalizing clipped with
  | case1 interval intervals value values ih =>
    obtain ⟨first, -, done⟩ := ok_of_bind done
    obtain ⟨rest, more, done⟩ := ok_of_bind done
    obtain rfl := Except.ok.inj done
    rw [List.length_cons, List.length_cons, ih more]
  | case2 intervals values =>
    obtain rfl := Except.ok.inj done
    rfl

theorem Scratch.size_reserve (scratch : Scratch α) (count : Nat) :
    count ≤ (scratch.reserve count).cells.size := by
  rw [reserve, Array.size_append, Array.size_replicate]
  omega

namespace Sampled

def cellsAt (order : Grid.Order) :
    List (SampledInput α × α) → Except Fault (List (Grid.Cell α))
  | [] => .ok []
  | (input, x) :: rest =>
    let encoded := input.encode.apply x
    if Scalar.isNaN encoded then .error .undefinedResult
    else
      let size := input.axis.size
      let coordinate := (wholeAxis size).nearest encoded
      (cellsAt order rest).map (Grid.Cell.ofCoordinate order coordinate size :: ·)

theorem length_cellsAt (order : Grid.Order) (point : List (SampledInput α × α))
    (cells : List (Grid.Cell α)) (found : cellsAt order point = .ok cells) :
    cells.length = point.length := by
  induction point generalizing cells with
  | nil =>
    obtain rfl := Except.ok.inj found
    rfl
  | cons first rest ih =>
    rw [cellsAt] at found
    dsimp only at found
    split at found
    · cases found
    · obtain ⟨more, read, rfl⟩ := ok_of_map found
      rw [List.length_cons, List.length_cons, ih more read]

/-- A result that is the fault of some cells, or has put these cells into a memory from
`dimension` on and left the rest of it alone. -/
def Fills (dimension : Nat) (scratch : Scratch α) (found : Except Fault (List (Grid.Cell α)))
    (result : Except Fault Unit × Scratch α) : Prop :=
  match found with
  | .error fault => result.1 = .error fault
  | .ok cells =>
    result.1 = .ok () ∧ result.2.cells.toList =
      scratch.cells.toList.take dimension ++ cells ++
        scratch.cells.toList.drop (dimension + cells.length)

theorem locate_fills (order : Grid.Order) (point : List (SampledInput α × α)) (dimension : Nat)
    (scratch : Scratch α) (room : dimension + point.length ≤ scratch.cells.size) :
    Fills dimension scratch (cellsAt order point) (locate order point dimension scratch) := by
  -- Each dimension writes one cell, in front of those that the rest of the point fills.
  induction point generalizing dimension scratch with
  | nil => exact ⟨rfl, by simp [locate]⟩
  | cons first rest ih =>
    obtain ⟨input, x⟩ := first
    rw [cellsAt, locate]
    by_cases undefined : Scalar.isNaN (input.encode.apply x) = true
    · simp only [undefined, ↓reduceIte]
      rfl
    simp only [undefined, Bool.false_eq_true, ↓reduceIte]
    let size := input.axis.size
    let coordinate := (wholeAxis size).nearest (input.encode.apply x)
    let cell := Grid.Cell.ofCoordinate order coordinate size
    rw [List.length_cons] at room
    have filled := ih (dimension + 1) (scratch.put dimension cell) (by
      rw [Scratch.put, Array.size_setIfInBounds]
      omega)
    cases found : cellsAt order rest with
    | error fault =>
      rw [found] at filled
      exact filled
    | ok cells =>
      rw [found] at filled
      obtain ⟨done, written⟩ := filled
      refine ⟨done, written.trans ?_⟩
      have inside : dimension < scratch.cells.toList.length := by
        rw [Array.length_toList]
        omega
      rw [Scratch.put, Array.toList_setIfInBounds, List.take_succ_eq_append_getElem
        (by simpa using inside), List.getElem_set_self, List.take_set_of_le (Nat.le_refl _),
        List.drop_set_of_lt (by omega), List.length_cons, Nat.add_assoc, Nat.add_comm 1]
      simp [cell, coordinate, size]

/-- What is located in memory with room for each dimension is what stands at its start then. -/
theorem cellsAt_eq_located (function : Sampled α) {clipped : List α} (scratch : Scratch α)
    (fits : clipped.length = function.inputs.length) :
    let located := locate function.order (function.inputs.zip clipped) 0
      (scratch.reserve function.inputs.length)
    cellsAt function.order (function.inputs.zip clipped) =
      located.1.map fun _ => located.2.cells.toList.take function.inputs.length := by
  intro located
  have whole : (function.inputs.zip clipped).length = function.inputs.length := by
    rw [List.length_zip, fits, Nat.min_self]
  have filled := locate_fills function.order (function.inputs.zip clipped) 0
    (scratch.reserve function.inputs.length) (by
      rw [whole, Nat.zero_add]
      exact scratch.size_reserve _)
  cases found : cellsAt function.order (function.inputs.zip clipped) with
  | error fault =>
    rw [found] at filled
    have failed : located.1 = .error fault := filled
    rw [failed]
    rfl
  | ok cells =>
    rw [found] at filled
    obtain ⟨done, written⟩ : located.1 = .ok () ∧ located.2.cells.toList = _ := filled
    rw [done, written, ← whole, ← length_cellsAt _ _ _ found]
    simp [Except.map]

def valueAt (function : Sampled α) (point : List α) : Except Fault (List α) := do
  let clipped ← Interval.clipAll (function.inputs.map (·.domain)) point
  let cells ← cellsAt function.order (function.inputs.zip clipped)
  function.values cells

theorem evaluate_eq_valueAt (function : Sampled α) (point : List α) (scratch : Scratch α)
    (fits : point.length = function.inputs.length) :
    (function.evaluate point scratch).1 = function.valueAt point := by
  rw [evaluate, valueAt]
  cases clips : Interval.clipAll (function.inputs.map (·.domain)) point with
  | error fault => rfl
  | ok clipped =>
    change _ = cellsAt function.order (function.inputs.zip clipped) >>= function.values
    rw [cellsAt_eq_located function scratch ((Interval.length_clipAll clips).trans fits)]
    dsimp only
    generalize locate function.order (function.inputs.zip clipped) 0
      (scratch.reserve function.inputs.length) = located
    obtain ⟨_ | _, filled⟩ := located <;> rfl

end Sampled

end Memory

namespace PdfFunction

variable [Elementary α]

mutual

def valueAt : PdfFunction α → List α → Except Failure (List α)
  | sampled function, input =>
    if input.length ≠ function.inputs.length then mismatch else silently (function.valueAt input)
  | exponential function, input =>
    match input with
    | [x] => silently (function.evaluate x)
    | _ => mismatch
  | stitching parts pieces, input =>
    match input with
    | [x] =>
      let (index, inside) := parts.locate x
      match pieceAt pieces index [parts.encodeAt index inside] with
      | .ok values => silently (clipToRange parts.range values)
      | .error failure => .error failure
    | _ => mismatch
  | calculation function, input =>
    if input.length ≠ function.domain.length then mismatch else function.evaluate input

def pieceAt : List (PdfFunction α) → Nat → List α → Except Failure (List α)
  | [], _, _ => mismatch
  | piece :: _, 0, input => valueAt piece input
  | _ :: rest, index + 1, input => pieceAt rest index input

end

mutual

theorem evaluateWith_eq_valueAt : ∀ (function : PdfFunction α) (input : List α)
    (scratch : Scratch α), (evaluateWith function input scratch).1 = valueAt function input
  | sampled function, input, scratch => by
    rw [evaluateWith, valueAt]
    by_cases fits : input.length = function.inputs.length
    · simp only [fits, ne_eq, not_true_eq_false, ↓reduceIte]
      rw [function.evaluate_eq_valueAt input scratch fits]
    · simp only [fits, ne_eq, not_false_eq_true, ↓reduceIte]
  | exponential function, input, scratch => by
    rw [evaluateWith.eq_def, valueAt.eq_def]
    rcases input with _ | ⟨x, _ | ⟨y, more⟩⟩ <;> rfl
  | stitching parts pieces, input, scratch => by
    rw [evaluateWith.eq_def, valueAt.eq_def]
    rcases input with _ | ⟨x, _ | ⟨y, more⟩⟩
    case cons.nil =>
      simp only [← evaluatePiece_eq_pieceAt pieces _ _ scratch]
      cases (evaluatePiece pieces (parts.locate x).1
        [parts.encodeAt (parts.locate x).1 (parts.locate x).2] scratch).1 <;> rfl
    all_goals rfl
  | calculation function, input, scratch => by
    rw [evaluateWith, valueAt]
    split <;> rfl

theorem evaluatePiece_eq_pieceAt : ∀ (pieces : List (PdfFunction α)) (index : Nat)
    (input : List α) (scratch : Scratch α),
    (evaluatePiece pieces index input scratch).1 = pieceAt pieces index input
  | [], _, _, _ => rfl
  | piece :: _, 0, input, scratch => evaluateWith_eq_valueAt piece input scratch
  | _ :: rest, index + 1, input, scratch => evaluatePiece_eq_pieceAt rest index input scratch

end

theorem evaluate_eq_valueAt (function : PdfFunction α) (input : List α) :
    function.evaluate input = function.valueAt input :=
  evaluateWith_eq_valueAt function input function.scratch

/-- Any memory does: an empty one, one that another function has made room in, and what
evaluations of any functions have left of it. -/
theorem evaluateWith_eq_evaluate (function : PdfFunction α) (input : List α)
    (scratch : Scratch α) :
    (function.evaluateWith input scratch).1 = function.evaluate input := by
  rw [evaluateWith_eq_valueAt, evaluate_eq_valueAt]

end PdfFunction

end PdfPrimitives
