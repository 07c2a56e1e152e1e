import PdfPrimitives.Proofs.Calculator.Execution
import PdfPrimitives.Proofs.Function.Indexing

/-!
What evaluating gives. With as many inputs as the function has, there is a value for each
output, or a fault of the numbers or of a program. Faults of construction do not come up
again.
-/

namespace PdfPrimitives

open Calculator (OperandResult operandFaults)

section Failing

variable {ε β γ : Type}

theorem error_of_bind {first : Except ε β} {next : β → Except ε γ} {fault : ε}
    (failed : first >>= next = .error fault) :
    first = .error fault ∨ ∃ value, first = .ok value ∧ next value = .error fault := by
  cases first with
  | error other => exact .inl (congrArg Except.error (Except.error.inj failed))
  | ok value => exact .inr ⟨value, rfl, failed⟩

theorem mapM_ok_iff {step : β → Except ε γ} {items : List β} {values : List γ} :
    items.mapM step = .ok values ↔
      List.Forall₂ (fun item value => step item = .ok value) items values := by
  induction items generalizing values with
  | nil => simp [pure, Except.pure, eq_comm]
  | cons item rest ih =>
    rw [List.mapM_cons]
    constructor
    · intro done
      obtain ⟨value, first, done⟩ := ok_of_bind done
      obtain ⟨others, mapped, done⟩ := ok_of_bind done
      obtain rfl := Except.ok.inj done
      exact .cons first (ih.mp mapped)
    · rintro (_ | ⟨first, mapped⟩)
      simp only [first, ih.mpr mapped]
      rfl

theorem error_of_mapM {step : β → Except ε γ} {items : List β} {fault : ε}
    (failed : items.mapM step = .error fault) : ∃ item ∈ items, step item = .error fault := by
  induction items with
  | nil => cases failed
  | cons item rest ih =>
    rw [List.mapM_cons] at failed
    rcases error_of_bind failed with first | ⟨value, -, failed⟩
    · exact ⟨item, List.mem_cons_self, first⟩
    · rcases error_of_bind failed with later | ⟨values, -, failed⟩
      · obtain ⟨other, member, reason⟩ := ih later
        exact ⟨other, List.mem_cons_of_mem _ member, reason⟩
      · cases failed

theorem error_of_foldlM {step : β → γ → Except ε β} {items : List γ} {start : β} {fault : ε}
    (failed : items.foldlM step start = .error fault) :
    ∃ item ∈ items, ∃ state, step state item = .error fault := by
  induction items generalizing start with
  | nil => cases failed
  | cons item rest ih =>
    rw [List.foldlM_cons] at failed
    rcases error_of_bind failed with first | ⟨state, -, failed⟩
    · exact ⟨item, List.mem_cons_self, start, first⟩
    · obtain ⟨other, member, reason⟩ := ih failed
      exact ⟨other, List.mem_cons_of_mem _ member, reason⟩

end Failing

variable {α : Type}

section Scalars

variable [Scalar α]

namespace Interval

def Clips (interval : Interval α) (value : α) : Prop :=
  ∃ number, interval.clip number = .ok value

theorem clip_result (interval : Interval α) (value : α) :
    OperandResult (interval.clip value) :=
  .ite (.error (by decide)) (.ok _)

theorem clipAll_result (intervals : List (Interval α)) (values : List α) :
    OperandResult (clipAll intervals values) := by
  fun_induction clipAll intervals values with
  | case1 interval intervals value values ih =>
    exact (interval.clip_result value).bind fun clipped => ih.bind fun rest => .ok _
  | case2 intervals values => exact .ok values

theorem clips_of_clipAll {intervals : List (Interval α)} {values clipped : List α}
    (done : clipAll intervals values = .ok clipped) (fits : values.length = intervals.length) :
    List.Forall₂ Clips intervals clipped := by
  induction intervals generalizing values clipped with
  | nil =>
    obtain rfl := List.eq_nil_of_length_eq_zero fits
    obtain rfl := Except.ok.inj done
    exact .nil
  | cons interval intervals ih =>
    cases values with
    | nil => cases fits
    | cons value values =>
      obtain ⟨first, clipped, done⟩ := ok_of_bind done
      obtain ⟨rest, more, done⟩ := ok_of_bind done
      obtain rfl := Except.ok.inj done
      exact .cons ⟨value, clipped⟩ (ih more (Nat.succ.inj fits))

end Interval

theorem clipToRange_result (range : Option (List (Interval α))) (values : List α) :
    OperandResult (clipToRange range values) := by
  cases range with
  | some intervals => exact Interval.clipAll_result intervals values
  | none => exact .ite (.error (by decide)) (.ok _)

theorem length_clipToRange {range : Option (List (Interval α))} {values clipped : List α}
    (done : clipToRange range values = .ok clipped) : clipped.length = values.length := by
  cases range with
  | some intervals => exact Interval.length_clipAll done
  | none =>
    rw [clipToRange] at done
    split at done
    · cases done
    · rw [Except.ok.inj done]

namespace Grid

theorem fault_of_blend {table : Table α} {channel : Nat} {cells : List (Axis × Cell α)}
    {offset : Nat} {fault : Fault} (failed : blend table channel cells offset = .error fault) :
    fault = .badSampleData := by
  induction cells generalizing offset fault with
  | nil =>
    rw [blend, Table.sample] at failed
    split at failed
    · cases failed
    · exact (Except.error.inj failed).symm
  | cons first rest ih =>
    rw [blend] at failed
    obtain ⟨⟨weight, distance⟩, -, state, failed⟩ := error_of_foldlM failed
    dsimp only at failed
    split at failed
    · cases failed
    · split at failed
      · rcases error_of_bind failed with inner | ⟨value, -, failed⟩
        · exact ih inner
        · cases failed
      · exact (Except.error.inj failed).symm

end Grid

namespace Sampled

theorem cellsAt_result (order : Grid.Order) (point : List (SampledInput α × α)) :
    OperandResult (cellsAt order point) := by
  induction point with
  | nil => exact .ok []
  | cons first rest ih =>
    rw [cellsAt]
    refine .ite (.error (by decide)) ?_
    intro fault failed
    cases found : cellsAt order rest with
    | ok cells => rw [found] at failed; cases failed
    | error other =>
      rw [found] at failed
      cases failed
      exact ih fault found

/-- Each value of a sampled function is clipped to the range of its output. -/
theorem clips_of_valueAt {function : Sampled α} {point values : List α}
    (done : function.valueAt point = .ok values) :
    List.Forall₂ Interval.Clips (function.outputs.map (·.range)) values := by
  obtain ⟨clipped, -, done⟩ := ok_of_bind done
  obtain ⟨cells, -, done⟩ := ok_of_bind done
  obtain ⟨decoded, mapped, done⟩ := ok_of_bind done
  have counted := (mapM_ok_iff.mp mapped).length_eq
  rw [List.length_zipIdx] at counted
  exact Interval.clips_of_clipAll done (by rw [List.length_map, counted])

theorem fault_of_valueAt {function : Sampled α} {point : List α} {fault : Fault}
    (failed : function.valueAt point = .error fault) :
    fault = .badSampleData ∨ fault ∈ operandFaults := by
  rcases error_of_bind failed with clips | ⟨clipped, -, failed⟩
  · exact .inr (Interval.clipAll_result _ _ fault clips)
  rcases error_of_bind failed with located | ⟨cells, -, failed⟩
  · exact .inr (cellsAt_result _ _ fault located)
  rcases error_of_bind failed with decoded | ⟨values, -, failed⟩
  · obtain ⟨⟨output, channel⟩, -, decoded⟩ := error_of_mapM decoded
    rcases error_of_bind decoded with blended | ⟨value, -, decoded⟩
    · exact .inl (Grid.fault_of_blend blended)
    · cases decoded
  · exact .inr (Interval.clipAll_result _ _ fault failed)

end Sampled

end Scalars

namespace PdfFunction

inductive HasSampled : PdfFunction α → Prop
  | here (function : Sampled α) : HasSampled (.sampled function)
  | inside (parts : Stitching α) {pieces : List (PdfFunction α)} {piece : PdfFunction α}
      (member : piece ∈ pieces) (has : HasSampled piece) : HasSampled (.stitching parts pieces)

def evaluationFaults : List Fault :=
  [.undefinedResult, .stackUnderflow, .stackOverflow, .stackExcess, .typeCheck, .rangeCheck,
    .limitCheck]

/-- A value for each output, or a fault of the numbers, of a program or of samples. -/
def Answers (function : PdfFunction α) : Except Failure (List α) → Prop
  | .ok values => values.length = function.outputCount
  | .error failure => failure.fault ∈ evaluationFaults ∨
      failure.fault = .badSampleData ∧ function.HasSampled

theorem operandFaults_subset : .stackExcess :: operandFaults ⊆ evaluationFaults := by
  decide

theorem evaluation_of_operand {fault : Fault} (operand : fault ∈ operandFaults) :
    fault ∈ evaluationFaults :=
  operandFaults_subset (List.mem_cons_of_mem _ operand)

theorem answers_silently {function : PdfFunction α} {result : Except Fault (List α)}
    (fine : OperandResult result)
    (counted : ∀ values, result = .ok values → values.length = function.outputCount) :
    function.Answers (silently result) := by
  cases result with
  | ok values => exact counted values rfl
  | error fault => exact .inl (evaluation_of_operand (fine fault rfl))

end PdfFunction

variable [Elementary α]

namespace Exponential

theorem evaluate_result (function : Exponential α) (x : α) :
    OperandResult (function.evaluate x) := by
  refine (function.domain.clip_result x).bind fun clipped => ?_
  exact (clipToRange_result _ _).bind fun values => .ite (.ok _) (.error (by decide))

theorem clipToRange_of_evaluate {function : Exponential α} {x : α} {values : List α}
    (done : function.evaluate x = .ok values) :
    ∃ raw, raw.length = function.channels.length ∧
      clipToRange function.range raw = .ok values := by
  obtain ⟨clipped, -, done⟩ := ok_of_bind done
  obtain ⟨ranged, clips, done⟩ := ok_of_bind done
  split at done
  · obtain rfl := Except.ok.inj done
    exact ⟨_, by rw [List.length_map], clips⟩
  · cases done

end Exponential

namespace Calculator

/-- What is collected from the stack is clipped to the range, one number for each interval. -/
theorem Machine.clips_of_collect {stack : Stack α} {range : List (Interval α)}
    {values : List α} (done : collect stack range = .ok values) :
    List.Forall₂ Interval.Clips range values := by
  unfold collect at done
  split at done
  · cases done
  split at done
  · cases done
  · next enough few =>
    have paired : range = (stack.reverse.zip range).map Prod.snd := by
      rw [List.map_snd_zip]
      rw [List.length_reverse]
      omega
    rw [paired, List.forall₂_map_left_iff]
    refine (mapM_ok_iff.mp done).imp ?_
    rintro ⟨operand, interval⟩ value clips
    obtain ⟨number, -, clips⟩ := ok_of_bind clips
    exact ⟨number, clips⟩

theorem Program.clips_of_execute {program : Program} {input values : List α}
    {range : List (Interval α)} (done : program.execute input range = .ok values) :
    List.Forall₂ Interval.Clips range values := by
  unfold execute at done
  split at done
  · cases done
  · split at done
    · cases done
    · dsimp only at done
      split at done
      · next collected =>
        obtain rfl := Except.ok.inj done
        split at collected
        · cases collected
        · exact Machine.clips_of_collect collected
      · cases done

end Calculator

namespace PdfFunction

theorem pieceAt_eq (pieces : List (PdfFunction α)) (index : Nat) (input : List α)
    (inside : index < pieces.length) :
    pieceAt pieces index input = valueAt pieces[index] input := by
  induction pieces generalizing index with
  | nil => cases inside
  | cons piece rest ih =>
    cases index with
    | zero => rfl
    | succ index => exact ih index (Nat.lt_of_succ_lt_succ inside)

/-- A stitching function evaluates one of its pieces at one number, and clips the values. -/
theorem valueAt_stitching (parts : Stitching α) (pieces : List (PdfFunction α))
    (joins : parts.Joins pieces.length) (x : α) :
    ∃ piece ∈ pieces, ∃ y, valueAt (.stitching parts pieces) [x] =
      match valueAt piece [y] with
      | .ok values => silently (clipToRange parts.range values)
      | .error failure => .error failure := by
  have inside := parts.locate_lt joins x
  refine ⟨pieces[(parts.locate x).1], List.getElem_mem inside,
    parts.encodeAt (parts.locate x).1 (parts.locate x).2, ?_⟩
  rw [← pieceAt_eq pieces _ _ inside]
  rfl

theorem Shaped.answers {function : PdfFunction α} (shaped : function.Shaped) (input : List α)
    (fits : input.length = function.inputCount) : function.Answers (valueAt function input) := by
  induction shaped generalizing input with
  | sampled function =>
    rw [inputCount, domain, List.length_map] at fits
    rw [valueAt, if_neg (not_not_intro fits)]
    cases result : function.valueAt input with
    | ok values =>
      have counted := (Sampled.clips_of_valueAt result).length_eq
      rw [List.length_map] at counted
      exact counted.symm
    | error fault =>
      rcases Sampled.fault_of_valueAt result with bad | operand
      · exact .inr ⟨bad, .here function⟩
      · exact .inl (evaluation_of_operand operand)
  | exponential function ranged =>
    obtain ⟨x, rfl⟩ := List.length_eq_one_iff.mp fits
    refine answers_silently (function.evaluate_result x) fun values done => ?_
    obtain ⟨raw, counted, clips⟩ := Exponential.clipToRange_of_evaluate done
    exact (length_clipToRange clips).trans counted
  | stitching parts pieces shaped joins single uniform ih =>
    obtain ⟨x, rfl⟩ := List.length_eq_one_iff.mp fits
    obtain ⟨piece, member, y, same⟩ := valueAt_stitching parts pieces joins x
    have inner := ih piece member [y] (single piece member).symm
    rw [same]
    cases result : valueAt piece [y] with
    | ok values =>
      rw [result] at inner
      refine answers_silently (clipToRange_result _ _) fun clipped done => ?_
      rw [length_clipToRange done]
      exact inner.trans (uniform piece member)
    | error failure =>
      rw [result] at inner
      exact inner.imp_right (And.imp_right (.inside parts member))
  | calculation function wellFormed =>
    rw [inputCount, domain] at fits
    rw [valueAt, if_neg (not_not_intro fits), Calculation.evaluate]
    cases clips : Interval.clipAll function.domain input with
    | error fault => exact .inl (evaluation_of_operand (Interval.clipAll_result _ _ fault clips))
    | ok clipped =>
      change Answers _ (function.program.execute clipped function.range)
      cases result : function.program.execute clipped function.range with
      | ok values => exact (Calculator.Program.clips_of_execute result).length_eq.symm
      | error failure =>
        exact .inl (operandFaults_subset (wellFormed.fault_of_execute _ _ failure result))

theorem valueAt_mismatch {function : PdfFunction α} (input : List α)
    (unfit : input.length ≠ function.inputCount) : function.valueAt input = mismatch := by
  cases function with
  | sampled function =>
    rw [inputCount, domain, List.length_map] at unfit
    rw [valueAt, if_pos unfit]
  | exponential function | stitching parts pieces =>
    rcases input with _ | ⟨x, _ | ⟨y, more⟩⟩
    case cons.nil => exact absurd rfl unfit
    all_goals rfl
  | calculation function =>
    rw [inputCount, domain] at unfit
    rw [valueAt, if_pos unfit]

/-- Evaluating an accepted function looks up no index that is outside. If there are as many
numbers as inputs, it gives a value for each output, or a fault that is not one of the
construction. -/
theorem evaluate_outcome {function : PdfFunction α} (accepted : function.Accepted)
    (input : List α) (scratch : Scratch α) :
    function.evaluateIndexed input scratch = some (function.evaluateWith input scratch) ∧
      (∀ range ∈ function.range, range.length = function.outputCount) ∧
      (input.length ≠ function.inputCount →
        (function.evaluateWith input scratch).1 =
          .error (Failure.silent (.parameter .dimensionMismatch))) ∧
      (input.length = function.inputCount →
        function.Answers (function.evaluateWith input scratch).1) := by
  have shaped := accepted.built.shaped
  rw [evaluateWith_eq_valueAt]
  exact ⟨shaped.evaluateIndexed_eq input scratch, shaped.length_range, valueAt_mismatch input,
    shaped.answers input⟩

section Mixed

def ramp : FunctionDictionary Float :=
  ⟨0, [0, 1], some [0, 4], [2], 8, none, none, none, none, none, 0, [], [], [0, 255]⟩

def difference : FunctionDictionary Float :=
  ⟨4, [-1, 1], some [-9, 9], [], 0, none, none, none, none, none, 0, [], [],
    Text.ascii "\x7b dup 0 gt \x7b 2 \x7d if sub \x7d"⟩

def mixed : FunctionDictionary Float :=
  ⟨3, [0, 2], some [0, 1], [], 0, none, some [0, 1, -1, 1], none, none, none, 0,
    [ramp, difference], [1], []⟩

theorem mixed_evaluate_outcome : ∃ function, mixed.build = .ok function ∧
    function.Accepted ∧ function.inputCount = 1 ∧
    function.evaluateIndexed [1] Scratch.empty =
      some (function.evaluateWith [1] Scratch.empty) ∧
    (function.evaluateWith [1, 1] Scratch.empty).1 =
      .error (Failure.silent (.parameter .dimensionMismatch)) ∧
    function.Answers (function.evaluateWith [1] Scratch.empty).1 := by
  have counts : mixed.build.map inputCount = .ok 1 := by decide +kernel
  obtain ⟨function, made, count⟩ := ok_of_map counts
  have accepted : function.Accepted := .inr ⟨mixed, made⟩
  have outcome := evaluate_outcome accepted [1] Scratch.empty
  have mismatched := (evaluate_outcome accepted [1, 1] Scratch.empty).2.2.1
  exact ⟨function, made, accepted, count, outcome.1, mismatched (by simp [count]),
    outcome.2.2.2 count.symm⟩

end Mixed

end PdfFunction

end PdfPrimitives
