import PdfPrimitives.Proofs.Token.Spans

/-!
Texts with a line feed between them. What is read in front of the line feed is what is read
of the first text alone, and what is read behind it is what is read of the second one, with
its places counted from there.
-/

namespace PdfPrimitives

def Span.shift (distance : ℕ) (span : Span) : Span :=
  { span with start := span.start + distance, stop := span.stop + distance }

namespace Mode

variable {flags : ReadFlags}

/-- What a mode amounts to at the end of a text, it amounts to in front of a line feed. -/
theorem step_lineFeed (all : flags.toLineFeed = false) {mode : Mode} {amount : Option Token}
    (running : mode.isEnded = false) (amounts : mode.finish flags = .ok amount) :
    mode.step flags Byte.lineFeed =
      if mode.isIdle then .take .idle else .release amount := by
  have boundary := Reader.role_boundary all Byte.lineFeed rfl
  have released : mode.release flags = .release amount := by rw [release, amounts]
  cases mode with
  | idle =>
    have blank : Byte.isBlank Byte.lineFeed = true := rfl
    simp [step, idleStep, blank, all, isIdle]
  | comment body dropped => exact released
  | word bytes =>
    rw [step, boundary]
    exact released
  | name bytes escape =>
    rw [step, boundary]
    exact released
  | delimiter kind =>
    rw [step, boundary]
    exact released
  | string | hex | closing => cases amounts
  | ended => cases running

end Mode

namespace Reader

variable {flags : ReadFlags} {behind : List UInt8} {stop : ℕ}

/-- Two readers in front of the same token, where a line feed and another text follow what the
first has ahead, up to `stop`. The first may have seen the end of its text. -/
structure Continued (behind : List UInt8) (stop : ℕ) (first second : Reader) : Prop where
  source : ∃ bytes offset, offset + bytes.length = stop ∧ first.source = .holding bytes offset ∧
    second.source = .holding (bytes ++ Byte.lineFeed :: behind) offset
  rests : first.mode = .idle ∨ first.mode = .ended ∧ first.source.ahead = []
  idle : second.mode = .idle
  start : second.start = first.start
  tokenStart : second.tokenStart = first.tokenStart

structure Continues (flags : ReadFlags) (behind : List UInt8) (stop : ℕ)
    (first second : Except TokenFault (Option Token) × Reader) : Prop where
  token : ∀ token, first.1 = .ok (some token) →
    second.1 = .ok (some token) ∧ Continued behind stop first.2 second.2
  nothing : first.1 = .ok none →
    ∃ begun last, second = read flags ⟨.holding behind (stop + 1), .idle, begun, last⟩

namespace Continues

variable {first second : Except TokenFault (Option Token) × Reader}

theorem of_fault {fault : TokenFault} (failed : first.1 = .error fault) :
    Continues flags behind stop first second where
  token := by
    intro token given
    rw [failed] at given
    cases given
  nothing := by
    intro nothing
    rw [failed] at nothing
    cases nothing

theorem of_nothing (begun last : ℕ) (nothing : first.1 = .ok none)
    (same : second = read flags ⟨.holding behind (stop + 1), .idle, begun, last⟩) :
    Continues flags behind stop first second where
  token := by
    intro token given
    rw [nothing] at given
    cases given
  nothing := fun _ => ⟨begun, last, same⟩

theorem of_token {token : Token} (given : first.1 = .ok (some token))
    (same : second.1 = .ok (some token))
    (continued : Continued behind stop first.2 second.2) :
    Continues flags behind stop first second where
  token := by
    intro other found
    rw [given] at found
    obtain rfl := Option.some.inj (Except.ok.inj found)
    exact ⟨same, continued⟩
  nothing := by
    intro nothing
    rw [given] at nothing
    cases nothing

end Continues

theorem read_lineFeed (all : flags.toLineFeed = false) (offset begun last : ℕ) :
    read flags ⟨.holding (Byte.lineFeed :: behind) offset, .idle, begun, last⟩ =
      read flags ⟨.holding behind (offset + 1), .idle, offset, last⟩ :=
  read_idle _ _ _ _ (Mode.step_lineFeed all rfl rfl)

theorem finish_continues (all : flags.toLineFeed = false) {mode : Mode}
    (running : mode.isEnded = false) (offset begun last : ℕ) :
    Continues flags behind offset (finish flags ⟨.holding [] offset, mode, begun, last⟩)
      (read flags ⟨.holding (Byte.lineFeed :: behind) offset, mode, begun, last⟩) := by
  unfold finish
  cases amounts : mode.finish flags with
  | error fault => exact .of_fault rfl
  | ok amount =>
    have fed := Mode.step_lineFeed all running amounts
    cases idle : mode.isIdle with
    | true =>
      obtain rfl : mode = .idle := by cases mode <;> trivial
      obtain rfl : none = amount := Except.ok.inj amounts
      exact .of_nothing _ _ rfl (read_lineFeed all offset begun last)
    | false =>
      rw [idle, if_neg Bool.false_ne_true] at fed
      cases amount with
      | none =>
        rw [read_drop _ _ _ _ idle fed, read_lineFeed all]
        exact .of_nothing _ _ rfl rfl
      | some token =>
        rw [read_release _ _ _ _ idle fed]
        exact .of_token rfl rfl ⟨⟨[], offset, rfl, rfl, rfl⟩, .inr ⟨rfl, rfl⟩, rfl, rfl, rfl⟩

theorem read_continues (all : flags.toLineFeed = false) (last : ℕ) (bytes : List UInt8)
    (offset begun : ℕ) (mode : Mode) (running : mode.isEnded = false) :
    Continues flags behind (offset + bytes.length)
      (read flags ⟨.holding bytes offset, mode, begun, last⟩)
      (read flags ⟨.holding (bytes ++ Byte.lineFeed :: behind) offset, mode, begun, last⟩) := by
  -- Both readers see the same bytes up to the end of the first text.
  induction bytes, offset, begun, mode using read_induction flags with
  | ended bytes offset begun => cases running
  | nothing offset begun mode running =>
    rw [read_nil _ _ _ _ mode running]
    exact finish_continues all running offset begun last
  | take byte bytes offset begun mode next running stepped ih =>
    rw [List.cons_append, read_cons _ _ _ _ _ _ mode running, read_cons _ _ _ _ _ _ mode running,
      stepped, List.length_cons, ← Nat.succ_add_eq_add_succ]
    refine ih ?_
    cases next with
    | ended => exact absurd rfl (Mode.goesOn_of_step all running stepped).1
    | _ => rfl
  | drop byte bytes offset begun mode running stepped ih =>
    rw [List.cons_append, read_cons _ _ _ _ _ _ mode running, read_cons _ _ _ _ _ _ mode running,
      stepped]
    exact ih rfl
  | stops byte bytes offset begun mode running ends =>
    rw [List.cons_append, read_cons _ _ _ _ _ _ mode running, read_cons _ _ _ _ _ _ mode running]
    have goesOn := Mode.goesOn_of_step all running (Eq.refl (mode.step flags byte))
    cases stepped : mode.step flags byte with
    | take next =>
      rw [stepped] at ends
      cases ends
    | complete token =>
      refine .of_token rfl rfl ⟨⟨bytes, offset + 1, ?_, rfl, rfl⟩, .inl rfl, rfl, rfl, rfl⟩
      exact Nat.succ_add_eq_add_succ ..
    | release token =>
      cases token with
      | none =>
        rw [stepped] at ends
        cases ends
      | some token =>
        exact .of_token rfl rfl
          ⟨⟨byte :: bytes, offset, rfl, rfl, rfl⟩, .inl rfl, rfl, rfl, rfl⟩
    | refuse fault left => exact .of_fault rfl
    | stay =>
      rw [stepped] at goesOn
      cases goesOn

theorem read_continued (all : flags.toLineFeed = false) {first second : Reader}
    (continued : Continued behind stop first second) :
    Continues flags behind stop (read flags first) (read flags second) := by
  obtain ⟨source, mode, begun, last⟩ := first
  obtain ⟨other, same, begun', last'⟩ := second
  obtain ⟨⟨bytes, offset, rfl, rfl, rfl⟩, rests, rfl, rfl, rfl⟩ := continued
  rcases rests with idle | ⟨ended, nothing⟩
  · obtain rfl : mode = .idle := idle
    exact read_continues all last' bytes offset begun' .idle rfl
  · obtain rfl : mode = .ended := ended
    obtain rfl : bytes = [] := List.map_eq_nil_iff.mp nothing
    rw [read_ended flags _ rfl]
    exact .of_nothing _ _ rfl (read_lineFeed all offset begun' last')

theorem spans_trails {distance : ℕ} {first second : Reader}
    (trails : Trails distance first second) :
    spans flags second =
      ((spans flags first).1.map (Span.shift distance), (spans flags first).2) := by
  fun_induction spans flags first generalizing second with
  | case1 first fault next result =>
    have agree := read_trails flags trails
    rw [result] at agree
    exact spans_of_fault second fault agree.answer
  | case2 first next result =>
    have agree := read_trails flags trails
    rw [result] at agree
    exact spans_of_end second agree.answer
  | case3 first token next result later fault more ih =>
    have agree := read_trails flags trails
    rw [result] at agree
    obtain ⟨bytes, offset, here, there⟩ := agree.readers.source
    have shifted := ih agree.readers
    rw [more] at shifted
    rw [spans_of_token second token agree.answer, shifted, agree.tokenStart token rfl, here, there]
    rfl

/-- Where tokens stand in a text shows from `distance` bytes before it. -/
theorem spans_holding (bytes : List UInt8) (distance begun last : ℕ) :
    spans flags ⟨.holding bytes distance, .idle, begun, last⟩ =
      ((spans flags (ofBytes bytes)).1.map (Span.shift distance),
        (spans flags (ofBytes bytes)).2) :=
  spans_trails ⟨⟨bytes, 0, rfl, by rw [Nat.zero_add]⟩, rfl, fun busy => by cases busy⟩

theorem spans_congr {first second : Reader} (same : read flags first = read flags second) :
    spans flags first = spans flags second := by
  cases answer : (read flags first).1 with
  | error fault =>
    rw [spans_of_fault first fault answer, spans_of_fault second fault (same ▸ answer)]
  | ok given =>
    cases given with
    | none => rw [spans_of_end first answer, spans_of_end second (same ▸ answer)]
    | some token =>
      rw [spans_of_token first token answer, spans_of_token second token (same ▸ answer), same]

theorem spans_continued (all : flags.toLineFeed = false) {first second : Reader}
    (continued : Continued behind stop first second) (complete : (spans flags first).2 = none) :
    let joined := spans flags (ofBytes behind)
    spans flags second =
      ((spans flags first).1 ++ joined.1.map (Span.shift (stop + 1)), joined.2) := by
  intro joined
  fun_induction spans flags first generalizing second with
  | case1 first fault next result => cases complete
  | case2 first next result =>
    have continues := read_continued all continued
    rw [result] at continues
    obtain ⟨begun, last, same⟩ := continues.nothing rfl
    rw [spans_congr same]
    exact spans_holding behind (stop + 1) begun last
  | case3 first token next result later fault more ih =>
    have continues := read_continued all continued
    rw [result] at continues
    obtain ⟨answer, rest⟩ := continues.token token rfl
    obtain ⟨bytes, offset, -, here, there⟩ := rest.source
    rw [more] at ih
    rw [spans_of_token second token answer, ih rest complete, rest.tokenStart, here, there]
    rfl

/-- A text that is read without a fault, a line feed and another text: the tokens of the first
text, and then those of the second up to its end or fault, with their places counted from
behind the line feed. -/
theorem spans_joined (plainNames comments : Bool) (first second : List UInt8) :
    let flags : ReadFlags := ⟨plainNames, comments, false⟩
    ((ofBytes first).spans flags).2 = none →
      let joined := (ofBytes second).spans flags
      (ofBytes (first ++ Byte.lineFeed :: second)).spans flags =
        (((ofBytes first).spans flags).1 ++ joined.1.map (Span.shift (first.length + 1)),
          joined.2) := by
  intro flags complete
  have together : Continued second first.length (ofBytes first)
      (ofBytes (first ++ Byte.lineFeed :: second)) :=
    ⟨⟨first, 0, Nat.zero_add _, rfl, rfl⟩, .inl rfl, rfl, rfl, rfl⟩
  exact spans_continued rfl together complete

/-- An array that a comment cuts off, in front of a name and a string without an end. -/
theorem cutArray_spans_joined :
    let flags : ReadFlags := ⟨false, true, false⟩
    let first := Text.ascii "[1%x"
    let second := Text.ascii "/b]\r("
    ((ofBytes first).spans flags).2 = none ∧
      let joined := (ofBytes second).spans flags
      (ofBytes (first ++ Byte.lineFeed :: second)).spans flags =
        (((ofBytes first).spans flags).1 ++ joined.1.map (Span.shift (first.length + 1)),
          joined.2) := by
  intro flags first second
  have complete : ((ofBytes first).spans flags).2 = none := by decide +kernel
  exact ⟨complete, spans_joined false true first second complete⟩

end Reader

end PdfPrimitives
