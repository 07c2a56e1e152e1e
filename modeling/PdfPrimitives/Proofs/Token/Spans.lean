import PdfPrimitives.Proofs.Token.Independence
import PdfPrimitives.Proofs.Token.Reading

/-!
Where tokens stand in a text. Their places do not overlap. Each of them read alone is its
token, and what stands between them is read as nothing.
-/

namespace PdfPrimitives

namespace Lexical

/-- The text of a token is read as that token, and what is skipped in front of it as nothing. -/
theorem lex_alone (flags : ReadFlags) (bytes rest behind : List UInt8) (byte : UInt8)
    (found : Token) (starts : skip flags.comments bytes = byte :: rest)
    (given : token flags.plainNames byte rest = .ok (found, behind)) :
    ∃ gap text, bytes = gap ++ byte :: rest ∧ rest = text ++ behind ∧
      lex flags gap = ([], none) ∧ lex flags (byte :: text) = ([found], none) := by
  obtain ⟨gap, rfl, nothing⟩ := skip_gap flags.comments bytes rest byte starts
  obtain ⟨text, rfl, alone⟩ := token_cuts flags.plainNames byte rest found behind given
  have kept := Reader.skip_again starts text
  refine ⟨gap, text, rfl, rfl, lex_of_end flags gap nothing, ?_⟩
  rw [lex_of_token flags _ _ _ _ _ kept alone, lex_of_end flags [] (by rw [skip])]

end Lexical

structure Span where
  token : Token
  start : Nat
  stop : Nat
  deriving Repr, DecidableEq

namespace Reader

def spans (flags : ReadFlags) (reader : Reader) : List Span × Option TokenFault :=
  match _ : read flags reader with
  | (.error fault, _) => ([], some fault)
  | (.ok none, _) => ([], none)
  | (.ok (some token), next) =>
    let (later, fault) := spans flags next
    (⟨token, next.tokenStart, next.source.offset⟩ :: later, fault)
termination_by reader.size
decreasing_by exact size_read_lt ‹_›

/-- The places between spans, from one place up to another. There is no last one if it is
not known where they go up to. -/
def gaps (start : Nat) (stop : Option Nat) : List Span → List (Nat × Nat)
  | [] => stop.toList.map (start, ·)
  | span :: later => (start, span.start) :: gaps span.stop stop later

def ReadsAlone (flags : ReadFlags) (text : List UInt8) (tokens : List Token) : Prop :=
  ((ofBytes text).tokens flags).tokens = tokens ∧ ((ofBytes text).tokens flags).fault = none

/-- The spans divide a text, from one place on, into tokens and what is skipped. -/
structure Divides (flags : ReadFlags) (text : List UInt8) (place : Nat)
    (result : List Span × Option TokenFault) : Prop where
  nonempty : ∀ span ∈ result.1, span.start < span.stop
  inside : ∀ span ∈ result.1, place ≤ span.start ∧ span.stop ≤ text.length
  ordered : result.1.Pairwise fun span later => span.stop ≤ later.start
  tokens : ∀ span ∈ result.1,
    ReadsAlone flags (text.extract span.start span.stop) [span.token]
  between : ∀ gap ∈ gaps place (if result.2 = none then some text.length else none) result.1,
    ReadsAlone flags (text.extract gap.1 gap.2) []

variable {flags : ReadFlags}

theorem spans_of_end (reader : Reader) (ended : (read flags reader).1 = .ok none) :
    spans flags reader = ([], none) := by
  rw [spans]
  split <;> rename_i result <;> rw [result] at ended <;> cases ended

theorem spans_of_fault (reader : Reader) (fault : TokenFault)
    (failed : (read flags reader).1 = .error fault) :
    spans flags reader = ([], some fault) := by
  rw [spans]
  split <;> rename_i result <;> rw [result] at failed <;> cases failed
  rfl

theorem spans_of_token (reader : Reader) (token : Token)
    (given : (read flags reader).1 = .ok (some token)) :
    let next := (read flags reader).2
    spans flags reader =
      (⟨token, next.tokenStart, next.source.offset⟩ :: (spans flags next).1,
        (spans flags next).2) := by
  rw [spans]
  split <;> rename_i result <;> rw [result] at given <;> cases given
  rw [result]

theorem collect_eq_spans (found : Array Token) (reader : Reader) :
    (collect flags found reader).tokens =
        found.toList ++ (spans flags reader).1.map Span.token ∧
      (collect flags found reader).fault = (spans flags reader).2 := by
  fun_induction spans flags reader generalizing found with
  | case1 reader fault next result =>
    simpa using collect_of_fault found reader fault (congrArg Prod.fst result)
  | case2 reader next result =>
    simpa using collect_of_end found reader (congrArg Prod.fst result)
  | case3 reader token next result later fault more ih =>
    rw [collect_of_token found reader token (congrArg Prod.fst result), result]
    simpa [more] using ih (found.push token)

section Parts

variable {whole front gap text behind rest : List UInt8}

theorem extract_part (divided : whole = front ++ text ++ behind) :
    whole.extract front.length (front ++ text).length = text := by
  simp [divided, List.extract_eq_take_drop]

theorem Divides.nothing (divided : whole = front ++ rest) (alone : ReadsAlone flags rest []) :
    Divides flags whole front.length ([], none) where
  nonempty := nofun
  inside := nofun
  ordered := .nil
  tokens := nofun
  between := by
    intro place member
    obtain rfl := List.mem_singleton.mp member
    have last : whole.extract front.length whole.length = rest := by
      rw [divided]
      exact extract_part (List.append_nil _).symm
    rwa [last]

theorem Divides.fault (fault : TokenFault) (place : Nat) :
    Divides flags whole place ([], some fault) where
  nonempty := nofun
  inside := nofun
  ordered := .nil
  tokens := nofun
  between := nofun

theorem Divides.cons {token : Token} {later : List Span} {fault : Option TokenFault}
    (divided : whole = front ++ gap ++ text ++ behind) (nonempty : text ≠ [])
    (skipped : ReadsAlone flags gap []) (alone : ReadsAlone flags text [token])
    (divides : Divides flags whole (front ++ gap ++ text).length (later, fault)) :
    Divides flags whole front.length
      (⟨token, (front ++ gap).length, (front ++ gap ++ text).length⟩ :: later, fault) where
  nonempty := by
    have longer := List.length_pos_iff.mpr nonempty
    refine List.forall_mem_cons.mpr ⟨?_, divides.nonempty⟩
    simp only [List.length_append]
    omega
  inside := by
    have inFront : front.length ≤ (front ++ gap).length := by simp
    have inWhole : (front ++ gap ++ text).length ≤ whole.length := by simp [divided]
    refine List.forall_mem_cons.mpr ⟨⟨inFront, inWhole⟩, ?_⟩
    intro span member
    have inside := divides.inside span member
    simp only [List.length_append] at inside ⊢
    omega
  ordered := .cons (fun span member => (divides.inside span member).1) divides.ordered
  tokens := by
    refine List.forall_mem_cons.mpr ⟨?_, divides.tokens⟩
    rwa [extract_part divided]
  between := by
    refine List.forall_mem_cons.mpr ⟨?_, divides.between⟩
    have split : whole = front ++ gap ++ (text ++ behind) := by simpa using divided
    rwa [extract_part split]

end Parts

theorem readsAlone_of_lex (all : flags.toLineFeed = false) {text : List UInt8}
    {tokens : List Token} (lexed : Lexical.lex flags text = (tokens, none)) :
    ReadsAlone flags text tokens := by
  obtain ⟨given, fault⟩ := collect_eq_lex all 0 0 0 text #[]
  rw [lexed] at given fault
  exact ⟨given, fault⟩

/-- A read that gives a token passes over what is skipped and takes the text of the token. -/
theorem read_extent (all : flags.toLineFeed = false) (offset begun last : Nat)
    (bytes rest behind : List UInt8) (byte : UInt8) (token : Token)
    (starts : Lexical.skip flags.comments bytes = byte :: rest)
    (given : Lexical.token flags.plainNames byte rest = .ok (token, behind)) :
    let result := read flags ⟨.holding bytes offset, .idle, begun, last⟩
    ∃ gap text, bytes = gap ++ text ++ behind ∧ text ≠ [] ∧
      Lexical.lex flags gap = ([], none) ∧ Lexical.lex flags text = ([token], none) ∧
      result.1 = .ok (some token) ∧ result.2.tokenStart = offset + gap.length ∧
      result.2.source = .holding behind (offset + (gap ++ text).length) ∧
      (result.2.mode = .idle ∨ result.2.mode = .ended ∧ behind = []) := by
  intro result
  obtain ⟨gap, text, divided, rfl, skipped, alone⟩ :=
    Lexical.lex_alone flags bytes rest behind byte token starts given
  have delivered := read_between all offset begun last bytes (text ++ behind) byte starts
  rw [given] at delivered
  have parts : bytes = gap ++ byte :: text ++ behind := by simpa using divided
  have start : result.2.tokenStart = offset + gap.length := by
    rw [delivered.start, divided, List.length_append, List.length_cons, Nat.add_sub_cancel_right]
  have source : result.2.source = .holding behind (offset + (gap ++ byte :: text).length) := by
    obtain ⟨taken, left, whole, source⟩ := (read_leaves flags last bytes offset begun .idle).source
    have ahead := delivered.ahead
    rw [source] at ahead ⊢
    obtain rfl : left = behind := List.map_injective_iff.mpr (fun _ _ => Sight.byte.inj) ahead
    rw [parts, List.append_cancel_right_eq] at whole
    rw [whole]
  exact ⟨gap, byte :: text, parts, List.cons_ne_nil _ _, skipped, alone, delivered.answer,
    start, source, delivered.rest⟩

/-- At the end of the source it does not show whether a reader has seen the end. -/
theorem spans_rested (all : flags.toLineFeed = false) {reader : Reader} {behind : List UInt8}
    {offset : Nat} (source : reader.source = .holding behind offset)
    (rests : reader.mode = .idle ∨ reader.mode = .ended ∧ behind = []) :
    spans flags reader =
      spans flags ⟨.holding behind offset, .idle, reader.start, reader.tokenStart⟩ := by
  obtain ⟨_, mode, begun, last⟩ := reader
  obtain rfl : _ = Source.holding behind offset := source
  rcases rests with idle | ⟨ended, rfl⟩
  · obtain rfl : mode = .idle := idle
    rfl
  · obtain rfl : mode = .ended := ended
    rw [spans_of_end _ (congrArg Prod.fst (read_ended flags _ rfl)),
      spans_of_end _ (read_between_end all offset begun last [] (by rw [Lexical.skip]))]

theorem spans_divide (all : flags.toLineFeed = false) (whole front rest : List UInt8)
    (divided : whole = front ++ rest) (begun last : Nat) :
    Divides flags whole front.length
      (spans flags ⟨.holding rest front.length, .idle, begun, last⟩) := by
  induction rest using Lexical.lex.induct flags generalizing front begun last with
  | case1 rest ended =>
    rw [spans_of_end _ (read_between_end all _ _ _ rest ended)]
    exact .nothing divided (readsAlone_of_lex all (Lexical.lex_of_end flags rest ended))
  | case2 rest byte tail starts fault wrong =>
    have agreed := read_between all front.length begun last rest tail byte starts
    rw [wrong] at agreed
    rw [spans_of_fault _ fault agreed]
    exact .fault fault _
  | case3 rest byte tail starts token behind given _ _ _ ih =>
    obtain ⟨gap, text, parts, nonempty, skipped, alone, answer, start, source, rests⟩ :=
      read_extent all front.length begun last rest tail behind byte token starts given
    have split : whole = front ++ gap ++ text ++ behind := by
      rw [divided, parts]
      simp
    have place : front.length + (gap ++ text).length = (front ++ gap ++ text).length := by simp
    rw [spans_of_token _ token answer, start, source, spans_rested all source rests, place,
      ← List.length_append]
    exact .cons split nonempty (readsAlone_of_lex all skipped) (readsAlone_of_lex all alone)
      (ih _ split _ _)

/-- The tokens of a text divide it, together with what is skipped between them, for all
flags that do not end reading at a line feed. They are the tokens that reading the text gives. -/
theorem spans_divide_text (plainNames comments : Bool) (bytes : List UInt8) :
    let flags : ReadFlags := ⟨plainNames, comments, false⟩
    let result := (ofBytes bytes).spans flags
    Divides flags bytes 0 result ∧
      result.1.map Span.token = ((ofBytes bytes).tokens flags).tokens ∧
      result.2 = ((ofBytes bytes).tokens flags).fault := by
  intro flags result
  obtain ⟨tokens, fault⟩ := @collect_eq_spans flags #[] (ofBytes bytes)
  exact ⟨spans_divide rfl bytes [] bytes rfl 0 0, tokens.symm, fault.symm⟩

example : (ofBytes (Text.ascii " <<%x\n1]")).spans .none =
    ([⟨.delimiter .dictionaryStart, 1, 3⟩, ⟨.integer 1, 6, 7⟩, ⟨.delimiter .arrayEnd, 7, 8⟩],
      none) := by
  decide +kernel

end Reader

end PdfPrimitives
