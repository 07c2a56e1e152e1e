import PdfPrimitives.Proofs.Function.Outcome

/-!
Dictionaries and the constructors. A dictionary gives what the constructors make of its entries,
from the leaves to the root: the first step that fails decides, and entries that do not belong to
its kind of function are not looked at.
-/

namespace PdfPrimitives

section Failing

variable {ε β γ : Type}

/-- A map over a list fails at the first item at which it fails. -/
theorem mapM_error_iff {step : β → Except ε γ} {items : List β} {fault : ε} :
    items.mapM step = .error fault ↔ ∃ before item after values,
      items = before ++ item :: after ∧
        List.Forall₂ (fun item value => step item = .ok value) before values ∧
        step item = .error fault := by
  induction items with
  | nil => simp [pure, Except.pure]
  | cons item rest ih =>
    rw [List.mapM_cons]
    constructor
    · intro failed
      rcases error_of_bind failed with first | ⟨value, done, failed⟩
      · exact ⟨[], item, rest, [], rfl, .nil, first⟩
      rcases error_of_bind failed with later | ⟨values, -, failed⟩
      · obtain ⟨before, other, after, values, rfl, made, reason⟩ := ih.mp later
        exact ⟨item :: before, other, after, value :: values, rfl, .cons done made, reason⟩
      · cases failed
    · rintro ⟨before, other, after, values, divided, made, reason⟩
      cases made with
      | nil =>
        obtain ⟨rfl, rfl⟩ := List.cons.inj divided
        rw [reason]
        rfl
      | cons done made =>
        obtain ⟨rfl, rfl⟩ := List.cons.inj divided
        rw [done, ih.mpr ⟨_, other, after, _, rfl, made, reason⟩]
        rfl

end Failing

namespace FunctionDictionary

variable {α : Type}

def Pairs (values : List α) (intervals : List (Interval α)) : Prop :=
  values = intervals.flatMap fun interval => [interval.low, interval.high]

def Unpaired (values : List α) : Prop := values.length % 2 = 1

structure Framed (dictionary : FunctionDictionary α) (domain : List (Interval α))
    (range : Option (List (Interval α))) : Prop where
  domain : Pairs dictionary.domain domain
  range : Option.Rel Pairs dictionary.range range

/-- Dictionaries that differ only in entries that their kind of function does not have. -/
inductive Alike : FunctionDictionary α → FunctionDictionary α → Prop
  | sampled {dictionary : FunctionDictionary α} (kind : dictionary.functionType = 0)
      (start stop : Option (List α)) (exponent : α) (functions : List (FunctionDictionary α))
      (bounds : List α) :
      Alike dictionary { dictionary with start, stop, exponent, functions, bounds }
  | exponential {dictionary : FunctionDictionary α} (kind : dictionary.functionType = 2)
      (size : List Nat) (bitsPerSample : Nat) (order : Option Nat)
      (encode decode : Option (List α)) (functions : List (FunctionDictionary α))
      (bounds : List α) (stream : List UInt8) :
      Alike dictionary
        { dictionary with size, bitsPerSample, order, encode, decode, functions, bounds, stream }
  | stitching {dictionary : FunctionDictionary α} (kind : dictionary.functionType = 3)
      (size : List Nat) (bitsPerSample : Nat) (order : Option Nat)
      (decode start stop : Option (List α)) (exponent : α)
      {functions : List (FunctionDictionary α)}
      (alike : List.Forall₂ Alike dictionary.functions functions) (stream : List UInt8) :
      Alike dictionary
        { dictionary with size, bitsPerSample, order, decode, start, stop, exponent, functions,
                          stream }
  | program {dictionary : FunctionDictionary α} (kind : dictionary.functionType = 4)
      (size : List Nat) (bitsPerSample : Nat) (order : Option Nat)
      (encode decode start stop : Option (List α)) (exponent : α)
      (functions : List (FunctionDictionary α)) (bounds : List α) :
      Alike dictionary
        { dictionary with size, bitsPerSample, order, encode, decode, start, stop, exponent,
                          functions, bounds }
  | unknown {dictionary : FunctionDictionary α} (kind : dictionary.functionType ∉ [0, 2, 3, 4])
      (size : List Nat) (bitsPerSample : Nat) (order : Option Nat)
      (encode decode start stop : Option (List α)) (exponent : α)
      (functions : List (FunctionDictionary α)) (bounds : List α) (stream : List UInt8) :
      Alike dictionary
        { dictionary with size, bitsPerSample, order, encode, decode, start, stop, exponent,
                          functions, bounds, stream }

variable [Elementary α]

open PdfFunction (mismatch ofSampled ofExponential ofStitching ofProgram)

/-- What the constructors make of a dictionary, step by step: its domain and its range are paired,
then what else its kind of function needs, and then the function is constructed. Where a step fails
the ones before it do not. -/
inductive Makes : FunctionDictionary α → Except Failure (PdfFunction α) → Prop
  | unpairedDomain {dictionary : FunctionDictionary α} (unpaired : Unpaired dictionary.domain) :
      Makes dictionary mismatch
  | unpairedRange {dictionary : FunctionDictionary α} {domain : List (Interval α)}
      {values : List α} (paired : Pairs dictionary.domain domain)
      (range : dictionary.range = some values) (unpaired : Unpaired values) :
      Makes dictionary mismatch
  | unpairedEncode {dictionary : FunctionDictionary α} {domain : List (Interval α)}
      {range : Option (List (Interval α))} {values : List α}
      (framed : dictionary.Framed domain range) (kind : dictionary.functionType = 0)
      (encode : dictionary.encode = some values) (unpaired : Unpaired values) :
      Makes dictionary mismatch
  | unpairedDecode {dictionary : FunctionDictionary α} {domain : List (Interval α)}
      {range encode : Option (List (Interval α))} {values : List α}
      (framed : dictionary.Framed domain range) (kind : dictionary.functionType = 0)
      (encodes : Option.Rel Pairs dictionary.encode encode)
      (decode : dictionary.decode = some values) (unpaired : Unpaired values) :
      Makes dictionary mismatch
  | sampled {dictionary : FunctionDictionary α} {domain : List (Interval α)}
      {range encode decode : Option (List (Interval α))}
      (framed : dictionary.Framed domain range) (kind : dictionary.functionType = 0)
      (encodes : Option.Rel Pairs dictionary.encode encode)
      (decodes : Option.Rel Pairs dictionary.decode decode) :
      Makes dictionary (ofSampled
        { domain
          range := range.getD []
          size := dictionary.size
          bitsPerSample := dictionary.bitsPerSample
          order := dictionary.order.getD 1
          encode
          decode
          data := dictionary.stream })
  | exponential {dictionary : FunctionDictionary α} {domain : List (Interval α)}
      {range : Option (List (Interval α))}
      (framed : dictionary.Framed domain range) (kind : dictionary.functionType = 2) :
      Makes dictionary (ofExponential
        { domain
          range
          exponent := dictionary.exponent
          start := dictionary.start
          stop := dictionary.stop })
  | faultyChild {dictionary : FunctionDictionary α} {domain : List (Interval α)}
      {range : Option (List (Interval α))} {before after : List (FunctionDictionary α)}
      {child : FunctionDictionary α} {pieces : List (PdfFunction α)} {failure : Failure}
      (framed : dictionary.Framed domain range) (kind : dictionary.functionType = 3)
      (children : dictionary.functions = before ++ child :: after)
      (made : List.Forall₂ (fun child piece => Makes child (.ok piece)) before pieces)
      (failed : Makes child (.error failure)) :
      Makes dictionary (.error failure)
  | unpairedEncoding {dictionary : FunctionDictionary α} {domain : List (Interval α)}
      {range : Option (List (Interval α))} {pieces : List (PdfFunction α)}
      (framed : dictionary.Framed domain range) (kind : dictionary.functionType = 3)
      (made : List.Forall₂ (fun child piece => Makes child (.ok piece)) dictionary.functions pieces)
      (unpaired : Unpaired (dictionary.encode.getD [])) :
      Makes dictionary mismatch
  | stitching {dictionary : FunctionDictionary α} {domain encode : List (Interval α)}
      {range : Option (List (Interval α))} {pieces : List (PdfFunction α)}
      (framed : dictionary.Framed domain range) (kind : dictionary.functionType = 3)
      (made : List.Forall₂ (fun child piece => Makes child (.ok piece)) dictionary.functions pieces)
      (encodes : Pairs (dictionary.encode.getD []) encode) :
      Makes dictionary (ofStitching domain range pieces dictionary.bounds encode)
  | program {dictionary : FunctionDictionary α} {domain : List (Interval α)}
      {range : Option (List (Interval α))}
      (framed : dictionary.Framed domain range) (kind : dictionary.functionType = 4) :
      Makes dictionary (ofProgram domain (range.getD []) dictionary.stream)
  | unknown {dictionary : FunctionDictionary α} {domain : List (Interval α)}
      {range : Option (List (Interval α))}
      (framed : dictionary.Framed domain range)
      (kind : dictionary.functionType ∉ [0, 2, 3, 4]) :
      Makes dictionary (.error ⟨.parameter (.functionType dictionary.functionType),
        ["unknown function type " ++ toString dictionary.functionType]⟩)

section Pairing

omit [Elementary α]

theorem pairs_of_pairs {values : List α} {intervals : List (Interval α)}
    (paired : Pairs values intervals) : pairs values = .ok intervals := by
  subst paired
  induction intervals with
  | nil => rfl
  | cons interval intervals ih =>
    rw [List.flatMap_cons, List.cons_append, List.cons_append, List.nil_append, pairs, ih]
    rfl

theorem pairs_of_unpaired {values : List α} (unpaired : Unpaired values) :
    pairs values = .error (.parameter .dimensionMismatch) := by
  fun_induction pairs values with
  | case1 => cases unpaired
  | case2 value => rfl
  | case3 low high rest ih =>
    have others : Unpaired rest := by
      simp only [Unpaired, List.length_cons] at unpaired ⊢
      omega
    rw [ih others]
    rfl

theorem paired_or_unpaired (values : List α) :
    (∃ intervals, Pairs values intervals) ∨ Unpaired values := by
  fun_induction pairs values with
  | case1 => exact .inl ⟨[], rfl⟩
  | case2 value => exact .inr rfl
  | case3 low high rest ih =>
    refine ih.imp ?_ fun unpaired => ?_
    · rintro ⟨intervals, rfl⟩
      exact ⟨⟨low, high⟩ :: intervals, rfl⟩
    · simp only [Unpaired, List.length_cons] at unpaired ⊢
      omega

theorem optionalPairs_of_pairs {values : Option (List α)}
    {intervals : Option (List (Interval α))} (paired : Option.Rel Pairs values intervals) :
    optionalPairs values = .ok intervals := by
  cases paired with
  | none => rfl
  | some paired =>
    rw [optionalPairs, pairs_of_pairs paired]
    rfl

theorem optionalPairs_of_unpaired {values : List α} (unpaired : Unpaired values) :
    optionalPairs (some values) = .error (.parameter .dimensionMismatch) := by
  rw [optionalPairs, pairs_of_unpaired unpaired]
  rfl

theorem optional_paired_or_unpaired (values : Option (List α)) :
    (∃ intervals, Option.Rel Pairs values intervals) ∨
      ∃ list, values = some list ∧ Unpaired list := by
  cases values with
  | none => exact .inl ⟨none, .none⟩
  | some list =>
    refine (paired_or_unpaired list).imp ?_ fun unpaired => ⟨list, rfl, unpaired⟩
    rintro ⟨intervals, paired⟩
    exact ⟨some intervals, .some paired⟩

end Pairing

section Steps

variable {β γ : Type} {first : Except Fault β} {next : β → Except Failure γ}

theorem bind_lifted {value : β} (done : first = .ok value) :
    ((first : Except Failure β) >>= next) = next value := by
  rw [done]
  rfl

theorem bind_refused (failed : first = .error (.parameter .dimensionMismatch)) :
    ((first : Except Failure β) >>= next) = mismatch := by
  rw [failed]
  rfl

end Steps

def buildFramed (dictionary : FunctionDictionary α) (domain : List (Interval α))
    (range : Option (List (Interval α))) : Except Failure (PdfFunction α) :=
  if dictionary.functionType = 0 then do
    let encode ← (optionalPairs dictionary.encode : Except Fault _)
    let decode ← (optionalPairs dictionary.decode : Except Fault _)
    ofSampled ⟨domain, range.getD [], dictionary.size, dictionary.bitsPerSample,
      dictionary.order.getD 1, encode, decode, dictionary.stream⟩
  else if dictionary.functionType = 2 then
    ofExponential ⟨domain, range, dictionary.exponent, dictionary.start, dictionary.stop⟩
  else if dictionary.functionType = 3 then do
    let pieces ← dictionary.functions.mapM build
    let encode ← (pairs (dictionary.encode.getD []) : Except Fault _)
    ofStitching domain range pieces dictionary.bounds encode
  else if dictionary.functionType = 4 then
    ofProgram domain (range.getD []) dictionary.stream
  else
    .error ⟨.parameter (.functionType dictionary.functionType),
      ["unknown function type " ++ toString dictionary.functionType]⟩

theorem buildAll_eq_mapM (dictionaries : List (FunctionDictionary α)) :
    buildAll dictionaries = dictionaries.mapM build := by
  induction dictionaries with
  | nil => rfl
  | cons dictionary rest ih => rw [buildAll, List.mapM_cons, ih]

theorem build_eq (dictionary : FunctionDictionary α) : dictionary.build = (do
    let domain ← (pairs dictionary.domain : Except Fault _)
    let range ← (optionalPairs dictionary.range : Except Fault _)
    dictionary.buildFramed domain range) := by
  cases dictionary
  rw [build]
  simp only [buildFramed, buildAll_eq_mapM]

theorem Framed.build_eq {dictionary : FunctionDictionary α} {domain : List (Interval α)}
    {range : Option (List (Interval α))} (framed : dictionary.Framed domain range) :
    dictionary.build = dictionary.buildFramed domain range := by
  rw [FunctionDictionary.build_eq, bind_lifted (pairs_of_pairs framed.domain),
    bind_lifted (optionalPairs_of_pairs framed.range)]

section Trees

variable {motive : FunctionDictionary α → Prop}

omit [Elementary α]

mutual

/-- What holds of a dictionary if it holds of its children holds of every dictionary. -/
theorem tree_induction (step : ∀ dictionary : FunctionDictionary α,
    (∀ child ∈ dictionary.functions, motive child) → motive dictionary) :
    ∀ dictionary, motive dictionary
  | ⟨_, _, _, _, _, _, _, _, _, _, _, functions, _, _⟩ => step _ (children_induction step functions)

theorem children_induction (step : ∀ dictionary : FunctionDictionary α,
    (∀ child ∈ dictionary.functions, motive child) → motive dictionary) :
    ∀ (children : List (FunctionDictionary α)), ∀ child ∈ children, motive child
  | [], _, member => nomatch member
  | first :: rest, _, member =>
    List.forall_mem_cons.mpr ⟨tree_induction step first, children_induction step rest⟩ _ member

end

end Trees

section Node

variable {dictionary : FunctionDictionary α}

theorem forall₂_build {children : List (FunctionDictionary α)} {pieces : List (PdfFunction α)}
    (sound : ∀ child ∈ children, ∀ result, child.Makes result → child.build = result)
    (made : List.Forall₂ (fun child piece => Makes child (.ok piece)) children pieces) :
    List.Forall₂ (fun child piece => build child = .ok piece) children pieces := by
  induction made with
  | nil => exact .nil
  | cons first _ ih =>
    obtain ⟨head, tail⟩ := List.forall_mem_cons.mp sound
    exact .cons (head _ first) (ih tail)

theorem forall₂_makes {children : List (FunctionDictionary α)} {pieces : List (PdfFunction α)}
    (complete : ∀ child ∈ children, child.Makes child.build)
    (built : List.Forall₂ (fun child piece => build child = .ok piece) children pieces) :
    List.Forall₂ (fun child piece => Makes child (.ok piece)) children pieces := by
  induction built with
  | nil => exact .nil
  | cons first _ ih =>
    obtain ⟨head, tail⟩ := List.forall_mem_cons.mp complete
    exact .cons (first ▸ head) (ih tail)

/-- What the constructors make of a dictionary is what is built of it, if that is so for its
children. -/
theorem Makes.build_eq {result : Except Failure (PdfFunction α)} (makes : dictionary.Makes result)
    (sound : ∀ child ∈ dictionary.functions, ∀ result, child.Makes result →
      child.build = result) :
    dictionary.build = result := by
  cases makes with
  | unpairedDomain unpaired =>
    rw [FunctionDictionary.build_eq, bind_refused (pairs_of_unpaired unpaired)]
  | unpairedRange paired range unpaired =>
    rw [FunctionDictionary.build_eq, bind_lifted (pairs_of_pairs paired), range,
      bind_refused (optionalPairs_of_unpaired unpaired)]
  | unpairedEncode framed kind encode unpaired =>
    rw [framed.build_eq, buildFramed, if_pos kind, encode,
      bind_refused (optionalPairs_of_unpaired unpaired)]
  | unpairedDecode framed kind encodes decode unpaired =>
    rw [framed.build_eq, buildFramed, if_pos kind, bind_lifted (optionalPairs_of_pairs encodes),
      decode, bind_refused (optionalPairs_of_unpaired unpaired)]
  | sampled framed kind encodes decodes =>
    rw [framed.build_eq, buildFramed, if_pos kind, bind_lifted (optionalPairs_of_pairs encodes),
      bind_lifted (optionalPairs_of_pairs decodes)]
  | exponential framed kind =>
    rw [framed.build_eq, buildFramed, if_neg (by omega), if_pos kind]
  | faultyChild framed kind children made failed =>
    have first := forall₂_build (fun child member => sound child (by simp [children, member])) made
    have failure := sound _ (by simp [children]) _ failed
    rw [framed.build_eq, buildFramed, if_neg (by omega), if_neg (by omega), if_pos kind,
      mapM_error_iff.mpr ⟨_, _, _, _, children, first, failure⟩]
    rfl
  | unpairedEncoding framed kind made unpaired =>
    rw [framed.build_eq, buildFramed, if_neg (by omega), if_neg (by omega), if_pos kind,
      mapM_ok_iff.mpr (forall₂_build sound made)]
    exact bind_refused (pairs_of_unpaired unpaired)
  | stitching framed kind made encodes =>
    rw [framed.build_eq, buildFramed, if_neg (by omega), if_neg (by omega), if_pos kind,
      mapM_ok_iff.mpr (forall₂_build sound made)]
    exact bind_lifted (pairs_of_pairs encodes)
  | program framed kind =>
    rw [framed.build_eq, buildFramed, if_neg (by omega), if_neg (by omega), if_neg (by omega),
      if_pos kind]
  | unknown framed kind =>
    simp only [List.mem_cons, List.not_mem_nil, or_false, not_or] at kind
    rw [framed.build_eq, buildFramed, if_neg kind.1, if_neg kind.2.1, if_neg kind.2.2.1,
      if_neg kind.2.2.2]

/-- What is built of a dictionary within its frame is what the constructors make of it, if that
is so for its children. -/
theorem makes_framed {domain : List (Interval α)} {range : Option (List (Interval α))}
    (framed : dictionary.Framed domain range)
    (complete : ∀ child ∈ dictionary.functions, child.Makes child.build) :
    dictionary.Makes (dictionary.buildFramed domain range) := by
  unfold buildFramed
  split_ifs with sampled exponential stitching program
  · obtain ⟨encode, encodes⟩ | ⟨values, encode, unpaired⟩ :=
      optional_paired_or_unpaired dictionary.encode
    · rw [bind_lifted (optionalPairs_of_pairs encodes)]
      obtain ⟨decode, decodes⟩ | ⟨values, decode, unpaired⟩ :=
        optional_paired_or_unpaired dictionary.decode
      · rw [bind_lifted (optionalPairs_of_pairs decodes)]
        exact .sampled framed sampled encodes decodes
      · rw [decode, bind_refused (optionalPairs_of_unpaired unpaired)]
        exact .unpairedDecode framed sampled encodes decode unpaired
    · rw [encode, bind_refused (optionalPairs_of_unpaired unpaired)]
      exact .unpairedEncode framed sampled encode unpaired
  · exact .exponential framed exponential
  · cases gathered : dictionary.functions.mapM build with
    | error failure =>
      obtain ⟨before, child, after, pieces, children, built, failed⟩ := mapM_error_iff.mp gathered
      have made := forall₂_makes (fun child member => complete child (by simp [children, member]))
        built
      have fails := complete child (by simp [children])
      rw [failed] at fails
      exact .faultyChild framed stitching children made fails
    | ok pieces =>
      have made := forall₂_makes complete (mapM_ok_iff.mp gathered)
      change dictionary.Makes do
        let encode ← (pairs (dictionary.encode.getD []) : Except Fault _)
        ofStitching domain range pieces dictionary.bounds encode
      obtain ⟨encode, encodes⟩ | unpaired := paired_or_unpaired (dictionary.encode.getD [])
      · rw [bind_lifted (pairs_of_pairs encodes)]
        exact .stitching framed stitching made encodes
      · rw [bind_refused (pairs_of_unpaired unpaired)]
        exact .unpairedEncoding framed stitching made unpaired
  · exact .program framed program
  · exact .unknown framed (by simp [sampled, exponential, stitching, program])

theorem makes_build (complete : ∀ child ∈ dictionary.functions, child.Makes child.build) :
    dictionary.Makes dictionary.build := by
  obtain ⟨domain, paired⟩ | unpaired := paired_or_unpaired dictionary.domain
  · obtain ⟨range, ranged⟩ | ⟨values, range, unpaired⟩ :=
      optional_paired_or_unpaired dictionary.range
    · have framed : dictionary.Framed domain range := ⟨paired, ranged⟩
      rw [framed.build_eq]
      exact makes_framed framed complete
    · rw [build_eq, bind_lifted (pairs_of_pairs paired), range,
        bind_refused (optionalPairs_of_unpaired unpaired)]
      exact .unpairedRange paired range unpaired
  · rw [build_eq, bind_refused (pairs_of_unpaired unpaired)]
    exact .unpairedDomain unpaired

theorem mapM_build_congr {children others : List (FunctionDictionary α)}
    (alike : List.Forall₂ Alike children others)
    (agree : ∀ child ∈ children, ∀ other, Alike child other → other.build = child.build) :
    others.mapM build = children.mapM build := by
  induction alike with
  | nil => rfl
  | cons first _ ih =>
    obtain ⟨head, tail⟩ := List.forall_mem_cons.mp agree
    rw [List.mapM_cons, List.mapM_cons, head _ first, ih tail]

theorem Alike.build_eq {other : FunctionDictionary α} (alike : Alike dictionary other)
    (agree : ∀ child ∈ dictionary.functions, ∀ other, Alike child other →
      other.build = child.build) :
    other.build = dictionary.build := by
  rw [FunctionDictionary.build_eq, FunctionDictionary.build_eq]
  cases alike with
  | sampled kind => simp only [buildFramed, if_pos kind]
  | exponential kind =>
    have apart : dictionary.functionType ≠ 0 := by omega
    simp only [buildFramed, if_neg apart, if_pos kind]
  | stitching kind _ _ _ _ _ _ _ alike =>
    have apart : dictionary.functionType ≠ 0 ∧ dictionary.functionType ≠ 2 := by omega
    simp only [buildFramed, if_neg apart.1, if_neg apart.2, if_pos kind,
      mapM_build_congr alike agree]
  | program kind =>
    have apart : dictionary.functionType ≠ 0 ∧ dictionary.functionType ≠ 2 ∧
        dictionary.functionType ≠ 3 := by omega
    simp only [buildFramed, if_neg apart.1, if_neg apart.2.1, if_neg apart.2.2, if_pos kind]
  | unknown kind =>
    simp only [List.mem_cons, List.not_mem_nil, or_false, not_or] at kind
    simp only [buildFramed, if_neg kind.1, if_neg kind.2.1, if_neg kind.2.2.1, if_neg kind.2.2.2]

end Node

/-- What is built of a dictionary is what the constructors make of it, a function or the fault of
the first step that fails, and entries that do not belong to its kind of function do not matter. -/
theorem build_constructs (dictionary : FunctionDictionary α) :
    (∀ result, dictionary.build = result ↔ dictionary.Makes result) ∧
      ∀ other, Alike dictionary other → other.build = dictionary.build := by
  refine ⟨fun result => ⟨?_, fun makes => ?_⟩, fun other alike => ?_⟩
  · rintro rfl
    exact tree_induction (fun _ => makes_build) dictionary
  · induction dictionary using tree_induction generalizing result with
    | step dictionary sound =>
      exact makes.build_eq fun child member result makes => sound child member result makes
  · induction dictionary using tree_induction generalizing other with
    | step dictionary agree =>
      exact alike.build_eq fun child member other alike => agree child member other alike

section Cluttered

open PdfFunction (ramp difference mixed)

/-- Entries where they do not belong: a child of no known kind below samples, and lists that can
not be paired. -/
def cluttered : FunctionDictionary Float :=
  { mixed with
    size := [0]
    decode := some [1]
    functions :=
      [{ ramp with start := some [1, 2], functions := [{ ramp with functionType := 1 }] },
        { difference with encode := some [0] }] }

theorem cluttered_constructs :
    (Alike mixed cluttered ∧ mixed.build.isOk) ∧ cluttered.build = mixed.build ∧
      ∃ function, mixed.Makes (.ok function) := by
  have alike : Alike mixed cluttered := by
    refine .stitching rfl [0] _ _ (some [1]) _ _ _ (.cons ?_ (.cons ?_ .nil)) _
    · exact .sampled rfl (some [1, 2]) _ _ [{ ramp with functionType := 1 }] _
    · exact .program rfl _ _ _ (some [0]) _ _ _ _ _ _
  have accepted : mixed.build.isOk = true := by decide +kernel
  obtain ⟨makes, same⟩ := build_constructs mixed
  refine ⟨⟨alike, accepted⟩, same cluttered alike, ?_⟩
  cases built : mixed.build with
  | error failure =>
    rw [built] at accepted
    cases accepted
  | ok function => exact ⟨function, (makes _).mp built⟩

end Cluttered

end FunctionDictionary

end PdfPrimitives
