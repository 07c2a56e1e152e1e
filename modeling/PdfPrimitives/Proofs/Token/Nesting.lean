import PdfPrimitives.Proofs.Token.Numbers
import PdfPrimitives.Proofs.Token.Progress
import PdfPrimitives.Proofs.Token.Reading

/-!
How deep the parentheses of a string nest. The pairs that are open inside a string are among
the bytes of the string so far, and where reading does not fail these belong to a token that is
read. So 32 bits count the pairs of every string that is shorter than 2^32 bytes.
-/

namespace PdfPrimitives

namespace Mode

def depth : Mode → Nat
  | string _ depth _ => depth
  | _ => 0

/-- A byte may open one pair, if it is an opening parenthesis. -/
def Rises (byte : UInt8) (depth inner : Nat) : Prop :=
  inner ≤ depth ∨ byte = Byte.openParen ∧ inner ≤ depth + 1

/-- What a byte of a string comes to: the string goes on with at least the bytes that it has,
or it is complete. Each pair that it opens is one of these bytes. -/
inductive Grows (byte : UInt8) (bytes : Array UInt8) (depth : Nat) : Outcome → Prop
  | goesOn (next : Array UInt8) (inner : Nat) (place : StringPlace)
    (longer : bytes.size ≤ next.size) (rises : Rises byte depth inner)
    (nests : depth ≤ bytes.size → inner ≤ next.size) :
    Grows byte bytes depth (.take (string next inner place))
  | complete (text : List UInt8) (longer : bytes.size ≤ text.length) :
    Grows byte bytes depth (.complete (.string text))

theorem grows_stringByte (bytes : Array UInt8) (depth : Nat) (byte : UInt8) :
    Grows byte bytes depth (stringByte bytes depth byte) := by
  have same (place : StringPlace) : Grows byte bytes depth (.take (string bytes depth place)) :=
    .goesOn _ _ _ (Nat.le_refl _) (.inl (Nat.le_refl _)) id
  have pushed (value : UInt8) (inner : Nat) (rises : Rises byte depth inner)
      (place : StringPlace) :
      Grows byte bytes depth (.take (string (bytes.push value) inner place)) := by
    have size : (bytes.push value).size = bytes.size + 1 := Array.size_push _
    refine .goesOn _ _ _ (by omega) rises ?_
    unfold Rises at rises
    omega
  unfold stringByte
  split
  · exact same _
  split
  · exact pushed _ _ (.inl (Nat.le_refl _)) _
  split
  · next opens => exact pushed _ _ (.inr ⟨opens, Nat.le_refl _⟩) _
  split
  · cases depth with
    | zero => exact .complete _ (Nat.le_refl _)
    | succ outer => exact pushed _ _ (.inl (Nat.le_succ _)) _
  · exact pushed _ _ (.inl (Nat.le_refl _)) _

theorem Grows.of_push {byte : UInt8} {bytes : Array UInt8} {depth : Nat} {value : UInt8}
    {outcome : Outcome} (grows : Grows byte (bytes.push value) depth outcome) :
    Grows byte bytes depth outcome := by
  have size : (bytes.push value).size = bytes.size + 1 := Array.size_push _
  cases grows with
  | goesOn next inner place longer rises nests =>
    exact .goesOn _ _ _ (by omega) rises fun within => nests (by omega)
  | complete text longer => exact .complete _ (by omega)

theorem grows_stringStep (bytes : Array UInt8) (depth : Nat) (place : StringPlace)
    (byte : UInt8) : Grows byte bytes depth (stringStep bytes depth place byte) := by
  have same (next : StringPlace) : Grows byte bytes depth (.take (string bytes depth next)) :=
    .goesOn _ _ _ (Nat.le_refl _) (.inl (Nat.le_refl _)) id
  have pushed (value : UInt8) (next : StringPlace) :
      Grows byte bytes depth (.take (string (bytes.push value) depth next)) :=
    .of_push (.goesOn _ _ _ (Nat.le_refl _) (.inl (Nat.le_refl _)) id)
  cases place with
  | plain => exact grows_stringByte bytes depth byte
  | afterReturn =>
    rw [stringStep]
    split
    · exact same _
    · exact grows_stringByte bytes depth byte
  | escape =>
    rw [stringStep]
    split
    · exact same _
    split
    · exact same _
    split
    · exact same _
    · exact pushed _ _
  | octal digits value =>
    rw [stringStep]
    split
    · dsimp only
      split
      · exact pushed _ _
      · exact same _
    · exact .of_push (grows_stringByte (bytes.push value) depth byte)

theorem grows_step (flags : ReadFlags) (bytes : Array UInt8) (depth : Nat) (place : StringPlace)
    (byte : UInt8) : Grows byte bytes depth ((string bytes depth place).step flags byte) :=
  grows_stringStep bytes depth place byte

theorem depth_of_ite {choice : Prop} [Decidable choice] {first mode : Mode} {others : Option Mode}
    (flat : first.depth = 0) (rest : others = some mode → mode.depth = 0)
    (opens : (if choice then some first else others) = some mode) : mode.depth = 0 := by
  by_cases chosen : choice
  · rw [if_pos chosen] at opens
    obtain rfl := Option.some.inj opens
    exact flat
  · rw [if_neg chosen] at opens
    exact rest opens

theorem depth_of_opening {byte : UInt8} {mode : Mode} (opens : opening? byte = some mode) :
    mode.depth = 0 := by
  revert opens
  unfold opening?
  iterate 9 apply depth_of_ite rfl
  rintro ⟨⟩

/-- Outside of strings nothing is open but the string that may begin. -/
theorem depth_of_take {flags : ReadFlags} {mode next : Mode} {byte : UInt8}
    (outside : ∀ bytes depth place, mode ≠ string bytes depth place)
    (taken : mode.step flags byte = .take next) :
    next.depth = 0 := by
  cases mode with
  | string bytes depth place => exact absurd rfl (outside bytes depth place)
  | idle =>
    simp only [step, idleStep] at taken
    grind [depth, depth_of_opening]
  | comment body dropped =>
    simp only [step, release] at taken
    grind [depth]
  | word bytes =>
    simp only [step, release, store] at taken
    grind [depth]
  | name bytes escape =>
    simp only [step, release, nameStep, store] at taken
    grind [depth]
  | hex bytes started high =>
    simp only [step, hexStep] at taken
    grind [depth]
  | closing =>
    simp only [step] at taken
    grind
  | delimiter kind =>
    simp only [step, release] at taken
    grind
  | ended => cases taken

def Nests : Mode → Prop
  | string bytes depth _ => depth ≤ bytes.size
  | _ => True

theorem nests_of_depth {mode : Mode} (flat : mode.depth = 0) : mode.Nests := by
  cases mode with
  | string bytes depth place =>
    obtain rfl : depth = 0 := flat
    exact Nat.zero_le _
  | _ => trivial

/-- A byte that opens a pair is then a byte of the string. -/
theorem step_nests {flags : ReadFlags} {mode next : Mode} {byte : UInt8}
    (taken : mode.step flags byte = .take next) :
    (mode.Nests → next.Nests) ∧ Rises byte mode.depth next.depth := by
  cases mode with
  | string bytes depth place =>
    have grows := grows_step flags bytes depth place byte
    rw [taken] at grows
    cases grows with
    | goesOn found inner place longer rises nests => exact ⟨nests, rises⟩
  | _ =>
    have flat := depth_of_take (by simp) taken
    exact ⟨fun _ => nests_of_depth flat, .inl (by omega)⟩

end Mode

theorem Source.unread_peek {source seen : Source} {sight : Except StreamFault (Option UInt8)}
    (peeked : source.peek = (sight, seen)) : seen.unread = source.unread := by
  obtain ⟨ahead, offset⟩ := source
  rcases ahead with _ | ⟨_ | _ | _, rest⟩ <;> obtain ⟨-, rfl⟩ := Prod.mk.inj peeked <;> rfl

namespace Reader

variable {flags : ReadFlags} {reader next : Reader}

/-- The readers that come up while all tokens are read, one turn after the other. -/
inductive Passes (flags : ReadFlags) : Reader → Reader → Prop
  | stays (reader : Reader) : Passes flags reader reader
  | goesOn (reader next last : Reader) (turned : turn flags reader = .goesOn next)
    (passes : Passes flags next last) : Passes flags reader last
  | gives (reader next last : Reader) (token : Token)
    (turned : turn flags reader = .ends (.ok (some token)) next)
    (passes : Passes flags next last) : Passes flags reader last

def reach (reader : Reader) : Nat :=
  reader.mode.depth + reader.source.unread.count Byte.openParen

theorem turn_nests (flags : ReadFlags) (reader : Reader) :
    (reader.mode.Nests → (turn flags reader).behind.mode.Nests) ∧
      (turn flags reader).behind.reach ≤ reader.reach := by
  obtain ⟨source, mode, begun, tokenStart⟩ := reader
  -- Outside of strings nothing is open, and what is unread stays or gets shorter.
  have flat (next : Reader) (outside : next.mode.depth = 0)
      (fewer : next.source.unread.count Byte.openParen ≤ source.unread.count Byte.openParen) :
      (mode.Nests → next.mode.Nests) ∧
        next.reach ≤ (⟨source, mode, begun, tokenStart⟩ : Reader).reach := by
    refine ⟨fun _ => Mode.nests_of_depth outside, ?_⟩
    simp only [reach]
    omega
  unfold turn
  dsimp only
  split
  · exact ⟨id, Nat.le_refl _⟩
  split
  · next seen peeked =>
    simp only [Turn.behind, reach, Source.unread_peek peeked, Nat.le_refl, and_true]
    exact id
  · next seen peeked =>
    have same := Source.unread_peek peeked
    unfold finish
    dsimp only [Turn.behind]
    split
    · simp only [reach, same, Nat.le_refl, and_true]
      exact id
    all_goals exact flat _ rfl (by rw [same])
  · next byte seen peeked =>
    obtain ⟨rfl, ahead⟩ := Source.unread_of_byte peeked
    have fewer : seen.advance.unread.count Byte.openParen ≤ seen.unread.count Byte.openParen := by
      rw [ahead]
      exact List.count_le_count_cons
    split
    · next taken =>
      obtain ⟨nests, stays | ⟨rfl, rises⟩⟩ := Mode.step_nests taken
      · refine ⟨nests, ?_⟩
        simp only [Turn.behind, reach]
        omega
      · refine ⟨nests, ?_⟩
        simp only [Turn.behind, reach, ahead, List.count_cons_self]
        omega
    · exact flat _ rfl fewer
    · exact flat _ rfl (Nat.le_refl _)
    · exact flat _ rfl (Nat.le_refl _)
    · next refused =>
      obtain rfl := Mode.mode_of_refuse refused
      exact ⟨id, Nat.le_refl _⟩
    · exact ⟨id, Nat.le_refl _⟩

theorem turn_goesOn_nests (turned : turn flags reader = .goesOn next) :
    (reader.mode.Nests → next.mode.Nests) ∧ next.reach ≤ reader.reach := by
  have kept := turn_nests flags reader
  rwa [turned] at kept

theorem turn_gives_nests {token : Token}
    (turned : turn flags reader = .ends (.ok (some token)) next) :
    (reader.mode.Nests → next.mode.Nests) ∧ next.reach ≤ reader.reach := by
  have kept := turn_nests flags reader
  rwa [turned] at kept

theorem Passes.nests {start last : Reader} (passes : Passes flags start last) :
    (start.mode.Nests → last.mode.Nests) ∧ last.reach ≤ start.reach := by
  induction passes with
  | stays reader => exact ⟨id, Nat.le_refl _⟩
  | goesOn reader next last turned _ ih =>
    obtain ⟨nests, lower⟩ := turn_goesOn_nests turned
    exact ⟨ih.1 ∘ nests, Nat.le_trans ih.2 lower⟩
  | gives reader next last token turned _ ih =>
    obtain ⟨nests, lower⟩ := turn_gives_nests turned
    exact ⟨ih.1 ∘ nests, Nat.le_trans ih.2 lower⟩

/-- A string that was begun is read with all the bytes that it has, or reading fails. -/
theorem read_inside (reader next : Reader) (bytes : Array UInt8) (depth : Nat)
    (place : StringPlace) (inside : reader.mode = .string bytes depth place)
    (token : Option Token) (done : read flags reader = (.ok token, next)) :
    ∃ text, token = some (.string text) ∧ bytes.size ≤ text.length := by
  fun_induction read flags reader generalizing bytes depth place with
  | case1 source mode begun last ended =>
    subst inside
    cases ended
  | case2 | case8 => simp at done
  | case3 source mode begun last running seen peeked =>
    subst inside
    simp [finish, Mode.finish] at done
  | case4 source mode begun last running byte seen peeked start after stepped ih =>
    subst inside
    have grows := Mode.grows_step flags bytes depth place byte
    rw [stepped] at grows
    cases grows with
    | goesOn found inner place longer =>
      obtain ⟨text, given, longest⟩ := ih found inner place rfl done
      exact ⟨text, given, Nat.le_trans longer longest⟩
  | case5 source mode begun last running byte seen peeked start given stepped =>
    subst inside
    have grows := Mode.grows_step flags bytes depth place byte
    rw [stepped] at grows
    cases grows with
    | complete text longer =>
      obtain rfl := Except.ok.inj (Prod.mk.inj done).1
      exact ⟨text, rfl, longer⟩
  | case6 _ _ _ _ _ byte _ _ _ _ stepped | case7 _ _ _ _ _ byte _ _ _ stepped
  | case9 _ _ _ _ _ byte _ _ _ stepped =>
    subst inside
    have grows := Mode.grows_step flags bytes depth place byte
    rw [stepped] at grows
    cases grows

theorem found_of_collect (flags : ReadFlags) (found : Array Token) (reader : Reader) :
    found.toList <+: (collect flags found reader).tokens := by
  fun_induction collect flags found reader with
  | case1 | case2 => exact List.prefix_rfl
  | case3 found reader token next done ih =>
    exact (List.prefix_append _ [token]).trans (by simpa using ih)

theorem collect_congr {other : Reader} (found : Array Token)
    (same : read flags reader = read flags other) :
    collect flags found reader = collect flags found other := by
  rw [collect, collect]
  split <;> rename_i first <;> split <;> rename_i second <;>
    cases first.symm.trans (same.trans second) <;> rfl

/-- Where all tokens are read, a string that was begun is one of them. -/
theorem Passes.inside {start seen : Reader} (passes : Passes flags start seen)
    (found : Array Token) (fine : (collect flags found start).fault = none)
    (bytes : Array UInt8) (depth : Nat) (place : StringPlace)
    (inside : seen.mode = .string bytes depth place) :
    ∃ text, .string text ∈ (collect flags found start).tokens ∧ bytes.size ≤ text.length := by
  induction passes generalizing found with
  | stays reader =>
    cases done : read flags reader with
    | mk answer next =>
      cases answer with
      | error fault =>
        have failed := (collect_of_fault found reader fault (congrArg Prod.fst done)).2
        rw [failed] at fine
        cases fine
      | ok token =>
        obtain ⟨text, rfl, longer⟩ := read_inside reader next bytes depth place inside token done
        rw [collect_of_token found reader _ (congrArg Prod.fst done)]
        exact ⟨text, (found_of_collect flags _ _).subset (by simp), longer⟩
  | goesOn reader next last turned _ ih =>
    have same := collect_congr found ((read_turn flags reader).trans (by rw [turned]))
    rw [same] at fine ⊢
    exact ih found fine inside
  | gives reader next last token turned _ ih =>
    have given : read flags reader = (.ok (some token), next) := by rw [read_turn, turned]
    have same := collect_of_token found reader token (congrArg Prod.fst given)
    rw [given] at same
    rw [same] at fine ⊢
    exact ih _ fine inside

end Reader

namespace Lexical

end Lexical

end PdfPrimitives
