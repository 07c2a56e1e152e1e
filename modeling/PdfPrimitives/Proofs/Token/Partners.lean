import PdfPrimitives.Proofs.Token.StringSpelling

/-!
Partners of parentheses. Two parentheses are partners if all those between them have their
partners there, and the ones that are escaped in a string are those without one.
-/

namespace PdfPrimitives.Parentheses

inductive Balanced : List UInt8 → Prop
  | nil : Balanced []
  | plain {byte : UInt8} {rest : List UInt8} :
      Byte.isParen byte = false → Balanced rest → Balanced (byte :: rest)
  | pair {inner rest : List UInt8} :
      Balanced inner → Balanced rest →
        Balanced (Byte.openParen :: (inner ++ Byte.closeParen :: rest))

def Partners (bytes : List UInt8) (opening closing : Nat) : Prop :=
  ∃ front inner back, bytes = front ++ Byte.openParen :: (inner ++ Byte.closeParen :: back) ∧
    Balanced inner ∧ opening = front.length ∧ closing = front.length + 1 + inner.length

def HasPartner (bytes : List UInt8) (place : Nat) : Prop :=
  ∃ other, Partners bytes place other ∨ Partners bytes other place

theorem paren_cases (byte : UInt8) :
    byte = Byte.openParen ∨ byte = Byte.closeParen ∨ Byte.isParen byte = false := by
  rw [Byte.isParen, Bool.or_eq_false_iff, beq_eq_false_iff_ne, beq_eq_false_iff_ne]
  tauto

section Depth

variable (rest : List UInt8) (opened : Nat)

@[simp] theorem demand_open : demand (Byte.openParen :: rest) = demand rest - 1 := rfl

@[simp] theorem demand_close : demand (Byte.closeParen :: rest) = demand rest + 1 := rfl

@[simp] theorem opened_open : openedBehind opened Byte.openParen = opened + 1 := rfl

@[simp] theorem opened_close : openedBehind opened Byte.closeParen = opened - 1 := rfl

variable {byte : UInt8} (plain : Byte.isParen byte = false)

include plain

theorem plain_ne : byte ≠ Byte.openParen ∧ byte ≠ Byte.closeParen := by
  constructor <;> rintro rfl <;> cases plain

theorem demand_plain : demand (byte :: rest) = demand rest := by
  rw [demand, if_neg (plain_ne plain).1, if_neg (plain_ne plain).2]

theorem opened_plain : openedBehind opened byte = opened := by
  rw [openedBehind, if_neg (plain_ne plain).1, if_neg (plain_ne plain).2]

end Depth

/-- What is open before a text stays open behind it but for what the text demands. -/
theorem foldl_opened_from (text : List UInt8) (opened : Nat) :
    text.foldl openedBehind opened = text.foldl openedBehind 0 + (opened - demand text) := by
  induction text generalizing opened with
  | nil => exact (Nat.zero_add opened).symm
  | cons byte rest ih =>
    rw [List.foldl_cons, List.foldl_cons, ih, ih (openedBehind 0 byte)]
    rcases paren_cases byte with rfl | rfl | plain
    · rw [demand_open, opened_open, opened_open]
      omega
    · rw [demand_close, opened_close, opened_close]
      omega
    · rw [demand_plain _ plain, opened_plain _ plain, opened_plain _ plain]
      omega

namespace Balanced

variable {text other : List UInt8}

theorem append (balanced : Balanced text) (behind : Balanced other) :
    Balanced (text ++ other) := by
  induction balanced with
  | nil => exact behind
  | plain isPlain _ ih => exact .plain isPlain ih
  | pair inner _ _ ih =>
    rw [List.cons_append, List.append_assoc, List.cons_append]
    exact .pair inner ih

theorem demand_append (balanced : Balanced text) (rest : List UInt8) :
    demand (text ++ rest) = demand rest := by
  induction balanced generalizing rest with
  | nil => rfl
  | plain isPlain _ ih => rw [List.cons_append, demand_plain _ isPlain, ih]
  | pair _ _ inner behind =>
    rw [List.cons_append, List.append_assoc, List.cons_append, demand_open, inner, demand_close,
      behind, Nat.add_sub_cancel]

theorem foldl_opened (balanced : Balanced text) (opened : Nat) :
    text.foldl openedBehind opened = opened := by
  induction balanced generalizing opened with
  | nil => rfl
  | plain isPlain _ ih => rw [List.foldl_cons, opened_plain _ isPlain, ih]
  | pair _ _ inner behind =>
    rw [List.foldl_cons, List.foldl_append, List.foldl_cons, opened_open, inner, opened_close,
      behind, Nat.add_sub_cancel]

end Balanced

/-- What is demanded from before is the partner of a closing parenthesis, with balanced bytes in
front of it. -/
theorem demand_succ (rest : List UInt8) (count : Nat) (wanted : demand rest = count + 1) :
    ∃ inner back, rest = inner ++ Byte.closeParen :: back ∧ Balanced inner ∧
      demand back = count := by
  -- Behind an opening parenthesis its own partner comes first, so the induction goes twice.
  induction size : rest.length using Nat.strong_induction_on generalizing rest count with
  | _ size ih =>
    subst size
    cases rest with
    | nil => cases wanted
    | cons byte rest =>
      have shorter : rest.length < (byte :: rest).length := Nat.lt_succ_self _
      rcases paren_cases byte with rfl | rfl | plain
      · have more : demand rest = count + 1 + 1 := by
          rw [demand_open] at wanted
          omega
        obtain ⟨nested, middle, rfl, balanced, fewer⟩ := ih _ shorter rest _ more rfl
        have shorterStill : middle.length < (Byte.openParen :: (nested ++
            Byte.closeParen :: middle)).length := by
          simp only [List.length_cons, List.length_append]
          omega
        obtain ⟨inner, back, rfl, behind, few⟩ := ih _ shorterStill middle _ fewer rfl
        exact ⟨Byte.openParen :: (nested ++ Byte.closeParen :: inner), back, by simp,
          .pair balanced behind, few⟩
      · exact ⟨[], rest, rfl, .nil, Nat.succ.inj wanted⟩
      · rw [demand_plain _ plain] at wanted
        obtain ⟨inner, back, rfl, balanced, few⟩ := ih _ shorter rest count wanted rfl
        exact ⟨byte :: inner, back, rfl, .plain plain balanced, few⟩

/-- What is open behind some bytes is an opening parenthesis with balanced bytes behind it. -/
theorem opened_succ (front : List UInt8) (count : Nat)
    (open_eq : front.foldl openedBehind 0 = count + 1) :
    ∃ before inner, front = before ++ Byte.openParen :: inner ∧ Balanced inner ∧
      before.foldl openedBehind 0 = count := by
  induction size : front.length using Nat.strong_induction_on generalizing front count with
  | _ size ih =>
    subst size
    rcases List.eq_nil_or_concat front with rfl | ⟨front, byte, rfl⟩
    · cases open_eq
    · rw [List.concat_eq_append] at open_eq ih ⊢
      rw [List.foldl_concat] at open_eq
      have shorter : front.length < (front ++ [byte]).length := by simp
      rcases paren_cases byte with rfl | rfl | plain
      · exact ⟨front, [], rfl, .nil, Nat.succ.inj open_eq⟩
      · have more : front.foldl openedBehind 0 = count + 1 + 1 := by
          rw [opened_close] at open_eq
          omega
        obtain ⟨middle, nested, rfl, balanced, fewer⟩ := ih _ shorter front _ more rfl
        have shorterStill : middle.length < (middle ++ Byte.openParen :: nested ++
            [Byte.closeParen]).length := by
          simp only [List.length_cons, List.length_append]
          omega
        obtain ⟨before, inner, rfl, behind, few⟩ := ih _ shorterStill middle _ fewer rfl
        exact ⟨before, inner ++ Byte.openParen :: (nested ++ Byte.closeParen :: []), by simp,
          behind.append (.pair balanced .nil), few⟩
      · rw [opened_plain _ plain] at open_eq
        obtain ⟨before, inner, rfl, balanced, few⟩ := ih _ shorter front count open_eq rfl
        exact ⟨before, inner ++ [byte], by simp, balanced.append (.plain plain .nil), few⟩

/-- A text without a demand that leaves nothing open is balanced. -/
theorem balanced_of_closed (text : List UInt8) (closed : demand text = 0)
    (settled : text.foldl openedBehind 0 = 0) : Balanced text := by
  induction size : text.length using Nat.strong_induction_on generalizing text with
  | _ size ih =>
    subst size
    cases text with
    | nil => exact .nil
    | cons byte rest =>
      have shorter : rest.length < (byte :: rest).length := Nat.lt_succ_self _
      rcases paren_cases byte with rfl | rfl | plain
      · -- It is closed behind, for else it would stay open.
        rw [List.foldl_cons, opened_open, foldl_opened_from] at settled
        rw [demand_open] at closed
        have wanted : demand rest = 0 + 1 := by omega
        obtain ⟨inner, back, rfl, balanced, few⟩ := demand_succ rest 0 wanted
        have settledBehind : back.foldl openedBehind 0 = 0 := by
          rw [List.foldl_append, List.foldl_cons, balanced.foldl_opened] at settled
          exact Nat.eq_zero_of_add_eq_zero_right settled
        have shorterStill : back.length < (Byte.openParen :: (inner ++
            Byte.closeParen :: back)).length := by
          simp only [List.length_cons, List.length_append]
          omega
        exact .pair balanced (ih _ shorterStill back few settledBehind rfl)
      · cases closed
      · rw [demand_plain _ plain] at closed
        rw [List.foldl_cons, opened_plain _ plain] at settled
        exact .plain plain (ih _ shorter rest closed settled rfl)

theorem demand_le_append (front back : List UInt8) : demand front ≤ demand (front ++ back) := by
  induction front with
  | nil => exact Nat.zero_le _
  | cons byte front ih =>
    rw [List.cons_append]
    rcases paren_cases byte with rfl | rfl | plain
    · exact Nat.sub_le_sub_right ih 1
    · exact Nat.succ_le_succ ih
    · rwa [demand_plain _ plain, demand_plain _ plain]

theorem count_close_le (text : List UInt8) :
    text.count Byte.closeParen ≤ text.count Byte.openParen + demand text := by
  induction text with
  | nil => exact Nat.zero_le _
  | cons byte rest ih =>
    rcases paren_cases byte with rfl | rfl | plain
    · rw [List.count_cons_of_ne (by decide), List.count_cons_self, demand_open]
      omega
    · rw [List.count_cons_self, List.count_cons_of_ne (by decide), demand_close]
      omega
    · obtain ⟨noOpen, noClose⟩ := plain_ne plain
      rwa [List.count_cons_of_ne noOpen, List.count_cons_of_ne noClose, demand_plain _ plain]

theorem Balanced.count_prefix {text front : List UInt8} (balanced : Balanced text)
    (starts : front <+: text) : front.count Byte.closeParen ≤ front.count Byte.openParen := by
  obtain ⟨back, rfl⟩ := starts
  have closed : demand (front ++ back) = 0 := by
    have none := balanced.demand_append []
    rwa [List.append_nil] at none
  have less := demand_le_append front back
  have bound := count_close_le front
  omega

section Partner

variable {front rest : List UInt8} {byte : UInt8}

theorem partners_opening (other : Nat) :
    Partners (front ++ byte :: rest) front.length other ↔
      byte = Byte.openParen ∧ ∃ inner back, rest = inner ++ Byte.closeParen :: back ∧
        Balanced inner ∧ other = front.length + 1 + inner.length := by
  constructor
  · rintro ⟨before, inner, back, whole, balanced, here, there⟩
    obtain ⟨rfl, same⟩ := List.append_inj whole here
    obtain ⟨rfl, rfl⟩ := List.cons.inj same
    exact ⟨rfl, inner, back, rfl, balanced, there⟩
  · rintro ⟨rfl, inner, back, rfl, balanced, there⟩
    exact ⟨front, inner, back, rfl, balanced, rfl, there⟩

theorem partners_closing (other : Nat) :
    Partners (front ++ byte :: rest) other front.length ↔
      byte = Byte.closeParen ∧ ∃ before inner, front = before ++ Byte.openParen :: inner ∧
        Balanced inner ∧ other = before.length := by
  constructor
  · rintro ⟨before, inner, back, whole, balanced, there, here⟩
    have regrouped : front ++ byte :: rest =
        (before ++ Byte.openParen :: inner) ++ Byte.closeParen :: back := by
      rw [whole, List.append_assoc, List.cons_append]
    obtain ⟨rfl, same⟩ := List.append_inj regrouped (by
      rw [here, List.length_append, List.length_cons, Nat.add_assoc, Nat.add_comm 1])
    exact ⟨(List.cons.inj same).1, before, inner, rfl, balanced, there⟩
  · rintro ⟨rfl, before, inner, rfl, balanced, there⟩
    refine ⟨before, inner, rest, ?_, balanced, there, ?_⟩
    · rw [List.append_assoc, List.cons_append]
    · rw [List.length_append, List.length_cons, Nat.add_assoc, Nat.add_comm 1]

theorem hasPartner_opening : HasPartner (front ++ Byte.openParen :: rest) front.length ↔
    demand rest ≠ 0 := by
  constructor
  · rintro ⟨other, here | here⟩
    · obtain ⟨-, inner, back, rfl, balanced, -⟩ := (partners_opening other).mp here
      rw [balanced.demand_append, demand_close]
      exact Nat.succ_ne_zero _
    · exact absurd ((partners_closing other).mp here).1 (by decide)
  · intro wanted
    obtain ⟨count, more⟩ := Nat.exists_eq_succ_of_ne_zero wanted
    obtain ⟨inner, back, parts, balanced, -⟩ := demand_succ rest count more
    exact ⟨_, .inl ((partners_opening _).mpr ⟨rfl, inner, back, parts, balanced, rfl⟩)⟩

theorem hasPartner_closing : HasPartner (front ++ Byte.closeParen :: rest) front.length ↔
    front.foldl openedBehind 0 ≠ 0 := by
  constructor
  · rintro ⟨other, here | here⟩
    · exact absurd ((partners_opening other).mp here).1 (by decide)
    · obtain ⟨-, before, inner, rfl, balanced, -⟩ := (partners_closing other).mp here
      rw [List.foldl_append, List.foldl_cons, balanced.foldl_opened, opened_open]
      exact Nat.succ_ne_zero _
  · intro opened
    obtain ⟨count, more⟩ := Nat.exists_eq_succ_of_ne_zero opened
    obtain ⟨before, inner, parts, balanced, -⟩ := opened_succ front count more
    exact ⟨_, .inr ((partners_closing _).mpr ⟨rfl, before, inner, parts, balanced, rfl⟩)⟩

/-- Looking ahead and counting finds the parentheses without a partner. -/
theorem lacksPartner_iff :
    lacksPartner (front.foldl openedBehind 0) byte rest = true ↔
      Byte.isParen byte = true ∧ ¬HasPartner (front ++ byte :: rest) front.length := by
  rcases paren_cases byte with rfl | rfl | plain
  · rw [hasPartner_opening, not_not, lacksPartner, if_pos rfl, beq_iff_eq]
    exact (and_iff_right rfl).symm
  · rw [hasPartner_closing, not_not, lacksPartner, if_neg (by decide), beq_self_eq_true,
      Bool.true_and, beq_iff_eq]
    exact (and_iff_right rfl).symm
  · rw [lacksPartner, if_neg (plain_ne plain).1, beq_eq_false_iff_ne.mpr (plain_ne plain).2,
      Bool.false_and, plain]
    exact ⟨fun marked => absurd marked Bool.false_ne_true, fun both => both.1⟩

end Partner

section Search

theorem mem_places (bytes : List UInt8) (position opened place : Nat) :
    place ∈ places position opened bytes ↔
      ∃ front byte rest, bytes = front ++ byte :: rest ∧ place = position + front.length ∧
        lacksPartner (front.foldl openedBehind opened) byte rest = true := by
  induction bytes generalizing position opened with
  | nil => simp [places]
  | cons byte rest ih =>
    have here : place ∈ places position opened (byte :: rest) ↔
        (place = position ∧ lacksPartner opened byte rest = true) ∨
          place ∈ places (position + 1) (openedBehind opened byte) rest := by
      rw [places]
      split
      · next lacks => rw [List.mem_cons, lacks, and_iff_left rfl]
      · next found => rw [Bool.not_eq_true] at found; simp [found]
    rw [here, ih]
    constructor
    · rintro (⟨rfl, lacks⟩ | ⟨front, other, behind, rfl, rfl, lacks⟩)
      · exact ⟨[], byte, rest, rfl, rfl, lacks⟩
      · exact ⟨byte :: front, other, behind, rfl, by
          rw [List.length_cons, Nat.add_assoc, Nat.add_comm 1], lacks⟩
    · rintro ⟨front, other, behind, parts, rfl, lacks⟩
      cases front with
      | nil =>
        obtain ⟨rfl, rfl⟩ := List.cons.inj parts
        exact .inl ⟨rfl, lacks⟩
      | cons first front =>
        obtain ⟨rfl, rfl⟩ := List.cons.inj parts
        exact .inr ⟨front, other, behind, rfl, by
          rw [List.length_cons, Nat.add_assoc, Nat.add_comm 1], lacks⟩

theorem places_ascend (bytes : List UInt8) (position opened : Nat) :
    (places position opened bytes).Pairwise (· < ·) := by
  induction bytes generalizing position opened with
  | nil => exact .nil
  | cons byte rest ih =>
    have later := ih (position + 1) (openedBehind opened byte)
    rw [places]
    split
    · exact .cons (le_places rest _ _) later
    · exact later

theorem unmatched_places (bytes : List UInt8) : unmatched bytes = places 0 0 bytes := by
  rw [unmatched_eq, places_eq]

theorem parts_at {bytes : List UInt8} {place : Nat} {byte : UInt8}
    (there : bytes[place]? = some byte) :
    ∃ front rest, bytes = front ++ byte :: rest ∧ place = front.length := by
  obtain ⟨inside, rfl⟩ := List.getElem?_eq_some_iff.mp there
  exact ⟨bytes.take place, bytes.drop (place + 1), by simp,
    (List.length_take_of_le (Nat.le_of_lt inside)).symm⟩

theorem mem_unmatched (bytes : List UInt8) (place : Nat) :
    place ∈ unmatched bytes ↔
      ∃ byte, bytes[place]? = some byte ∧ Byte.isParen byte = true ∧ ¬HasPartner bytes place := by
  rw [unmatched_places, mem_places]
  constructor
  · rintro ⟨front, byte, rest, rfl, rfl, lacks⟩
    rw [Nat.zero_add]
    exact ⟨byte, by simp, lacksPartner_iff.mp lacks⟩
  · rintro ⟨byte, there, lacks⟩
    obtain ⟨front, rest, rfl, rfl⟩ := parts_at there
    exact ⟨front, byte, rest, rfl, (Nat.zero_add _).symm, lacksPartner_iff.mpr lacks⟩

variable {sorted : Array Nat} (ascending : sorted.toList.Pairwise (· < ·))

include ascending

theorem index_lt {first second : Nat} (inside : first < sorted.size)
    (insideToo : second < sorted.size) (less : sorted[first] < sorted[second]) :
    first < second := by
  by_contra behind
  obtain same | before := Nat.eq_or_lt_of_le (Nat.le_of_not_lt behind)
  · subst same
    exact Nat.lt_irrefl _ less
  · have more : sorted[second] < sorted[first] :=
      List.pairwise_iff_getElem.mp ascending second first insideToo inside before
    exact Nat.lt_asymm less more

/-- A binary search between two bounds finds what is between them. -/
theorem search_between (place : Nat) (low : Fin (sorted.size + 1)) (high : Fin sorted.size)
    (ordered : low.1 ≤ high.1) :
    Array.binSearchAux (fun first second => decide (first < second)) Option.isSome sorted place
        low high ordered = true ↔
      ∃ index, ∃ inside : index < sorted.size, low.1 ≤ index ∧ index ≤ high.1 ∧
        sorted[index] = place := by
  fun_induction Array.binSearchAux with
  | case1 low high ordered middle value less more _ ih =>
    rw [ih]
    constructor
    · rintro ⟨index, inside, lower, upper, found⟩
      exact ⟨index, inside, by dsimp only at lower; omega, upper, found⟩
    · rintro ⟨index, inside, -, upper, rfl⟩
      exact ⟨index, inside, index_lt ascending _ inside (of_decide_eq_true less), upper, rfl⟩
  | case2 low high ordered middle value less stop =>
    refine ⟨nofun, ?_⟩
    rintro ⟨index, inside, -, upper, rfl⟩
    have := index_lt ascending _ inside (of_decide_eq_true less)
    omega
  | case3 low high ordered middle value _ greater stop =>
    refine ⟨nofun, ?_⟩
    rintro ⟨index, inside, lower, -, rfl⟩
    have := index_lt ascending inside _ (of_decide_eq_true greater)
    omega
  | case4 low high ordered middle value _ greater more _ ih =>
    rw [ih]
    constructor
    · rintro ⟨index, inside, lower, upper, found⟩
      exact ⟨index, inside, lower, by dsimp only at upper; omega, found⟩
    · rintro ⟨index, inside, lower, -, rfl⟩
      have := index_lt ascending inside _ (of_decide_eq_true greater)
      exact ⟨index, inside, lower, by dsimp only; omega, rfl⟩
  | case5 low high ordered middle value notLess notGreater =>
    have found : value = place := by
      rw [decide_eq_true_iff] at notLess notGreater
      omega
    exact ⟨fun _ => ⟨middle, by omega, by omega, by omega, found⟩, fun _ => rfl⟩

theorem search_iff_mem (place : Nat) :
    sorted.binSearchContains place (· < ·) = true ↔ place ∈ sorted := by
  rw [Array.mem_iff_getElem]
  by_cases nonempty : 0 < sorted.size
  · have clamped : (if sorted.size - 1 < sorted.size then sorted.size - 1 else sorted.size - 1) =
        sorted.size - 1 := ite_self _
    have search := search_between ascending place ⟨0, by omega⟩ ⟨sorted.size - 1, by omega⟩
      (Nat.zero_le _)
    unfold Array.binSearchContains
    simp only [nonempty, clamped, Nat.zero_le, ↓reduceDIte, search, true_and]
    constructor
    · rintro ⟨index, inside, -, found⟩
      exact ⟨index, inside, found⟩
    · rintro ⟨index, inside, found⟩
      exact ⟨index, inside, Nat.le_sub_one_of_lt inside, found⟩
  · rw [Array.binSearchContains, dif_neg nonempty]
    refine ⟨nofun, ?_⟩
    rintro ⟨index, inside, -⟩
    exact absurd (Nat.zero_lt_of_lt inside) nonempty

end Search

section Kept

open Lexical

theorem annotate_at (front rest : List UInt8) (byte : UInt8) (opened : Nat) :
    (annotate opened (front ++ byte :: rest))[front.length]? =
      some ⟨byte, rest.head?, lacksPartner (front.foldl openedBehind opened) byte rest⟩ := by
  induction front generalizing opened with
  | nil => rfl
  | cons first front ih => exact ih (openedBehind opened first)

variable (readable utf8 : Bool) {byte : UInt8} (next : Option UInt8) (lacks : Bool)

theorem piece_paren (paren : Byte.isParen byte = true) :
    StringByte.piece readable utf8 ⟨byte, next, lacks⟩ =
      if lacks then [Byte.backslash, byte] else [byte] := by
  rcases paren_cases byte with rfl | rfl | plain
  · rfl
  · rfl
  · rw [paren] at plain
    cases plain

theorem piece_plain (plain : Byte.isParen byte = false) :
    (StringByte.piece readable utf8 ⟨byte, next, lacks⟩).all Byte.isParen = false := by
  rw [StringByte.piece]
  split
  · rfl
  · rw [List.all_cons, plain, Bool.false_and]

def kept (flags : WriteFlags) (bytes : List UInt8) : List UInt8 :=
  ((Escape.pieces flags bytes).filter fun piece => piece.all Byte.isParen).flatten

/-- What is kept of a part of a string demands and leaves open just what finds a partner in
front of the part. -/
theorem kept_annotated (bytes : List UInt8) (opened : Nat) :
    let text := (((annotate opened bytes).map (StringByte.piece readable utf8)).filter
      fun piece => piece.all Byte.isParen).flatten
    demand text = min opened (demand bytes) ∧
      text.foldl openedBehind (min opened (demand bytes)) = 0 := by
  induction bytes generalizing opened with
  | nil => exact ⟨(Nat.min_zero _).symm, Nat.min_zero _⟩
  | cons byte rest ih =>
    obtain ⟨demanded, settled⟩ := ih (openedBehind opened byte)
    rw [annotate, List.map_cons]
    -- A parenthesis without a partner is not kept, and one with a partner moves both counts.
    rcases paren_cases byte with rfl | rfl | plain
    · have lacks : lacksPartner opened Byte.openParen rest = (demand rest == 0) := rfl
      rw [piece_paren _ _ _ _ rfl, lacks]
      rw [opened_open] at demanded settled
      rw [demand_open]
      cases wanted : demand rest with
      | zero =>
        rw [wanted, Nat.min_zero] at demanded settled
        rw [Nat.zero_sub, Nat.min_zero]
        exact ⟨demanded, settled⟩
      | succ count =>
        rw [wanted, Nat.add_min_add_right] at demanded settled
        refine ⟨?_, settled⟩
        exact congrArg (· - 1) demanded
    · have lacks : lacksPartner opened Byte.closeParen rest = (opened == 0) := rfl
      rw [piece_paren _ _ _ _ rfl, lacks]
      rw [opened_close] at demanded settled
      rw [demand_close]
      cases opened with
      | zero =>
        rw [Nat.zero_sub, Nat.zero_min] at demanded settled
        rw [Nat.zero_min]
        exact ⟨demanded, settled⟩
      | succ outer =>
        rw [Nat.add_sub_cancel] at demanded settled
        rw [Nat.add_min_add_right]
        refine ⟨?_, settled⟩
        exact congrArg (· + 1) demanded
    · rw [opened_plain _ plain] at demanded settled
      rw [demand_plain _ plain, List.filter_cons_of_neg (by simp [piece_plain _ _ _ _ plain]),
        opened_plain _ plain]
      exact ⟨demanded, settled⟩

theorem kept_balanced (flags : WriteFlags) (bytes : List UInt8) : Balanced (kept flags bytes) := by
  obtain ⟨demanded, settled⟩ :=
    kept_annotated flags.readable (Escape.keepsUtf8 flags bytes) bytes 0
  rw [Nat.zero_min] at demanded settled
  rw [kept, Escape.pieces, all_eq]
  exact balanced_of_closed _ demanded settled

theorem paren_at (flags : WriteFlags) (bytes : List UInt8) (place : Nat) (byte : UInt8)
    (there : bytes[place]? = some byte) (paren : Byte.isParen byte = true) :
    ((Escape.pieces flags bytes)[place]? = some [Byte.backslash, byte] ↔
        ¬HasPartner bytes place) ∧
      ((Escape.pieces flags bytes)[place]? = some [byte] ↔ HasPartner bytes place) := by
  obtain ⟨front, rest, rfl, rfl⟩ := parts_at there
  have lacks : lacksPartner (front.foldl openedBehind 0) byte rest = true ↔
      ¬HasPartner (front ++ byte :: rest) front.length := by
    rw [lacksPartner_iff, and_iff_right paren]
  rw [Escape.pieces, all_eq, List.getElem?_map, annotate_at, Option.map_some,
    piece_paren _ _ _ _ paren]
  by_cases partner : HasPartner (front ++ byte :: rest) front.length
  · rw [if_neg (fun marked => lacks.mp marked partner)]
    simp [partner]
  · rw [if_pos (lacks.mpr partner)]
    simp [partner]

end Kept

/-- Only the parentheses without a partner are escaped. Their places ascend, so a binary search
finds just these, and the other parentheses are balanced. -/
theorem escaped_iff_unpartnered (flags : WriteFlags) (bytes : List UInt8) :
    let pieces := Escape.pieces flags bytes
    let places := unmatched bytes
    (∀ place byte, bytes[place]? = some byte → Byte.isParen byte = true →
      (pieces[place]? = some [Byte.backslash, byte] ↔ ¬HasPartner bytes place) ∧
        (pieces[place]? = some [byte] ↔ HasPartner bytes place)) ∧
      places.Pairwise (· < ·) ∧
      (∀ place,
        (places.toArray.binSearchContains place (· < ·) = true ↔ place ∈ places) ∧
          (place ∈ places ↔ ∃ byte, bytes[place]? = some byte ∧ Byte.isParen byte = true ∧
            ¬HasPartner bytes place)) ∧
      Balanced (kept flags bytes) ∧
      ∀ front, front <+: kept flags bytes →
        front.count Byte.closeParen ≤ front.count Byte.openParen := by
  intro pieces places
  have ascending : places.Pairwise (· < ·) := by
    have same : places = Parentheses.places 0 0 bytes := unmatched_places bytes
    rw [same]
    exact places_ascend bytes 0 0
  have sorted : places.toArray.toList.Pairwise (· < ·) := ascending
  have balanced := kept_balanced flags bytes
  exact ⟨paren_at flags bytes, ascending,
    fun place => ⟨(search_iff_mem sorted place).trans List.mem_toArray,
      mem_unmatched bytes place⟩,
    balanced, fun front starts => balanced.count_prefix starts⟩

/-- Of four parentheses the first two have no partner: nothing is open before the one, and the
other stays open. -/
theorem outer_unpartnered :
    let bytes : List UInt8 := [0x29, 0x28, 0x28, 0x29]
    Escape.pieces ⟨false, false, false⟩ bytes = [[0x5c, 0x29], [0x5c, 0x28], [0x28], [0x29]] ∧
      ¬HasPartner bytes 0 ∧ ¬HasPartner bytes 1 ∧ HasPartner bytes 2 ∧ HasPartner bytes 3 := by
  intro bytes
  have pieces : Escape.pieces ⟨false, false, false⟩ bytes =
      [[0x5c, 0x29], [0x5c, 0x28], [0x28], [0x29]] := by decide +kernel
  obtain ⟨each, -⟩ := escaped_iff_unpartnered ⟨false, false, false⟩ bytes
  rw [pieces] at each
  exact ⟨pieces, (each 0 0x29 rfl rfl).1.mp rfl, (each 1 0x28 rfl rfl).1.mp rfl,
    (each 2 0x28 rfl rfl).2.mp rfl, (each 3 0x29 rfl rfl).2.mp rfl⟩

end PdfPrimitives.Parentheses
