import Mathlib.Data.List.Basic
import PdfPrimitives.Proofs.Numeral.Digits
import PdfPrimitives.Text.Utf8

/-!
The scan for UTF-8 accepts the encodings of texts and nothing else. Between the bytes of a
character it stands where no byte of ASCII can follow.
-/

namespace PdfPrimitives.Utf8

section Characters

def IsTail (byte : UInt8) : Prop := 0x80 ≤ byte ∧ byte ≤ 0xbf

instance (byte : UInt8) : Decidable (IsTail byte) := inferInstanceAs (Decidable (_ ∧ _))

/-- The bytes of one character. What may follow some first bytes is narrower, so that no character
has a longer form and none is half of a pair or too large. -/
inductive Character : List UInt8 → Prop
  | one {lead : UInt8} (ascii : lead < 0x80) : Character [lead]
  | two {lead next : UInt8} (leads : 0xc2 ≤ lead ∧ lead ≤ 0xdf) (tail : IsTail next) :
      Character [lead, next]
  | three {lead next third : UInt8} (leads : 0xe0 ≤ lead ∧ lead ≤ 0xef) (tail : IsTail next)
      (least : lead = 0xe0 → 0xa0 ≤ next) (most : lead = 0xed → next ≤ 0x9f)
      (last : IsTail third) : Character [lead, next, third]
  | four {lead next third fourth : UInt8} (leads : 0xf0 ≤ lead ∧ lead ≤ 0xf4)
      (tail : IsTail next) (least : lead = 0xf0 → 0x90 ≤ next) (most : lead = 0xf4 → next ≤ 0x8f)
      (middle : IsTail third) (last : IsTail fourth) : Character [lead, next, third, fourth]

theorem character_encoded (character : Char) : Character (String.utf8EncodeChar character) := by
  obtain ⟨value, valid⟩ := character
  simp only [UInt32.isValidChar, Nat.isValidChar] at valid
  rw [String.utf8EncodeChar]
  dsimp only
  split
  · refine .one ?_
    simp only [UInt8.lt_iff_toNat_lt, UInt8.toNat_ofNat', UInt8.reduceToNat]
    omega
  · split
    · refine .two ?_ ?_ <;>
        simp only [IsTail, UInt8.le_iff_toNat_le, UInt8.toNat_ofNat', UInt8.reduceToNat] <;> omega
    · split
      · refine .three ?_ ?_ ?_ ?_ ?_ <;>
          simp only [IsTail, UInt8.le_iff_toNat_le, ← UInt8.toNat_inj, UInt8.toNat_ofNat',
            UInt8.reduceToNat] <;> omega
      · refine .four ?_ ?_ ?_ ?_ ?_ ?_ <;>
          simp only [IsTail, UInt8.le_iff_toNat_le, ← UInt8.toNat_inj, UInt8.toNat_ofNat',
            UInt8.reduceToNat] <;> omega

theorem exists_char (value : ℕ) (valid : value.isValidChar) : ∃ c : Char, c.val.toNat = value :=
  ⟨Char.ofNatAux value valid, rfl⟩

theorem encoded_of_character {bytes : List UInt8} (character : Character bytes) :
    ∃ encoded : Char, String.utf8EncodeChar encoded = bytes := by
  cases character with
  | @one lead ascii =>
    simp only [UInt8.lt_iff_toNat_lt, UInt8.reduceToNat] at ascii
    obtain ⟨encoded, value⟩ := exists_char lead.toNat (.inl (by omega))
    refine ⟨encoded, ?_⟩
    rw [String.utf8EncodeChar, value]
    simp [show lead.toNat ≤ 127 by omega]
  | @two lead next leads tail =>
    simp only [IsTail, UInt8.le_iff_toNat_le, UInt8.reduceToNat] at leads tail
    obtain ⟨encoded, value⟩ := exists_char
      ((lead.toNat - 0xc0) * 64 + (next.toNat - 0x80)) (.inl (by omega))
    refine ⟨encoded, ?_⟩
    rw [String.utf8EncodeChar, value]
    rw [if_neg (by omega), if_pos (by omega)]
    simp only [List.cons.injEq, ← UInt8.toNat_inj, UInt8.toNat_ofNat', and_true]
    omega
  | @three lead next third leads tail least most last =>
    simp only [IsTail, UInt8.le_iff_toNat_le, ← UInt8.toNat_inj, UInt8.reduceToNat] at *
    obtain ⟨encoded, value⟩ := exists_char
      ((lead.toNat - 0xe0) * 4096 + (next.toNat - 0x80) * 64 + (third.toNat - 0x80))
      (by simp only [Nat.isValidChar]; omega)
    refine ⟨encoded, ?_⟩
    rw [String.utf8EncodeChar, value]
    rw [if_neg (by omega), if_neg (by omega), if_pos (by omega)]
    simp only [List.cons.injEq, ← UInt8.toNat_inj, UInt8.toNat_ofNat', and_true]
    omega
  | @four lead next third fourth leads tail least most middle last =>
    simp only [IsTail, UInt8.le_iff_toNat_le, ← UInt8.toNat_inj, UInt8.reduceToNat] at *
    obtain ⟨encoded, value⟩ := exists_char
      ((lead.toNat - 0xf0) * 262144 + (next.toNat - 0x80) * 4096 +
        (third.toNat - 0x80) * 64 + (fourth.toNat - 0x80))
      (by simp only [Nat.isValidChar]; omega)
    refine ⟨encoded, ?_⟩
    rw [String.utf8EncodeChar, value]
    rw [if_neg (by omega), if_neg (by omega), if_neg (by omega)]
    simp only [List.cons.injEq, ← UInt8.toNat_inj, UInt8.toNat_ofNat', and_true]
    omega

theorem isValidUTF8_iff (bytes : List UInt8) :
    bytes.toByteArray.IsValidUTF8 ↔
      ∃ characters : List (List UInt8), (∀ each ∈ characters, Character each) ∧
        characters.flatten = bytes := by
  constructor
  · rintro ⟨text, encodes⟩
    refine ⟨text.map String.utf8EncodeChar, ?_, ?_⟩
    · simpa using fun each _ => character_encoded each
    · rw [← List.flatMap_def]
      exact (List.toByteArray_inj.mp encodes).symm
  · rintro ⟨characters, all, rfl⟩
    induction characters with
    | nil => exact ByteArray.isValidUTF8_empty
    | cons first rest ih =>
      obtain ⟨isFirst, others⟩ := List.forall_mem_cons.mp all
      obtain ⟨encoded, rfl⟩ := encoded_of_character isFirst
      rw [List.flatten_cons, List.toByteArray_append]
      exact encoded.isValidUTF8_toByteArray_utf8EncodeChar.append (ih others)

end Characters

section Scans

def follow : Place → List UInt8 → Option Place
  | place, [] => some place
  | place, byte :: rest =>
    if (step place byte).1.all Part.isCharacter then follow (step place byte).2 rest else none

theorem follow_append (place : Place) (front back : List UInt8) :
    follow place (front ++ back) = (follow place front).bind (follow · back) := by
  induction front generalizing place with
  | nil => rfl
  | cons byte front ih =>
    rw [List.cons_append, follow, follow]
    split
    · exact ih _
    · rfl

theorem finish_foldl (bytes : List UInt8) (scan : Scan) :
    (bytes.foldl Scan.push scan).finish.all Part.isCharacter = true ↔
      scan.completed.toList.all Part.isCharacter = true ∧
        follow scan.place bytes = some .between := by
  induction bytes generalizing scan with
  | nil =>
    rw [List.foldl_nil, Scan.finish, follow]
    cases scan.place with
    | between => simp
    | inside seen missing low high => simp [Part.isCharacter]
  | cons byte bytes ih =>
    rw [List.foldl_cons, ih, follow, Scan.push]
    dsimp only
    cases characters : (step scan.place byte).1.all Part.isCharacter with
    | true => simp [characters]
    | false => simp [characters]

theorem isValid_iff_follow (bytes : List UInt8) :
    isValid bytes = true ↔ follow .between bytes = some .between := by
  rw [isValid, parts, finish_foldl]
  simp [Scan.start]

theorem continuation_eq (lead : UInt8) : continuation? lead =
    if 0xc2 ≤ lead ∧ lead ≤ 0xdf then some (1, 0x80, 0xbf)
    else if 0xe0 ≤ lead ∧ lead ≤ 0xef then
      some (2, if lead = 0xe0 then 0xa0 else 0x80, if lead = 0xed then 0x9f else 0xbf)
    else if 0xf0 ≤ lead ∧ lead ≤ 0xf4 then
      some (3, if lead = 0xf0 then 0x90 else 0x80, if lead = 0xf4 then 0x8f else 0xbf)
    else none := by
  revert lead
  exact Numeral.byte_cases (by decide +kernel)

theorem continuation_ascii (lead : UInt8) : lead < 0x80 → continuation? lead = none := by
  revert lead
  exact Numeral.byte_cases (by decide +kernel)

theorem follow_between (byte : UInt8) (rest : List UInt8) :
    follow .between (byte :: rest) =
      if byte < 0x80 then follow .between rest
      else (continuation? byte).bind fun (missing, low, high) =>
        follow (.inside [byte] missing low high) rest := by
  rw [follow, step, start]
  by_cases ascii : byte < 0x80
  · simp [ascii, Part.isCharacter]
  · cases continuation? byte <;> simp [ascii, Part.isCharacter]

theorem follow_inside (seen : List UInt8) (missing : ℕ) (low high byte : UInt8)
    (rest : List UInt8) :
    follow (.inside seen missing low high) (byte :: rest) =
      if low ≤ byte ∧ byte ≤ high then
        follow (if missing ≤ 1 then .between
          else .inside (seen ++ [byte]) (missing - 1) 0x80 0xbf) rest
      else none := by
  rw [follow, step]
  by_cases allowed : low ≤ byte ∧ byte ≤ high
  · by_cases last : missing ≤ 1 <;> simp [allowed, last, Part.isCharacter]
  · simp [allowed, Part.isCharacter]

theorem follow_ascii {byte : UInt8} (ascii : byte < 0x80) (rest : List UInt8) :
    follow .between (byte :: rest) = follow .between rest := by
  rw [follow_between, if_pos ascii]

theorem follow_lead {lead low high : UInt8} {missing : ℕ}
    (found : continuation? lead = some (missing, low, high)) (rest : List UInt8) :
    follow .between (lead :: rest) = follow (.inside [lead] missing low high) rest := by
  have ascii : ¬ lead < 0x80 := fun ascii => by
    rw [continuation_ascii lead ascii] at found
    cases found
  rw [follow_between, if_neg ascii, found]
  rfl

theorem follow_allowed {seen : List UInt8} {missing : ℕ} {low high byte : UInt8}
    (allowed : low ≤ byte ∧ byte ≤ high) (rest : List UInt8) :
    follow (.inside seen missing low high) (byte :: rest) =
      follow (if missing ≤ 1 then .between
        else .inside (seen ++ [byte]) (missing - 1) 0x80 0xbf) rest := by
  rw [follow_inside, if_pos allowed]

theorem follow_character {bytes : List UInt8} (character : Character bytes) (rest : List UInt8) :
    follow .between (bytes ++ rest) = follow .between rest := by
  cases character with
  | @one lead ascii => exact follow_ascii ascii rest
  | @two lead next leads tail =>
    have found := continuation_eq lead
    rw [if_pos leads] at found
    exact (follow_lead found _).trans (follow_allowed tail _)
  | @three lead next third leads tail least most last =>
    have found := continuation_eq lead
    rw [if_neg (by grind), if_pos leads] at found
    refine (follow_lead found _).trans ((follow_allowed ?_ _).trans (follow_allowed last _))
    grind [IsTail]
  | @four lead next third fourth leads tail least most middle last =>
    have found := continuation_eq lead
    rw [if_neg (by grind), if_neg (by grind), if_pos leads] at found
    refine (follow_lead found _).trans ((follow_allowed ?_ _).trans
      ((follow_allowed middle _).trans (follow_allowed last _)))
    grind [IsTail]

/-- A scan inside a character ends between characters only behind a byte that may stand there. -/
theorem next_of_follow {seen text : List UInt8} {missing : ℕ} {low high : UInt8}
    (follows : follow (.inside seen missing low high) text = some .between) :
    ∃ next rest, text = next :: rest ∧ (low ≤ next ∧ next ≤ high) ∧
      follow (if missing ≤ 1 then .between
        else .inside (seen ++ [next]) (missing - 1) 0x80 0xbf) rest = some .between := by
  cases text with
  | nil => cases follows
  | cons next rest =>
    rw [follow_inside] at follows
    split at follows
    · next allowed => exact ⟨next, rest, rfl, allowed, follows⟩
    · cases follows

/-- A scan that starts a character of several bytes and ends between characters has passed over
that character. -/
theorem character_of_follow {lead low high : UInt8} {missing : ℕ} {rest : List UInt8}
    (found : continuation? lead = some (missing, low, high))
    (follows : follow (.inside [lead] missing low high) rest = some .between) :
    ∃ tails behind, rest = tails ++ behind ∧ Character (lead :: tails) ∧
      follow .between behind = some .between := by
  rw [continuation_eq] at found
  obtain ⟨second, behind, rfl, tail, more⟩ := next_of_follow follows
  split at found
  · next leads =>
    cases found
    exact ⟨[second], behind, rfl, .two leads tail, more⟩
  split at found
  · next leads =>
    cases found
    obtain ⟨third, behind, rfl, last, more⟩ := next_of_follow more
    refine ⟨[second, third], behind, rfl, .three leads ?_ ?_ ?_ last, more⟩ <;> grind [IsTail]
  split at found
  · next leads =>
    cases found
    obtain ⟨third, behind, rfl, middle, more⟩ := next_of_follow more
    obtain ⟨fourth, behind, rfl, last, more⟩ := next_of_follow more
    refine ⟨[second, third, fourth], behind, rfl, .four leads ?_ ?_ ?_ middle last, more⟩ <;>
      grind [IsTail]
  · cases found

theorem characters_of_follow (bytes : List UInt8)
    (follows : follow .between bytes = some .between) :
    ∃ characters : List (List UInt8), (∀ each ∈ characters, Character each) ∧
      characters.flatten = bytes := by
  induction size : bytes.length using Nat.strongRecOn generalizing bytes with
  | ind size ih =>
  subst size
  cases bytes with
  | nil => exact ⟨[], by simp, rfl⟩
  | cons lead rest =>
    rw [follow_between] at follows
    split at follows
    · next ascii =>
      obtain ⟨characters, all, rfl⟩ := ih _ (Nat.lt_succ_self _) rest follows rfl
      exact ⟨[lead] :: characters, List.forall_mem_cons.mpr ⟨.one ascii, all⟩, rfl⟩
    · obtain ⟨⟨missing, low, high⟩, found, follows⟩ := Option.bind_eq_some_iff.mp follows
      obtain ⟨tails, behind, rfl, character, follows⟩ := character_of_follow found follows
      have shorter : behind.length < (lead :: (tails ++ behind)).length := by
        rw [List.length_cons, List.length_append]
        omega
      obtain ⟨characters, all, rfl⟩ := ih _ shorter behind follows rfl
      exact ⟨(lead :: tails) :: characters, List.forall_mem_cons.mpr ⟨character, all⟩, rfl⟩

theorem isValid_iff (bytes : List UInt8) :
    isValid bytes = true ↔ bytes.toByteArray.IsValidUTF8 := by
  rw [isValid_iff_follow, isValidUTF8_iff]
  refine ⟨characters_of_follow bytes, ?_⟩
  rintro ⟨characters, all, rfl⟩
  induction characters with
  | nil => rfl
  | cons first rest ih =>
    obtain ⟨isFirst, others⟩ := List.forall_mem_cons.mp all
    rw [List.flatten_cons, follow_character isFirst]
    exact ih others

end Scans

section Places

def Place.Sound : Place → Prop
  | .between => True
  | .inside _ _ low high => 0x80 ≤ low ∧ high ≤ 0xbf

variable {place next : Place} {byte : UInt8}

theorem sound_lead {missing : ℕ} {low high : UInt8}
    (found : continuation? byte = some (missing, low, high)) :
    0xc2 ≤ byte ∧ 0x80 ≤ low ∧ high ≤ 0xbf := by
  rw [continuation_eq] at found
  grind

/-- A byte is a tail exactly if it is taken in the middle of a character, and then the scan stays
sound. -/
theorem step_sound (sound : place.Sound) (follows : follow place [byte] = some next) :
    next.Sound ∧ (place ≠ .between ↔ IsTail byte) ∧ (byte < 0x80 → next = .between) := by
  cases place with
  | between =>
    rw [follow_between] at follows
    split at follows
    · next ascii =>
      obtain rfl := Option.some.inj follows
      exact ⟨trivial, by grind [IsTail], fun _ => rfl⟩
    · next wide =>
      obtain ⟨⟨missing, low, high⟩, found, same⟩ := Option.bind_eq_some_iff.mp follows
      obtain rfl := Option.some.inj same
      obtain ⟨leads, least, most⟩ := sound_lead found
      exact ⟨⟨least, most⟩, by grind [IsTail], fun ascii => absurd ascii wide⟩
  | inside seen missing low high =>
    rw [follow_inside] at follows
    obtain ⟨least, most⟩ := sound
    split at follows
    · next allowed =>
      obtain rfl := Option.some.inj follows
      have tail : IsTail byte := by grind [IsTail]
      refine ⟨?_, by simp [tail], by grind [IsTail]⟩
      split
      · trivial
      · exact ⟨by decide, by decide⟩
    · cases follows

theorem follow_cons (place : Place) (byte : UInt8) (rest : List UInt8) :
    follow place (byte :: rest) = (follow place [byte]).bind (follow · rest) :=
  follow_append place [byte] rest

/-- Bytes of ASCII stand between characters. -/
theorem follow_plain {text : List UInt8} (ascii : ∀ byte ∈ text, byte < 0x80) :
    follow .between text = some .between := by
  induction text with
  | nil => rfl
  | cons byte text ih =>
    obtain ⟨first, others⟩ := List.forall_mem_cons.mp ascii
    rw [follow_ascii first]
    exact ih others

theorem between_of_ascii (sound : place.Sound) (ascii : byte < 0x80)
    (follows : follow place [byte] = some next) : place = .between ∧ next = .between := by
  obtain ⟨-, tail, between⟩ := step_sound sound follows
  refine ⟨?_, between ascii⟩
  by_contra inside
  obtain ⟨least, -⟩ := tail.mp inside
  grind

theorem sound_follow (sound : place.Sound) {text : List UInt8}
    (follows : follow place text = some next) : next.Sound := by
  induction text generalizing place with
  | nil =>
    obtain rfl := Option.some.inj follows
    exact sound
  | cons byte text ih =>
    rw [follow_cons] at follows
    obtain ⟨middle, first, rest⟩ := Option.bind_eq_some_iff.mp follows
    exact ih (step_sound sound first).1 rest

end Places

end PdfPrimitives.Utf8
