import PdfPrimitives.Token.Parentheses

/-!
Parentheses without a partner, found by looking ahead. A closing parenthesis lacks a
partner if nothing is open, and an opening one if what follows does not close it. The marks
that are found by a stack of places and a walk along them are the same.
-/

namespace PdfPrimitives.Parentheses

def demand : List UInt8 → Nat
  | [] => 0
  | byte :: rest =>
    if byte = Byte.openParen then demand rest - 1
    else if byte = Byte.closeParen then demand rest + 1
    else demand rest

def lacksPartner (opened : Nat) (byte : UInt8) (rest : List UInt8) : Bool :=
  if byte = Byte.openParen then demand rest == 0
  else byte == Byte.closeParen && opened == 0

def openedBehind (opened : Nat) (byte : UInt8) : Nat :=
  if byte = Byte.openParen then opened + 1
  else if byte = Byte.closeParen then opened - 1
  else opened

def marksFrom (opened : Nat) : List UInt8 → List Bool
  | [] => []
  | byte :: rest => lacksPartner opened byte rest :: marksFrom (openedBehind opened byte) rest

section Places

def closers (position opened : Nat) : List UInt8 → List Nat
  | [] => []
  | byte :: rest =>
    let later := closers (position + 1) (openedBehind opened byte) rest
    if byte = Byte.closeParen ∧ opened = 0 then position :: later else later

def openers (position : Nat) : List UInt8 → List Nat
  | [] => []
  | byte :: rest =>
    let later := openers (position + 1) rest
    if byte = Byte.openParen ∧ demand rest = 0 then position :: later else later

def places (position opened : Nat) : List UInt8 → List Nat
  | [] => []
  | byte :: rest =>
    let later := places (position + 1) (openedBehind opened byte) rest
    if lacksPartner opened byte rest then position :: later else later

/-- The stack keeps what is open and not closed, and the rest of what was open before. -/
theorem foldl_push (bytes : List UInt8) (position : Nat) (opened unopened : List Nat) :
    (bytes.foldl Scan.push ⟨position, opened, unopened⟩).opened =
        (openers position bytes).reverse ++ opened.drop (demand bytes) ∧
      (bytes.foldl Scan.push ⟨position, opened, unopened⟩).unopened =
        (closers position opened.length bytes).reverse ++ unopened := by
  -- What the scan pops is what the grammar counts as demanded from before.
  have apart : Byte.closeParen ≠ Byte.openParen := by decide
  induction bytes generalizing position opened unopened with
  | nil => exact ⟨rfl, rfl⟩
  | cons byte rest ih =>
    rw [List.foldl_cons]
    by_cases isOpen : byte = Byte.openParen
    · subst isOpen
      obtain ⟨open_eq, closed_eq⟩ := ih (position + 1) (position :: opened) unopened
      have pushed : Scan.push ⟨position, opened, unopened⟩ Byte.openParen =
          ⟨position + 1, position :: opened, unopened⟩ := rfl
      rw [pushed, open_eq, closed_eq]
      constructor
      · cases wanted : demand rest with
        | zero => simp [openers, demand, wanted]
        | succ count => simp [openers, demand, wanted]
      · simp [closers, openedBehind, apart.symm]
    by_cases isClose : byte = Byte.closeParen
    · subst isClose
      cases opened with
      | nil =>
        obtain ⟨open_eq, closed_eq⟩ := ih (position + 1) [] (position :: unopened)
        have pushed : Scan.push ⟨position, [], unopened⟩ Byte.closeParen =
            ⟨position + 1, [], position :: unopened⟩ := rfl
        rw [pushed, open_eq, closed_eq]
        simp [openers, closers, openedBehind, apart]
      | cons last opened =>
        obtain ⟨open_eq, closed_eq⟩ := ih (position + 1) opened unopened
        have pushed : Scan.push ⟨position, last :: opened, unopened⟩ Byte.closeParen =
            ⟨position + 1, opened, unopened⟩ := rfl
        rw [pushed, open_eq, closed_eq]
        simp [openers, closers, openedBehind, demand, apart]
    · obtain ⟨open_eq, closed_eq⟩ := ih (position + 1) opened unopened
      have pushed : Scan.push ⟨position, opened, unopened⟩ byte =
          ⟨position + 1, opened, unopened⟩ := by
        simp [Scan.push, isOpen, isClose]
      rw [pushed, open_eq, closed_eq]
      simp [openers, closers, openedBehind, demand, isOpen, isClose]

theorem unmatched_eq (bytes : List UInt8) :
    unmatched bytes = closers 0 0 bytes ++ openers 0 bytes := by
  obtain ⟨open_eq, closed_eq⟩ := foldl_push bytes 0 [] []
  simp only [unmatched, Scan.start, open_eq, closed_eq]
  simp

theorem closers_eq_nil (bytes : List UInt8) (position opened : Nat)
    (enough : demand bytes ≤ opened) : closers position opened bytes = [] := by
  induction bytes generalizing position opened with
  | nil => rfl
  | cons byte rest ih =>
    have later : closers (position + 1) (openedBehind opened byte) rest = [] := by
      apply ih
      simp only [demand, openedBehind] at enough ⊢
      split at enough
      · next isOpen =>
        rw [if_pos isOpen]
        omega
      · next notOpen =>
        rw [if_neg notOpen]
        split at enough
        · next isClose =>
          rw [if_pos isClose]
          omega
        · next notClose => rwa [if_neg notClose]
    simp only [closers, later]
    rw [if_neg]
    rintro ⟨isClose, none⟩
    simp [demand, isClose, none, show Byte.closeParen ≠ Byte.openParen by decide] at enough

theorem places_eq (bytes : List UInt8) (position opened : Nat) :
    places position opened bytes = closers position opened bytes ++ openers position bytes := by
  induction bytes generalizing position opened with
  | nil => rfl
  | cons byte rest ih =>
    simp only [places, closers, openers, lacksPartner, ih]
    by_cases isOpen : byte = Byte.openParen
    · subst isOpen
      have notClose : Byte.openParen ≠ Byte.closeParen := by decide
      -- If nothing closes this one, all closing ones behind it find partners.
      by_cases none : demand rest = 0
      · have enough : demand rest ≤ openedBehind opened Byte.openParen := by omega
        simp [notClose, none, closers_eq_nil rest _ _ enough]
      · simp [notClose, none]
    · by_cases isClose : byte = Byte.closeParen
      · subst isClose
        by_cases none : opened = 0 <;> simp [isOpen, none]
      · simp [isOpen, isClose]

theorem le_places (bytes : List UInt8) (position opened : Nat) :
    ∀ place ∈ places position opened bytes, position ≤ place := by
  induction bytes generalizing position opened with
  | nil => simp [places]
  | cons byte rest ih =>
    have later := ih (position + 1) (openedBehind opened byte)
    intro place member
    simp only [places] at member
    split at member
    · rcases List.mem_cons.mp member with rfl | behind
      · exact Nat.le_refl _
      · exact Nat.le_of_succ_le (later place behind)
    · exact Nat.le_of_succ_le (later place member)

end Places

theorem foldl_walk (bytes : List UInt8) (position opened : Nat) (marked : Array Bool) :
    (bytes.foldl Walk.push ⟨position, places position opened bytes, marked⟩).marks.toList =
      marked.toList ++ marksFrom opened bytes := by
  induction bytes generalizing position opened marked with
  | nil => simp [marksFrom]
  | cons byte rest ih =>
    have pushed : Walk.push ⟨position, places position opened (byte :: rest), marked⟩ byte =
        ⟨position + 1, places (position + 1) (openedBehind opened byte) rest,
          marked.push (lacksPartner opened byte rest)⟩ := by
      by_cases lacks : lacksPartner opened byte rest = true
      · simp [places, Walk.push, lacks]
      · have behind := le_places rest (position + 1) (openedBehind opened byte)
        simp only [places, lacks, Walk.push]
        cases later : places (position + 1) (openedBehind opened byte) rest with
        | nil => simp
        | cons next more =>
          have := behind next (by simp [later])
          simp [show next ≠ position by omega]
    rw [List.foldl_cons, pushed, ih]
    simp [marksFrom]

theorem marks_eq (bytes : List UInt8) : marks bytes = marksFrom 0 bytes := by
  have walked := foldl_walk bytes 0 0 #[]
  rw [places_eq, ← unmatched_eq] at walked
  simpa [marks] using walked

end PdfPrimitives.Parentheses
