import Mathlib.Algebra.Group.Nat.Defs
import PdfPrimitives.Proofs.Token.Steps

/-!
Words and names. Both go on with all regular bytes and must fit into the capacity, which
limits what the bytes of a name stand for and not how they are spelled.
-/

namespace PdfPrimitives.Reader

theorem toNat_shiftLeft_or (high low width : UInt8) (narrow : width.toNat < 8)
    (small : low.toNat < 2 ^ width.toNat) :
    ((high <<< width) ||| low).toNat = (2 ^ width.toNat * high.toNat + low.toNat) % 2 ^ 8 := by
  have whole : low.toNat % 2 ^ 8 = low.toNat := Nat.mod_eq_of_lt low.toNat_lt
  rw [UInt8.toNat_or, UInt8.toNat_shiftLeft, Nat.mod_eq_of_lt narrow, ← whole,
    ← Nat.or_mod_two_pow, whole, ← Nat.shiftLeft_add_eq_or_of_lt small, Nat.shiftLeft_eq,
    Nat.mul_comm]

theorem shiftLeft_or_nibble (high low : UInt8) (small : low < 16) :
    (high <<< 4) ||| low = 16 * high + low := by
  apply UInt8.toNat.inj
  rw [toNat_shiftLeft_or high low 4 (by decide) (UInt8.lt_iff_toNat_lt.mp small)]
  simp

theorem hexValue_lt (byte value : UInt8) (digit : Byte.hexValue? byte = some value) :
    value < 16 := by
  unfold Byte.hexValue? at digit
  grind

variable {flags : ReadFlags} (all : flags.toLineFeed = false)
variable (offset begun last : Nat)

include all in
theorem read_word (bytes : List UInt8) (found : Array UInt8) (short : found.size ≤ wordCapacity) :
    Agrees begun
      (if wordCapacity < found.size + (bytes.takeWhile Byte.isRegular).length then
        .error .bufferExhausted
      else .ok (Token.ofWord (found.toList ++ bytes.takeWhile Byte.isRegular),
        bytes.dropWhile Byte.isRegular))
      (read flags ⟨.holding bytes offset, .word found, begun, last⟩) := by
  have ends : ∀ (found : Array UInt8) (behind : List UInt8) (offset : Nat),
      (∀ byte ∈ behind.head?, Byte.isRegular byte = false) →
      Agrees begun (.ok (Token.ofWord found.toList, behind))
        (read flags ⟨.holding behind offset, .word found, begun, last⟩) := by
    intro found behind offset stops
    refine read_boundary all offset begun last (.word found) behind rfl rfl ?_ stops
      (.ok (Token.ofWord found.toList)) rfl
    intro byte boundary
    simp [Mode.step, boundary]
  induction bytes generalizing found offset with
  | nil => simpa [Nat.not_lt.mpr short] using ends found [] offset (by simp)
  | cons byte bytes ih =>
    by_cases regular : Byte.isRegular byte = true
    · by_cases full : wordCapacity ≤ found.size
      · have stepped : Mode.step flags (.word found) byte =
            .refuse .bufferExhausted (.word found) := by
          simp [Mode.step, role_regular all byte regular, Mode.store, full]
        have long : wordCapacity <
            found.size + ((byte :: bytes).takeWhile Byte.isRegular).length := by
          simp only [List.takeWhile_cons, regular, ↓reduceIte, List.length_cons]
          omega
        rw [if_pos long]
        exact read_refuse _ _ _ _ stepped
      · have stepped : Mode.step flags (.word found) byte = .take (.word (found.push byte)) := by
          simp [Mode.step, role_regular all byte regular, Mode.store, full]
        rw [read_take _ _ _ _ rfl stepped]
        have tail := ih (offset + 1) (found.push byte) (by simp only [Array.size_push]; omega)
        simpa [List.takeWhile_cons, regular, Nat.add_assoc, Nat.add_comm 1] using tail
    · simpa [List.takeWhile_cons, List.dropWhile_cons, regular, Nat.not_lt.mpr short] using
        ends found (byte :: bytes) offset (by simpa using regular)

def named (found : List UInt8) (scan : List UInt8 × Option TokenFault) (behind : List UInt8) :
    Except TokenFault (Token × List UInt8) :=
  if wordCapacity < (found ++ scan.1).length then .error .bufferExhausted
  else
    match scan.2 with
    | some fault => .error fault
    | none => .ok (.name (found ++ scan.1), behind)

theorem named_cons (found decoded behind : List UInt8) (byte : UInt8)
    (fault : Option TokenFault) :
    named found (byte :: decoded, fault) behind =
      named (found ++ [byte]) (decoded, fault) behind := by
  simp [named]

theorem named_full (found decoded behind : List UInt8) (byte : UInt8)
    (fault : Option TokenFault) (full : wordCapacity ≤ found.length) :
    named found (byte :: decoded, fault) behind = .error .bufferExhausted := by
  rw [named, if_pos]
  simp only [List.length_append, List.length_cons]
  omega

theorem named_fault (found behind : List UInt8) (fault : TokenFault)
    (short : found.length ≤ wordCapacity) :
    named found ([], some fault) behind = .error fault := by
  simp [named, Nat.not_lt.mpr short]

include all in
theorem step_name (found : Array UInt8) (escape : NameEscape) (byte : UInt8)
    (regular : Byte.isRegular byte = true) :
    Mode.step flags (.name found escape) byte = Mode.nameStep flags found escape byte := by
  simp [Mode.step, role_regular all byte regular]

include all in
theorem read_hash (found : Array UInt8) (byte : UInt8) (behind : List UInt8)
    (regular : Byte.isRegular byte = true) (visible : ¬(!Byte.isVisible byte) = true)
    (escape : (byte = Byte.hash && !flags.plainNames) = true) :
    read flags ⟨.holding (byte :: behind) offset, .name found .none, begun, last⟩ =
      read flags ⟨.holding behind (offset + 1), .name found .first, begun, last⟩ := by
  apply read_take _ _ _ _ rfl
  rw [step_name all _ _ _ regular]
  simp_all [Mode.nameStep]

include all in
theorem read_high_digit (found : Array UInt8) (byte high : UInt8) (behind : List UInt8)
    (regular : Byte.isRegular byte = true) (digit : Byte.hexValue? byte = some high) :
    read flags ⟨.holding (byte :: behind) offset, .name found .first, begun, last⟩ =
      read flags ⟨.holding behind (offset + 1), .name found (.second high), begun, last⟩ := by
  apply read_take _ _ _ _ rfl
  rw [step_name all _ _ _ regular]
  simp [Mode.nameStep, digit]

include all in
theorem read_name_boundary (found : Array UInt8) (escape : NameEscape) (behind : List UInt8)
    (stops : ∀ byte ∈ behind.head?, Byte.isRegular byte = false)
    (expected : Except TokenFault Token)
    (amounts : (Mode.name found escape).finish flags = expected.map some) :
    Agrees begun (expected.map (·, behind))
      (read flags ⟨.holding behind offset, .name found escape, begun, last⟩) := by
  refine read_boundary all offset begun last _ behind rfl rfl ?_ stops expected amounts
  intro byte boundary
  simp [Mode.step, boundary]

include all in
theorem read_name_refused (found : Array UInt8) (escape : NameEscape) (byte : UInt8)
    (rest behind : List UInt8) (short : found.size ≤ wordCapacity)
    (regular : Byte.isRegular byte = true)
    (refused : Mode.nameStep flags found escape byte =
      .refuse (.invalidCharacter byte) (.name found escape)) :
    Agrees begun (named found.toList ([], some (.invalidCharacter byte)) behind)
      (read flags ⟨.holding (byte :: rest) offset, .name found escape, begun, last⟩) := by
  rw [named_fault _ _ _ (by simpa using short)]
  exact read_refuse _ _ _ _ ((step_name all _ _ _ regular).trans refused)

include all in
theorem read_name_stored (found : Array UInt8) (escape : NameEscape) (byte value : UInt8)
    (rest decoded behind : List UInt8) (fault : Option TokenFault)
    (regular : Byte.isRegular byte = true)
    (stored : Mode.nameStep flags found escape byte =
      Mode.store found value (.name · escape) (.name · .none))
    (goes : (found.push value).size ≤ wordCapacity →
      Agrees begun (named (found.push value).toList (decoded, fault) behind)
        (read flags ⟨.holding rest (offset + 1), .name (found.push value) .none, begun, last⟩)) :
    Agrees begun (named found.toList (value :: decoded, fault) behind)
      (read flags ⟨.holding (byte :: rest) offset, .name found escape, begun, last⟩) := by
  have stepped := (step_name all found escape byte regular).trans stored
  by_cases full : wordCapacity ≤ found.size
  · rw [named_full _ _ _ _ _ (by simpa using full)]
    rw [Mode.store, if_pos full] at stepped
    exact read_refuse _ _ _ _ stepped
  · rw [Mode.store, if_neg full] at stepped
    rw [named_cons, read_take _ _ _ _ rfl stepped, ← Array.toList_push]
    exact goes (by rw [Array.size_push]; omega)

include all in
theorem read_name_cut (found : Array UInt8) (escape : NameEscape) (behind : List UInt8)
    (short : found.size ≤ wordCapacity) (inside : escape ≠ .none)
    (stops : ∀ byte ∈ behind.head?, Byte.isRegular byte = false) :
    Agrees begun (named found.toList ([], some .unterminatedName) behind)
      (read flags ⟨.holding behind offset, .name found escape, begun, last⟩) := by
  rw [named_fault _ _ _ (by simpa using short)]
  refine read_name_boundary all offset begun last found escape behind stops
    (.error .unterminatedName) ?_
  cases escape with
  | none => exact absurd rfl inside
  | first | second => rfl

include all in
theorem read_name (run behind : List UInt8) (found : Array UInt8)
    (short : found.size ≤ wordCapacity)
    (regular : ∀ byte ∈ run, Byte.isRegular byte = true)
    (stops : ∀ byte ∈ behind.head?, Byte.isRegular byte = false) :
    Agrees begun (named found.toList (Lexical.nameBytes flags.plainNames run) behind)
      (read flags ⟨.holding (run ++ behind) offset, .name found .none, begun, last⟩) := by
  -- The states of the mode are the positions at which the grammar looks into an escape.
  fun_induction Lexical.nameBytes flags.plainNames run generalizing found offset with
  | case1 =>
    have ended := read_name_boundary all offset begun last found .none behind stops
      (.ok (.name found.toList)) rfl
    simpa [named, Nat.not_lt.mpr short, Except.map] using ended
  | case2 byte rest hidden =>
    exact read_name_refused all _ _ _ _ _ byte _ _ short (regular byte (by simp))
      (by simp [Mode.nameStep, hidden])
  | case3 byte visible escape =>
    rw [List.cons_append, read_hash all _ _ _ _ byte _ (regular byte (by simp)) visible escape]
    exact read_name_cut all _ _ _ _ .first behind short (by simp) stops
  | case4 byte visible escape first rest missing =>
    rw [List.cons_append, read_hash all _ _ _ _ byte _ (regular byte (by simp)) visible escape]
    exact read_name_refused all _ _ _ _ _ first _ _ short (regular first (by simp))
      (by simp [Mode.nameStep, missing])
  | case5 byte visible escape first high digit =>
    rw [List.cons_append, read_hash all _ _ _ _ byte _ (regular byte (by simp)) visible escape,
      List.cons_append, read_high_digit all _ _ _ _ first high _ (regular first (by simp)) digit]
    exact read_name_cut all _ _ _ _ (.second high) behind short (by simp) stops
  | case6 byte visible escape first high second rest digit missing =>
    rw [List.cons_append, read_hash all _ _ _ _ byte _ (regular byte (by simp)) visible escape,
      List.cons_append, read_high_digit all _ _ _ _ first high _ (regular first (by simp)) digit]
    exact read_name_refused all _ _ _ _ _ second _ _ short (regular second (by simp))
      (by simp [Mode.nameStep, missing])
  | case7 byte visible escape first high second rest digit low digit' zero =>
    rw [List.cons_append, read_hash all _ _ _ _ byte _ (regular byte (by simp)) visible escape,
      List.cons_append, read_high_digit all _ _ _ _ first high _ (regular first (by simp)) digit]
    refine read_name_refused all _ _ _ _ _ second _ _ short (regular second (by simp)) ?_
    simp [Mode.nameStep, digit', shiftLeft_or_nibble _ _ (hexValue_lt second low digit'), zero]
  -- Only bytes of the name count against the capacity, whole escapes as one.
  | case8 byte visible escape first high second rest digit low digit' zero decoded fault scan ih =>
    rw [List.cons_append, read_hash all _ _ _ _ byte _ (regular byte (by simp)) visible escape,
      List.cons_append, read_high_digit all _ _ _ _ first high _ (regular first (by simp)) digit]
    refine read_name_stored all _ _ _ _ _ second _ _ _ _ _ (regular second (by simp)) ?_ ?_
    · simp [Mode.nameStep, digit', shiftLeft_or_nibble _ _ (hexValue_lt second low digit'), zero]
    · rw [← scan]
      exact fun fits => ih _ _ fits (fun byte member => regular byte (by simp [member]))
  | case9 byte rest visible plain decoded fault scan ih =>
    refine read_name_stored all _ _ _ _ _ byte _ _ _ _ _ (regular byte (by simp)) ?_ ?_
    · simp [Mode.nameStep, visible, plain]
    · rw [← scan]
      exact fun fits => ih _ _ fits (fun byte member => regular byte (by simp [member]))

include all in
theorem read_run (bytes : List UInt8) :
    Agrees begun (Lexical.name flags.plainNames bytes)
      (read flags ⟨.holding bytes offset, .name #[] .none, begun, last⟩) := by
  have read := read_name all offset begun last (bytes.takeWhile Byte.isRegular)
    (bytes.dropWhile Byte.isRegular) #[] (Nat.zero_le _)
    (List.all_eq_true.mp List.all_takeWhile) (head_dropWhile bytes)
  rwa [List.takeWhile_append_dropWhile] at read

end PdfPrimitives.Reader
