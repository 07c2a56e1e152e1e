import PdfPrimitives.Proofs.Calculator.Distances

/-!
The byte encoding of programs. Encoding and decoding are inverse to each other, and the bytes that
decode are those whose skips lead ahead, to where an instruction begins.
-/

namespace PdfPrimitives.Calculator

namespace Bytecode

/-- Decoding takes back exactly the bytes of a program whose skips have distances. -/
theorem decoded_iff (bytes : List UInt8) (code : List Instruction) :
    (∃ raw, splitFrom 0 bytes = some raw ∧ resolve raw = some code) ↔
      encodeFrom (offsets code) 0 code = bytes ∧ ∃ raw, Measured code raw ∧ NearFrom 0 raw := by
  constructor
  · rintro ⟨raw, parts, resolved⟩
    obtain ⟨rfl, near⟩ := chunks_of_split 0 bytes raw parts
    have measured := (resolve_iff raw code).mp resolved
    exact ⟨encodeFrom_measured measured 0, raw, measured, near⟩
  · rintro ⟨rfl, raw, measured, near⟩
    refine ⟨raw, ?_, (resolve_iff raw code).mpr measured⟩
    rw [encodeFrom_measured measured]
    exact split_chunks 0 raw near

theorem length_encodeOne (table : List Nat) (start : Nat) (instruction : Instruction) :
    (encodeOne table start instruction).length = size instruction := by
  cases instruction <;> simp [encodeOne, size, length_wordBytes]

theorem length_encodeFrom (table : List Nat) (start : Nat) (code : List Instruction) :
    (encodeFrom table start code).length = extent code := by
  induction code generalizing start with
  | nil => rfl
  | cons instruction rest ih =>
    rw [encodeFrom, List.length_append, length_encodeOne, ih, extent]

inductive Encoded : List UInt8 → Prop
  | literal (payload : List UInt8) (complete : payload.length = 8) :
    Encoded (literalTag :: payload)
  | skip (payload : List UInt8) (complete : payload.length = 4) : Encoded (skipTag :: payload)
  | skipUnless (payload : List UInt8) (complete : payload.length = 4) :
    Encoded (skipUnlessTag :: payload)
  | operator (operator : Operator) : Encoded [operator.tag]
  | placeholder : Encoded [placeholderTag]
  | stop : Encoded [stopTag]

def offset? : List UInt8 → Option Int
  | [] => none
  | tag :: payload =>
    if tag = skipTag ∨ tag = skipUnlessTag then some (Int.bmod (wordValue payload) (2 ^ 32))
    else none

/-- Bytes that split into instructions. Every skip has an offset that is not negative and
leads to the first byte of an instruction or to the end. -/
def Accepted (bytes : List UInt8) : Prop :=
  ∃ chunks : List (List UInt8), bytes = chunks.flatten ∧ (∀ chunk ∈ chunks, Encoded chunk) ∧
    ∀ front chunk back offset, chunks = front ++ chunk :: back → offset? chunk = some offset →
      0 ≤ offset ∧ ∃ before after, chunks = before ++ after ∧
        (before.flatten.length : Int) = front.flatten.length + chunk.length + offset

theorem offset_spell (start : Nat) (instruction : Instruction) (near : Near start instruction) :
    offset? (spell start instruction) =
      instruction.carried?.map fun target => ((target - (start + 5) : Nat) : Int) := by
  have signed (distance : Nat) (small : distance < 2 ^ 31) :
      Int.bmod (wordValue (wordBytes 4 distance)) (2 ^ 32) = distance := by
    rw [wordValue_wordBytes 4 distance (by omega), Int.bmod_def]
    omega
  cases instruction with
  | skip target =>
    have small := (near target rfl).2
    rw [spell, offset?, if_pos (.inl rfl), signed _ (by omega)]
    rfl
  | skipUnless target =>
    have small := (near target rfl).2
    rw [spell, offset?, if_pos (.inr rfl), signed _ (by omega)]
    rfl
  | literal | placeholder | stop => rfl
  | operator operator =>
    have small := operator.tag_small
    rw [spell, offset?, if_neg]
    · rfl
    · rintro (same | same) <;> rw [same] at small <;> exact absurd small (by decide)

theorem encoded_spell (start : Nat) (instruction : Instruction) :
    Encoded (spell start instruction) := by
  cases instruction with
  | literal bits => exact .literal _ (length_wordBytes 8 _)
  | operator operator => exact .operator operator
  | skipUnless target => exact .skipUnless _ (length_wordBytes 4 _)
  | skip target => exact .skip _ (length_wordBytes 4 _)
  | placeholder => exact .placeholder
  | stop => exact .stop

theorem small_of_offset (payload : List UInt8) (complete : payload.length = 4)
    (forward : 0 ≤ Int.bmod (wordValue payload) (2 ^ 32)) : wordValue payload < 2 ^ 31 := by
  have bound := wordValue_lt payload
  rw [complete] at bound
  rw [Int.bmod_def] at forward
  omega

theorem spelled_of_encoded (start : Nat) (chunk : List UInt8) (encoded : Encoded chunk)
    (forward : ∀ offset, offset? chunk = some offset → 0 ≤ offset) :
    ∃ instruction, Near start instruction ∧ spell start instruction = chunk := by
  cases encoded with
  | literal payload complete =>
    exact ⟨_, near_of_plain _ _ rfl, spell_literal start payload complete⟩
  | skip payload complete =>
    have small := small_of_offset payload complete (forward _ rfl)
    exact ⟨_, near_of_distance start _ small _ rfl, spell_skip start payload complete⟩
  | skipUnless payload complete =>
    have small := small_of_offset payload complete (forward _ rfl)
    exact ⟨_, near_of_distance start _ small _ rfl, spell_skipUnless start payload complete⟩
  | operator operator => exact ⟨.operator operator, near_of_plain _ _ rfl, rfl⟩
  | placeholder => exact ⟨.placeholder, near_of_plain _ _ rfl, rfl⟩
  | stop => exact ⟨.stop, near_of_plain _ _ rfl, rfl⟩

theorem chunks_of_encoded (start : Nat) (pieces : List (List UInt8))
    (each : ∀ chunk ∈ pieces, Encoded chunk ∧
      ∀ offset, offset? chunk = some offset → 0 ≤ offset) :
    ∃ raw, chunks start raw = pieces ∧ NearFrom start raw := by
  induction pieces generalizing start with
  | nil => exact ⟨[], rfl, trivial⟩
  | cons chunk rest ih =>
    obtain ⟨⟨encoded, forward⟩, others⟩ := List.forall_mem_cons.mp each
    obtain ⟨instruction, near, rfl⟩ := spelled_of_encoded start chunk encoded forward
    obtain ⟨raw, rfl, nearby⟩ := ih (start + size instruction) others
    exact ⟨instruction :: raw, rfl, near, nearby⟩

theorem chunks_append (start : Nat) (front back : List Instruction) :
    chunks start (front ++ back) = chunks start front ++ chunks (start + extent front) back := by
  induction front generalizing start with
  | nil => rfl
  | cons instruction front ih =>
    rw [List.cons_append, chunks, ih, chunks, extent, Nat.add_assoc]
    rfl

theorem chunks_eq_append (start : Nat) (raw : List Instruction) (first second : List (List UInt8))
    (same : chunks start raw = first ++ second) :
    ∃ front back, raw = front ++ back ∧ chunks start front = first ∧
      chunks (start + extent front) back = second := by
  induction first generalizing start raw with
  | nil => exact ⟨[], raw, rfl, rfl, same⟩
  | cons chunk first ih =>
    cases raw with
    | nil => cases same
    | cons instruction rest =>
      obtain ⟨rfl, others⟩ := List.cons.inj same
      obtain ⟨front, back, rfl, rfl, rfl⟩ := ih (start + size instruction) rest others
      exact ⟨instruction :: front, back, rfl, rfl, by rw [extent, Nat.add_assoc]⟩

theorem length_flatten_chunks (start : Nat) (raw : List Instruction) :
    (chunks start raw).flatten.length = extent raw := by
  induction raw generalizing start with
  | nil => rfl
  | cons instruction rest ih =>
    rw [chunks, List.flatten_cons, List.length_append, length_spell, ih, extent]

theorem near_behind (front back : List Instruction) (instruction : Instruction)
    (near : NearFrom 0 (front ++ instruction :: back)) : Near (extent front) instruction := by
  have here := (nearFrom_iff 0 _).mp near front.length instruction (by simp)
  rwa [List.take_left, Nat.zero_add] at here

/-- Skips are resolved exactly if each of them leads to where a place begins. -/
theorem resolves_iff (raw : List Instruction) :
    (∃ code, resolve raw = some code) ↔
      ∀ instruction ∈ raw, ∀ byte, instruction.carried? = some byte →
        ∃ place : Nat, (offsets raw)[place]? = some byte := by
  constructor
  · rintro ⟨code, resolved⟩ instruction member byte carried
    have measured := (resolve_iff raw code).mp resolved
    have flipped : List.Forall₂ (flip (Measures (offsets code))) raw code := measured.flip
    obtain ⟨place, here⟩ := List.mem_iff_getElem?.mp member
    obtain ⟨_, -, measures⟩ := related_at flipped place instruction here
    obtain ⟨target, -, reached⟩ := Measures.carried measures byte carried
    rw [offsets, offsetsFrom_measured measured]
    exact ⟨target, reached⟩
  · intro lands
    obtain ⟨code, retargeted⟩ := exists_retargeted (fun byte => (offsets raw).idxOf? byte) raw
      fun instruction member byte carried => by
        obtain ⟨place, reached⟩ := lands instruction member byte carried
        exact ⟨place, (place_iff 0 raw place byte).mpr reached⟩
    exact ⟨code, mapM_some_iff.mpr retargeted⟩

theorem accepted_of_resolved (raw code : List Instruction) (near : NearFrom 0 raw)
    (resolved : resolve raw = some code) : Accepted (chunks 0 raw).flatten := by
  have encoded : ∀ chunk ∈ chunks 0 raw, Encoded chunk := by
    intro chunk member
    obtain ⟨front, back, same⟩ := List.append_of_mem member
    obtain ⟨_, later, -, -, tail⟩ := chunks_eq_append 0 raw _ _ same
    cases later with
    | nil => cases tail
    | cons instruction after =>
      obtain ⟨rfl, -⟩ := List.cons.inj tail
      exact encoded_spell _ instruction
  refine ⟨chunks 0 raw, rfl, encoded, ?_⟩
  intro front chunk back offset same leads
  obtain ⟨before, later, whole, rfl, tail⟩ := chunks_eq_append 0 raw _ _ same
  cases later with
  | nil => cases tail
  | cons instruction after =>
    obtain ⟨rfl, -⟩ := List.cons.inj tail
    have nearby := near_behind before after instruction (whole ▸ near)
    rw [Nat.zero_add, offset_spell _ instruction nearby] at leads
    obtain ⟨byte, carried, rfl⟩ := Option.map_eq_some_iff.mp leads
    obtain ⟨place, reached⟩ :=
      (resolves_iff raw).mp ⟨code, resolved⟩ instruction (by simp [whole]) byte carried
    obtain ⟨-, begins⟩ := (offset_iff 0 raw place byte).mp reached
    have halves := chunks_append 0 (raw.take place) (raw.drop place)
    rw [List.take_append_drop] at halves
    refine ⟨Int.natCast_nonneg _, _, _, halves, ?_⟩
    have ahead := (nearby byte carried).1
    rw [length_flatten_chunks, length_flatten_chunks, length_spell,
      size_of_carried instruction byte carried]
    omega

theorem resolved_of_accepted (bytes : List UInt8) (accepted : Accepted bytes) :
    ∃ raw code, splitFrom 0 bytes = some raw ∧ resolve raw = some code := by
  obtain ⟨pieces, rfl, encoded, leads⟩ := accepted
  obtain ⟨raw, rfl, near⟩ := chunks_of_encoded 0 pieces fun chunk member => by
    obtain ⟨front, back, same⟩ := List.append_of_mem member
    exact ⟨encoded chunk member, fun offset found =>
      (leads front chunk back offset same found).1⟩
  have lands : ∃ code, resolve raw = some code := by
    refine (resolves_iff raw).mpr ?_
    intro instruction member byte carried
    obtain ⟨front, back, rfl⟩ := List.append_of_mem member
    have nearby := near_behind front back instruction near
    have found := offset_spell (extent front) instruction nearby
    rw [carried, Option.map_some] at found
    obtain ⟨-, before, after, same, reached⟩ := leads (chunks 0 front) _ _ _
      (by rw [chunks_append, Nat.zero_add]; rfl) found
    obtain ⟨passed, remaining, whole, rfl, -⟩ := chunks_eq_append 0 _ _ _ same
    have ahead := (nearby byte carried).1
    rw [length_flatten_chunks, length_flatten_chunks, length_spell,
      size_of_carried instruction byte carried] at reached
    refine ⟨passed.length, (offset_iff 0 _ _ byte).mpr ?_⟩
    rw [whole, List.take_left]
    exact ⟨by simp, by omega⟩
  obtain ⟨code, resolved⟩ := lands
  exact ⟨raw, code, split_chunks 0 raw near, resolved⟩

end Bytecode

namespace Program

theorem ofBytes_iff (bytes : List UInt8) (program : Program) :
    ofBytes bytes = .ok program ↔
      ∃ raw, Bytecode.splitFrom 0 bytes = some raw ∧
        Bytecode.resolve raw = some program.instructions := by
  obtain ⟨instructions⟩ := program
  unfold ofBytes
  cases Bytecode.splitFrom 0 bytes with
  | none => simp
  | some raw => cases resolved : Bytecode.resolve raw <;> simp [resolved]

theorem forward_of_decoded (bytes : List UInt8) (program : Program)
    (decoded : ofBytes bytes = .ok program) : Forward program.instructions := by
  obtain ⟨-, raw, measured, near⟩ := (Bytecode.decoded_iff bytes program.instructions).mp
    ((ofBytes_iff bytes program).mp decoded)
  exact Bytecode.forward_of_measured program.instructions raw measured near

theorem toBytes_of_ofBytes (bytes : List UInt8) (program : Program)
    (decoded : ofBytes bytes = .ok program) : program.toBytes = bytes :=
  ((Bytecode.decoded_iff bytes program.instructions).mp
    ((ofBytes_iff bytes program).mp decoded)).1

theorem ofBytes_toBytes_of_compiled (text : List UInt8) (program : Program)
    (accepted : compile text = .ok program) (short : program.toBytes.length < 2 ^ 31) :
    ofBytes program.toBytes = .ok program := by
  have forward := (wellFormed_of_compiled text program accepted).leads_forward
  rw [toBytes, Bytecode.length_encodeFrom] at short
  have measured := Bytecode.measured_of_forward program.instructions forward short
  exact (ofBytes_iff _ program).mpr ((Bytecode.decoded_iff _ _).mpr ⟨rfl, measured⟩)

theorem ofBytes_accepts_iff (bytes : List UInt8) :
    (∃ program, ofBytes bytes = .ok program) ↔ Bytecode.Accepted bytes := by
  constructor
  · rintro ⟨program, decoded⟩
    obtain ⟨raw, parts, resolved⟩ := (ofBytes_iff bytes program).mp decoded
    obtain ⟨rfl, near⟩ := Bytecode.chunks_of_split 0 bytes raw parts
    exact Bytecode.accepted_of_resolved raw program.instructions near resolved
  · intro accepted
    obtain ⟨raw, instructions, parts, resolved⟩ := Bytecode.resolved_of_accepted bytes accepted
    exact ⟨⟨instructions⟩, (ofBytes_iff bytes _).mpr ⟨raw, parts, resolved⟩⟩

theorem fault_of_ofBytes (bytes : List UInt8) (failure : Failure)
    (failed : ofBytes bytes = .error failure) : failure.fault = .programStructure := by
  unfold ofBytes at failed
  split at failed
  · cases failed
    rfl
  · split at failed
    · cases failed
      rfl
    · cases failed

/-- Encoding and decoding are inverse to each other, between the programs that were compiled
or decoded and the bytes that are accepted. -/
theorem bytes_encode_programs :
    (∀ program : Program,
      ((∃ text, compile text = .ok program) ∨ ∃ bytes, ofBytes bytes = .ok program) →
        program.toBytes.length < 2 ^ 31 → ofBytes program.toBytes = .ok program) ∧
    (∀ bytes program, ofBytes bytes = .ok program → program.toBytes = bytes) ∧
    (∀ bytes, ((∃ program, ofBytes bytes = .ok program) ↔ Bytecode.Accepted bytes) ∧
      (¬ Bytecode.Accepted bytes →
        ∃ failure, ofBytes bytes = .error failure ∧ failure.fault = .programStructure)) := by
  refine ⟨?_, toBytes_of_ofBytes, ?_⟩
  · rintro program (⟨text, accepted⟩ | ⟨bytes, decoded⟩) short
    · exact ofBytes_toBytes_of_compiled text program accepted short
    · rw [toBytes_of_ofBytes bytes program decoded]
      exact decoded
  · intro bytes
    refine ⟨ofBytes_accepts_iff bytes, ?_⟩
    intro refused
    cases decoded : ofBytes bytes with
    | ok program => exact absurd ((ofBytes_accepts_iff bytes).mp ⟨program, decoded⟩) refused
    | error failure => exact ⟨failure, rfl, fault_of_ofBytes bytes failure decoded⟩

/-- The skip of nine bytes passes over the number, and a skip of two bytes leads nowhere. -/
theorem conditional_bytes_encode_program :
    compile (Text.ascii "\x7b true \x7b 1 \x7d if \x7d") =
        .ok ⟨[.operator .pushTrue, .skipUnless 3, .literal 0x3ff0000000000000, .stop]⟩ ∧
      toBytes ⟨[.operator .pushTrue, .skipUnless 3, .literal 0x3ff0000000000000, .stop]⟩ =
        [0x20, 0xf2, 9, 0, 0, 0, 0xf0, 0, 0, 0, 0, 0, 0, 0xf0, 0x3f, 0xf4] ∧
      ofBytes [0x20, 0xf2, 9, 0, 0, 0, 0xf0, 0, 0, 0, 0, 0, 0, 0xf0, 0x3f, 0xf4] =
        .ok ⟨[.operator .pushTrue, .skipUnless 3, .literal 0x3ff0000000000000, .stop]⟩ ∧
      ¬ Bytecode.Accepted [0xf1, 2, 0, 0, 0, 0xf4] ∧
      ∃ failure, ofBytes [0xf1, 2, 0, 0, 0, 0xf4] = .error failure ∧
        failure.fault = .programStructure := by
  have accepted : compile (Text.ascii "\x7b true \x7b 1 \x7d if \x7d") =
      .ok ⟨[.operator .pushTrue, .skipUnless 3, .literal 0x3ff0000000000000, .stop]⟩ := rfl
  have decoded := bytes_encode_programs.1 _ (.inl ⟨_, accepted⟩) (by decide)
  have refused : ¬ Bytecode.Accepted [0xf1, 2, 0, 0, 0, 0xf4] := by
    intro accepted
    obtain ⟨program, decoded⟩ := (bytes_encode_programs.2.2 _).1.mpr accepted
    cases decoded
  exact ⟨accepted, bytes_encode_programs.2.1 _ _ decoded, decoded, refused,
    (bytes_encode_programs.2.2 _).2 refused⟩

end Program

end PdfPrimitives.Calculator
