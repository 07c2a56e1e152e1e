import PdfPrimitives.Proofs.Calculator.Acceptance

/-!
The layout of compiled code. While words are compiled, a placeholder stands only where a
block is open or waits for its conditional, and an instruction leads forward, at most to the
end of the code so far. At the brace that ends the program nothing is open and nothing waits,
so every instruction but the last one leads to another.
-/

namespace PdfPrimitives.Calculator

/-- Every instruction leads to later ones, at most behind the last one. -/
def Forward (code : List Instruction) : Prop :=
  ∀ (place target : Nat) (instruction : Instruction), code[place]? = some instruction →
    instruction.target? place = some target → place < target ∧ target ≤ code.length

structure Program.WellFormed (program : Program) : Prop where
  claimed : .placeholder ∉ program.instructions
  ends : ∃ front, program.instructions = front ++ [.stop] ∧ .stop ∉ front
  forward : ∀ (place target : Nat) (instruction : Instruction),
    program.instructions[place]? = some instruction →
    instruction.target? place = some target →
      place < target ∧ target < program.instructions.length

namespace Builder

structure Layout (builder : Builder) : Prop where
  placeholders : ∀ place : Nat, builder.code[place]? = some .placeholder →
    place ∈ builder.opened ∨ ∃ block ∈ builder.closed, block.start = place
  running : ∀ place : Nat, builder.code[place]? ≠ some .stop
  forward : ∀ (place target : Nat) (instruction : Instruction),
    builder.code[place]? = some instruction → instruction.target? place = some target →
      place < target ∧ target ≤ builder.code.size
  opened : ∀ start ∈ builder.opened, start < builder.code.size
  closed : ∀ block ∈ builder.closed,
    block.start < block.stop ∧ block.stop ≤ builder.code.size

theorem layout_empty : Layout .empty := by
  constructor <;> simp [empty]

theorem code_of_emit (builder : Builder) (instruction : Instruction) (place : Nat)
    (other : Instruction) (here : (builder.emit instruction).code[place]? = some other) :
    (place = builder.code.size ∧ other = instruction) ∨ builder.code[place]? = some other := by
  rw [emit, Array.getElem?_push] at here
  split at here
  · next last => exact .inl ⟨last, (Option.some.inj here).symm⟩
  · exact .inr here

theorem code_of_patch (builder : Builder) (block : Block) (skip : Instruction) (place : Nat)
    (other : Instruction) (here : (builder.patch block skip).code[place]? = some other) :
    (place = block.start ∧ other = skip) ∨
      (place ≠ block.start ∧ builder.code[place]? = some other) := by
  rw [patch, Array.getElem?_setIfInBounds] at here
  split at here
  · next same =>
    split at here
    · exact .inl ⟨same.symm, (Option.some.inj here).symm⟩
    · cases here
  · next apart => exact .inr ⟨Ne.symm apart, here⟩

theorem layout_emit (builder : Builder) (instruction : Instruction) (opened : List Nat)
    (layout : Layout builder) (running : instruction ≠ .stop)
    (straight : ∀ place target, instruction.target? place = some target → target = place + 1)
    (noted : instruction = .placeholder → builder.code.size ∈ opened)
    (kept : ∀ start ∈ builder.opened, start ∈ opened)
    (within : ∀ start ∈ opened, start ≤ builder.code.size) :
    Layout { builder.emit instruction with opened } := by
  have size : (builder.emit instruction).code.size = builder.code.size + 1 := by simp [emit]
  have found := code_of_emit builder instruction
  constructor
  case placeholders =>
    intro place here
    rcases found place _ here with ⟨rfl, same⟩ | old
    · exact .inl (noted same.symm)
    · exact (layout.placeholders place old).imp_left (kept place)
  case running =>
    intro place here
    rcases found place _ here with ⟨-, same⟩ | old
    · exact running same.symm
    · exact layout.running place old
  case forward =>
    intro place target other here leads
    rcases found place other here with ⟨rfl, rfl⟩ | old
    · obtain rfl := straight _ target leads
      exact ⟨Nat.lt_succ_self _, Nat.le_of_eq size.symm⟩
    · have := layout.forward place target other old leads
      dsimp only
      omega
  case opened =>
    intro start member
    have := within start member
    dsimp only
    omega
  case closed =>
    intro block member
    have := layout.closed block member
    dsimp only
    omega

theorem layout_patch (builder : Builder) (block : Block) (left : List Block)
    (skip : Instruction) (target : Nat) (layout : Layout builder)
    (leads : ∀ place, skip.target? place = some target)
    (taken : ∀ other ∈ builder.closed, other = block ∨ other ∈ left)
    (remain : ∀ other ∈ left, other ∈ builder.closed)
    (ahead : block.start < target) (within : target ≤ builder.code.size) :
    Layout ({ builder with closed := left }.patch block skip) := by
  have found := code_of_patch { builder with closed := left } block skip
  have size := size_patch { builder with closed := left } block skip
  constructor
  case placeholders =>
    intro place here
    rcases found place _ here with ⟨-, same⟩ | ⟨apart, old⟩
    · subst same
      cases leads place
    · rcases layout.placeholders place old with opened | ⟨other, waits, start⟩
      · exact .inl opened
      · rcases taken other waits with rfl | waits
        · exact absurd start.symm apart
        · exact .inr ⟨other, waits, start⟩
  case running =>
    intro place here
    rcases found place _ here with ⟨-, same⟩ | ⟨-, old⟩
    · subst same
      cases leads place
    · exact layout.running place old
  case forward =>
    intro place reached other here arrives
    rw [size]
    rcases found place other here with ⟨rfl, rfl⟩ | ⟨-, old⟩
    · obtain rfl := Option.some.inj ((leads _).symm.trans arrives)
      exact ⟨ahead, within⟩
    · exact layout.forward place reached other old arrives
  case opened =>
    intro start member
    rw [size]
    exact layout.opened start member
  case closed =>
    intro other member
    rw [size]
    exact layout.closed other (remain other member)

theorem layout_step (builder : Builder) (word : List UInt8) (next : Builder)
    (layout : Layout builder) (step : Step builder word next) : Layout next := by
  cases step with
  | opens room =>
    refine layout_emit builder .placeholder (builder.code.size :: builder.opened) layout
      (by simp) (by simp [Instruction.target?]) (fun _ => List.mem_cons_self)
      (fun start member => List.mem_cons_of_mem _ member) ?_
    intro start member
    rcases List.mem_cons.mp member with rfl | old
    · exact Nat.le_refl _
    · exact Nat.le_of_lt (layout.opened start old)
  | closes start opened inner =>
    have started := layout.opened start (by simp [inner])
    refine ⟨?_, layout.running, layout.forward, ?_, ?_⟩
    · intro place here
      rcases layout.placeholders place here with member | ⟨block, waits, same⟩
      · rw [inner, List.mem_cons] at member
        rcases member with rfl | member
        · exact .inr ⟨_, List.mem_cons_self, rfl⟩
        · exact .inl member
      · exact .inr ⟨block, List.mem_cons_of_mem _ waits, same⟩
    · intro other member
      exact layout.opened other (by simp [inner, member])
    · intro block member
      rcases List.mem_cons.mp member with rfl | old
      · exact ⟨started, Nat.le_refl _⟩
      · exact layout.closed block old
  | claimsOne block closed _ waiting adjacent size opened left claimed =>
    obtain ⟨ahead, within⟩ := layout.closed block (by simp [waiting])
    rw [conditional_eq builder block closed waiting adjacent] at claimed
    obtain rfl := Except.ok.inj claimed
    exact layout_patch builder block closed _ block.stop layout (fun _ => rfl)
      (by simp [waiting]) (by simp +contextual [waiting]) ahead within
  | claimsTwo second first closed _ waiting adjacent neighbours size opened left claimed =>
    obtain ⟨ahead, within⟩ := layout.closed second (by simp [waiting])
    obtain ⟨firstAhead, -⟩ := layout.closed first (by simp [waiting])
    rw [alternative_eq builder second first closed waiting adjacent neighbours] at claimed
    obtain rfl := Except.ok.inj claimed
    -- The placeholder of the second block is kept until its own patch.
    have patched := layout_patch builder first (second :: closed) (.skipUnless (second.start + 1))
      (second.start + 1) layout (fun _ => rfl) (by simp +contextual [waiting])
      (by simp +contextual [waiting]) (by omega) (by omega)
    refine layout_patch _ second closed _ second.stop patched (fun _ => rfl) ?_ ?_ ahead ?_
    · intro other member
      exact List.mem_cons.mp member
    · intro other member
      exact List.mem_cons_of_mem _ member
    · rw [size_patch]
      exact within
  | literal literal =>
    exact layout_emit builder _ builder.opened layout (by simp) (by simp [Instruction.target?])
      (by simp) (fun _ member => member)
      (fun start member => Nat.le_of_lt (layout.opened start member))
  | operator operator =>
    exact layout_emit builder _ builder.opened layout (by simp) (by simp [Instruction.target?])
      (by simp) (fun _ member => member)
      (fun start member => Nat.le_of_lt (layout.opened start member))

theorem built_of_last (builder : Builder) (program : Program)
    (accepted : builder.body [[Byte.closeBrace]] = .ok program) :
    builder.opened = [] ∧ builder.closed = [] ∧
      program.instructions = builder.code.toList ++ [.stop] := by
  rw [body, if_neg (by decide), if_pos rfl] at accepted
  cases inner : builder.opened with
  | cons start opened => simp [inner, body] at accepted
  | nil =>
    cases waiting : builder.closed with
    | cons block closed => simp [inner, waiting] at accepted
    | nil =>
      simp only [inner, waiting, List.isEmpty_nil, Bool.not_true, Bool.false_eq_true, ↓reduceIte,
        Except.ok.injEq] at accepted
      subst accepted
      exact ⟨rfl, rfl, by simp [emit]⟩

/-- What every accepted word keeps is still so when the program is complete. -/
theorem built_of_accepted {invariant : Builder → Prop}
    (kept : ∀ builder word next, invariant builder → Step builder word next → invariant next)
    (words : List (List UInt8)) (builder : Builder) (program : Program)
    (holds : invariant builder) (accepted : builder.body words = .ok program) :
    ∃ last, invariant last ∧ last.opened = [] ∧ last.closed = [] ∧
      program.instructions = last.code.toList ++ [.stop] := by
  induction words generalizing builder with
  | nil => simp [body] at accepted
  | cons word rest ih =>
    rcases step_of_accepted builder _ program accepted with ⟨last, -⟩ | taken
    · rw [last] at accepted
      exact ⟨builder, holds, built_of_last builder program accepted⟩
    · obtain ⟨_, _, next, same, step, continues⟩ := taken
      obtain ⟨rfl, rfl⟩ := List.cons.inj same
      exact ih next (kept builder word next holds step) continues

end Builder

theorem Program.built_of_compiled {invariant : Builder → Prop} (starts : invariant .empty)
    (kept : ∀ builder word next, invariant builder → Builder.Step builder word next →
      invariant next)
    (text : List UInt8) (program : Program) (accepted : compile text = .ok program) :
    ∃ last, invariant last ∧ last.opened = [] ∧ last.closed = [] ∧
      program.instructions = last.code.toList ++ [.stop] := by
  unfold compile at accepted
  cases compiled : ofLexemes (lexemes text) with
  | error fault => simp [compiled] at accepted
  | ok result =>
    obtain rfl : result = program := by simpa [compiled] using accepted
    rcases spelled : lexemes text with _ | ⟨first, words⟩
    · simp [spelled, ofLexemes] at compiled
    · rw [spelled, ofLexemes] at compiled
      split at compiled
      · exact Builder.built_of_accepted kept words .empty result starts compiled
      · cases compiled

theorem Program.wellFormed_of_compiled (text : List UInt8) (program : Program)
    (accepted : compile text = .ok program) : program.WellFormed := by
  obtain ⟨builder, layout, inner, waiting, code⟩ :=
    built_of_compiled Builder.layout_empty Builder.layout_step text program accepted
  have straight : .stop ∉ builder.code.toList := by
    intro member
    obtain ⟨place, here⟩ := List.mem_iff_getElem?.mp member
    exact layout.running place (by simpa using here)
  refine ⟨?_, ⟨_, code, straight⟩, ?_⟩
  · intro member
    rw [code, List.mem_append] at member
    rcases member with member | last
    · obtain ⟨place, here⟩ := List.mem_iff_getElem?.mp member
      have noted := layout.placeholders place (by simpa using here)
      simp [inner, waiting] at noted
    · cases List.mem_singleton.mp last
  · intro place target instruction here leads
    rw [code] at here ⊢
    rw [List.length_append, Array.length_toList, List.length_singleton]
    rcases Nat.lt_or_ge place builder.code.size with before | behind
    · rw [List.getElem?_append_left (by simpa using before)] at here
      have := layout.forward place target instruction (by simpa using here) leads
      omega
    · rw [List.getElem?_append_right (by simpa using behind)] at here
      obtain rfl := List.mem_singleton.mp (List.mem_of_getElem? here)
      cases leads

theorem Program.WellFormed.leads_forward {program : Program} (wellFormed : program.WellFormed) :
    Forward program.instructions := by
  intro place target instruction here leads
  obtain ⟨ahead, within⟩ := wellFormed.forward place target instruction here leads
  exact ⟨ahead, Nat.le_of_lt within⟩

end PdfPrimitives.Calculator
