import PdfPrimitives.Proofs.Calculator.Compilation

/-!
What the compiler accepts. Closed blocks of all levels wait on one stack, and only the
places where they end are compared. A block that was left waiting inside another one can
therefore be claimed from outside, if both end at the same place. Where no brace leaves a
block waiting, what is accepted is spelled by a syntax tree.
-/

namespace PdfPrimitives.Calculator

namespace Builder

inductive Step (builder : Builder) : List UInt8 → Builder → Prop where
  | opens (room : builder.opened.length < nestingLimit) :
      Step builder [Byte.openBrace] builder.entered
  | closes (start : Nat) (opened : List Nat) (inner : builder.opened = start :: opened) :
      Step builder [Byte.closeBrace] ⟨builder.code, opened,
        ⟨start, builder.code.size⟩ :: builder.closed⟩
  | claimsOne (block : Block) (closed : List Block) (next : Builder)
      (waiting : builder.closed = block :: closed) (adjacent : block.stop = builder.code.size)
      (size : next.code.size = builder.code.size) (opened : next.opened = builder.opened)
      (left : next.closed = closed) (claimed : builder.conditional = .ok next) :
      Step builder (Text.ascii "if") next
  | claimsTwo (second first : Block) (closed : List Block) (next : Builder)
      (waiting : builder.closed = second :: first :: closed)
      (adjacent : second.stop = builder.code.size) (neighbours : first.stop = second.start)
      (size : next.code.size = builder.code.size) (opened : next.opened = builder.opened)
      (left : next.closed = closed) (claimed : builder.alternative = .ok next) :
      Step builder (Text.ascii "ifelse") next
  | literal (literal : Literal) :
      Step builder literal.word (builder.emit (.literal literal.bits))
  | operator (operator : Operator) :
      Step builder (Text.ascii operator.name) (builder.emit (.operator operator))

theorem size_patch (builder : Builder) (block : Block) (skip : Instruction) :
    (builder.patch block skip).code.size = builder.code.size := by
  simp [patch]

theorem step_conditional (builder next : Builder) (claimed : builder.conditional = .ok next) :
    Step builder (Text.ascii "if") next := by
  cases waiting : builder.closed with
  | nil => simp [conditional, takeBlock, waiting, bind, Except.bind] at claimed
  | cons block closed =>
    by_cases adjacent : block.stop = builder.code.size
    · have result := claimed
      simp only [conditional, takeBlock, waiting, adjacent, ↓reduceIte, bind, Except.bind, pure,
        Except.pure, Except.ok.injEq] at result
      subst result
      exact .claimsOne block closed _ waiting adjacent (size_patch _ _ _) rfl rfl claimed
    · simp [conditional, takeBlock, waiting, adjacent, bind, Except.bind] at claimed

theorem step_alternative (builder next : Builder) (claimed : builder.alternative = .ok next) :
    Step builder (Text.ascii "ifelse") next := by
  rcases waiting : builder.closed with _ | ⟨second, _ | ⟨first, closed⟩⟩
  · simp [alternative, takeBlock, waiting, bind, Except.bind] at claimed
  · by_cases adjacent : second.stop = builder.code.size <;>
      simp [alternative, takeBlock, waiting, adjacent, bind, Except.bind] at claimed
  · by_cases adjacent : second.stop = builder.code.size
    · by_cases neighbours : first.stop = second.start
      · have result := claimed
        simp only [alternative, takeBlock, waiting, adjacent, neighbours, ↓reduceIte, bind,
          Except.bind, pure, Except.pure, Except.ok.injEq] at result
        subst result
        exact .claimsTwo second first closed _ waiting adjacent neighbours
          ((size_patch _ _ _).trans (size_patch _ _ _)) rfl rfl claimed
      · simp [alternative, takeBlock, waiting, adjacent, neighbours, bind, Except.bind] at claimed
    · simp [alternative, takeBlock, waiting, adjacent, bind, Except.bind] at claimed

theorem step_word (builder next : Builder) (lexeme : List UInt8)
    (compiled : builder.word lexeme = .ok next) : Step builder lexeme next := by
  -- The compiler tries a number first, then the conditionals and the operators.
  by_cases long : wordLimit < lexeme.length
  · simp [word, long] at compiled
  by_cases numeric : isNumeric lexeme = true
  · cases spelled : number? lexeme with
    | none => simp [word, long, numeric, spelled] at compiled
    | some bits =>
      simp only [word, long, numeric, spelled, ↓reduceIte, Except.ok.injEq] at compiled
      subst compiled
      exact .literal ⟨lexeme, bits, spelled, Nat.not_lt.mp long⟩
  by_cases single : lexeme = Text.ascii "if"
  · subst single
    exact step_conditional builder next compiled
  by_cases double : lexeme = Text.ascii "ifelse"
  · subst double
    exact step_alternative builder next compiled
  cases named : Operator.ofName? lexeme with
  | none => simp [word, long, numeric, single, double, named] at compiled
  | some operator =>
    simp only [word, long, numeric, single, double, named, ↓reduceIte, Except.ok.injEq,
      Bool.false_eq_true] at compiled
    subst compiled
    rw [name_of_ofName lexeme operator named]
    exact .operator operator

theorem step_of_accepted (builder : Builder) (words : List (List UInt8)) (program : Program)
    (accepted : builder.body words = .ok program) :
    (words = [[Byte.closeBrace]] ∧ builder.closed = []) ∨
      ∃ word rest next, words = word :: rest ∧ Step builder word next ∧
        next.body rest = .ok program := by
  cases words with
  | nil => simp [body] at accepted
  | cons word rest =>
    by_cases opening : word = [Byte.openBrace]
    · subst opening
      by_cases deep : nestingLimit ≤ builder.opened.length
      · simp [body, openBlock, deep, bind, Except.bind] at accepted
      · have room := Nat.not_le.mp deep
        rw [body_open _ _ room] at accepted
        exact .inr ⟨_, rest, _, rfl, .opens room, accepted⟩
    by_cases closing : word = [Byte.closeBrace]
    · subst closing
      rw [body, if_neg opening, if_pos rfl] at accepted
      -- A brace that closes no block ends the program, which has to be complete by then.
      cases inner : builder.opened with
      | nil =>
        simp only [inner] at accepted
        by_cases waiting : builder.closed = []
        · by_cases last : rest = []
          · exact .inl ⟨by rw [last], waiting⟩
          · simp [waiting, last] at accepted
        · simp [waiting] at accepted
      | cons start opened =>
        simp only [inner] at accepted
        exact .inr ⟨_, rest, _, rfl, .closes start opened inner, accepted⟩
    rw [body, if_neg opening, if_neg closing] at accepted
    cases compiled : builder.word word with
    | error fault => simp [compiled, bind, Except.bind] at accepted
    | ok next =>
      rw [compiled] at accepted
      exact .inr ⟨word, rest, next, rfl, step_word builder next word compiled, accepted⟩

theorem rest_of_last (builder : Builder) (rest : List (List UInt8)) (program : Program)
    (outermost : builder.opened = [])
    (accepted : builder.body ([Byte.closeBrace] :: rest) = .ok program) : rest = [] := by
  rw [body, if_neg (by decide), if_pos rfl] at accepted
  cases rest with
  | nil => rfl
  | cons word rest => cases waiting : builder.closed <;> simp [outermost, waiting] at accepted

/-- A block that waits in vain: the code went on behind it, and no block that starts where
it ends can become the second block of a conditional. -/
structure Stuck (block : Block) (builder : Builder) : Prop where
  waits : block ∈ builder.closed
  passed : block.stop < builder.code.size
  unopened : block.stop ∉ builder.opened
  followers : ∀ other ∈ builder.closed,
    other.start = block.stop → other.stop < builder.code.size

theorem stuck_emit (builder : Builder) (block : Block) (instruction : Instruction)
    (stuck : Stuck block builder) : Stuck block (builder.emit instruction) := by
  have size := size_emit builder instruction
  refine ⟨stuck.waits, ?_, stuck.unopened, ?_⟩
  · have := stuck.passed
    omega
  · intro other waits follows
    have := stuck.followers other waits follows
    omega

theorem stuck_step (builder next : Builder) (block : Block) (word : List UInt8)
    (stuck : Stuck block builder) (step : Step builder word next) : Stuck block next := by
  have passed := stuck.passed
  cases step with
  | opens room =>
    obtain ⟨waits, further, unopened, followers⟩ := stuck_emit builder block .placeholder stuck
    -- The new block starts behind instructions that came after `block`.
    refine ⟨waits, further, ?_, followers⟩
    simp only [entered, List.mem_cons, not_or]
    exact ⟨by omega, unopened⟩
  | closes start opened inner =>
    have apart := stuck.unopened
    simp only [inner, List.mem_cons, not_or] at apart
    refine ⟨List.mem_cons_of_mem _ stuck.waits, passed, apart.2, ?_⟩
    intro other waits follows
    rcases List.mem_cons.mp waits with rfl | waits
    · exact absurd follows.symm apart.1
    · exact stuck.followers other waits follows
  | claimsOne claimed closed _ waiting adjacent size opened left =>
    have waits := stuck.waits
    have followers := stuck.followers
    simp only [waiting, List.mem_cons] at waits followers
    refine ⟨?_, by omega, by rw [opened]; exact stuck.unopened, ?_⟩
    · rcases waits with rfl | waits
      · omega
      · rwa [left]
    · intro other waits follows
      rw [left] at waits
      have := followers other (.inr waits) follows
      omega
  | claimsTwo second first closed _ waiting adjacent neighbours size opened left =>
    have waits := stuck.waits
    have followers := stuck.followers
    simp only [waiting, List.mem_cons] at waits followers
    refine ⟨?_, by omega, by rw [opened]; exact stuck.unopened, ?_⟩
    · rcases waits with rfl | rfl | waits
      · omega
      · -- The second block starts where `block` ends, so its end was passed too.
        have := followers second (.inl rfl) neighbours.symm
        omega
      · rwa [left]
    · intro other waits follows
      rw [left] at waits
      have := followers other (.inr (.inr waits)) follows
      omega
  | literal literal => exact stuck_emit builder block _ stuck
  | operator operator => exact stuck_emit builder block _ stuck

theorem stuck_refused (words : List (List UInt8)) (builder : Builder) (block : Block)
    (program : Program) (stuck : Stuck block builder) : builder.body words ≠ .ok program := by
  induction words generalizing builder with
  | nil => simp [body]
  | cons word rest ih =>
    intro accepted
    rcases step_of_accepted builder _ program accepted with ⟨-, waiting⟩ | taken
    · simpa [waiting] using stuck.waits
    · obtain ⟨_, _, next, same, step, continues⟩ := taken
      obtain ⟨rfl, rfl⟩ := List.cons.inj same
      exact ih next (stuck_step builder next block word stuck step) continues

/-- Everything that is open or waits was left behind: the code went on since. -/
structure Settled (builder : Builder) : Prop where
  waits : ∀ block ∈ builder.closed,
    block.start < builder.code.size ∧ block.stop < builder.code.size
  opened : ∀ start ∈ builder.opened, start < builder.code.size

theorem settled_append (builder : Builder) (instructions : List Instruction)
    (settled : Settled builder) : Settled (builder.append instructions) := by
  refine ⟨?_, ?_⟩
  · intro block waits
    have := settled.waits block waits
    rw [size_append]
    omega
  · intro start opened
    have := settled.opened start opened
    rw [size_append]
    omega

theorem settled_entered (builder : Builder) (settled : Settled builder) :
    Settled builder.entered := by
  have size := size_entered builder
  refine ⟨?_, ?_⟩
  · intro block waits
    have := settled.waits block waits
    omega
  · intro start opened
    rcases List.mem_cons.mp opened with rfl | opened
    · omega
    · have := settled.opened start opened
      omega

theorem stuck_behind (builder next : Builder) (inner : List Instruction)
    (settled : Settled builder)
    (waits : ⟨builder.code.size, builder.code.size + 1 + inner.length⟩ ∈ next.closed)
    (passed : builder.code.size + 1 + inner.length < next.code.size)
    (opened : ∀ start ∈ next.opened,
      start ∈ builder.opened ∨ builder.code.size + 1 + inner.length < start)
    (closed : ∀ block ∈ next.closed, block ∈ builder.closed ∨
      block.start = builder.code.size ∨ block.stop < next.code.size) :
    Stuck ⟨builder.code.size, builder.code.size + 1 + inner.length⟩ next := by
  -- Blocks from before the waiting one start and end before it, new ones start behind it.
  refine ⟨waits, passed, ?_, ?_⟩
  · intro reopened
    dsimp only at reopened
    rcases opened _ reopened with old | new
    · have := settled.opened _ old
      omega
    · omega
  · intro other present follows
    simp only at follows
    rcases closed other present with old | same | ended
    · have := settled.waits other old
      omega
    · omega
    · exact ended

theorem settled_entered_behind (builder : Builder) (inner : List Instruction)
    (settled : Settled builder) : Settled (builder.behindBlock inner).entered := by
  have size : (builder.behindBlock inner).entered.code.size =
      builder.code.size + 1 + inner.length + 1 := by
    rw [size_entered, size_behindBlock]
  refine ⟨?_, ?_⟩
  · intro block waits
    rcases List.mem_cons.mp waits with rfl | old
    · dsimp only
      omega
    · have := settled.waits block old
      omega
  · intro start opened
    rcases List.mem_cons.mp opened with rfl | old
    · rw [size_behindBlock]
      omega
    · have := settled.opened start old
      omega

/-- A block that the code goes on behind keeps waiting, also below later blocks. -/
theorem waiting_refused (builder next : Builder) (inner : List Instruction) (left : List Block)
    (words : List (List UInt8)) (program : Program) (settled : Settled builder)
    (waits : next.closed = left ++
      ⟨builder.code.size, builder.code.size + 1 + inner.length⟩ :: builder.closed)
    (further : ∀ block ∈ left, block.stop < next.code.size)
    (passed : builder.code.size + 1 + inner.length < next.code.size)
    (opened : ∀ start ∈ next.opened, start ∈ builder.opened ∨
      builder.code.size + 1 + inner.length < start) :
    next.body words ≠ .ok program := by
  refine stuck_refused words _ _ program
    (stuck_behind builder next inner settled (by simp [waits]) passed opened ?_)
  intro block present
  rw [waits] at present
  rcases List.mem_append.mp present with new | old
  · exact .inr (.inr (further block new))
  · rcases List.mem_cons.mp old with rfl | old
    · exact .inr (.inl rfl)
    · exact .inl old

theorem emit_behind_refused (builder : Builder) (inner : List Instruction)
    (instruction : Instruction) (words : List (List UInt8)) (program : Program)
    (settled : Settled builder) :
    ((builder.behindBlock inner).emit instruction).body words ≠ .ok program := by
  have size : ((builder.behindBlock inner).emit instruction).code.size =
      builder.code.size + 1 + inner.length + 1 := by
    rw [size_emit, size_behindBlock]
  exact waiting_refused builder _ inner [] words program settled rfl (by simp) (by omega)
    fun start present => .inl present

theorem claims_both (builder : Builder) (first second : List Instruction)
    (words : List (List UInt8)) (program : Program) (waiting : Nat) (outside : List Nat)
    (settled : Settled builder)
    (accepted : ((builder.behindBlock first).behindBlock second).body words = .ok program)
    (none : leavesNoneWaiting 2 (waiting :: outside) words = true) :
    ∃ rest next, words = Text.ascii "ifelse" :: rest ∧
      ((builder.behindBlock first).behindBlock second).alternative = .ok next ∧
      next.body rest = .ok program := by
  have size : ((builder.behindBlock first).behindBlock second).code.size =
      builder.code.size + 1 + first.length + 1 + second.length := by
    rw [size_behindBlock, size_behindBlock]
  have closed : ((builder.behindBlock first).behindBlock second).closed =
      ⟨(builder.behindBlock first).code.size,
        (builder.behindBlock first).code.size + 1 + second.length⟩ ::
      ⟨builder.code.size, builder.code.size + 1 + first.length⟩ :: builder.closed := rfl
  rcases step_of_accepted _ _ program accepted with ⟨-, finished⟩ | taken
  · simp [closed] at finished
  obtain ⟨word, rest, next, same, step, continues⟩ := taken
  subst same
  -- In every other step the first block keeps waiting while the code goes on.
  have kept (left : List Block) (waits) (further) (grown) (opened) : False :=
    waiting_refused builder next first left rest program settled waits further grown opened
      continues
  have emitted (instruction : Instruction)
      (emits : next = ((builder.behindBlock first).behindBlock second).emit instruction) :
      False := by
    subst emits
    refine kept [_] closed ?_ ?_ (fun start present => .inl present)
    · simp only [List.mem_singleton, forall_eq, emit, Array.size_push, size, size_behindBlock]
      omega
    · simp only [emit, Array.size_push, size]
      omega
  cases step with
  | opens room =>
    have grown : ((builder.behindBlock first).behindBlock second).entered.code.size =
        builder.code.size + 1 + first.length + 1 + second.length + 1 := by
      rw [size_entered, size]
    refine (kept [_] closed ?_ (by omega) ?_).elim
    · simp only [List.mem_singleton, forall_eq, size_behindBlock]
      omega
    · intro start present
      rcases List.mem_cons.mp present with rfl | old
      · exact .inr (by omega)
      · exact .inl old
  | closes start opened inside => simp [waiting_close] at none
  | claimsOne block left _ present adjacent same opened remains claimed =>
    rw [closed] at present
    refine (kept [] ?_ (by simp) (by omega) ?_).elim
    · rw [remains, ← (List.cons.inj present).2]
      rfl
    · intro start present
      rw [opened] at present
      exact .inl present
  | claimsTwo block other left _ present adjacent neighbours same opened remains claimed =>
    exact ⟨rest, next, rfl, claimed, continues⟩
  | literal literal => exact (emitted _ rfl).elim
  | operator operator => exact (emitted _ rfl).elim

/-- Accepted words that are shorter than `size` begin with a body and the brace behind it,
if no block is left waiting. -/
def Spells (program : Program) (size : Nat) : Prop :=
  ∀ (words : List (List UInt8)) (builder : Builder) (waiting : Nat) (outside : List Nat),
    words.length < size → Settled builder → builder.opened.length ≤ nestingLimit →
    builder.body words = .ok program → leavesNoneWaiting 0 (waiting :: outside) words = true →
    ∃ (body : Body) (rest : List (List UInt8)), words = body.words ++ [Byte.closeBrace] :: rest ∧
      builder.opened.length + body.depth ≤ nestingLimit

theorem block_of_spells (program : Program) (size : Nat) (spells : Spells program size)
    (words : List (List UInt8)) (builder : Builder) (inside : Nat) (outside : List Nat)
    (shorter : words.length < size) (settled : Settled builder.entered)
    (room : builder.opened.length < nestingLimit)
    (accepted : builder.entered.body words = .ok program)
    (none : leavesNoneWaiting 0 (inside :: outside) words = true) :
    ∃ (inner : Body) (rest : List (List UInt8)),
      words = inner.words ++ [Byte.closeBrace] :: rest ∧
      builder.opened.length + (inner.depth + 1) ≤ nestingLimit ∧
      (builder.behindBody inner).body rest = .ok program ∧
      leavesNoneWaiting (inside + 1) outside rest = true := by
  have depth : builder.entered.opened.length = builder.opened.length + 1 := by
    simp [entered]
  obtain ⟨inner, rest, same, fits⟩ := spells words builder.entered inside outside shorter
    settled (by omega) accepted none
  rw [depth] at fits
  rw [same, body_words inner _ _ (by omega), body_close, size_entered] at accepted
  rw [same, waiting_words, waiting_close] at none
  exact ⟨inner, rest, same, by omega, accepted, none⟩

theorem claims_of_accepted (program : Program) (size : Nat) (spells : Spells program size)
    (words : List (List UInt8)) (builder : Builder) (inner : Body) (waiting : Nat)
    (outside : List Nat) (shorter : words.length < size) (settled : Settled builder)
    (accepted : (builder.behindBody inner).body words = .ok program)
    (none : leavesNoneWaiting 1 (waiting :: outside) words = true) :
    (∃ rest next, words = Text.ascii "if" :: rest ∧
      (builder.behindBody inner).conditional = .ok next ∧ next.body rest = .ok program) ∨
    (∃ (second : Body) (rest : List (List UInt8)) (next : Builder),
      words = braced second.words ++ Text.ascii "ifelse" :: rest ∧
      builder.opened.length + (second.depth + 1) ≤ nestingLimit ∧
      ((builder.behindBody inner).behindBody second).alternative = .ok next ∧
      next.body rest = .ok program) := by
  let block := inner.code (builder.code.size + 1)
  have closed : (builder.behindBody inner).closed =
      ⟨builder.code.size, builder.code.size + 1 + block.length⟩ :: builder.closed := rfl
  rcases step_of_accepted _ _ program accepted with ⟨-, finished⟩ | taken
  · simp [closed] at finished
  obtain ⟨word, rest, next, same, step, continues⟩ := taken
  subst same
  have refused (instruction : Instruction) :=
    emit_behind_refused builder block instruction rest program settled
  cases step with
  | opens room =>
    -- Behind a second block only `ifelse` claims both.
    rw [waiting_open] at none
    obtain ⟨second, behind, same, fits, continues, none⟩ :=
      block_of_spells program size spells rest (builder.behindBody inner) 1
        (waiting :: outside) (by simp only [List.length_cons] at shorter; omega)
        (settled_entered_behind builder _ settled) room continues none
    obtain ⟨rest, next, rfl, claimed, ends⟩ :=
      claims_both builder _ _ behind program waiting outside settled
        continues none
    subst same
    exact .inr ⟨second, rest, next, by simp [braced], fits, claimed, ends⟩
  | closes start opened inside => simp [waiting_close] at none
  | claimsOne block left _ present adjacent same opened remains claimed =>
    exact .inl ⟨rest, next, rfl, claimed, continues⟩
  | claimsTwo second first left _ present adjacent neighbours same opened remains claimed =>
    -- The second block is the one behind `builder`, and whatever waited before ended earlier.
    rw [closed] at present
    obtain ⟨rfl, before⟩ := List.cons.inj present
    have := (settled.waits first (by simp [before])).2
    simp only at neighbours
    omega
  | literal literal => exact absurd continues (refused _)
  | operator operator => exact absurd continues (refused _)

theorem conditional_of_spells (program : Program) (size : Nat) (spells : Spells program size)
    (words : List (List UInt8)) (builder : Builder) (waiting : Nat) (outside : List Nat)
    (shorter : words.length < size) (settled : Settled builder)
    (room : builder.opened.length < nestingLimit)
    (accepted : builder.entered.body words = .ok program)
    (none : leavesNoneWaiting 0 (0 :: waiting :: outside) words = true) :
    ∃ (body : Body) (rest : List (List UInt8)),
      [Byte.openBrace] :: words = body.words ++ [Byte.closeBrace] :: rest ∧
      builder.opened.length + body.depth ≤ nestingLimit := by
  obtain ⟨inner, behind, rfl, fits, continues, none⟩ := block_of_spells program size spells words
    builder 0 (waiting :: outside) shorter (settled_entered builder settled) room accepted none
  simp only [List.length_append, List.length_cons] at shorter
  -- Either `if` claims the block at once, or `ifelse` claims it with the block behind it.
  rcases claims_of_accepted program size spells behind builder inner waiting outside (by omega)
    settled continues none with ⟨rest, next, rfl, claimed, ends⟩ |
    ⟨second, rest, next, rfl, fits', claimed, ends⟩
  · obtain rfl := Except.ok.inj ((conditional_append builder _).symm.trans claimed)
    simp only [List.length_cons] at shorter
    obtain ⟨body, rest, rfl, deep⟩ := spells rest (builder.append _) waiting outside (by omega)
      (settled_append builder _ settled) (Nat.le_of_lt room) ends none
    have deep : builder.opened.length + body.depth ≤ nestingLimit := deep
    refine ⟨.conditional inner body, rest, ?_, ?_⟩
    · simp [Body.words, braced]
    · rw [Body.depth, ← Nat.add_max_add_left]
      exact Nat.max_le.mpr ⟨fits, deep⟩
  · obtain rfl := Except.ok.inj
      ((alternative_append builder _ _).symm.trans claimed)
    simp only [List.length_append, List.length_cons] at shorter
    rw [waiting_block, waiting_ifelse] at none
    obtain ⟨body, rest, rfl, deep⟩ := spells rest (builder.append _) waiting outside (by omega)
      (settled_append builder _ settled) (Nat.le_of_lt room) ends none
    have deep : builder.opened.length + body.depth ≤ nestingLimit := deep
    refine ⟨.alternative inner second body, rest, ?_, ?_⟩
    · simp [Body.words, braced]
    · rw [Body.depth, ← Nat.add_max_add_left, ← Nat.add_max_add_left]
      exact Nat.max_le.mpr ⟨Nat.max_le.mpr ⟨fits, fits'⟩, deep⟩

theorem spells_all (program : Program) (size : Nat) : Spells program size := by
  -- By induction on the size, since blocks and what follows them are suffixes of the words.
  induction size with
  | zero =>
    intro words builder waiting outside shorter
    omega
  | succ size ih =>
    intro words builder waiting outside shorter settled fits accepted none
    rcases step_of_accepted builder words program accepted with ⟨rfl, -⟩ | taken
    · exact ⟨.done, [], rfl, fits⟩
    obtain ⟨word, rest, next, rfl, step, continues⟩ := taken
    have within : rest.length < size := by
      simp only [List.length_cons] at shorter
      omega
    cases step with
    | opens room =>
      exact conditional_of_spells program size ih rest builder waiting outside within settled
        room continues none
    | closes start opened inside => exact ⟨.done, rest, rfl, fits⟩
    | claimsOne block left _ present adjacent same opened remains claimed =>
      -- What waited before the body began ends before the place where a conditional looks.
      have := (settled.waits block (by simp [present])).2
      omega
    | claimsTwo second first left _ present adjacent neighbours same opened remains claimed =>
      have := (settled.waits second (by simp [present])).2
      omega
    | literal literal =>
      rw [waiting_plain _ _ _ _ (literal_plain literal)] at none
      rw [← append_nil (builder.emit _), emit_append] at continues
      obtain ⟨body, rest, rfl, deep⟩ := ih rest (builder.append _) waiting outside within
        (settled_append builder _ settled) fits continues none
      exact ⟨.literal literal body, rest, rfl, deep⟩
    | operator operator =>
      rw [waiting_plain _ _ _ _ (name_plain operator)] at none
      rw [← append_nil (builder.emit _), emit_append] at continues
      obtain ⟨body, rest, rfl, deep⟩ := ih rest (builder.append _) waiting outside within
        (settled_append builder _ settled) fits continues none
      exact ⟨.operator operator body, rest, rfl, deep⟩

end Builder

namespace Program

theorem spelled_of_compiled (text : List UInt8) (program : Program)
    (accepted : compile text = .ok program)
    (none : leavesNoneWaiting 0 [] (lexemes text) = true) :
    ∃ body : Body, lexemes text = braced body.words := by
  unfold compile at accepted
  cases compiled : ofLexemes (lexemes text) with
  | error fault => simp [compiled] at accepted
  | ok result =>
    rcases spelled : lexemes text with _ | ⟨first, words⟩
    · simp [spelled, ofLexemes] at compiled
    by_cases opening : first = [Byte.openBrace]
    · subst opening
      rw [spelled, ofLexemes, if_pos rfl] at compiled
      rw [spelled, waiting_open] at none
      have settled : Builder.Settled .empty := ⟨by simp [Builder.empty], by simp [Builder.empty]⟩
      obtain ⟨body, rest, rfl, fits⟩ := Builder.spells_all result _ words .empty 0 []
        (Nat.lt_succ_self _) settled (Nat.zero_le _) compiled none
      rw [Builder.body_words body .empty _ fits] at compiled
      obtain rfl := Builder.rest_of_last _ rest result rfl compiled
      exact ⟨body, rfl⟩
    · simp [spelled, ofLexemes, opening] at compiled

/-- What compiles is spelled by a syntax tree exactly if no brace closes a block in which
another one still waits for its conditional. -/
theorem compiled_spelled_iff (text : List UInt8) (program : Program)
    (accepted : compile text = .ok program) :
    (∃ body : Body, lexemes text = braced body.words) ↔
      leavesNoneWaiting 0 [] (lexemes text) = true := by
  constructor
  · rintro ⟨body, spelled⟩
    rw [spelled]
    exact waiting_braced body
  · exact spelled_of_compiled text program accepted

theorem claimed_text_spelled :
    compile (Text.ascii "\x7b true \x7b 1 \x7d if \x7d") =
        .ok ⟨[.operator .pushTrue, .skipUnless 3, .literal 0x3ff0000000000000, .stop]⟩ ∧
      ((∃ body : Body, lexemes (Text.ascii "\x7b true \x7b 1 \x7d if \x7d") =
          braced body.words) ↔
        leavesNoneWaiting 0 [] (lexemes (Text.ascii "\x7b true \x7b 1 \x7d if \x7d")) =
          true) :=
  have accepted : compile (Text.ascii "\x7b true \x7b 1 \x7d if \x7d") =
      .ok ⟨[.operator .pushTrue, .skipUnless 3, .literal 0x3ff0000000000000, .stop]⟩ := rfl
  ⟨accepted, compiled_spelled_iff _ _ accepted⟩

/-- The inner block is left waiting and then claimed from outside, since both blocks end at
the same place. -/
theorem waiting_block_claimed_outside :
    compile (Text.ascii "\x7b \x7b \x7b \x7d \x7d if if \x7d") =
        .ok ⟨[.skipUnless 2, .skipUnless 2, .stop]⟩ ∧
      ¬ ∃ body : Body, lexemes (Text.ascii "\x7b \x7b \x7b \x7d \x7d if if \x7d") =
        braced body.words := by
  refine ⟨rfl, ?_⟩
  rintro ⟨body, spelled⟩
  have claimed := waiting_braced body
  rw [← spelled] at claimed
  revert claimed
  decide +kernel

end Program

end PdfPrimitives.Calculator
