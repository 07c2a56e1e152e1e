import PdfPrimitives.Proofs.Calculator.Grammar

/-!
The code of a syntax tree. The compiler turns the words of a tree into flat code whose skips
pass over the blocks that are not chosen.
-/

namespace PdfPrimitives.Calculator

namespace Body

def code (start : Nat) : Body → List Instruction
  | done => []
  | literal number rest => .literal number.bits :: rest.code (start + 1)
  | operator name rest => .operator name :: rest.code (start + 1)
  | conditional inner rest =>
    let block := inner.code (start + 1)
    let stop := start + 1 + block.length
    .skipUnless stop :: block ++ rest.code stop
  | alternative first second rest =>
    let block := first.code (start + 1)
    let middle := start + 1 + block.length
    let other := second.code (middle + 1)
    let stop := middle + 1 + other.length
    .skipUnless (middle + 1) :: block ++ .skip stop :: other ++ rest.code stop

end Body

namespace Builder

def append (builder : Builder) (instructions : List Instruction) : Builder :=
  { builder with code := builder.code ++ instructions.toArray }

theorem append_nil (builder : Builder) : builder.append [] = builder := by
  simp [append]

theorem append_append (builder : Builder) (left right : List Instruction) :
    (builder.append left).append right = builder.append (left ++ right) := by
  simp [append]

theorem emit_append (builder : Builder) (instruction : Instruction)
    (instructions : List Instruction) :
    (builder.emit instruction).append instructions =
      builder.append (instruction :: instructions) := by
  simp [append, emit]

def entered (builder : Builder) : Builder :=
  { builder.emit .placeholder with opened := builder.code.size :: builder.opened }

def behindBlock (builder : Builder) (inner : List Instruction) : Builder :=
  { builder.append (.placeholder :: inner) with
    closed := ⟨builder.code.size, builder.code.size + 1 + inner.length⟩ :: builder.closed }

def behindBody (builder : Builder) (body : Body) : Builder :=
  builder.behindBlock (body.code (builder.code.size + 1))

theorem size_append (builder : Builder) (instructions : List Instruction) :
    (builder.append instructions).code.size = builder.code.size + instructions.length := by
  simp [append]

theorem size_emit (builder : Builder) (instruction : Instruction) :
    (builder.emit instruction).code.size = builder.code.size + 1 :=
  Array.size_push _

theorem size_entered (builder : Builder) : builder.entered.code.size = builder.code.size + 1 :=
  size_emit builder .placeholder

theorem body_open (builder : Builder) (rest : List (List UInt8))
    (room : builder.opened.length < nestingLimit) :
    builder.body ([Byte.openBrace] :: rest) = builder.entered.body rest := by
  rw [body, if_pos rfl, openBlock, if_neg (Nat.not_le.mpr room)]
  rfl

theorem body_close (builder : Builder) (inner : List Instruction) (rest : List (List UInt8)) :
    (builder.entered.append inner).body ([Byte.closeBrace] :: rest) =
      (builder.behindBlock inner).body rest := by
  have behind : (builder.entered.append inner).code.size =
      builder.code.size + 1 + inner.length := by
    rw [size_append, size_entered]
  have code : (builder.entered.append inner).code =
      (builder.append (.placeholder :: inner)).code := by
    simp [entered, emit, append]
  rw [body, if_neg (by decide), if_pos rfl]
  change Builder.body ⟨(builder.entered.append inner).code, builder.opened,
    ⟨builder.code.size, (builder.entered.append inner).code.size⟩ :: builder.closed⟩ rest = _
  rw [behind, code]
  rfl

theorem body_word (builder next : Builder) (lexeme : List UInt8) (rest : List (List UInt8))
    (opening : lexeme ≠ [Byte.openBrace]) (closing : lexeme ≠ [Byte.closeBrace])
    (compiled : builder.word lexeme = .ok next) :
    builder.body (lexeme :: rest) = next.body rest := by
  rw [body, if_neg opening, if_neg closing, compiled]
  rfl

theorem word_literal (builder : Builder) (literal : Literal) :
    builder.word literal.word = .ok (builder.emit (.literal literal.bits)) := by
  simp [word, Nat.not_lt.mpr literal.short, numeric_of_number _ _ literal.spelled,
    literal.spelled]

theorem word_name (builder : Builder) (operator : Operator) :
    builder.word (Text.ascii operator.name) = .ok (builder.emit (.operator operator)) := by
  obtain ⟨-, -, single, double⟩ := name_plain operator
  simp [word, Nat.not_lt.mpr (name_short operator), name_not_numeric, single, double,
    ofName_name]

theorem word_if (builder : Builder) : builder.word (Text.ascii "if") = builder.conditional := rfl

theorem word_ifelse (builder : Builder) :
    builder.word (Text.ascii "ifelse") = builder.alternative := rfl

theorem set_placeholder (code : Array Instruction) (old skip : Instruction)
    (inner : List Instruction) :
    (code ++ (old :: inner).toArray).setIfInBounds code.size skip =
      code ++ (skip :: inner).toArray := by
  apply Array.toList_inj.mp
  simp

theorem conditional_eq (builder : Builder) (block : Block) (closed : List Block)
    (waiting : builder.closed = block :: closed) (adjacent : block.stop = builder.code.size) :
    builder.conditional =
      .ok ({ builder with closed }.patch block (.skipUnless block.stop)) := by
  simp [conditional, takeBlock, waiting, adjacent, bind, Except.bind, pure, Except.pure]

theorem alternative_eq (builder : Builder) (second first : Block) (closed : List Block)
    (waiting : builder.closed = second :: first :: closed)
    (adjacent : second.stop = builder.code.size) (neighbours : first.stop = second.start) :
    builder.alternative =
      .ok (({ builder with closed }.patch first (.skipUnless (second.start + 1))).patch second
        (.skip second.stop)) := by
  simp [alternative, takeBlock, waiting, adjacent, neighbours, bind, Except.bind, pure,
    Except.pure]

theorem size_behindBlock (builder : Builder) (inner : List Instruction) :
    (builder.behindBlock inner).code.size = builder.code.size + 1 + inner.length := by
  simp only [behindBlock, size_append, List.length_cons]
  omega

theorem conditional_append (builder : Builder) (inner : List Instruction) :
    (builder.behindBlock inner).conditional =
      .ok (builder.append (.skipUnless (builder.code.size + 1 + inner.length) :: inner)) := by
  rw [conditional_eq _ _ builder.closed rfl (size_behindBlock builder inner).symm]
  simp only [patch, behindBlock, append, set_placeholder]

/-- The placeholder of the first block is replaced, then that of the second one behind it. -/
theorem set_placeholders (code : Array Instruction) (entry exit : Instruction)
    (first second : List Instruction) :
    ((code ++ (.placeholder :: first).toArray ++
        (.placeholder :: second).toArray).setIfInBounds code.size entry).setIfInBounds
          (code.size + 1 + first.length) exit =
      code ++ (entry :: first ++ exit :: second).toArray := by
  have size : (code ++ (entry :: first).toArray).size = code.size + 1 + first.length := by
    simp only [Array.size_append, List.size_toArray, List.length_cons]
    omega
  have outer : (code ++ (.placeholder :: first).toArray ++
      (.placeholder :: second).toArray).setIfInBounds code.size entry =
        code ++ (entry :: first).toArray ++ (.placeholder :: second).toArray := by
    simp only [Array.append_assoc, List.append_toArray, List.cons_append, set_placeholder]
  rw [outer, ← size, set_placeholder]
  simp only [Array.append_assoc, List.append_toArray]

theorem alternative_append (builder : Builder) (first second : List Instruction) :
    let middle := builder.code.size + 1 + first.length
    ((builder.behindBlock first).behindBlock second).alternative =
      .ok (builder.append (.skipUnless (middle + 1) :: first ++
        .skip (middle + 1 + second.length) :: second)) := by
  intro middle
  have inner : (builder.behindBlock first).code.size = middle := size_behindBlock builder first
  have adjacent := (size_behindBlock (builder.behindBlock first) second).symm
  rw [alternative_eq _ _ _ builder.closed rfl adjacent inner.symm]
  simp only [inner, patch]
  simp only [behindBlock, append, set_placeholders, middle]

theorem word_if_behind (builder : Builder) (inner : Body) :
    let block := inner.code (builder.code.size + 1)
    (builder.behindBody inner).word (Text.ascii "if") =
      .ok (builder.append (.skipUnless (builder.code.size + 1 + block.length) :: block)) := by
  intro block
  rw [word_if]
  exact conditional_append builder block

theorem word_ifelse_behind (builder : Builder) (first second : Body) :
    let block := first.code (builder.code.size + 1)
    let middle := builder.code.size + 1 + block.length
    let other := second.code (middle + 1)
    ((builder.behindBody first).behindBody second).word (Text.ascii "ifelse") =
      .ok (builder.append (.skipUnless (middle + 1) :: block ++
        .skip (middle + 1 + other.length) :: other)) := by
  intro block middle other
  have between : (builder.behindBody first).code.size = middle := size_behindBlock builder block
  rw [word_ifelse, behindBody, between]
  exact alternative_append builder block other

theorem body_braced (body : Body) (builder : Builder) (rest : List (List UInt8))
    (inner : ∀ (builder : Builder) (rest : List (List UInt8)),
      builder.opened.length + body.depth ≤ nestingLimit →
        builder.body (body.words ++ rest) =
          (builder.append (body.code builder.code.size)).body rest)
    (fits : builder.opened.length + (body.depth + 1) ≤ nestingLimit) :
    builder.body (braced body.words ++ rest) =
      (builder.behindBody body).body rest := by
  have room : builder.opened.length < nestingLimit := by omega
  have within : builder.entered.opened.length + body.depth ≤ nestingLimit := by
    simp only [entered, List.length_cons]
    omega
  rw [braced, List.cons_append, List.cons_append, List.append_assoc, body_open _ _ room,
    inner _ _ within, size_entered]
  exact body_close builder _ rest

/-- The compiler emits the code of a body and leaves its blocks as they were. -/
theorem body_words (body : Body) (builder : Builder) (rest : List (List UInt8))
    (fits : builder.opened.length + body.depth ≤ nestingLimit) :
    builder.body (body.words ++ rest) =
      (builder.append (body.code builder.code.size)).body rest := by
  -- What a conditional compiles to is appended at once, so its blocks never wait.
  induction body generalizing builder rest with
  | done => rw [Body.code, append_nil]; rfl
  | literal literal body ih =>
    obtain ⟨opening, closing, -, -⟩ := literal_plain literal
    rw [Body.words, List.cons_append,
      body_word _ _ _ _ opening closing (word_literal builder literal),
      ih (builder.emit _) rest fits, emit_append, size_emit]
    rfl
  | operator operator body ih =>
    obtain ⟨opening, closing, -, -⟩ := name_plain operator
    rw [Body.words, List.cons_append,
      body_word _ _ _ _ opening closing (word_name builder operator),
      ih (builder.emit _) rest fits, emit_append, size_emit]
    rfl
  | conditional inner body innerIh ih =>
    simp only [Body.depth] at fits
    let start := builder.code.size
    let block := inner.code (start + 1)
    have size : (builder.append (.skipUnless (start + 1 + block.length) :: block)).code.size =
        start + 1 + block.length := by
      rw [size_append, List.length_cons, Nat.add_comm block.length 1, Nat.add_assoc]
    rw [Body.words, List.append_assoc, List.cons_append,
      body_braced inner builder _ innerIh (by omega),
      body_word _ _ _ _ (by decide) (by decide) (word_if_behind builder inner),
      ih (builder.append _) rest (Nat.le_trans (Nat.add_le_add_left (Nat.le_max_right _ _) _) fits),
      append_append, size]
    rfl
  | alternative first second body firstIh secondIh ih =>
    simp only [Body.depth] at fits
    let start := builder.code.size
    let block := first.code (start + 1)
    let middle := start + 1 + block.length
    let other := second.code (middle + 1)
    have secondFits : (builder.behindBody first).opened.length + (second.depth + 1) ≤
        nestingLimit := by
      simp only [behindBody, behindBlock, append]
      omega
    have size : (builder.append (.skipUnless (middle + 1) :: block ++
        .skip (middle + 1 + other.length) :: other)).code.size = middle + 1 + other.length := by
      simp only [size_append, List.length_append, List.length_cons, middle, start]
      omega
    rw [Body.words, List.append_assoc, List.append_assoc, List.cons_append,
      body_braced first builder _ firstIh (by omega),
      body_braced second _ _ secondIh secondFits,
      body_word _ _ _ _ (by decide) (by decide) (word_ifelse_behind builder first second),
      ih (builder.append _) rest (Nat.le_trans (Nat.add_le_add_left (Nat.le_max_right _ _) _) fits),
      append_append, size]
    simp [Body.code, start, block, middle, other]

end Builder

namespace Program

theorem compile_of_lexemes (text : List UInt8) (body : Body)
    (spelled : lexemes text = braced body.words) (nested : body.depth ≤ nestingLimit) :
    compile text = .ok ⟨body.code 0 ++ [.stop]⟩ := by
  have start : Builder.empty.opened.length + body.depth ≤ nestingLimit := by
    simpa [Builder.empty] using nested
  rw [compile, spelled, braced, List.cons_append, ofLexemes, if_pos rfl,
    Builder.body_words body Builder.empty _ start]
  simp [Builder.body, Builder.append, Builder.empty, Builder.emit, Byte.openBrace,
    Byte.closeBrace]

end Program

end PdfPrimitives.Calculator
