import Mathlib.Data.List.TakeWhile
import PdfPrimitives.Calculator.Compile

/-!
Words and what stands between them. The texts of a list of words are those in which blanks and
comments separate the words, where a brace separates by itself. The words of a text are the list
that it is a text of, so that nothing else of a text matters to its program.
-/

namespace PdfPrimitives.Calculator

namespace Lexeme

def isLetter (byte : UInt8) : Bool :=
  !(Byte.isBlank byte || byte == Byte.percent || Byte.isBrace byte)

def IsBrace (word : List UInt8) : Prop := word = [Byte.openBrace] ∨ word = [Byte.closeBrace]

inductive IsLexeme : List UInt8 → Prop
  | brace {word : List UInt8} (brace : IsBrace word) : IsLexeme word
  | letters {first : UInt8} {rest : List UInt8}
      (letters : ∀ byte ∈ first :: rest, isLetter byte) : IsLexeme (first :: rest)

def InLine (content : List UInt8) : Prop := ∀ byte ∈ content, Byte.isLineBreak byte = false

inductive Gap : List UInt8 → Prop
  | nothing : Gap []
  | blank {byte : UInt8} {rest : List UInt8} (isBlank : Byte.isBlank byte) (gap : Gap rest) :
      Gap (byte :: rest)
  | comment {content rest : List UInt8} {lineBreak : UInt8} (inLine : InLine content)
      (ends : Byte.isLineBreak lineBreak) (gap : Gap rest) :
      Gap (Byte.percent :: content ++ lineBreak :: rest)

inductive Trail : List UInt8 → Prop
  | gap {gap : List UInt8} (isGap : Gap gap) : Trail gap
  | comment {gap content : List UInt8} (isGap : Gap gap) (inLine : InLine content) :
      Trail (gap ++ Byte.percent :: content)

/-- The texts of some words from the first word on. Between two words there is a gap, which is
not empty unless one of them is a brace. -/
inductive Spaced : List (List UInt8) → List UInt8 → Prop
  | last {word trail : List UInt8} (lexeme : IsLexeme word) (isTrail : Trail trail) :
      Spaced [word] (word ++ trail)
  | next {word gap following text : List UInt8} {words : List (List UInt8)}
      (lexeme : IsLexeme word) (isGap : Gap gap)
      (apart : gap = [] → IsBrace word ∨ IsBrace following)
      (rest : Spaced (following :: words) text) :
      Spaced (word :: following :: words) (word ++ (gap ++ text))

inductive Written : List (List UInt8) → List UInt8 → Prop
  | nothing {trail : List UInt8} (isTrail : Trail trail) : Written [] trail
  | words {gap text : List UInt8} {words : List (List UInt8)} (isGap : Gap gap)
      (spaced : Spaced words text) : Written words (gap ++ text)

def Stops (text : List UInt8) : Prop := ∀ byte ∈ text.head?, isLetter byte = false

section Scanning

variable {byte : UInt8} {text : List UInt8}

theorem isLetter_iff : isLetter byte = true ↔
    Byte.isBlank byte = false ∧ (byte == Byte.percent) = false ∧ Byte.isBrace byte = false := by
  simp [isLetter, and_assoc]

theorem scan_letter (bytes : Array UInt8) (letter : isLetter byte) :
    scan (.word bytes) (byte :: text) = scan (.word (bytes.push byte)) text := by
  obtain ⟨blank, percent, brace⟩ := isLetter_iff.mp letter
  rw [scan, blank, percent, brace]
  simp only [Bool.false_eq_true, ↓reduceIte]

theorem scan_start (letter : isLetter byte) :
    scan .between (byte :: text) = scan (.word #[byte]) text := by
  obtain ⟨blank, percent, brace⟩ := isLetter_iff.mp letter
  rw [scan, blank, percent, brace]
  simp only [Bool.false_eq_true, ↓reduceIte]

theorem scan_brace {word : List UInt8} (brace : IsBrace word) :
    scan .between (word ++ text) = word :: scan .between text := by
  rcases brace with rfl | rfl <;> rfl

theorem scan_percent : scan .between (Byte.percent :: text) = scan .comment text := rfl

theorem scan_comment {content : List UInt8} (inLine : InLine content) :
    scan .comment (content ++ text) = scan .comment text := by
  induction content with
  | nil => rfl
  | cons byte content ih =>
    obtain ⟨first, rest⟩ := List.forall_mem_cons.mp inLine
    rw [List.cons_append, scan, first, if_neg Bool.false_ne_true, ih rest]

theorem scan_gap {gap : List UInt8} (isGap : Gap gap) :
    scan .between (gap ++ text) = scan .between text := by
  induction isGap with
  | nothing => rfl
  | blank isBlank _ ih => rw [List.cons_append, scan, if_pos isBlank, ih]
  | comment inLine ends _ ih =>
    rw [List.cons_append, List.cons_append, scan_percent, List.append_assoc, scan_comment inLine,
      List.cons_append, scan, if_pos ends, ih]

theorem scan_trail (isTrail : Trail text) : scan .between text = [] := by
  cases isTrail with
  | gap isGap =>
    rw [← text.append_nil, scan_gap isGap]
    rfl
  | @comment _ content isGap inLine =>
    rw [scan_gap isGap, scan_percent, ← content.append_nil, scan_comment inLine]
    rfl

/-- A word of letters ends where the text does not go on with it. -/
theorem scan_stop (bytes : Array UInt8) (stops : Stops text) :
    scan (.word bytes) text = bytes.toList :: scan .between text := by
  cases text with
  | nil => rfl
  | cons byte rest =>
    have other : isLetter byte = false := stops byte rfl
    rw [scan, scan]
    by_cases blank : Byte.isBlank byte = true
    · rw [if_pos blank, if_pos blank]
    by_cases percent : (byte == Byte.percent) = true
    · rw [if_neg blank, if_neg blank, if_pos percent, if_pos percent]
    by_cases brace : Byte.isBrace byte = true
    · rw [if_neg blank, if_neg blank, if_neg percent, if_neg percent, if_pos brace, if_pos brace]
    · simp [isLetter, blank, percent, brace] at other

theorem scan_letters {bytes : Array UInt8} {letters : List UInt8}
    (all : ∀ byte ∈ letters, isLetter byte) (stops : Stops text) :
    scan (.word bytes) (letters ++ text) = (bytes.toList ++ letters) :: scan .between text := by
  induction letters generalizing bytes with
  | nil => rw [List.nil_append, List.append_nil, scan_stop bytes stops]
  | cons byte letters ih =>
    obtain ⟨first, rest⟩ := List.forall_mem_cons.mp all
    rw [List.cons_append, scan_letter bytes first, ih rest, Array.toList_push, List.append_assoc]
    rfl

theorem scan_lexeme {word : List UInt8} (lexeme : IsLexeme word)
    (apart : IsBrace word ∨ Stops text) :
    scan .between (word ++ text) = word :: scan .between text := by
  rcases apart with brace | stops
  · exact scan_brace brace
  cases lexeme with
  | brace brace => exact scan_brace brace
  | letters letters =>
    obtain ⟨start, others⟩ := List.forall_mem_cons.mp letters
    rw [List.cons_append, scan_start start, scan_letters others stops]
    rfl

end Scanning

section Stopping

variable {text : List UInt8}

theorem stops_brace {word : List UInt8} (brace : IsBrace word) : Stops (word ++ text) := by
  rcases brace with rfl | rfl <;> (rintro _ ⟨⟩; rfl)

theorem Gap.stops {gap : List UInt8} (isGap : Gap gap) (stops : gap = [] → Stops text) :
    Stops (gap ++ text) := by
  cases isGap with
  | nothing => exact stops rfl
  | blank isBlank _ =>
    rintro _ ⟨⟩
    simp [isLetter, isBlank]
  | comment _ _ _ =>
    rintro _ ⟨⟩
    rfl

theorem Trail.stops (isTrail : Trail text) : Stops text := by
  cases isTrail with
  | gap isGap =>
    rw [← text.append_nil]
    refine isGap.stops fun _ => ?_
    rintro _ ⟨⟩
  | comment isGap _ =>
    refine isGap.stops fun _ => ?_
    rintro _ ⟨⟩
    rfl

theorem Spaced.stops_iff {word : List UInt8} {words : List (List UInt8)}
    (spaced : Spaced (word :: words) text) : Stops text ↔ IsBrace word := by
  have starts : ∃ rest, IsLexeme word ∧ text = word ++ rest := by
    cases spaced with
    | last lexeme _ => exact ⟨_, lexeme, rfl⟩
    | next lexeme _ _ _ => exact ⟨_, lexeme, rfl⟩
  obtain ⟨rest, lexeme, rfl⟩ := starts
  constructor
  · intro stops
    cases lexeme with
    | brace brace => exact brace
    | @letters first _ letters =>
      have letter : isLetter first := letters first List.mem_cons_self
      rw [stops first rfl] at letter
      cases letter
  · exact stops_brace

end Stopping

theorem scan_spaced {words : List (List UInt8)} {text : List UInt8} (spaced : Spaced words text) :
    scan .between text = words := by
  induction spaced with
  | last lexeme isTrail => rw [scan_lexeme lexeme (.inr isTrail.stops), scan_trail isTrail]
  | @next word gap following text words lexeme isGap apart rest ih =>
    have stops : IsBrace word ∨ Stops (gap ++ text) := by
      by_cases brace : IsBrace word
      · exact .inl brace
      · exact .inr (isGap.stops fun empty =>
          rest.stops_iff.mpr ((apart empty).resolve_left brace))
    rw [scan_lexeme lexeme stops, scan_gap isGap, ih]

section Writing

variable {words : List (List UInt8)} {text : List UInt8}

/-- A gap may become longer at its front. -/
theorem Written.behind (front : List UInt8) (written : Written words text)
    (joined : ∀ {gap}, Gap gap → Gap (front ++ gap)) : Written words (front ++ text) := by
  cases written with
  | nothing isTrail =>
    cases isTrail with
    | gap isGap => exact .nothing (.gap (joined isGap))
    | comment isGap inLine =>
      rw [← List.append_assoc]
      exact .nothing (.comment (joined isGap) inLine)
  | words isGap spaced =>
    rw [← List.append_assoc]
    exact .words (joined isGap) spaced

theorem Written.lexeme {word : List UInt8} (written : Written words text) (lexeme : IsLexeme word)
    (apart : IsBrace word ∨ Stops text) : Written (word :: words) (word ++ text) := by
  suffices spaced : Spaced (word :: words) (word ++ text) from
    @Written.words [] _ _ .nothing spaced
  cases written with
  | nothing isTrail => exact .last lexeme isTrail
  | @words gap text words isGap spaced =>
    cases words with
    | nil => cases spaced
    | cons following words =>
      refine .next lexeme isGap (fun empty => ?_) spaced
      subst empty
      exact apart.imp_right spaced.stops_iff.mp

theorem exists_run (part : UInt8 → Bool) (text : List UInt8) :
    ∃ run rest, run ++ rest = text ∧ (∀ byte ∈ run, part byte) ∧
      ∀ byte ∈ rest.head?, part byte = false := by
  refine ⟨text.takeWhile part, text.dropWhile part, List.takeWhile_append_dropWhile,
    fun _ => List.mem_takeWhile_imp, fun byte first => ?_⟩
  have stopped := List.head?_dropWhile_not part text
  rwa [Option.mem_def.mp first] at stopped

/-- Every text is one of some words. -/
theorem exists_written (text : List UInt8) : ∃ words, Written words text := by
  match text with
  | [] => exact ⟨[], .nothing (.gap .nothing)⟩
  | byte :: rest =>
    by_cases blank : Byte.isBlank byte = true
    · obtain ⟨words, written⟩ := exists_written rest
      exact ⟨words, written.behind [byte] (.blank blank)⟩
    by_cases percent : (byte == Byte.percent) = true
    · obtain ⟨content, behind, rfl, inLine, ends⟩ := exists_run (!Byte.isLineBreak ·) rest
      obtain rfl := eq_of_beq percent
      simp only [Bool.not_eq_true', Bool.not_eq_false'] at inLine ends
      cases behind with
      | nil =>
        rw [List.append_nil]
        exact ⟨[], .nothing (.comment .nothing inLine)⟩
      | cons lineBreak behind =>
        obtain ⟨words, written⟩ := exists_written behind
        have longer := written.behind (Byte.percent :: content ++ [lineBreak]) fun isGap => by
          rw [List.append_assoc]
          exact .comment inLine (ends lineBreak rfl) isGap
        rw [List.append_assoc] at longer
        exact ⟨words, longer⟩
    by_cases brace : Byte.isBrace byte = true
    · obtain ⟨words, written⟩ := exists_written rest
      have isBrace : IsBrace [byte] := by simpa [IsBrace, Byte.isBrace] using brace
      exact ⟨_, written.lexeme (.brace isBrace) (.inl isBrace)⟩
    · obtain ⟨letters, behind, rfl, inWord, stops⟩ := exists_run isLetter rest
      obtain ⟨words, written⟩ := exists_written behind
      have letter : isLetter byte := by simp [isLetter, blank, percent, brace]
      exact ⟨_, written.lexeme (.letters (List.forall_mem_cons.mpr ⟨letter, inWord⟩)) (.inr stops)⟩
termination_by text.length

theorem Written.scan_eq (written : Written words text) : scan .between text = words := by
  cases written with
  | nothing isTrail => exact scan_trail isTrail
  | words isGap spaced => rw [scan_gap isGap, scan_spaced spaced]

end Writing

end Lexeme

open Lexeme (Written)

/-- The words of a text are those that it is a text of, however they are spaced. Texts of the same
words become the same program, or fail alike. -/
theorem spacing_irrelevant (words : List (List UInt8)) :
    (∀ text, lexemes text = words ↔ Written words text) ∧
      ∀ first second, Written words first → Written words second →
        Program.compile first = Program.compile second := by
  refine ⟨fun text => ⟨?_, Written.scan_eq⟩, fun first second written other => ?_⟩
  · rintro rfl
    obtain ⟨words, written⟩ := Lexeme.exists_written text
    rwa [lexemes, written.scan_eq]
  · rw [Program.compile, Program.compile, lexemes, lexemes, written.scan_eq, other.scan_eq]

def conditionalWords : List (List UInt8) :=
  [[Byte.openBrace], Text.ascii "true", [Byte.openBrace], Text.ascii "1", Text.ascii "neg",
    [Byte.closeBrace], Text.ascii "if", [Byte.closeBrace]]

def denseText : List UInt8 := Text.ascii "\x7btrue\x7b1 neg\x7dif\x7d"

/-- Comments with braces in them, one directly behind a word and one that the text ends with, and
a NUL between two words. -/
def looseText : List UInt8 :=
  Text.ascii "% \x7b\n \x7b true%\x7d\r\x7b 1\x00neg\t\x7d if\n\x7d % \x7d"

theorem conditional_spacing_irrelevant :
    (lexemes looseText = conditionalWords ∧ Written conditionalWords denseText ∧
      Written conditionalWords looseText) ∧
      Program.compile denseText = Program.compile looseText := by
  obtain ⟨reads, same⟩ := spacing_irrelevant conditionalWords
  have loose : lexemes looseText = conditionalWords := by decide +kernel
  have dense : lexemes denseText = conditionalWords := by decide +kernel
  have first := (reads denseText).mp dense
  have second := (reads looseText).mp loose
  exact ⟨⟨loose, first, second⟩, same denseText looseText first second⟩

end PdfPrimitives.Calculator
