import PdfPrimitives.Proofs.Token.Strings

/-!
The reader gives the tokens of the grammar and the first fault of the grammar.
-/

namespace PdfPrimitives.Reader

variable {flags : ReadFlags} (all : flags.toLineFeed = false)
variable (offset begun last : Nat)

theorem read_comment (wanted : flags.comments = true) (bytes : List UInt8)
    (found : Array UInt8) :
    Agrees begun
      (.ok (.comment (found.toList ++ bytes.takeWhile Lexical.isInLine),
        bytes.dropWhile Lexical.isInLine))
      (read flags ⟨.holding bytes offset, .comment found false, begun, last⟩) := by
  induction bytes generalizing found offset with
  | nil =>
    rw [read_nil _ _ _ _ _ rfl]
    simp only [finish, Mode.finish, wanted]
    exact ⟨by simp, rfl, .inr ⟨rfl, rfl⟩, rfl⟩
  | cons byte bytes ih =>
    by_cases feed : Byte.isLineBreak byte = true
    · have stepped : Mode.step flags (.comment found false) byte =
          .release (some (.comment found.toList)) := by
        simp [Mode.step, feed, Mode.release, Mode.finish, wanted]
      rw [read_release _ _ _ _ rfl stepped]
      exact ⟨by simp [Lexical.isInLine, feed], by simp [Lexical.isInLine, feed, Source.holding],
        .inl rfl, rfl⟩
    · have stepped : Mode.step flags (.comment found false) byte =
          .take (.comment (found.push byte) false) := by
        simp [Mode.step, feed, wanted]
      rw [read_take _ _ _ _ rfl stepped]
      simpa [Lexical.isInLine, feed] using ih (offset + 1) (found.push byte)

theorem read_dropped (unwanted : flags.comments = false) (bytes : List UInt8)
    (found : Array UInt8) (dropped : Bool) :
    read flags ⟨.holding bytes offset, .comment found dropped, begun, last⟩ =
      read flags ⟨.holding (bytes.dropWhile Lexical.isInLine)
        (offset + (bytes.takeWhile Lexical.isInLine).length), .idle, begun, last⟩ := by
  induction bytes generalizing dropped offset with
  | nil =>
    rw [read_nil _ _ _ _ _ rfl]
    simp only [List.dropWhile_nil, read_nil _ _ _ _ _ (rfl : Mode.idle.isEnded = false)]
    simp [finish, Mode.finish, unwanted]
  | cons byte bytes ih =>
    by_cases feed : Byte.isLineBreak byte = true
    · have stepped : Mode.step flags (.comment found dropped) byte = .release none := by
        simp [Mode.step, feed, Mode.release, Mode.finish, unwanted]
      rw [read_drop _ _ _ _ rfl stepped]
      simp [Lexical.isInLine, feed]
    · have stepped : Mode.step flags (.comment found dropped) byte =
          .take (.comment found true) := by
        simp [Mode.step, feed, unwanted]
      rw [read_take _ _ _ _ rfl stepped, ih]
      simp [Lexical.isInLine, feed, Nat.add_assoc, Nat.add_comm 1]

theorem read_closing (bytes : List UInt8) :
    Agrees begun (Lexical.closing bytes)
      (read flags ⟨.holding bytes offset, .closing, begun, last⟩) := by
  cases bytes with
  | nil =>
    rw [read_nil _ _ _ _ _ rfl]
    rfl
  | cons byte bytes =>
    by_cases greater : byte = Byte.greater
    · subst greater
      rw [read_complete _ _ _ _ rfl (rfl : Mode.step flags .closing Byte.greater =
        .complete (.delimiter .dictionaryEnd))]
      exact ⟨rfl, rfl, .inl rfl, rfl⟩
    · have stepped : Mode.step flags .closing byte = .refuse .unterminatedDictionary .closing := by
        simp [Mode.step, greater]
      rw [Lexical.closing, if_neg (by simpa using greater)]
      exact read_refuse _ _ _ _ stepped

include all in
theorem read_delimiter (kind : Delimiter) (bytes : List UInt8) :
    Agrees begun (.ok (.delimiter kind, bytes))
      (read flags ⟨.holding bytes offset, .delimiter kind, begun, last⟩) := by
  cases bytes with
  | nil =>
    rw [read_nil _ _ _ _ _ rfl]
    exact ⟨rfl, rfl, .inr ⟨rfl, rfl⟩, rfl⟩
  | cons byte bytes =>
    have stepped : Mode.step flags (.delimiter kind) byte =
        .release (some (.delimiter kind)) := by
      cases regular : Byte.isRegular byte with
      | true => simp [Mode.step, role_regular all byte regular, Mode.release, Mode.finish]
      | false => simp [Mode.step, role_boundary all byte regular, Mode.release, Mode.finish]
    rw [read_release _ _ _ _ rfl stepped]
    exact ⟨rfl, rfl, .inl rfl, rfl⟩

include all in
theorem read_token (byte : UInt8) (rest : List UInt8) (visible : Byte.isBlank byte = false)
    (wanted : byte = Byte.percent → flags.comments = true) :
    Agrees offset (Lexical.token flags.plainNames byte rest)
      (read flags ⟨.holding (byte :: rest) offset, .idle, begun, last⟩) := by
  have opens : ∀ mode, Byte.isDelimiter byte = true → Mode.opening? byte = some mode →
      Mode.idle.step flags byte = .take mode := by
    intro mode delimiter opening
    simp [Mode.step, Mode.idleStep, visible, all, delimiter, opening]
  by_cases bracket : byte = Byte.openBracket ∨ byte = Byte.closeBracket ∨
      byte = Byte.openBrace ∨ byte = Byte.closeBrace
  · obtain ⟨kind, opening, delimiter, token_eq⟩ :=
      Lexical.token_bracket flags.plainNames byte rest bracket
    rw [token_eq, read_idle _ _ _ _ (opens _ delimiter opening)]
    exact read_delimiter all (offset + 1) offset last kind rest
  simp only [not_or] at bracket
  unfold Lexical.token
  by_cases percent : byte = Byte.percent
  · subst percent
    rw [if_pos rfl, read_idle _ _ _ _ (opens _ rfl rfl)]
    simpa using read_comment (offset + 1) offset last (wanted rfl) rest #[]
  rw [if_neg percent]
  by_cases openParen : byte = Byte.openParen
  · subst openParen
    rw [if_pos rfl, read_idle _ _ _ _ (opens _ rfl rfl)]
    exact read_literal (offset + 1) offset last rest
  rw [if_neg openParen]
  by_cases slash : byte = Byte.slash
  · subst slash
    rw [if_pos rfl, read_idle _ _ _ _ (opens _ rfl rfl)]
    exact read_run all (offset + 1) offset last rest
  rw [if_neg slash]
  by_cases less : byte = Byte.less
  · subst less
    rw [if_pos rfl, read_idle _ _ _ _ (opens _ rfl rfl)]
    exact read_angle (offset + 1) offset last rest
  rw [if_neg less]
  by_cases greater : byte = Byte.greater
  · subst greater
    rw [if_pos rfl, read_idle _ _ _ _ (opens _ rfl rfl)]
    exact read_closing (offset + 1) offset last rest
  rw [if_neg greater, if_neg bracket.1, if_neg bracket.2.1, if_neg bracket.2.2.1,
    if_neg bracket.2.2.2]
  by_cases closeParen : byte = Byte.closeParen
  · subst closeParen
    rw [if_pos rfl]
    have refused : Mode.idle.step flags Byte.closeParen =
        .refuse (.invalidCharacter Byte.closeParen) .idle := by
      simp [Mode.step, Mode.idleStep, visible, all,
        show Byte.isDelimiter Byte.closeParen = true from rfl,
        show Mode.opening? Byte.closeParen = none from rfl]
    exact read_refuse _ _ _ _ refused
  rw [if_neg closeParen]
  have plain : Byte.isDelimiter byte = false := by
    simp [Byte.isDelimiter, Byte.isParen, Byte.isBrace, *]
  have stepped : Mode.idle.step flags byte = .take (.word #[byte]) := by
    simp [Mode.step, Mode.idleStep, visible, all, plain]
  rw [read_idle _ _ _ _ stepped]
  have word := read_word all (offset + 1) offset last rest #[byte] (Nat.le_of_ble_eq_true rfl)
  simpa [Lexical.word, Nat.add_comm 1] using word

theorem skip_head (comments : Bool) (bytes rest : List UInt8) (byte : UInt8)
    (skipped : Lexical.skip comments bytes = byte :: rest) :
    Byte.isBlank byte = false ∧ (byte = Byte.percent → comments = true) := by
  fun_induction Lexical.skip comments bytes with
  | case1 => cases skipped
  | case2 _ _ _ ih => exact ih skipped
  | case3 _ _ _ _ ih => exact ih skipped
  | case4 first tail visible kept =>
    obtain ⟨rfl, -⟩ := List.cons.inj skipped
    refine ⟨by simpa using visible, ?_⟩
    intro percent
    simpa [percent] using kept

/-- What is not skipped in one text is not skipped at the start of another. -/
theorem skip_again {comments : Bool} {bytes rest : List UInt8} {byte : UInt8}
    (starts : Lexical.skip comments bytes = byte :: rest) (other : List UInt8) :
    Lexical.skip comments (byte :: other) = byte :: other := by
  obtain ⟨visible, wanted⟩ := skip_head _ _ _ _ starts
  rw [Lexical.skip, if_neg (by simp [visible]), if_neg (by simpa using wanted)]

/-- What is skipped of a line is passed over, whatever follows the line. A reader that stops at a
line feed does not meet one inside the line. -/
theorem read_skip_line (line : List UInt8) {tail : List UInt8}
    (single : flags.toLineFeed = true → Byte.lineFeed ∉ line)
    (ends : ∀ byte ∈ tail.head?, Lexical.isInLine byte = false) :
    ∃ before, read flags ⟨.holding (line ++ tail) offset, .idle, begun, last⟩ =
      read flags ⟨.holding (Lexical.skip flags.comments line ++ tail)
        (offset + (line.length - (Lexical.skip flags.comments line).length)),
        .idle, before, last⟩ := by
  fun_induction Lexical.skip flags.comments line generalizing offset begun with
  | case1 => exact ⟨begun, by simp⟩
  | case2 byte rest blank ih =>
    have stays : ¬ (flags.toLineFeed = true ∧ byte = Byte.lineFeed) := by
      rintro ⟨stops, rfl⟩
      exact single stops List.mem_cons_self
    have stepped : Mode.idle.step flags byte = .take .idle := by
      simp [Mode.step, Mode.idleStep, blank, stays]
    obtain ⟨before, same⟩ := ih (offset + 1) offset
      fun stops member => single stops (List.mem_cons_of_mem byte member)
    have shorter := (Lexical.skip_suffix flags.comments rest).length_le
    refine ⟨before, ?_⟩
    rw [List.cons_append, read_idle _ _ _ _ stepped, same, Nat.add_assoc, List.length_cons,
      Nat.sub_add_comm shorter, Nat.add_comm 1]
  | case3 byte rest visible comment ih =>
    obtain ⟨rfl, unwanted⟩ : byte = Byte.percent ∧ flags.comments = false := by
      simpa using comment
    have inside := (List.dropWhile_suffix (l := rest) Lexical.isInLine).subset
    obtain ⟨taken, dropped⟩ := Lexical.line_split rest ends
    obtain ⟨before, same⟩ :=
      ih (offset + 1 + (rest.takeWhile Lexical.isInLine).length) offset
        fun stops member => single stops (List.mem_cons_of_mem _ (inside member))
    -- The offset counts the comment and what is skipped behind it.
    have shorter :=
      (Lexical.skip_suffix flags.comments (rest.dropWhile Lexical.isInLine)).length_le
    have whole := congrArg List.length (List.takeWhile_append_dropWhile
      (p := Lexical.isInLine) (l := rest))
    rw [List.length_append] at whole
    refine ⟨before, ?_⟩
    rw [List.cons_append, read_idle _ _ _ _ Mode.step_percent, read_dropped _ _ _ unwanted, taken,
      dropped, same]
    congr 3
    rw [List.length_cons]
    omega
  | case4 byte rest visible kept => exact ⟨begun, by simp⟩

include all in
theorem read_skip (bytes : List UInt8) :
    ∃ before, read flags ⟨.holding bytes offset, .idle, begun, last⟩ =
      read flags ⟨.holding (Lexical.skip flags.comments bytes)
        (offset + (bytes.length - (Lexical.skip flags.comments bytes).length)),
        .idle, before, last⟩ := by
  have single : flags.toLineFeed = true → Byte.lineFeed ∉ bytes := by simp [all]
  have ends : ∀ byte ∈ ([] : List UInt8).head?, Lexical.isInLine byte = false := by simp
  simpa using read_skip_line offset begun last bytes single ends

include all in
theorem read_between_end (bytes : List UInt8) (ended : Lexical.skip flags.comments bytes = []) :
    (read flags ⟨.holding bytes offset, .idle, begun, last⟩).1 = .ok none := by
  obtain ⟨before, skipped⟩ := read_skip all offset begun last bytes
  rw [skipped, ended, read_nil _ _ _ _ _ rfl]
  rfl

include all in
theorem read_between (bytes rest : List UInt8) (byte : UInt8)
    (starts : Lexical.skip flags.comments bytes = byte :: rest) :
    Agrees (offset + (bytes.length - (rest.length + 1))) (Lexical.token flags.plainNames byte rest)
      (read flags ⟨.holding bytes offset, .idle, begun, last⟩) := by
  obtain ⟨before, skipped⟩ := read_skip all offset begun last bytes
  obtain ⟨visible, wanted⟩ := skip_head _ _ _ _ starts
  rw [skipped, starts]
  exact read_token all _ before last byte rest visible wanted

theorem collect_of_end (found : Array Token) (reader : Reader)
    (ended : (read flags reader).1 = .ok none) :
    (collect flags found reader).tokens = found.toList ∧
      (collect flags found reader).fault = none := by
  rw [collect]
  split <;> rename_i result <;> rw [result] at ended
  · cases ended
  · exact ⟨rfl, rfl⟩
  · cases ended

theorem collect_of_fault (found : Array Token) (reader : Reader) (fault : TokenFault)
    (failed : (read flags reader).1 = .error fault) :
    (collect flags found reader).tokens = found.toList ∧
      (collect flags found reader).fault = some fault := by
  rw [collect]
  split <;> rename_i result <;> rw [result] at failed
  · obtain rfl := Except.error.inj failed
    exact ⟨rfl, rfl⟩
  · cases failed
  · cases failed

theorem collect_of_token (found : Array Token) (reader : Reader) (token : Token)
    (given : (read flags reader).1 = .ok (some token)) :
    collect flags found reader = collect flags (found.push token) (read flags reader).2 := by
  rw [collect]
  split <;> rename_i result <;> rw [result] at given
  · cases given
  · cases given
  · obtain rfl := Option.some.inj (Except.ok.inj given)
    rw [result]

include all in
theorem collect_eq_lex (bytes : List UInt8) (found : Array Token) :
    (collect flags found ⟨.holding bytes offset, .idle, begun, last⟩).tokens =
        found.toList ++ (Lexical.lex flags bytes).1 ∧
      (collect flags found ⟨.holding bytes offset, .idle, begun, last⟩).fault =
        (Lexical.lex flags bytes).2 := by
  fun_induction Lexical.lex flags bytes generalizing found offset begun last with
  | case1 bytes ended =>
    rw [List.append_nil]
    exact collect_of_end found _ (read_between_end all offset begun last bytes ended)
  | case2 bytes byte rest starts fault wrong =>
    have agreed := read_between all offset begun last bytes rest byte starts
    rw [wrong] at agreed
    rw [List.append_nil]
    exact collect_of_fault found _ fault agreed
  | case3 bytes byte rest starts token behind given tokens fault more ih =>
    have agreed := read_between all offset begun last bytes rest byte starts
    rw [given] at agreed
    rw [collect_of_token found _ token agreed.answer]
    obtain ⟨next, next_eq⟩ : ∃ next,
      (read flags ⟨.holding bytes offset, .idle, begun, last⟩).2 = next := ⟨_, rfl⟩
    -- The reader stands behind the token, between tokens or at the end of the source.
    obtain ⟨ahead, rest, -⟩ := (⟨agreed.ahead, agreed.rest, agreed.start⟩ : _ ∧ _ ∧ _)
    rw [next_eq] at ahead rest ⊢
    obtain ⟨⟨sights, offset⟩, mode, begun, last⟩ := next
    obtain rfl : sights = behind.map .byte := ahead
    have appended : found.toList ++ token :: tokens = (found.push token).toList ++ tokens := by
      simp
    rw [appended]
    rcases rest with idle | ⟨ended, nothing⟩
    · obtain rfl : mode = .idle := idle
      have read := ih offset begun last (found.push token)
      rw [more] at read
      exact read
    · obtain rfl : mode = .ended := ended
      subst nothing
      rw [Lexical.lex_of_end flags [] (by rw [Lexical.skip])] at more
      obtain ⟨rfl, rfl⟩ := Prod.mk.inj more
      rw [List.append_nil]
      refine collect_of_end (found.push token) ⟨.holding [] offset, .ended, begun, last⟩ ?_
      rw [read]
      rfl

/-- All reads on a fresh reader give the tokens of the grammar up to the first fault, and
the fault of the grammar, for all flags that do not end reading at a line feed. -/
theorem tokens_eq_lex (plainNames comments : Bool) (bytes : List UInt8) :
    let flags : ReadFlags := ⟨plainNames, comments, false⟩
    let reading := (ofBytes bytes).tokens flags
    (reading.tokens, reading.fault) = Lexical.lex flags bytes := by
  intro flags reading
  have all : flags.toLineFeed = false := rfl
  obtain ⟨tokens, fault⟩ := collect_eq_lex all 0 0 0 bytes #[]
  exact Prod.ext tokens fault

end PdfPrimitives.Reader
