import Pycopy.Compile.Indent

/-!
# Progress of the Lexer

Every call of `mp_lexer_to_next` reads characters, except for the tokens of an indentation that is
already known and for the end of the text. So the end is reached. The line feed that the lexer adds
at the end of the text is no character of the source, and no token but the end of a line is made of
it.

## Main results

* `lexer_progress`: the end is reached, and characters of the source are read for a token.
-/

namespace Pycopy

variable {cfg : LexerCfg} {lex lex' : Lexer}

/-! ### Definitions -/

/-- The text of a source, with line feeds only -/
def sourceLines (src : List UInt8) : List UInt8 := foldLines false src

/-- The text that is read, with a line feed at its end -/
def sourceText (src : List UInt8) : List UInt8 :=
  if src = [] then [10] else endLine (sourceLines src)

/-- The number of characters of the source that have been read -/
def consumed (src : List UInt8) (lex : Lexer) : ℕ :=
  min ((sourceText src).length - lex.text.length) (sourceLines src).length

/-- Calls of `mp_lexer_to_next` -/
def lexCalls (cfg : LexerCfg) : ℕ → Lexer → Except LexExc Lexer
  | 0, lex => .ok lex
  | n + 1, lex => lexerToNext cfg lex >>= lexCalls cfg n

/-- Tokens for which nothing has to be read -/
def TokKind.IsLayout : TokKind → Prop
  | .indent | .dedent | .newline | .eof => True
  | _ => False

/-! ### The text of the source -/

/-- **The lexer starts at the text of the source.** -/
theorem lexerInit_at (src : List UInt8) : (lexerInit src).At (sourceText src) := by
  -- three zeros come first
  have hzeros : ∀ lex : Lexer, lex.reader = src → lex.chr0 = some 0 → lex.chr1 = some 0 →
      lex.chr2 = some 0 → lex.At (0 :: 0 :: 0 :: sourceText src) := by
    intro lex hreader h0 h1 h2
    have hcons : foldLines false (0 :: src) = 0 :: foldLines false src := by
      rw [foldLines, if_neg (by decide), if_neg (by simp)]
    have hend : endLine (0 :: foldLines false src) = 0 :: sourceText src := by
      cases src with
      | nil => rfl
      | cons c src =>
        rw [endLine_cons 0 (foldLines_cons_ne_nil c src)]
        rfl
    refine ⟨by simp [Lexer.TextOk, h2], by simp [h1], by simp [h0], ?_⟩
    rw [Lexer.text, h0, h1, h2, hreader, Option.toList_some, List.singleton_append,
      List.singleton_append, hcons, hend]
    rfl
  exact (hzeros _ rfl rfl rfl rfl).next.next.next

theorem length_sourceText_le (src : List UInt8) :
    (sourceText src).length ≤ (sourceLines src).length + 1 := by
  rw [sourceText]
  split
  · exact Nat.le_add_left _ _
  · rw [endLine]
    split
    · exact Nat.le_succ _
    · rw [List.length_append, List.length_singleton]

/-! ### What is read -/

/-- Less text is left if a character was read. -/
theorem Moves.length_text_lt (h : Moves (nextChar lex) lex') (hok : lex.TextOk)
    (hne : lex.chr0 ≠ none) : lex'.text.length < lex.text.length := by
  obtain ⟨c, hc⟩ := Option.ne_none_iff_exists'.mp hne
  have hle := (h.text (textOk_nextChar lex)).2.length_le
  rw [hok.text_eq, hc, Option.toList_some, List.singleton_append, List.length_cons]
  omega

/-- **What a token takes off the text**: nothing at the end of the text, at the end of a line and
for an indentation that is known, and else its first character. -/
inductive TokTakes (lx lex' : Lexer) (had : Bool) : Prop
  | eof : lex'.tokKind = .eof → lex'.text = lx.text → TokTakes lx lex' had
  | dent : lex'.tokKind = .indent ∨ lex'.tokKind = .dedent → lex'.text = lx.text →
      lex'.emitDent.natAbs < lx.emitDent.natAbs → TokTakes lx lex' had
  | line : had = true → lex' = lexNewline lx → TokTakes lx lex' had
  | token : lx.chr0 ≠ none → lex'.text.length < lx.text.length → TokTakes lx lex' had

theorem lexToken_takes {had : Bool} (hok : lex.TextOk) (h : lexToken cfg lex had = .ok lex') :
    TokTakes lex lex' had := by
  rw [lexToken] at h
  split_ifs at h with hneg hpos hline hnone hstr hname hnum
  · cases h
    exact .dent (.inr rfl) rfl (by dsimp only; omega)
  · cases h
    exact .dent (.inl rfl) rfl (by dsimp only; omega)
  · cases h
    exact .line hline.1 rfl
  · cases h
    exact .eof rfl rfl
  · exact .token hnone ((stringTokens_isPlain cfg rfl h).1.length_text_lt hok hnone)
  · cases h
    have hmoves : Moves (nextChar { lex with vstr := lex.vstr ++ lex.chr0.toList })
        (lexName cfg lex) := (moves_lexName cfg lex).1
    exact .token hnone (hmoves.length_text_lt hok hnone)
  · cases h
    have hmoves : Moves (nextChar { lex with
        tokKind := numberKind lex, vstr := lex.vstr ++ lex.chr0.toList }) (lexNumber lex) :=
      (moves_lexNumber lex).1
    exact .token hnone (hmoves.length_text_lt hok hnone)
  · cases h
    exact .token hnone ((moves_lexOperator lex).1.length_text_lt hok hnone)

/-- A line feed is read before the end of a line is noted. -/
theorem skipLoop_reads {stop : Bool} {lex lx : Lexer} {had : Bool} (hok : lex.TextOk)
    (h : skipLoop stop lex had = (lx, true)) :
    had = true ∨ lx.text.length < lex.text.length := by
  have hnext : ∀ {lex₁ : Lexer} {b : Bool}, Moves (nextChar lex) lex₁ → lex.chr0 ≠ none →
      skipLoop stop lex₁ b = (lx, true) → had = true ∨ lx.text.length < lex.text.length := by
    intro lex₁ b hmoves hne hrest
    have hlt := hmoves.length_text_lt hok hne
    have hle := ((moves_skipLoop stop lex₁ b).text
      (hmoves.text (textOk_nextChar lex)).1).2.length_le
    rw [hrest] at hle
    exact .inr (lt_of_le_of_lt hle hlt)
  rw [skipLoop] at h
  split_ifs at h with hnone hlf hstop hspace hcomment hcont
  · cases h
    exact .inl rfl
  · cases h
    exact .inl rfl
  · exact hnext (.refl _) hnone h
  · exact hnext (.refl _) hnone h
  · exact hnext (moves_skipComment _) hnone h
  · exact hnext (moves_nextChar _) hnone h
  · cases h
    exact .inl rfl

theorem text_lexNewline (lex : Lexer) : (lexNewline lex).text = lex.text ∧
    (lex.TextOk → (lexNewline lex).TextOk) := by
  rcases lexNewline_cases lex with ⟨_, hnew⟩ | ⟨_, hnew⟩ | ⟨_, hnew⟩
  all_goals
    rw [hnew]
    exact ⟨rfl, id⟩

/-- Two characters are left where a character is that is no line feed. -/
theorem Lexer.EndOk.two_le_length (h : lex.EndOk) (hne : lex.chr0 ≠ none)
    (hlf : lex.chr0 ≠ some 10) : 2 ≤ lex.text.length := by
  obtain ⟨c, hc⟩ := Option.ne_none_iff_exists'.mp hne
  obtain ⟨d, hd⟩ := Option.ne_none_iff_exists'.mp fun hnone => (h.chr0 hnone).elim hne hlf
  rw [Lexer.text, hc, hd, List.length_append]
  exact Nat.le_add_right 2 _

/-- What holds of the lexer between the calls -/
structure Lexer.Ready (lex : Lexer) : Prop where
  endOk : lex.EndOk
  textOk : lex.TextOk

/-- What a call does -/
structure CallTakes (lex lex' : Lexer) : Prop where
  ready : lex'.Ready
  le : lex'.text.length ≤ lex.text.length
  progress : lex'.tokKind = .eof ∨ lex'.emitDent.natAbs < lex.emitDent.natAbs ∨
    lex'.text.length < lex.text.length
  source : ¬lex'.tokKind.IsLayout → lex'.text.length < lex.text.length ∧ 2 ≤ lex.text.length

theorem NextTok.ready (h : NextTok lex lex') (hready : lex.Ready) : lex'.Ready := by
  obtain ⟨hend, htext⟩ := hready
  cases h with
  | dedent | indent | eof => exact ⟨⟨hend.chr1, hend.chr0⟩, htext⟩
  | line => exact ⟨endOk_lexNewline hend, (text_lexNewline lex).2 htext⟩
  | plain _ _ hmoves => exact ⟨hmoves.endOk hend, (hmoves.text htext).1⟩

/-- A line that starts in the first column is never in the wrong column. -/
theorem tokKind_lexNewline (h : lex.numSpaces = 0) : (lexNewline lex).tokKind = .newline := by
  have htop := indentTop_dropWhile_le lex.numSpaces lex.indentLevel
  rcases lexNewline_cases lex with ⟨_, hnew⟩ | ⟨_, hnew⟩ | ⟨_, hnew⟩
  · rw [hnew]
  · rw [hnew]
  · rw [hnew]
    exact if_neg (by omega)

/-- **A call of `mp_lexer_to_next`** -/
theorem lexerToNext_takes (h : lex.Ready) (hnext : lexerToNext cfg lex = .ok lex') :
    CallTakes lex lex' := by
  have hskips := skips_skipWhitespace lex
  have hend := skipWhitespace_end ((moves_withVstr lex []).endOk h.endOk)
  have hread : ∀ lx, skipWhitespace { lex with vstr := [] } false = (lx, true) →
      lx.text.length < lex.text.length := fun lx hskip =>
    (@skipLoop_reads false { lex with vstr := [] } lx false h.textOk hskip).resolve_left
      Bool.false_ne_true
  rw [lexerToNext] at hnext
  generalize skipWhitespace { lex with vstr := [] } false = r at hnext hskips hend hread
  obtain ⟨lx, had⟩ := r
  have hready : lx.noteTok.Ready := ⟨hskips.moves.endOk h.endOk, (hskips.moves.text h.textOk).1⟩
  have hle : lx.text.length ≤ lex.text.length := (hskips.moves.text h.textOk).2.length_le
  have htok : NextTok lx.noteTok lex' := lexToken_cases hend hnext
  have hready' := htok.ready hready
  have hdent : lx.emitDent = lex.emitDent := hskips.moves.emitDent
  cases lexToken_takes hready.textOk hnext with
  | eof heof htext =>
    have hsame : lex'.text = lx.text := htext
    refine ⟨hready', by rw [hsame]; exact hle, .inl heof, fun hlayout => ?_⟩
    rw [heof] at hlayout
    exact absurd trivial hlayout
  | dent hkind htext hless =>
    have hsame : lex'.text = lx.text := htext
    have hless' : lex'.emitDent.natAbs < lx.emitDent.natAbs := hless
    refine ⟨hready', by rw [hsame]; exact hle, .inr (.inl (hdent ▸ hless')), fun hlayout => ?_⟩
    rcases hkind with hkind | hkind
    all_goals
      rw [hkind] at hlayout
      exact absurd trivial hlayout
  | line hhad hline =>
    subst hhad
    have hlt := hread lx rfl
    have hsame : lex'.text = lx.text := hline ▸ (text_lexNewline lx.noteTok).1
    refine ⟨hready', by rw [hsame]; exact hle, .inr (.inr (by rw [hsame]; exact hlt)),
      fun hkind => ?_⟩
    -- the line is in the wrong column, so that the text has not ended
    have hne : lx.chr0 ≠ none := fun hnone => by
      have hcolumn : lx.noteTok.numSpaces = 0 := by
        have hone : lx.noteTok.column = 1 := hend hnone rfl
        rw [Lexer.numSpaces, hone]
        rfl
      rw [hline, tokKind_lexNewline hcolumn] at hkind
      exact hkind trivial
    have htwo : 2 ≤ lx.text.length := hready.endOk.two_le_length hne hskips.atToken.newline
    exact ⟨by rw [hsame]; exact hlt, htwo.trans hle⟩
  | token hne hlt =>
    have hlt' : lex'.text.length < lx.text.length := hlt
    have htwo : 2 ≤ lx.text.length := hready.endOk.two_le_length hne hskips.atToken.newline
    have hless := lt_of_lt_of_le hlt' hle
    exact ⟨hready', hless.le, .inr (.inr hless), fun _ => ⟨hless, htwo.trans hle⟩⟩

theorem lexCalls_ready {n : ℕ} (h : lex.Ready) (hcalls : lexCalls cfg n lex = .ok lex') :
    lex'.Ready ∧ lex'.text.length ≤ lex.text.length := by
  induction n generalizing lex with
  | zero =>
    cases hcalls
    exact ⟨h, le_rfl⟩
  | succ n ih =>
    rw [lexCalls] at hcalls
    cases hnext : lexerToNext cfg lex with
    | error e =>
      rw [hnext] at hcalls
      cases hcalls
    | ok lex₁ =>
      rw [hnext] at hcalls
      have htakes := lexerToNext_takes h hnext
      obtain ⟨hready, hle⟩ := ih htakes.ready hcalls
      exact ⟨hready, hle.trans htakes.le⟩

/-- The calls end: less text is left after each of them, or less tokens of the indentation. -/
theorem lexCalls_end (lex : Lexer) (h : lex.Ready) :
    ∃ n, (∃ e, lexCalls cfg (n + 1) lex = .error e) ∨
    ∃ lex', lexCalls cfg (n + 1) lex = .ok lex' ∧ lex'.tokKind = .eof := by
  cases hnext : lexerToNext cfg lex with
  | error e => exact ⟨0, .inl ⟨e, by rw [lexCalls, hnext]; rfl⟩⟩
  | ok lex₁ =>
    have htakes := lexerToNext_takes h hnext
    by_cases heof : lex₁.tokKind = .eof
    · exact ⟨0, .inr ⟨lex₁, by rw [lexCalls, hnext]; rfl, heof⟩⟩
    · have hdecreasing := htakes.progress.resolve_left heof
      have hle := htakes.le
      obtain ⟨n, hn⟩ := lexCalls_end lex₁ htakes.ready
      refine ⟨n + 1, ?_⟩
      rw [lexCalls, hnext]
      exact hn
termination_by (lex.text.length, lex.emitDent.natAbs)
decreasing_by
  rcases hdecreasing with hdent | htext
  · rcases Nat.lt_or_eq_of_le hle with hlt | heq
    · exact Prod.Lex.left _ _ hlt
    · rw [heq]
      exact Prod.Lex.right _ hdent
  · exact Prod.Lex.left _ _ htext

/-- **The lexer comes to the end of every source**, or it raises an exception. A token that is not
one of lines, of indentation or of the end is made of characters of the source. -/
theorem lexer_progress (cfg : LexerCfg) (src : List UInt8) :
    (∃ n, (∃ e, lexCalls cfg (n + 1) (lexerInit src) = .error e) ∨
      ∃ lex, lexCalls cfg (n + 1) (lexerInit src) = .ok lex ∧ lex.tokKind = .eof) ∧
    ∀ n lex lex', lexCalls cfg n (lexerInit src) = .ok lex → lexerToNext cfg lex = .ok lex' →
      ¬lex'.tokKind.IsLayout → consumed src lex < consumed src lex' := by
  have hready : (lexerInit src).Ready := ⟨lexerInit_endOk src, (lexerInit_at src).textOk⟩
  refine ⟨lexCalls_end _ hready, fun n lex lex' hcalls hnext hkind => ?_⟩
  obtain ⟨hnow, hle⟩ := lexCalls_ready hready hcalls
  obtain ⟨hlt, htwo⟩ := (lexerToNext_takes hnow hnext).source hkind
  have hlen := length_sourceText_le src
  rw [(lexerInit_at src).text_eq] at hle
  rw [consumed, consumed]
  omega

end Pycopy
