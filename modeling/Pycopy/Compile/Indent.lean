import Pycopy.Compile.Lexer
import Pycopy.Lib.Machine
import Mathlib.Data.List.DropRight

/-!
# Indentation

The lexer keeps a stack of the columns at which the blocks start that are open. At the end of a line
it compares the column of the next line with the top of the stack, and remembers the tokens that it
then emits one by one.

There are never more tokens that close a block than tokens that open one. The other properties of
the stack need that all columns fit the 16 bits of a level: the level of a line that is indented by
more than that is too small. Blocks are closed at the end of the text if the last thing before it is
the end of a line. It is not, if a bracket or a string is open there, or if the last line ends with
a backslash.

## Main results

* `lexer_indentation`: what holds of the tokens of every text.
-/

namespace Pycopy

/-! ### The stack -/

/-- The levels of the stack are increasing from 0 on. The last level comes first. -/
structure StackOk (levels : List ℕ) : Prop where
  decreasing : levels.Pairwise (· > ·)
  bottom : levels.getLast? = some 0

instance (levels : List ℕ) : Decidable (StackOk levels) :=
  decidable_of_iff (levels.Pairwise (· > ·) ∧ levels.getLast? = some 0)
    ⟨fun h => ⟨h.1, h.2⟩, fun h => ⟨h.1, h.2⟩⟩

theorem dedentLoop_eq (n : ℕ) (levels : List ℕ) (d : ℤ) : dedentLoop n levels d =
      (levels.dropWhile (n < ·), d - levels.length + (levels.dropWhile (n < ·)).length) := by
  induction levels generalizing d with
  | nil => simp [dedentLoop]
  | cons top levels ih =>
    rw [dedentLoop, List.dropWhile_cons]
    by_cases h : n < top
    · simp only [h, decide_true, if_true, ih, List.length_cons]
      push_cast
      congr 1
      omega
    · simp [h]

variable {p : ℕ → Bool} {levels : List ℕ}

/-- What is left of the stack below a level -/
theorem getLast?_dropWhile (hbottom : levels.getLast? = some 0)
    (hp : p 0 = false) : (levels.dropWhile p).getLast? = some 0 := by
  induction levels with
  | nil => cases hbottom
  | cons top levels ih =>
    rw [List.dropWhile_cons]
    split
    · next htop =>
        cases levels with
        | nil =>
          obtain rfl : top = 0 := Option.some.inj hbottom
          rw [hp] at htop
          cases htop
        | cons x xs => exact ih (by rwa [List.getLast?_cons_cons] at hbottom)
    · exact hbottom

/-- What is not less than a level is dropped in two steps. -/
theorem dropWhile_dropWhile {p' : ℕ → Bool} (h : ∀ x, p x = true → p' x = true)
    (levels : List ℕ) : (levels.dropWhile p).dropWhile p' = levels.dropWhile p' := by
  induction levels with
  | nil => rfl
  | cons top levels ih =>
    rw [List.dropWhile_cons]
    split
    · next htop => rw [ih, List.dropWhile_cons, if_pos (h top htop)]
    · rfl

theorem dropWhile_eq_self_of_lt {n : ℕ} (h : ∀ x ∈ levels, x < n) :
    levels.dropWhile (n ≤ ·) = levels := by
  cases levels with
  | nil => rfl
  | cons top levels =>
    rw [List.dropWhile_cons, if_neg]
    simpa using h top List.mem_cons_self

theorem eq_cons_indentTop (h : levels.getLast? = some 0) :
    ∃ rest, levels = indentTop levels :: rest := by
  cases levels with
  | nil => cases h
  | cons top rest => exact ⟨rest, rfl⟩

/-- Nothing that is left is above the column. -/
theorem indentTop_dropWhile_le (n : ℕ) (levels : List ℕ) :
    indentTop (levels.dropWhile (n < ·)) ≤ n := by
  induction levels with
  | nil => exact Nat.zero_le n
  | cons top levels ih =>
    rw [List.dropWhile_cons]
    split
    · exact ih
    · next htop => simpa [indentTop] using htop

theorem StackOk.dropWhile (h : StackOk levels) (n : ℕ) : StackOk (levels.dropWhile (n < ·)) :=
  ⟨h.decreasing.sublist (List.dropWhile_sublist _), getLast?_dropWhile h.bottom (by simp)⟩

theorem StackOk.push (h : StackOk levels) {n : ℕ} (hn : indentTop levels < n) :
    StackOk (n :: levels) := by
  obtain ⟨rest, hrest⟩ := eq_cons_indentTop h.bottom
  have hpair := hrest ▸ h.decreasing
  refine ⟨List.pairwise_cons.mpr ⟨?_, h.decreasing⟩, ?_⟩
  · intro x hx
    rw [hrest] at hx
    rcases List.mem_cons.mp hx with rfl | hx
    · exact hn
    · exact Nat.lt_trans ((List.pairwise_cons.mp hpair).1 x hx) hn
  · rw [hrest, List.getLast?_cons_cons, ← hrest]
    exact h.bottom

/-! ### The end of a line -/

variable {cfg : LexerCfg} {lex lex' : Lexer}

/-- What the end of a line does to stack and tokens -/
theorem lexNewline_cases (lex : Lexer) : (lex.numSpaces = indentTop lex.indentLevel ∧
      lexNewline lex = { lex with tokKind := .newline }) ∨
    (indentTop lex.indentLevel < lex.numSpaces ∧
      lexNewline lex =
        { lex with
          tokKind := .newline
          indentLevel := indentPush lex.indentLevel lex.numSpaces
          emitDent := lex.emitDent + 1 }) ∨
    (lex.numSpaces < indentTop lex.indentLevel ∧
      lexNewline lex =
        { lex with
          tokKind :=
            if lex.numSpaces ≠ indentTop (lex.indentLevel.dropWhile (lex.numSpaces < ·)) then
              .dedentMismatch
            else .newline
          indentLevel := lex.indentLevel.dropWhile (lex.numSpaces < ·)
          emitDent :=
            lex.emitDent - lex.indentLevel.length +
              (lex.indentLevel.dropWhile (lex.numSpaces < ·)).length }) := by
  rw [lexNewline]
  split
  · next heq => exact .inl ⟨heq, rfl⟩
  · next hne =>
      split
      · next hlt => exact .inr (.inl ⟨hlt, rfl⟩)
      · next hge =>
          rw [dedentLoop_eq]
          exact .inr (.inr ⟨by omega, rfl⟩)

theorem numSpaces_lexNewline (lex : Lexer) : (lexNewline lex).numSpaces = lex.numSpaces := by
  rcases lexNewline_cases lex with ⟨_, hnew⟩ | ⟨_, hnew⟩ | ⟨_, hnew⟩
  all_goals
    rw [hnew]
    rfl

theorem chr0_lexNewline (lex : Lexer) : (lexNewline lex).chr0 = lex.chr0 := by
  rcases lexNewline_cases lex with ⟨_, hnew⟩ | ⟨_, hnew⟩ | ⟨_, hnew⟩
  all_goals rw [hnew]

/-- **The stack after the end of a line**, if the column fits a level -/
theorem lexNewline_levels (h : StackOk lex.indentLevel) (hwidth : lex.numSpaces < 2 ^ 16)
    (hkind : (lexNewline lex).tokKind = .newline) :
    (lexNewline lex).indentLevel =
      lex.numSpaces :: lex.indentLevel.dropWhile (lex.numSpaces ≤ ·) := by
  -- a level on the top of a stack is above all other levels of it
  have htop : ∀ levels : List ℕ, StackOk levels → lex.numSpaces = indentTop levels →
      levels = lex.numSpaces :: levels.dropWhile (lex.numSpaces ≤ ·) := by
    intro levels hok heq
    obtain ⟨rest, hrest⟩ := eq_cons_indentTop hok.bottom
    rw [← heq] at hrest
    have hlow : ∀ x ∈ rest, lex.numSpaces > x := (List.pairwise_cons.mp (hrest ▸ hok.decreasing)).1
    rw [hrest, List.dropWhile_cons, if_pos (by simp), dropWhile_eq_self_of_lt hlow]
  rcases lexNewline_cases lex with ⟨heq, hnew⟩ | ⟨hlt, hnew⟩ | ⟨hlt, hnew⟩
  · rw [hnew]
    exact htop _ h heq
  · rw [hnew]
    dsimp only
    obtain ⟨rest, hrest⟩ := eq_cons_indentTop h.bottom
    have hlow : lex.indentLevel.dropWhile (lex.numSpaces ≤ ·) = lex.indentLevel := by
      rw [hrest, List.dropWhile_cons, if_neg (by simpa using hlt)]
    rw [indentPush, Nat.mod_eq_of_lt hwidth, hlow]
  · rw [hnew] at hkind ⊢
    dsimp only at hkind ⊢
    have heq : lex.numSpaces = indentTop (lex.indentLevel.dropWhile (lex.numSpaces < ·)) := by
      by_contra hne
      rw [if_pos hne] at hkind
      cases hkind
    rw [htop _ (h.dropWhile _) heq, dropWhile_dropWhile]
    intro x hx
    simp only [decide_eq_true_eq] at hx ⊢
    omega

/-- The end of a line keeps the stack in order, if the column fits a level. -/
theorem StackOk.lexNewline (h : StackOk lex.indentLevel) (hwidth : lex.numSpaces < 2 ^ 16) :
    StackOk (lexNewline lex).indentLevel := by
  rcases lexNewline_cases lex with ⟨_, hnew⟩ | ⟨hlt, hnew⟩ | ⟨_, hnew⟩
  · rw [hnew]
    exact h
  · rw [hnew]
    dsimp only
    rw [indentPush, Nat.mod_eq_of_lt hwidth]
    exact h.push hlt
  · rw [hnew]
    exact h.dropWhile _

/-- At the end of the text all blocks are closed. -/
theorem lexNewline_end (h : StackOk lex.indentLevel) (hend : lex.numSpaces = 0) :
    (lexNewline lex).indentLevel = [0] := by
  have hdrop : lex.indentLevel.dropWhile (lex.numSpaces ≤ ·) = [] := by
    rw [hend]
    simp
  have hkind : (lexNewline lex).tokKind = .newline := by
    rcases lexNewline_cases lex with ⟨_, hnew⟩ | ⟨_, hnew⟩ | ⟨_, hnew⟩
    · rw [hnew]
    · rw [hnew]
    · have htop : indentTop (lex.indentLevel.dropWhile (lex.numSpaces < ·)) ≤ lex.numSpaces :=
        indentTop_dropWhile_le _ _
      rw [hnew]
      exact if_neg (by omega)
  rw [lexNewline_levels h (by omega) hkind, hdrop, hend]

/-! ### One token -/

/-- The lexer at the start of the next token -/
structure Skips (lex lx : Lexer) : Prop where
  moves : Moves lex lx
  atToken : lx.AtToken
  stays : lex.AtToken → lx.chr0 = lex.chr0

/-- What the next token can be -/
inductive NextTok (lx : Lexer) : Lexer → Prop
  | dedent : lx.emitDent < 0 →
      NextTok lx { lx with tokKind := .dedent, emitDent := lx.emitDent + 1 }
  | indent : 0 < lx.emitDent →
      NextTok lx { lx with tokKind := .indent, emitDent := lx.emitDent - 1 }
  | line : lx.emitDent = 0 → (lx.chr0 = none → lx.column = 1) → NextTok lx (lexNewline lx)
  | eof : lx.emitDent = 0 → lx.chr0 = none → NextTok lx { lx with tokKind := .eof }
  | plain (lex' : Lexer) : lx.emitDent = 0 → Moves lx lex' → lex'.tokKind.IsPlain → NextTok lx lex'

theorem skips_skipWhitespace (lex : Lexer) :
    Skips lex (skipWhitespace { lex with vstr := [] } false).1.noteTok := by
  have hmoves := (moves_withVstr lex []).trans (moves_skipWhitespace { lex with vstr := [] } false)
  have hstop := skipWhitespace_stop { lex with vstr := [] }
  refine ⟨hmoves.trans (moves_noteTok _), ⟨hstop.newline, hstop.space, hstop.comment,
    hstop.continuation⟩, fun h => ?_⟩
  have hat : Lexer.AtToken { lex with vstr := [] } :=
    ⟨h.newline, h.space, h.comment, h.continuation⟩
  rw [hat.skipWhitespace]
  rfl

theorem lexToken_cases {had : Bool} (hend : EndsAtLine (lex, had))
    (h : lexToken cfg lex had = .ok lex') : NextTok lex lex' := by
  rw [lexToken] at h
  split at h
  · next hneg =>
      cases h
      exact .dedent hneg
  · split at h
    · next hpos =>
        cases h
        exact .indent hpos
    · have hzero : lex.emitDent = 0 := by omega
      split at h
      · next hline =>
          cases h
          exact .line hzero fun hnone => hend hnone hline.1
      · split at h
        · next hnone =>
            cases h
            exact .eof hzero hnone
        · next hne =>
            split at h
            · have hplain := (stringTokens_isPlain cfg rfl h).2
              have hmoves := moves_stringTokens cfg h
              exact .plain _ hzero ⟨hmoves.emitDent, hmoves.indentLevel,
                fun hok => hmoves.endOk ⟨hok.chr1, hok.chr0⟩, fun _ => hplain, hmoves.text,
                hmoves.left⟩ hplain
            · split at h
              · cases h
                have hname := moves_lexName cfg lex
                exact .plain _ hzero ((moves_takeChar lex).trans hname.1) hname.2
              · split at h
                · cases h
                  have hnumber := moves_lexNumber lex
                  exact .plain _ hzero ((moves_withTok lex (numberKind_isPlain lex) lex.vstr).trans
                    ((moves_takeChar _).trans hnumber.1)) hnumber.2
                · cases h
                  have hop := moves_lexOperator lex
                  exact .plain _ hzero ((moves_nextChar lex).trans hop.1) hop.2

/-- **What `mp_lexer_to_next` does** -/
theorem lexerToNext_cases (hok : lex.EndOk) (h : lexerToNext cfg lex = .ok lex') :
    ∃ lx, Skips lex lx ∧ NextTok lx lex' := by
  have hskips := skips_skipWhitespace lex
  have hend := skipWhitespace_end ((moves_withVstr lex []).endOk hok)
  rw [lexerToNext] at h
  generalize skipWhitespace { lex with vstr := [] } false = r at h hskips hend
  obtain ⟨lx, had⟩ := r
  exact ⟨lx.noteTok, hskips, lexToken_cases hend h⟩

/-! ### Runs -/

/-- A call of `mp_lexer_to_next`. What is observed is the lexer after it, with the token. -/
def lexStep (cfg : LexerCfg) (lex : Lexer) (_ : Unit) : Option (Lexer × Lexer) :=
  match lexerToNext cfg lex with
  | .ok lex' => some (lex', lex')
  | .error _ => none

/-- The number of tokens of a kind -/
def tokCount (kind : TokKind) (trace : List Lexer) : ℕ := trace.countP (·.tokKind = kind)

/-- A line has ended. The lexer is at the first token of the next line. -/
def IsLine (t : Lexer) : Prop := t.tokKind = .newline ∨ t.tokKind = .dedentMismatch

instance (t : Lexer) : Decidable (IsLine t) := inferInstanceAs (Decidable (_ ∨ _))

/-- The columns of all lines fit the levels of the stack. -/
def Narrow (trace : List Lexer) : Prop := ∀ t ∈ trace, IsLine t → t.numSpaces < 2 ^ 16

instance (trace : List Lexer) : Decidable (Narrow trace) := inferInstanceAs (Decidable (∀ _ ∈ _, _))

/-- A line has just ended: after that there were only tokens that close blocks. -/
def AfterLine (trace : List Lexer) : Prop :=
  ∃ pre nl deds, trace = pre ++ nl :: deds ∧ nl.tokKind = .newline ∧
    ∀ d ∈ deds, d.tokKind = .dedent

/-- After `a` no line is further to the left. -/
def StaysIn (a : Lexer) (trace : List Lexer) : Prop :=
  ∀ t ∈ trace, IsLine t → t.tokKind = .newline ∧ a.numSpaces ≤ t.numSpaces

/-- What holds of the lexer after any tokens -/
structure LexInv (lex : Lexer) (trace : List Lexer) : Prop where
  endOk : lex.EndOk
  bottom : lex.indentLevel.getLast? = some 0
  pending : lex.emitDent + 1 ≤ lex.indentLevel.length
  balance : (tokCount .indent trace : ℤ) + 1 + lex.emitDent =
    tokCount .dedent trace + lex.indentLevel.length

/-- What holds if the columns fit the levels -/
structure StackInv (lex : Lexer) (trace : List Lexer) : Prop where
  stack : StackOk lex.indentLevel
  start : trace = [] → lex.indentLevel = [0]
  afterLine : AfterLine trace → lex.AtToken ∧ (lex.chr0 = none → lex.indentLevel = [0])
  outer : ∀ p a q, trace = p ++ a :: q → a.tokKind = .newline → StaysIn a q →
    lex.indentLevel.dropWhile (a.numSpaces ≤ ·) = a.indentLevel.dropWhile (a.numSpaces ≤ ·)

section Steps

variable {trace : List Lexer}

theorem tokCount_concat (kind : TokKind) (trace : List Lexer) (t : Lexer) :
    tokCount kind (trace ++ [t]) = tokCount kind trace + if t.tokKind = kind then 1 else 0 := by
  simp [tokCount, List.countP_append, List.countP_singleton]

theorem isLine_lexNewline (lex : Lexer) : IsLine (lexNewline lex) := by
  rcases lexNewline_cases lex with ⟨_, hnew⟩ | ⟨_, hnew⟩ | ⟨_, hnew⟩
  · rw [hnew]
    exact .inl rfl
  · rw [hnew]
    exact .inl rfl
  · rw [hnew, IsLine]
    dsimp only
    split
    · exact .inr rfl
    · exact .inl rfl

theorem endOk_lexNewline (h : lex.EndOk) : (lexNewline lex).EndOk := by
  rcases lexNewline_cases lex with ⟨_, hnew⟩ | ⟨_, hnew⟩ | ⟨_, hnew⟩
  all_goals
    rw [hnew]
    exact ⟨h.chr1, h.chr0⟩

/-- The end of a line keeps a token for every level that it adds or takes away. -/
theorem lexNewline_pending (hzero : lex.emitDent = 0)
    (hbottom : lex.indentLevel.getLast? = some 0) :
    (lexNewline lex).indentLevel.getLast? = some 0 ∧
    (lexNewline lex).emitDent = (lexNewline lex).indentLevel.length - lex.indentLevel.length := by
  rcases lexNewline_cases lex with ⟨_, hnew⟩ | ⟨hlt, hnew⟩ | ⟨_, hnew⟩
  · rw [hnew]
    exact ⟨hbottom, by dsimp only; omega⟩
  · obtain ⟨rest, hrest⟩ := eq_cons_indentTop hbottom
    rw [hnew]
    dsimp only [indentPush]
    constructor
    · rw [hrest, List.getLast?_cons_cons, ← hrest]
      exact hbottom
    · rw [List.length_cons]
      push_cast
      omega
  · rw [hnew]
    exact ⟨getLast?_dropWhile hbottom (by simp), by dsimp only; omega⟩

/-- **A token keeps the balance.** -/
theorem LexInv.step (h : LexInv lex trace) (hnext : lexerToNext cfg lex = .ok lex') :
    LexInv lex' (trace ++ [lex']) := by
  obtain ⟨lx, hskips, hcases⟩ := lexerToNext_cases h.endOk hnext
  have hend := hskips.moves.endOk h.endOk
  have hbottom := h.bottom
  have hpending := h.pending
  have hbalance := h.balance
  rw [← hskips.moves.indentLevel] at hbottom
  rw [← hskips.moves.indentLevel, ← hskips.moves.emitDent] at hpending hbalance
  have hne : 1 ≤ lx.indentLevel.length := by
    obtain ⟨rest, hrest⟩ := eq_cons_indentTop hbottom
    rw [hrest, List.length_cons]
    omega
  cases hcases with
  | dedent hneg =>
    refine ⟨⟨hend.chr1, hend.chr0⟩, hbottom, ?_, ?_⟩
    · dsimp only
      omega
    · rw [tokCount_concat, tokCount_concat]
      simp only [reduceCtorEq, if_false, if_true]
      push_cast
      omega
  | indent hpos =>
    refine ⟨⟨hend.chr1, hend.chr0⟩, hbottom, ?_, ?_⟩
    · dsimp only
      omega
    · rw [tokCount_concat, tokCount_concat]
      simp only [reduceCtorEq, if_false, if_true]
      push_cast
      omega
  | line hzero hstart =>
    obtain ⟨hbottom', hpend⟩ := lexNewline_pending hzero hbottom
    refine ⟨endOk_lexNewline hend, hbottom', by omega, ?_⟩
    rw [tokCount_concat, tokCount_concat]
    rcases isLine_lexNewline lx with hkind | hkind
    all_goals
      rw [hkind]
      simp only [reduceCtorEq, if_false]
      omega
  | eof hzero hnone =>
    refine ⟨⟨hend.chr1, hend.chr0⟩, hbottom, hpending, ?_⟩
    rw [tokCount_concat, tokCount_concat]
    simpa only [reduceCtorEq, if_false, Nat.add_zero] using hbalance
  | plain _ hzero hmoves hplain =>
    rw [← hmoves.indentLevel] at hbottom
    rw [← hmoves.indentLevel, ← hmoves.emitDent] at hpending hbalance
    refine ⟨hmoves.endOk hend, hbottom, hpending, ?_⟩
    rw [tokCount_concat, tokCount_concat, if_neg, if_neg]
    · exact hbalance
    · intro hkind
      rw [hkind] at hplain
      exact hplain
    · intro hkind
      rw [hkind] at hplain
      exact hplain

/-- Only the end of a line changes the stack. -/
theorem NextTok.isLine_or {lx : Lexer} (h : NextTok lx lex') :
    lex' = lexNewline lx ∧ (lx.chr0 = none → lx.column = 1) ∨
      lex'.indentLevel = lx.indentLevel ∧ ¬IsLine lex' := by
  cases h with
  | line hzero hstart => exact .inl ⟨rfl, hstart⟩
  | dedent | indent | eof => exact .inr ⟨rfl, by simp [IsLine]⟩
  | plain _ _ hmoves hplain =>
    refine .inr ⟨hmoves.indentLevel, ?_⟩
    rintro (hkind | hkind)
    all_goals
      rw [hkind] at hplain
      exact hplain

theorem AfterLine.of_concat {t : Lexer} (h : AfterLine (trace ++ [t])) :
    t.tokKind = .newline ∨ t.tokKind = .dedent ∧ AfterLine trace := by
  obtain ⟨pre, nl, deds, heq, hnl, hdeds⟩ := h
  rcases List.eq_nil_or_concat deds with rfl | ⟨deds, d, rfl⟩
  · obtain ⟨_, hlast⟩ := List.append_inj' heq rfl
    rw [List.cons.inj hlast |>.1]
    exact .inl hnl
  · rw [List.concat_eq_append] at heq hdeds
    rw [← List.cons_append, ← List.append_assoc] at heq
    obtain ⟨hinit, hlast⟩ := List.append_inj' heq rfl
    rw [List.cons.inj hlast |>.1]
    refine .inr ⟨hdeds d (by simp), pre, nl, deds, hinit, hnl, fun x hx => hdeds x (by simp [hx])⟩

theorem atToken_lexNewline (h : lex.AtToken) : (lexNewline lex).AtToken := by
  rcases lexNewline_cases lex with ⟨_, hnew⟩ | ⟨_, hnew⟩ | ⟨_, hnew⟩
  all_goals
    rw [hnew]
    exact ⟨h.newline, h.space, h.comment, h.continuation⟩

/-- After the end of a line the lexer is at a token. At the end of the text no block is open. -/
theorem StackInv.afterLine_step {lx : Lexer} (h : StackInv lex trace) (hskips : Skips lex lx)
    (hnext : NextTok lx lex') (hafter : AfterLine (trace ++ [lex'])) :
    lex'.AtToken ∧ (lex'.chr0 = none → lex'.indentLevel = [0]) := by
  have hlevels := hskips.moves.indentLevel
  cases hnext with
  | line hzero hstart =>
    refine ⟨atToken_lexNewline hskips.atToken, fun hnone => ?_⟩
    rw [chr0_lexNewline] at hnone
    refine lexNewline_end (hlevels ▸ h.stack) ?_
    rw [Lexer.numSpaces, hstart hnone]
    rfl
  | dedent hneg =>
    rcases hafter.of_concat with hkind | ⟨_, hbefore⟩
    · cases hkind
    · obtain ⟨hat, hclosed⟩ := h.afterLine hbefore
      have hlx := hskips.atToken
      refine ⟨⟨hlx.newline, hlx.space, hlx.comment, hlx.continuation⟩, fun hnone => ?_⟩
      exact hlevels.trans (hclosed ((hskips.stays hat).symm.trans hnone))
  | indent | eof =>
    rcases hafter.of_concat with hkind | ⟨hkind, _⟩
    · cases hkind
    · cases hkind
  | plain _ _ _ hplain =>
    rcases hafter.of_concat with hkind | ⟨hkind, _⟩
    all_goals
      rw [hkind] at hplain
      exact hplain.elim

/-- **A token keeps the stack in order.** -/
theorem StackInv.step (h : StackInv lex trace) (hok : lex.EndOk)
    (hnext : lexerToNext cfg lex = .ok lex') (hwidth : IsLine lex' → lex'.numSpaces < 2 ^ 16) :
    StackInv lex' (trace ++ [lex']) := by
  obtain ⟨lx, hskips, hcases⟩ := lexerToNext_cases hok hnext
  have hstack : StackOk lx.indentLevel := hskips.moves.indentLevel ▸ h.stack
  have hafter := h.afterLine_step hskips hcases
  -- the levels left of `a` are those at `a`
  have houter : ∀ p a q, trace ++ [lex'] = p ++ a :: q → a.tokKind = .newline → StaysIn a q →
      lex'.indentLevel.dropWhile (a.numSpaces ≤ ·) =
        a.indentLevel.dropWhile (a.numSpaces ≤ ·) := by
    intro p a q heq ha hin
    rcases List.eq_nil_or_concat q with rfl | ⟨q, b, rfl⟩
    · obtain ⟨_, hlast⟩ := List.append_inj' heq rfl
      rw [List.cons.inj hlast |>.1]
    · rw [List.concat_eq_append] at heq hin
      rw [← List.cons_append, ← List.append_assoc] at heq
      obtain ⟨hinit, hlast⟩ := List.append_inj' heq rfl
      obtain rfl : lex' = b := List.cons.inj hlast |>.1
      have hbefore := h.outer p a q hinit ha fun t ht => hin t (List.mem_append_left _ ht)
      rw [← hskips.moves.indentLevel] at hbefore
      rcases hcases.isLine_or with ⟨rfl, _⟩ | ⟨hsame, _⟩
      · have hline := isLine_lexNewline lx
        obtain ⟨hkind, hle⟩ := hin _ (by simp) hline
        have hnum := numSpaces_lexNewline lx
        rw [hnum] at hle
        rw [lexNewline_levels hstack (hnum ▸ hwidth hline) hkind, List.dropWhile_cons,
          if_pos (by simpa using hle), dropWhile_dropWhile, hbefore]
        intro x hx
        simp only [decide_eq_true_eq] at hx ⊢
        omega
      · rw [hsame, hbefore]
  rcases hcases.isLine_or with ⟨rfl, _⟩ | ⟨hsame, _⟩
  · have hwidth' : lx.numSpaces < 2 ^ 16 := numSpaces_lexNewline lx ▸ hwidth (isLine_lexNewline lx)
    exact ⟨hstack.lexNewline hwidth', by simp, hafter, houter⟩
  · exact ⟨hsame ▸ hstack, by simp, hafter, houter⟩

theorem lexStep_eq_some {o : Lexer} {i : Unit} :
    lexStep cfg lex i = some (lex', o) ↔ o = lex' ∧ lexerToNext cfg lex = .ok lex' := by
  rw [lexStep]
  cases lexerToNext cfg lex with
  | error e => simp
  | ok l =>
    simp only [Option.some.injEq, Prod.mk.injEq, Except.ok.injEq]
    constructor
    · rintro ⟨rfl, rfl⟩
      exact ⟨rfl, rfl⟩
    · rintro ⟨rfl, rfl⟩
      exact ⟨rfl, rfl⟩

end Steps

variable {src : List UInt8} {calls : List Unit}

theorem lexInv_run {trace : List Lexer}
    (hrun : Machine.run (lexStep cfg) (lexerInit src) calls = some (lex, trace)) :
    LexInv lex trace ∧ (Narrow trace → StackInv lex trace) := by
  have hinit : LexInv (lexerInit src) [] ∧ (Narrow [] → StackInv (lexerInit src) []) := by
    have hstart : StackInv (lexerInit src) [] := by
      refine ⟨⟨List.pairwise_singleton _ _, rfl⟩, fun _ => rfl, ?_, ?_⟩
      · rintro ⟨pre, nl, deds, heq, _⟩
        simp at heq
      · intro p a q heq
        simp at heq
    exact ⟨⟨lexerInit_endOk src, rfl, Int.le_refl _, rfl⟩, fun _ => hstart⟩
  refine Machine.run_invariant
    (fun lex trace => LexInv lex trace ∧ (Narrow trace → StackInv lex trace)) ?_ hinit hrun
  intro lex trace _ lex' o hinv hstep
  obtain ⟨rfl, hnext⟩ := lexStep_eq_some.mp hstep
  refine ⟨hinv.1.step hnext, fun hnarrow => ?_⟩
  have hbefore := hinv.2 fun t ht => hnarrow t (List.mem_append_left _ ht)
  exact hbefore.step hinv.1.endOk hnext (hnarrow _ (by simp))

theorem lexInv_before {p r : List Lexer} {t : Lexer}
    (hrun : Machine.run (lexStep cfg) (lexerInit src) calls = some (lex, p ++ t :: r)) :
    ∃ lex₀, LexInv lex₀ p ∧ (Narrow (p ++ t :: r) → StackInv lex₀ p) ∧
      lexerToNext cfg lex₀ = .ok t := by
  obtain ⟨calls₁, calls₂, lex₀, hrun₁, hrun₂⟩ := Machine.exists_run_of_append hrun
  obtain ⟨_, lex₁, hstep⟩ := Machine.exists_step_of_cons hrun₂
  obtain ⟨rfl, hnext⟩ := lexStep_eq_some.mp hstep
  obtain ⟨hinv, hstack⟩ := lexInv_run hrun₁
  exact ⟨lex₀, hinv, fun hnarrow => hstack fun t ht => hnarrow t (List.mem_append_left _ ht), hnext⟩

/-- The stack at the start of a line -/
theorem StackInv.line {trace : List Lexer} (h : StackInv lex trace) (hok : lex.EndOk)
    (hnext : lexerToNext cfg lex = .ok lex') (hkind : lex'.tokKind = .newline)
    (hwidth : lex'.numSpaces < 2 ^ 16) :
    lex'.indentLevel = lex'.numSpaces :: lex.indentLevel.dropWhile (lex'.numSpaces ≤ ·) := by
  obtain ⟨lx, hskips, hcases⟩ := lexerToNext_cases hok hnext
  rcases hcases.isLine_or with ⟨rfl, _⟩ | ⟨_, hnot⟩
  · have hlevels := hskips.moves.indentLevel
    rw [numSpaces_lexNewline] at hwidth ⊢
    rw [lexNewline_levels (hlevels ▸ h.stack) hwidth hkind, hlevels]
  · exact absurd (.inl hkind) hnot

/-- A line that starts in the first column is in no block. -/
theorem StackInv.line_zero {trace : List Lexer} (h : StackInv lex trace) (hok : lex.EndOk)
    (hnext : lexerToNext cfg lex = .ok lex') (hline : IsLine lex') (hzero : lex'.numSpaces = 0) :
    lex'.indentLevel = [0] := by
  obtain ⟨lx, hskips, hcases⟩ := lexerToNext_cases hok hnext
  rcases hcases.isLine_or with ⟨rfl, _⟩ | ⟨_, hnot⟩
  · rw [numSpaces_lexNewline] at hzero
    exact lexNewline_end (hskips.moves.indentLevel ▸ h.stack) hzero
  · exact absurd hline hnot

/-- The text ends where a line ends. -/
theorem StackInv.eof {trace : List Lexer} (h : StackInv lex trace) (hok : lex.EndOk)
    (hnext : lexerToNext cfg lex = .ok lex') (hkind : lex'.tokKind = .eof)
    (hafter : trace = [] ∨ AfterLine trace) : lex'.emitDent = 0 ∧ lex'.indentLevel = [0] := by
  obtain ⟨lx, hskips, hcases⟩ := lexerToNext_cases hok hnext
  have hlevels := hskips.moves.indentLevel
  cases hcases with
  | eof hzero hnone =>
    refine ⟨hzero, ?_⟩
    rcases hafter with rfl | hafter
    · exact hlevels.trans (h.start rfl)
    · obtain ⟨hat, hclosed⟩ := h.afterLine hafter
      exact hlevels.trans (hclosed ((hskips.stays hat).symm.trans hnone))
  | dedent | indent => cases hkind
  | line =>
    rcases isLine_lexNewline lx with hline | hline
    all_goals
      rw [hline] at hkind
      cases hkind
  | plain _ _ _ hplain =>
    rw [hkind] at hplain
    exact hplain.elim

/-! ### A wide line -/

theorem skipLoop_newline (h : lex.chr0 = some 10) (had : Bool) :
    skipLoop false lex had = skipLoop false (nextChar lex) true := by
  rw [skipLoop, if_neg (by simp [h]), if_pos h, if_neg (by simp)]

theorem skipLoop_space (h : lex.chr0 = some 32) (had : Bool) :
    skipLoop false lex had = skipLoop false (nextChar lex) had := by
  have hspace : isWhitespace lex = true := by
    rw [isWhitespace, h]
    rfl
  rw [skipLoop, if_neg (by simp [h]), if_neg (by simp [h]), if_pos hspace]

/-- The lexer in front of `n + 3` spaces -/
def atSpaces (n : ℕ) (line : ℕ) (column : ℤ) : Lexer :=
  { reader := List.replicate n 32 ++ [120]
    chr0 := some 32
    chr1 := some 32
    chr2 := some 32
    line := line
    column := column
    emitDent := 0
    nestedBracketLevel := 0
    indentLevel := [0]
    tokLine := 0
    tokColumn := 0
    tokKind := .eof
    vstr := [] }

theorem skipLoop_atSpaces (n line : ℕ) (column : ℤ) (had : Bool) :
    skipLoop false (atSpaces n line column) had =
      skipLoop false (atSpaces 0 line (column + n)) had := by
  induction n generalizing column with
  | zero => simp
  | succ n ih =>
    have hnext : nextChar (atSpaces (n + 1) line column) = atSpaces n line (column + 1) := rfl
    have hcolumn : column + 1 + n = column + (n + 1 : ℕ) := by omega
    rw [skipLoop_space rfl, hnext, ih, hcolumn]

/-- An empty line and one that is indented by `n + 3` spaces -/
def spacesLine (n : ℕ) : List UInt8 := 10 :: 32 :: 32 :: 32 :: (List.replicate n 32 ++ [120])

theorem skipWhitespace_spacesLine (n : ℕ) :
    skipWhitespace { lexerInit (spacesLine n) with vstr := [] } false =
      (nextChar (nextChar (nextChar (atSpaces 0 2 (1 + n)))), true) := by
  have hinit : { lexerInit (spacesLine n) with vstr := [] } =
    { atSpaces (n + 1) 1 1 with chr0 := some 10 } := rfl
  have hnext : nextChar { atSpaces (n + 1) 1 1 with chr0 := some 10 } = atSpaces n 2 1 := rfl
  have htoken : (nextChar (nextChar (nextChar (atSpaces 0 2 (1 + n))))).AtToken := by
    have hchr : (nextChar (nextChar (nextChar (atSpaces 0 2 (1 + n))))).chr0 = some 120 := rfl
    exact ⟨by simp [hchr], by rw [isWhitespace, hchr]; rfl, by simp [hchr], by simp [hchr]⟩
  rw [hinit, skipWhitespace, skipLoop_newline rfl, hnext, skipLoop_atSpaces,
    skipLoop_space rfl, skipLoop_space rfl, skipLoop_space rfl, htoken.skipLoop]

/-- **The level of a line** is its column without the upper bits. -/
theorem lexerToNext_spacesLine (n : ℕ) :
    ∃ lex, lexerToNext cfg (lexerInit (spacesLine n)) = .ok lex ∧
      lex.indentLevel = [(n + 3) % 2 ^ 16, 0] := by
  rw [lexerToNext, skipWhitespace_spacesLine]
  dsimp only
  generalize hlx : (nextChar (nextChar (nextChar (atSpaces 0 2 (1 + n))))).noteTok = lx
  have hspaces : lx.numSpaces = n + 3 := by
    have hcolumn : lx.column = 1 + n + 1 + 1 + 1 := by
      subst hlx
      rfl
    rw [Lexer.numSpaces, hcolumn]
    omega
  have hlevels : lx.indentLevel = [0] := by
    subst hlx
    rfl
  have htoken : lexToken cfg lx true = .ok (lexNewline lx) := by
    subst hlx
    rfl
  refine ⟨lexNewline lx, htoken, ?_⟩
  rcases lexNewline_cases lx with ⟨heq, _⟩ | ⟨_, hnew⟩ | ⟨hlt, _⟩
  · rw [hlevels, hspaces] at heq
    cases heq
  · rw [hnew]
    dsimp only
    rw [hspaces, hlevels, indentPush]
  · rw [hlevels] at hlt
    cases hlt

/-! ### All tokens of a text -/

/-- **Indentation.** In the tokens of any text no block is closed that was not opened. If all
columns fit the levels of the stack, the stack is always in order; all blocks are closed at the end
of the text, if the text ends where a line ends; and two lines in the same column are at the same
depth if no line between them is further to the left. -/
theorem lexer_indentation (cfg : LexerCfg) (src : List UInt8) (calls : List Unit) (lex : Lexer)
    (trace : List Lexer)
    (hrun : Machine.run (lexStep cfg) (lexerInit src) calls = some (lex, trace)) :
    (∀ p r, trace = p ++ r → tokCount .dedent p ≤ tokCount .indent p) ∧
    (Narrow trace →
      (∀ t ∈ trace, StackOk t.indentLevel) ∧
      (∀ p t r, trace = p ++ t :: r → t.tokKind = .eof → p = [] ∨ AfterLine p →
        tokCount .indent p = tokCount .dedent p) ∧
      (∀ t ∈ trace, IsLine t → t.numSpaces = 0 → t.indentLevel = [0]) ∧
      (∀ p a q b r, trace = p ++ a :: (q ++ b :: r) → a.tokKind = .newline →
        b.tokKind = .newline → a.numSpaces = b.numSpaces → StaysIn a q →
        a.indentLevel = b.indentLevel)) := by
  refine ⟨?_, fun hnarrow => ⟨?_, ?_, ?_, ?_⟩⟩
  · rintro p r rfl
    obtain ⟨calls₁, _, lex₁, hrun₁, _⟩ := Machine.exists_run_of_append hrun
    have hinv := (lexInv_run hrun₁).1
    have hpending := hinv.pending
    have hbalance := hinv.balance
    omega
  · intro t ht
    obtain ⟨p, r, rfl⟩ := List.append_of_mem ht
    obtain ⟨lex₀, hinv, hstack, hnext⟩ := lexInv_before hrun
    exact ((hstack hnarrow).step hinv.endOk hnext (hnarrow t ht)).stack
  · rintro p t r rfl hkind hafter
    obtain ⟨lex₀, hinv, hstack, hnext⟩ := lexInv_before hrun
    obtain ⟨hemit, hlevels⟩ := (hstack hnarrow).eof hinv.endOk hnext hkind hafter
    have hbalance := (hinv.step hnext).balance
    rw [tokCount_concat, tokCount_concat, hkind, hemit, hlevels] at hbalance
    simp only [reduceCtorEq, if_false, List.length_singleton] at hbalance
    omega
  · intro t ht hline hzero
    obtain ⟨p, r, rfl⟩ := List.append_of_mem ht
    obtain ⟨lex₀, hinv, hstack, hnext⟩ := lexInv_before hrun
    exact (hstack hnarrow).line_zero hinv.endOk hnext hline hzero
  · rintro p a q b r rfl ha hb hcol hin
    obtain ⟨lexa, hinva, hstacka, hnexta⟩ := lexInv_before hrun
    have hlevelsa := (hstacka hnarrow).line hinva.endOk hnexta ha (hnarrow a (by simp) (.inl ha))
    have hassoc : p ++ a :: (q ++ b :: r) = (p ++ a :: q) ++ b :: r := by simp
    rw [hassoc] at hrun hnarrow
    obtain ⟨lexb, hinvb, hstackb, hnextb⟩ := lexInv_before hrun
    have hlevelsb := (hstackb hnarrow).line hinvb.endOk hnextb hb (hnarrow b (by simp) (.inl hb))
    have houter := (hstackb hnarrow).outer p a q rfl ha hin
    calc a.indentLevel
        = a.numSpaces :: lexa.indentLevel.dropWhile (a.numSpaces ≤ ·) := hlevelsa
      _ = a.numSpaces :: a.indentLevel.dropWhile (a.numSpaces ≤ ·) := by
          rw [hlevelsa, List.dropWhile_cons, if_pos (by simp), List.dropWhile_idempotent]
      _ = b.indentLevel := by rw [hlevelsb, ← hcol, houter]

/-- Two blocks with lines in the third column, one of them in a block of its own -/
def twoBlocks : List UInt8 := asciiBytes "if a:\n if b:\n  x\nif c:\n  y\n"

/-- A text that ends in an open bracket -/
def openBracket : List UInt8 := asciiBytes "if x:\n  (\n"

/-- The lexer and its first `n` tokens, in the usual configuration -/
def lexText (src : List UInt8) (n : ℕ) : Option (Lexer × List Lexer) :=
  Machine.run (lexStep ⟨true, true, true⟩) (lexerInit src) (List.replicate n ())

theorem lexer_indentation_two_blocks :
    ∃ lex trace, lexText twoBlocks 23 = some (lex, trace) ∧ lex.tokKind = .eof ∧
      tokCount .indent trace = 3 ∧ ∀ t ∈ trace, StackOk t.indentLevel := by
  have heval : (lexText twoBlocks 23).any fun (lex, trace) =>
      lex.tokKind = .eof ∧ tokCount .indent trace = 3 ∧ Narrow trace := by
    decide +kernel
  rcases hrun : lexText twoBlocks 23 with _ | ⟨lex, trace⟩
  · rw [hrun] at heval
    cases heval
  · rw [hrun] at heval
    obtain ⟨heof, hcount, hnarrow⟩ := of_decide_eq_true heval
    obtain ⟨_, hwidth⟩ := lexer_indentation _ _ _ lex trace hrun
    exact ⟨lex, trace, rfl, heof, hcount, (hwidth hnarrow).1⟩

/-- Lines in the same column may be at different depths, blocks may be left open, and the stack is
not in order after a line that is indented by 65536 spaces. -/
theorem lexer_depths_and_counts_differ : ((lexText twoBlocks 23).any fun (_, trace) =>
      ∃ a ∈ trace, ∃ b ∈ trace, IsLine a ∧ IsLine b ∧ a.numSpaces = b.numSpaces ∧
        a.indentLevel.length ≠ b.indentLevel.length) ∧
    ((lexText openBracket 7).any fun (lex, trace) =>
      lex.tokKind = .eof ∧ (∀ t ∈ trace, t.tokKind ≠ .dedentMismatch) ∧
        tokCount .indent trace = 1 ∧ tokCount .dedent trace = 0) ∧
    ∃ lex, lexerToNext ⟨true, true, true⟩ (lexerInit (spacesLine 65533)) = .ok lex ∧
      ¬StackOk lex.indentLevel := by
  refine ⟨by decide +kernel, by decide +kernel, ?_⟩
  obtain ⟨lex, hnext, hlevels⟩ := lexerToNext_spacesLine 65533
  refine ⟨lex, hnext, ?_⟩
  rw [hlevels]
  decide

end Pycopy
