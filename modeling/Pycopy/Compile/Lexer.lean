import Pycopy.Str.Unichar
import Mathlib.Algebra.Order.Ring.Int

/-!
# The Lexer

The lexer turns the bytes of a source text into tokens. It holds three characters of the text. The
end of a line is always a line feed, and there is one at the end of the text. Indentation is kept as
a stack of columns, and tokens for it are emitted one by one after the end of a line.

## Main results

* `left_nextChar_lt`: a character is read in every round of a loop, so that the loops end.
* `text_eq`: the text that is left, of which `next_char` takes the first character.
* `skipWhitespace_stop`: what is at the start of a token.
* `skipWhitespace_end`: the text ends at the start of a line.
-/

namespace Pycopy

/-! ### Tokens -/

inductive Keyword
  | kwFalse | kwNone | kwTrue | kwDebug | kwAnd | kwAs | kwAssert | kwAsync | kwAwait | kwBreak
  | kwClass | kwContinue | kwDef | kwDel | kwElif | kwElse | kwExcept | kwFinally | kwFor | kwFrom
  | kwGlobal | kwIf | kwImport | kwIn | kwIs | kwLambda | kwNonlocal | kwNot | kwOr | kwPass
  | kwRaise | kwReturn | kwTry | kwWhile | kwWith | kwYield
  deriving DecidableEq, Repr

inductive Operator
  | assign | tilde
  | less | more | dblEqual | lessEqual | moreEqual | notEqual
  | pipe | caret | ampersand | dblLess | dblMore | plus | minus | star | at | dblSlash | slash
  | percent | dblStar
  | delPipeEqual | delCaretEqual | delAmpersandEqual | delDblLessEqual | delDblMoreEqual
  | delPlusEqual | delMinusEqual | delStarEqual | delAtEqual | delDblSlashEqual | delSlashEqual
  | delPercentEqual | delDblStarEqual
  | delParenOpen | delParenClose | delBracketOpen | delBracketClose | delBraceOpen | delBraceClose
  | delComma | delColon | delPeriod | delSemicolon | delEqual | delMinusMore
  deriving DecidableEq, Repr

/-- `mp_token_kind_t` -/
inductive TokKind
  | eof
  | invalid
  | dedentMismatch
  | lonelyStringOpen
  | newline
  | indent
  | dedent
  | name
  | integer
  | floatOrImag
  | string
  | bytes
  | ellipsis
  | kw (k : Keyword)
  | op (o : Operator)
  deriving DecidableEq, Repr

/-- `mp_lexer_t`. The last indentation level comes first, and the end of the text is no byte. -/
structure Lexer where
  reader : List UInt8
  chr0 : Option UInt8
  chr1 : Option UInt8
  chr2 : Option UInt8
  line : ℕ
  column : ℤ
  emitDent : ℤ
  nestedBracketLevel : ℤ
  indentLevel : List ℕ
  tokLine : ℕ
  tokColumn : ℤ
  tokKind : TokKind
  vstr : List UInt8
  deriving DecidableEq, Repr

/-- The configuration: strings are UTF-8, `async` and `await` are keywords, and `__debug__` is
true. -/
structure LexerCfg where
  strUnicode : Bool
  asyncAwait : Bool
  debug : Bool

/-- What the lexer may raise -/
inductive LexExc
  | notImplementedError (msg : String)
  deriving DecidableEq, Repr

/-! ### Characters -/

variable (cfg : LexerCfg) (lex : Lexer)

/-- `readbyte` -/
def readbyte : List UInt8 → Option UInt8 × List UInt8
  | [] => (none, [])
  | b :: bs => (some b, bs)

/-- A carriage return becomes a line feed, also together with one. -/
def foldCr (chr1 : Option UInt8) (next : Option UInt8 × List UInt8) :
    Option UInt8 × Option UInt8 × List UInt8 :=
  if chr1 = some 13 then (some 10, if next.1 = some 10 then readbyte next.2 else next)
  else (chr1, next)

/-- A line feed is added at the end of the text. -/
def addNewline (chr1 chr2 : Option UInt8) : Option UInt8 :=
  if chr2 = none ∧ chr1 ≠ none ∧ chr1 ≠ some 10 then some 10 else chr2

/-- `next_char` -/
def nextChar : Lexer :=
  let (line, column) : ℕ × ℤ :=
    if lex.chr0 = some 10 then (lex.line + 1, 1)
    else if lex.chr0 = some 9 then (lex.line, (lex.column - 1 + 8) / 8 * 8 + 1)
    else (lex.line, lex.column + 1)
  let (chr1, chr2, reader) := foldCr lex.chr2 (readbyte lex.reader)
  { lex with
    reader := reader
    chr0 := lex.chr1
    chr1 := chr1
    chr2 := addNewline chr1 chr2
    line := line
    column := column }

def isWhitespace : Bool := lex.chr0.any unicharIsspace

def isLetter : Bool := lex.chr0.any unicharIsalpha

def isDigit : Bool := lex.chr0.any unicharIsdigit

/-- `is_following_base_char` -/
def isFollowingBaseChar : Bool :=
  lex.chr1.any fun c => c ||| 0x20 == 98 || c ||| 0x20 == 111 || c ||| 0x20 == 120

/-- `is_following_odigit` -/
def isFollowingOdigit : Bool := lex.chr1.any fun c => 48 ≤ c && c ≤ 55

def isQuote (c : Option UInt8) : Bool := c == some 39 || c == some 34

/-- `is_string_or_bytes` -/
def isStringOrBytes : Bool :=
  isQuote lex.chr0
    || (lex.chr0 == some 114 || lex.chr0 == some 117 || lex.chr0 == some 98) && isQuote lex.chr1
    || (lex.chr0 == some 114 && lex.chr1 == some 98 || lex.chr0 == some 98 && lex.chr1 == some 114)
      && isQuote lex.chr2

/-- `is_head_of_identifier`. The end of the text is a large number here. -/
def isHeadOfIdentifier : Bool :=
  isLetter lex || lex.chr0 == some 95 || lex.chr0.all fun c => 0x80 ≤ c

/-- `is_tail_of_identifier` -/
def isTailOfIdentifier : Bool := isHeadOfIdentifier lex || isDigit lex

/-- How many characters the third character stands for, at most: a line feed may be added to it. -/
def chrLeft (chr : Option UInt8) : ℕ := if chr = none then 0 else if chr = some 10 then 1 else 2

/-- How many characters may still be read, at most -/
def Lexer.left : ℕ :=
  2 * lex.reader.length + chrLeft lex.chr2 + (if lex.chr1 = none then 0 else 1) +
    if lex.chr0 = none then 0 else 1

/-! ### Reading characters -/

section Reading

variable {lex}

theorem chrLeft_le (chr : Option UInt8) : chrLeft chr ≤ 2 := by
  rw [chrLeft]
  split_ifs <;> omega

theorem readbyte_left (reader : List UInt8) :
    2 * (readbyte reader).2.length + chrLeft (readbyte reader).1 ≤ 2 * reader.length := by
  cases reader with
  | nil => exact Nat.le_refl _
  | cons b bs =>
    have := chrLeft_le (some b)
    simp only [readbyte, List.length_cons]
    omega

theorem foldCr_left (chr1 : Option UInt8) (next : Option UInt8 × List UInt8) :
    2 * (foldCr chr1 next).2.2.length + chrLeft (foldCr chr1 next).2.1 ≤
      2 * next.2.length + chrLeft next.1 := by
  rw [foldCr]
  split
  · split
    · exact Nat.le_add_right_of_le (readbyte_left next.2)
    · exact Nat.le_refl _
  · exact Nat.le_refl _

theorem foldCr_eq_none {chr1 : Option UInt8} {next : Option UInt8 × List UInt8} :
    (foldCr chr1 next).1 = none ↔ chr1 = none := by
  rw [foldCr]
  split
  · next h => simp [h]
  · exact Iff.rfl

/-- There is a line feed before the end of the text. -/
theorem eq_none_or_of_addNewline {chr1 chr2 : Option UInt8} (h : addNewline chr1 chr2 = none) :
    chr1 = none ∨ chr1 = some 10 := by
  rw [addNewline] at h
  split at h
  · cases h
  · next hnot =>
      by_contra hne
      exact hnot ⟨h, not_or.mp hne⟩

theorem addNewline_left (chr : Option UInt8) (next : Option UInt8 × List UInt8) :
    chrLeft (addNewline (foldCr chr next).1 (foldCr chr next).2.1) +
        (if (foldCr chr next).1 = none then 0 else 1) ≤
      chrLeft (foldCr chr next).2.1 + chrLeft chr := by
  by_cases hchr : chr = none
  · rw [addNewline, if_neg fun h => h.2.1 (foldCr_eq_none.mpr hchr),
      if_pos (foldCr_eq_none.mpr hchr)]
    omega
  · rw [if_neg fun h => hchr (foldCr_eq_none.mp h), addNewline]
    have hpos : 1 ≤ chrLeft chr := by
      rw [chrLeft, if_neg hchr]
      split <;> omega
    split
    · next h =>
        have hcr : chr ≠ some 13 := by
          rintro rfl
          exact h.2.2 rfl
        have hlf : chr ≠ some 10 := by
          rintro rfl
          exact h.2.2 rfl
        have htwo : chrLeft chr = 2 := by rw [chrLeft, if_neg hchr, if_neg hlf]
        have hone : chrLeft (some 10) = 1 := rfl
        omega
    · omega

/-- A character that is passed is no longer left. -/
theorem left_nextChar (lex : Lexer) :
    (nextChar lex).left + (if lex.chr0 = none then 0 else 1) ≤ lex.left := by
  have hread := readbyte_left lex.reader
  have hfold := foldCr_left lex.chr2 (readbyte lex.reader)
  have hadd := addNewline_left lex.chr2 (readbyte lex.reader)
  rcases hp : foldCr lex.chr2 (readbyte lex.reader) with ⟨chr1, chr2, reader⟩
  rw [hp] at hfold hadd
  simp only [Lexer.left, nextChar, hp]
  dsimp only at hfold hadd
  omega

/-- **The loops end**: less characters are left after one has been read. -/
theorem left_nextChar_lt (h : lex.chr0 ≠ none) : (nextChar lex).left < lex.left := by
  have hle := left_nextChar lex
  rwa [if_neg h] at hle

/-- There is a line feed before the end of the text. -/
structure Lexer.EndOk (lex : Lexer) : Prop where
  chr1 : lex.chr2 = none → lex.chr1 = none ∨ lex.chr1 = some 10
  chr0 : lex.chr1 = none → lex.chr0 = none ∨ lex.chr0 = some 10

theorem Lexer.EndOk.nextChar (h : lex.EndOk) : (nextChar lex).EndOk :=
  ⟨eq_none_or_of_addNewline, fun hnone => h.chr1 (foldCr_eq_none.mp hnone)⟩

/-- The text does not end after a character that is no line feed. -/
theorem Lexer.EndOk.nextChar_ne_none (h : lex.EndOk) (hne : lex.chr0 ≠ none)
    (hlf : lex.chr0 ≠ some 10) : (Pycopy.nextChar lex).chr0 ≠ none := fun hnone =>
  (h.chr0 hnone).elim hne hlf

theorem column_nextChar_newline (h : lex.chr0 = some 10) : (nextChar lex).column = 1 := by
  simp only [nextChar, if_pos h]

/-! ### The text that is left -/

/-- A text with a line feed at the end of each line. The line feed after a carriage return is left
out. -/
def foldLines : Bool → List UInt8 → List UInt8
  | _, [] => []
  | afterCr, c :: t =>
    if c = 13 then 10 :: foldLines true t
    else if afterCr ∧ c = 10 then foldLines false t
    else c :: foldLines false t

/-- A text with a line feed at its end -/
def endLine (t : List UInt8) : List UInt8 := if t = [] ∨ t.getLast? = some 10 then t else t ++ [10]

/-- The text that is left. The third character has not been looked at. -/
def Lexer.text (lex : Lexer) : List UInt8 :=
  lex.chr0.toList ++ lex.chr1.toList ++ endLine (foldLines false (lex.chr2.toList ++ lex.reader))

/-- Nothing comes after the end of the text. -/
def Lexer.TextOk (lex : Lexer) : Prop := lex.chr2 = none → lex.reader = []

/-- A line feed behind a carriage return is dropped. -/
theorem foldLines_true (t : List UInt8) : foldLines true t =
    foldLines false (if (readbyte t).1 = some 10 then (readbyte t).2 else t) := by
  cases t with
  | nil => rfl
  | cons c t =>
    by_cases h : c = 10
    · simp [foldLines, readbyte, h]
    · simp [foldLines, readbyte, h]

theorem readbyte_toList (t : List UInt8) : (readbyte t).1.toList ++ (readbyte t).2 = t := by
  cases t <;> rfl

theorem readbyte_none (t : List UInt8) (h : (readbyte t).1 = none) : (readbyte t).2 = [] := by
  cases t with
  | nil => rfl
  | cons c t => cases h

theorem endLine_cons (c : UInt8) {t : List UInt8} (ht : t ≠ []) :
    endLine (c :: t) = c :: endLine t := by
  have hlast : (c :: t).getLast? = t.getLast? := by
    rw [List.getLast?_cons, List.getLast?_eq_some_getLast ht]
    rfl
  simp only [endLine, hlast, ht, reduceCtorEq, false_or]
  split <;> rfl

theorem endLine_newline (t : List UInt8) : endLine (10 :: t) = 10 :: endLine t := by
  cases t with
  | nil => rfl
  | cons c t => exact endLine_cons 10 (List.cons_ne_nil c t)

theorem foldLines_cons_ne_nil (c : UInt8) (t : List UInt8) : foldLines false (c :: t) ≠ [] := by
  rw [foldLines]
  split
  · exact List.cons_ne_nil _ _
  · rw [if_neg (by simp)]
    exact List.cons_ne_nil _ _

/-- One character of the text is put into its final form. -/
theorem endLine_foldCr (chr : Option UInt8) (reader : List UInt8) (h : chr = none → reader = []) :
    endLine (foldLines false (chr.toList ++ reader)) =
      (foldCr chr (readbyte reader)).1.toList ++ endLine (foldLines false
        ((addNewline (foldCr chr (readbyte reader)).1 (foldCr chr (readbyte reader)).2.1).toList ++
          (foldCr chr (readbyte reader)).2.2)) := by
  cases chr with
  | none =>
    rw [h rfl]
    rfl
  | some c =>
    by_cases hcr : c = 13
    · -- a line feed is put there, and the one after it is skipped
      rw [hcr, foldCr, if_pos rfl]
      have hno : ∀ chr2, addNewline (some 10) chr2 = chr2 := fun chr2 => if_neg fun hn => hn.2.2 rfl
      have htext : (if (readbyte reader).1 = some 10 then readbyte (readbyte reader).2
            else readbyte reader).1.toList ++
          (if (readbyte reader).1 = some 10 then readbyte (readbyte reader).2
            else readbyte reader).2 =
          if (readbyte reader).1 = some 10 then (readbyte reader).2 else reader := by
        split <;> exact readbyte_toList _
      dsimp only
      rw [hno, htext, ← foldLines_true]
      exact endLine_newline (foldLines true reader)
    · have hfold : foldCr (some c) (readbyte reader) = (some c, readbyte reader) :=
        if_neg fun hc => hcr (Option.some.inj hc)
      have hcons : foldLines false (c :: reader) = c :: foldLines false reader := by
        rw [foldLines, if_neg hcr, if_neg (by simp)]
      rw [hfold]
      dsimp only
      rw [Option.toList_some, List.singleton_append, hcons, List.singleton_append]
      cases reader with
      | nil =>
        by_cases hlf : c = 10
        · rw [hlf]
          rfl
        · have hadd : addNewline (some c) (readbyte []).1 = some 10 := by
            rw [addNewline, if_pos ⟨rfl, by simp, by simpa using hlf⟩]
          rw [hadd]
          simp [endLine, foldLines, readbyte, hlf]
      | cons d reader =>
        have hadd : addNewline (some c) (readbyte (d :: reader)).1 = some d :=
          if_neg fun hn => nomatch hn.1
        rw [hadd, endLine_cons c (foldLines_cons_ne_nil d reader)]
        rfl

/-- **`next_char` takes the first character** of the text that is left. -/
theorem Lexer.TextOk.text_eq (h : lex.TextOk) :
    lex.text = lex.chr0.toList ++ (nextChar lex).text := by
  rw [Lexer.text, endLine_foldCr lex.chr2 lex.reader h, Lexer.text, List.append_assoc,
    List.append_assoc]
  rfl

theorem eq_none_of_addNewline {chr1 chr2 : Option UInt8} (h : addNewline chr1 chr2 = none) :
    chr2 = none := by
  rw [addNewline] at h
  split at h
  · cases h
  · exact h

theorem foldCr_none {chr1 : Option UInt8} (t : List UInt8)
    (h : (foldCr chr1 (readbyte t)).2.1 = none) : (foldCr chr1 (readbyte t)).2.2 = [] := by
  rw [foldCr] at h ⊢
  split_ifs at h ⊢ <;> exact readbyte_none _ h

/-- The reader is empty at the end. -/
theorem textOk_nextChar (lex : Lexer) : (nextChar lex).TextOk := fun hnone =>
  foldCr_none _ (eq_none_of_addNewline hnone)

/-! ### The lexer as a cursor -/

/-- The lexer is at a text. Nothing comes after the end of the text. -/
structure Lexer.At (lex : Lexer) (t : List UInt8) : Prop where
  textOk : lex.TextOk
  chr1_none : lex.chr1 = none → lex.chr2 = none
  chr0_none : lex.chr0 = none → lex.chr1 = none
  text_eq : lex.text = t

variable {t : List UInt8}

theorem Lexer.At.text_nil (h : lex.At t) (hnone : lex.chr0 = none) : t = [] := by
  have hchr2 := h.chr1_none (h.chr0_none hnone)
  rw [← h.text_eq, Lexer.text, hnone, h.chr0_none hnone, hchr2, h.textOk hchr2]
  rfl

theorem Lexer.At.chr0 (h : lex.At t) : lex.chr0 = t.head? := by
  cases hc : lex.chr0 with
  | none => rw [h.text_nil hc, List.head?_nil]
  | some c =>
    rw [← h.text_eq, Lexer.text, hc]
    rfl

/-- The next character is the next one of the text. -/
theorem Lexer.At.next (h : lex.At t) : (nextChar lex).At t.tail where
  textOk := textOk_nextChar lex
  chr1_none hnone := by
    have hchr2 : lex.chr2 = none := foldCr_eq_none.mp hnone
    have hnext : (nextChar lex).chr2 = addNewline (foldCr lex.chr2 (readbyte lex.reader)).1
      (foldCr lex.chr2 (readbyte lex.reader)).2.1 := rfl
    rw [hnext, hchr2, h.textOk hchr2]
    rfl
  chr0_none hnone := foldCr_eq_none.mpr (h.chr1_none hnone)
  text_eq := by
    have htext := h.textOk.text_eq
    cases hc : lex.chr0 with
    | none =>
      have hnil := h.text_nil hc
      rw [h.text_eq, hc, hnil] at htext
      rw [hnil]
      exact htext.symm
    | some c =>
      rw [h.text_eq, hc] at htext
      rw [htext]
      rfl

theorem Lexer.At.chr1 (h : lex.At t) : lex.chr1 = t.tail.head? := h.next.chr0

/-- The cursor is where it is in a lexer with another token. -/
theorem Lexer.At.withTok (h : lex.At t) (kind : TokKind) (vstr : List UInt8) :
    Lexer.At { lex with tokKind := kind, vstr := vstr } t :=
  ⟨h.textOk, h.chr1_none, h.chr0_none, h.text_eq⟩

theorem Lexer.At.ne_none {c : UInt8} (h : lex.At (c :: t)) : lex.chr0 ≠ none := by
  rw [h.chr0]
  exact Option.some_ne_none c

end Reading

/-! ### What is not changed -/

/-- Tokens that have nothing to do with lines -/
def TokKind.IsPlain : TokKind → Prop
  | .eof | .dedentMismatch | .newline | .indent | .dedent => False
  | _ => True

theorem isPlain_invalid : TokKind.IsPlain .invalid := trivial

/-- Characters are read, and nothing about the indentation is changed. -/
structure Moves (lex lex' : Lexer) : Prop where
  emitDent : lex'.emitDent = lex.emitDent
  indentLevel : lex'.indentLevel = lex.indentLevel
  endOk : lex.EndOk → lex'.EndOk
  plain : lex.tokKind.IsPlain → lex'.tokKind.IsPlain
  text : lex.TextOk → lex'.TextOk ∧ lex'.text <:+ lex.text
  left : lex'.left ≤ lex.left

theorem Moves.refl (lex : Lexer) : Moves lex lex :=
  ⟨rfl, rfl, id, id, fun h => ⟨h, List.suffix_rfl⟩, le_rfl⟩

theorem Moves.trans {lex lex' lex'' : Lexer} (h : Moves lex lex') (h' : Moves lex' lex'') :
    Moves lex lex'' :=
  ⟨h'.emitDent.trans h.emitDent, h'.indentLevel.trans h.indentLevel, h'.endOk ∘ h.endOk,
    h'.plain ∘ h.plain, fun hok =>
      have htext := h.text hok
      have htext' := h'.text htext.1
      ⟨htext'.1, htext'.2.trans htext.2⟩, h'.left.trans h.left⟩

theorem moves_nextChar (lex : Lexer) : Moves lex (nextChar lex) :=
  ⟨rfl, rfl, Lexer.EndOk.nextChar, id, fun h =>
    ⟨textOk_nextChar lex, h.text_eq ▸ List.suffix_append _ _⟩,
    (Nat.le_add_right ..).trans (left_nextChar lex)⟩

theorem moves_withTok (lex : Lexer) {kind : TokKind} (hkind : kind.IsPlain) (vstr : List UInt8) :
    Moves lex { lex with tokKind := kind, vstr := vstr } :=
  ⟨rfl, rfl, fun h => ⟨h.chr1, h.chr0⟩, fun _ => hkind, fun h => ⟨h, List.suffix_rfl⟩, le_rfl⟩

theorem moves_withVstr (lex : Lexer) (vstr : List UInt8) : Moves lex { lex with vstr := vstr } :=
  ⟨rfl, rfl, fun h => ⟨h.chr1, h.chr0⟩, id, fun h => ⟨h, List.suffix_rfl⟩, le_rfl⟩

theorem moves_withOp (lex : Lexer) (o : Operator) (level : ℤ) :
    Moves lex { lex with tokKind := .op o, nestedBracketLevel := level } :=
  ⟨rfl, rfl, fun h => ⟨h.chr1, h.chr0⟩, fun _ => trivial, fun h => ⟨h, List.suffix_rfl⟩, le_rfl⟩

/-- Less characters are left if one was read first. -/
theorem Moves.left_lt {lex lex' : Lexer} (h : Moves (nextChar lex) lex') (hne : lex.chr0 ≠ none) :
    lex'.left < lex.left :=
  h.left.trans_lt (left_nextChar_lt hne)

/-! ### Whitespace -/

/-- The loop of `skip_whitespace` through a comment -/
def skipComment (lex : Lexer) : Lexer :=
  if lex.chr0 ≠ none ∧ lex.chr0 ≠ some 10 then skipComment (nextChar lex) else lex
termination_by lex.left
decreasing_by exact left_nextChar_lt (And.left ‹_›)

theorem moves_skipComment (lex : Lexer) : Moves lex (skipComment lex) := by
  fun_induction skipComment lex with
  | case1 lex _ ih => exact (moves_nextChar lex).trans ih
  | case2 lex => exact .refl lex

/-- The loop of `skip_whitespace` -/
def skipLoop (stopAtNewline : Bool) (lex : Lexer) (had : Bool) : Lexer × Bool :=
  if lex.chr0 = none then (lex, had)
  else if lex.chr0 = some 10 then
    if stopAtNewline ∧ lex.nestedBracketLevel = 0 then (lex, had)
    else skipLoop stopAtNewline (nextChar lex) true
  else if isWhitespace lex then skipLoop stopAtNewline (nextChar lex) had
  else if lex.chr0 = some 35 then skipLoop stopAtNewline (skipComment (nextChar lex)) had
  else if lex.chr0 = some 92 ∧ lex.chr1 = some 10 then
    skipLoop stopAtNewline (nextChar (nextChar lex)) had
  else (lex, had)
termination_by lex.left
decreasing_by
  · exact left_nextChar_lt ‹_›
  · exact left_nextChar_lt ‹_›
  · exact (moves_skipComment (nextChar lex)).left_lt ‹_›
  · exact (moves_nextChar (nextChar lex)).left_lt ‹_›

theorem moves_skipLoop (stop : Bool) (lex : Lexer) (had : Bool) :
    Moves lex (skipLoop stop lex had).1 := by
  fun_induction skipLoop stop lex had with
  | case1 lex | case2 lex | case7 lex => exact .refl lex
  | case3 lex _ _ _ _ ih | case4 lex _ _ _ _ ih => exact (moves_nextChar lex).trans ih
  | case5 lex _ _ _ _ _ ih => exact ((moves_nextChar lex).trans (moves_skipComment _)).trans ih
  | case6 lex _ _ _ _ _ _ ih => exact ((moves_nextChar lex).trans (moves_nextChar _)).trans ih

/-- `skip_whitespace`: whether there was the end of a line -/
def skipWhitespace (stopAtNewline : Bool) : Lexer × Bool := skipLoop stopAtNewline lex false

theorem moves_skipWhitespace (lex : Lexer) (stop : Bool) :
    Moves lex (skipWhitespace lex stop).1 :=
  moves_skipLoop _ _ _

/-! ### Strings -/

/-- `get_hex`: there is no number if a digit is missing. -/
def getHex : ℕ → Lexer → ℕ → Lexer × Option ℕ
  | 0, lex, num => (lex, some num)
  | n + 1, lex, num =>
    let lex := nextChar lex
    match lex.chr0 with
    | none => (lex, none)
    | some c =>
      if unicharIsxdigit c then getHex n lex (num <<< 4 + unicharXdigitValue c) else (lex, none)

theorem moves_getHex (n : ℕ) (lex : Lexer) (num : ℕ) : Moves lex (getHex n lex num).1 := by
  induction n generalizing lex num with
  | zero => exact .refl lex
  | succ n ih =>
    rw [getHex]
    split
    · exact moves_nextChar lex
    · split
      · exact (moves_nextChar lex).trans (ih _ _)
      · exact moves_nextChar lex

/-- An octal number of at most `n` more digits -/
def getOctal : ℕ → Lexer → ℕ → Lexer × ℕ
  | 0, lex, num => (lex, num)
  | n + 1, lex, num =>
    if isFollowingOdigit lex then
      let lex := nextChar lex
      getOctal n lex (num * 8 + ((lex.chr0.getD 48).toNat - 48))
    else (lex, num)

theorem moves_getOctal (n : ℕ) (lex : Lexer) (num : ℕ) : Moves lex (getOctal n lex num).1 := by
  induction n generalizing lex num with
  | zero => exact .refl lex
  | succ n ih =>
    rw [getOctal]
    split
    · exact (moves_nextChar lex).trans (ih _ _)
    · exact .refl lex

/-- A character that was escaped is added to a string. There is none if it is the number for the end
of the text. -/
def addEscaped (c : ℕ) : Lexer :=
  if c = 0xFFFFFFFF then lex
  else if cfg.strUnicode then
    if c < 0x110000 ∧ lex.tokKind = .string then { lex with vstr := lex.vstr ++ vstrAddChar c }
    else if c < 0x100 ∧ lex.tokKind = .bytes then
      { lex with vstr := lex.vstr ++ [UInt8.ofNat c] }
    else { lex with tokKind := .invalid }
  else if c < 0x100 then { lex with vstr := lex.vstr ++ [UInt8.ofNat c] }
  else { lex with tokKind := .invalid }

theorem moves_addEscaped (lex : Lexer) (c : ℕ) : Moves lex (addEscaped cfg lex c) := by
  have hinvalid : Moves lex { lex with tokKind := .invalid } :=
    moves_withTok lex isPlain_invalid _
  rw [addEscaped]
  split_ifs
  · exact .refl lex
  · exact moves_withVstr lex _
  · exact moves_withVstr lex _
  · exact hinvalid
  · exact moves_withVstr lex _
  · exact hinvalid

/-- A hexadecimal escape -/
def hexEscape (numDigits : ℕ) : Lexer :=
  match getHex numDigits lex 0 with
  | (lex, some num) => addEscaped cfg lex num
  | (lex, none) => addEscaped cfg { lex with tokKind := .invalid } 0

theorem moves_hexEscape (lex : Lexer) (n : ℕ) : Moves lex (hexEscape cfg lex n) := by
  have hhex := moves_getHex n lex 0
  rw [hexEscape]
  generalize getHex n lex 0 = p at hhex
  obtain ⟨lex', num⟩ := p
  cases num with
  | none =>
    have hinvalid : Moves lex' { lex' with tokKind := .invalid } :=
      moves_withTok lex' isPlain_invalid _
    exact (hhex.trans hinvalid).trans (moves_addEscaped cfg _ _)
  | some num => exact hhex.trans (moves_addEscaped cfg _ _)

/-- The escapes of one character -/
def simpleEscape (c : UInt8) : Option ℕ :=
  if c = 92 ∨ c = 39 ∨ c = 34 then some c.toNat
  else if c = 97 then some 0x07
  else if c = 98 then some 0x08
  else if c = 116 then some 0x09
  else if c = 110 then some 0x0a
  else if c = 118 then some 0x0b
  else if c = 102 then some 0x0c
  else if c = 114 then some 0x0d
  else none

/-- The digits of a hexadecimal escape -/
def hexDigits (c : UInt8) : Option ℕ :=
  if c = 120 then some 2 else if c = 117 then some 4 else if c = 85 then some 8 else none

/-- What is done after a backslash in a string, and whether the character is looked at again. -/
def stringEscape (isRaw : Bool) : Except LexExc (Lexer × Bool) :=
  let backslash : Lexer := { lex with vstr := lex.vstr ++ [92] }
  match lex.chr0 with
  | none => .ok (backslash, !isRaw)
  | some c =>
    if isRaw then .ok (addEscaped cfg backslash c.toNat, false)
    else if c = 10 then .ok (lex, false)
    else
      match simpleEscape c with
      | some num => .ok (addEscaped cfg lex num, false)
      | none =>
        if (c = 117 ∨ c = 85) ∧ lex.tokKind = .bytes then
          .ok (addEscaped cfg backslash c.toNat, false)
        else
          match hexDigits c with
          | some n => .ok (hexEscape cfg lex n, false)
          | none =>
            if c = 78 then .error (.notImplementedError "unicode name escapes")
            else if 48 ≤ c ∧ c ≤ 55 then
              let (lex, num) := getOctal 2 lex (c.toNat - 48)
              .ok (addEscaped cfg lex num, false)
            else .ok (backslash, true)

theorem moves_stringEscape {lex lex' : Lexer} {isRaw again : Bool}
    (h : stringEscape cfg lex isRaw = .ok (lex', again)) : Moves lex lex' := by
  have hback : Moves lex { lex with vstr := lex.vstr ++ [92] } := moves_withVstr lex _
  rw [stringEscape] at h
  split at h
  · cases h
    exact hback
  · next c _ =>
      split at h
      · cases h
        exact hback.trans (moves_addEscaped cfg _ _)
      · split at h
        · cases h
          exact .refl lex
        · split at h
          · cases h
            exact moves_addEscaped cfg lex _
          · split at h
            · cases h
              exact hback.trans (moves_addEscaped cfg _ _)
            · split at h
              · cases h
                exact moves_hexEscape cfg lex _
              · split at h
                · cases h
                · split at h
                  · cases h
                    exact (moves_getOctal 2 lex _).trans (moves_addEscaped cfg _ _)
                  · cases h
                    exact hback

theorem moves_unless (again : Bool) (lex : Lexer) :
    Moves lex (if again then lex else nextChar lex) := by
  split
  · exact .refl lex
  · exact moves_nextChar lex

/-- The loop of `parse_string_literal` -/
def stringLoop (quoteChar : UInt8) (numQuotes : ℕ) (isRaw : Bool) (lex : Lexer) (nClosing : ℕ) :
    Except LexExc (Lexer × ℕ) :=
  if lex.chr0 ≠ none ∧ (1 < numQuotes ∨ lex.chr0 ≠ some 10) ∧ nClosing < numQuotes then
    if lex.chr0 = some quoteChar then
      stringLoop quoteChar numQuotes isRaw
        (nextChar { lex with vstr := lex.vstr ++ [quoteChar] }) (nClosing + 1)
    else if lex.chr0 = some 92 then
      match _ : stringEscape cfg (nextChar lex) isRaw with
      | .error e => .error e
      | .ok (lex', again) =>
        stringLoop quoteChar numQuotes isRaw (if again then lex' else nextChar lex') 0
    else
      stringLoop quoteChar numQuotes isRaw
        (nextChar { lex with vstr := lex.vstr ++ lex.chr0.toList }) 0
  else .ok (lex, nClosing)
termination_by lex.left
decreasing_by
  · exact @left_nextChar_lt { lex with vstr := _ } (And.left ‹_ ∧ _›)
  · exact ((moves_stringEscape cfg ‹_›).trans (moves_unless _ _)).left_lt (And.left ‹_ ∧ _›)
  · exact @left_nextChar_lt { lex with vstr := _ } (And.left ‹_ ∧ _›)

/-- The loop of a string only moves on. -/
theorem moves_stringLoop {quoteChar : UInt8} {numQuotes : ℕ} {isRaw : Bool} {lex lex' : Lexer}
    {n n' : ℕ} (h : stringLoop cfg quoteChar numQuotes isRaw lex n = .ok (lex', n')) :
    Moves lex lex' := by
  fun_induction stringLoop cfg quoteChar numQuotes isRaw lex n with
  | case1 lex _ _ _ ih => exact ((moves_withVstr lex _).trans (moves_nextChar _)).trans (ih h)
  | case2 => cases h
  | case3 lex _ _ _ _ lex₁ again hesc ih =>
    exact (((moves_nextChar lex).trans (moves_stringEscape cfg hesc)).trans
      (moves_unless again lex₁)).trans (ih h)
  | case4 lex _ _ _ _ ih => exact ((moves_withVstr lex _).trans (moves_nextChar _)).trans (ih h)
  | case5 =>
    cases h
    exact .refl _

def quoteChar : UInt8 := if lex.chr0 = some 34 then 34 else 39

/-- The quotes at the start of a string, and their number -/
def openQuotes : Lexer × ℕ :=
  let lex' := nextChar lex
  if lex'.chr0 = some (quoteChar lex) ∧ lex'.chr1 = some (quoteChar lex) then
    (nextChar (nextChar lex'), 3)
  else (lex', 1)

theorem moves_openQuotes (lex : Lexer) : Moves (nextChar lex) (openQuotes lex).1 := by
  rw [openQuotes]
  split
  · exact (moves_nextChar _).trans (moves_nextChar _)
  · exact .refl _

/-- The quotes at the end of a string are cut off, or it is not closed. -/
def closeQuotes (numQuotes nClosing : ℕ) : Lexer :=
  { lex with
    tokKind := if nClosing < numQuotes then .lonelyStringOpen else lex.tokKind
    vstr := lex.vstr.take (lex.vstr.length - nClosing) }

theorem moves_closeQuotes (lex : Lexer) (numQuotes nClosing : ℕ) :
    Moves lex (closeQuotes lex numQuotes nClosing) := by
  have hlonely : TokKind.IsPlain .lonelyStringOpen := trivial
  rw [closeQuotes]
  split
  · exact moves_withTok lex hlonely _
  · exact moves_withVstr lex _

/-- `parse_string_literal` -/
def parseStringLiteral (isRaw : Bool) : Except LexExc Lexer := do
  let (lex', numQuotes) := openQuotes lex
  let (lex', nClosing) ← stringLoop cfg (quoteChar lex) numQuotes isRaw lex' 0
  .ok (closeQuotes lex' numQuotes nClosing)

theorem moves_parseStringLiteral {lex lex' : Lexer} {isRaw : Bool}
    (h : parseStringLiteral cfg lex isRaw = .ok lex') : Moves (nextChar lex) lex' := by
  have hopen := moves_openQuotes lex
  rw [parseStringLiteral] at h
  generalize openQuotes lex = p at h hopen
  obtain ⟨lex₁, numQuotes⟩ := p
  cases hloop : stringLoop cfg (quoteChar lex) numQuotes isRaw lex₁ 0 with
  | error e =>
    simp only [hloop] at h
    cases h
  | ok p =>
    simp only [hloop] at h
    cases h
    exact (hopen.trans (moves_stringLoop cfg hloop)).trans (moves_closeQuotes _ _ _)

/-- The type codes before a string: its kind, whether it is raw, and the number of codes -/
def typeCodes : TokKind × Bool × ℕ :=
  if lex.chr0 = some 117 then (.string, false, 1)
  else if lex.chr0 = some 98 then
    if lex.chr1 = some 114 then (.bytes, true, 2) else (.bytes, false, 1)
  else if lex.chr0 = some 114 then
    if lex.chr1 = some 98 then (.bytes, true, 2) else (.string, true, 1)
  else (.string, false, 0)

theorem typeCodes_isPlain (lex : Lexer) : (typeCodes lex).1.IsPlain := by
  rw [typeCodes]
  split_ifs <;> trivial

/-- The type codes are skipped. -/
def skipCodes : ℕ → Lexer → Lexer
  | 0, lex => lex
  | n + 1, lex => skipCodes n (nextChar lex)

theorem moves_skipCodes (n : ℕ) (lex : Lexer) : Moves lex (skipCodes n lex) := by
  induction n generalizing lex with
  | zero => exact .refl lex
  | succ n ih => exact (moves_nextChar lex).trans (ih _)

/-- The type codes are skipped, and then a character is read. -/
theorem moves_skipCodes_next (n : ℕ) (lex : Lexer) :
    Moves (nextChar lex) (nextChar (skipCodes n lex)) := by
  cases n with
  | zero => exact .refl _
  | succ n => exact (moves_skipCodes n (nextChar lex)).trans (moves_nextChar _)

/-- A string is read, with what is in front of it and the whitespace behind it. -/
theorem moves_string {lex lex' : Lexer} {kind : TokKind} {isRaw : Bool} {nChar : ℕ}
    (h : parseStringLiteral cfg (skipCodes nChar { lex with tokKind := kind }) isRaw = .ok lex') :
    Moves (nextChar { lex with tokKind := kind }) (skipWhitespace lex' true).1 :=
  ((moves_skipCodes_next nChar { lex with tokKind := kind }).trans
    (moves_parseStringLiteral cfg h)).trans (moves_skipWhitespace lex' true)

theorem ne_none_of_isStringOrBytes {lex : Lexer} (h : isStringOrBytes lex = true) :
    lex.chr0 ≠ none := by
  intro hnone
  simp [isStringOrBytes, isQuote, hnone] at h

/-- The loop over adjacent strings, which are joined -/
def stringTokens (lex : Lexer) : Except LexExc Lexer :=
  match typeCodes lex with
  | (kind, isRaw, nChar) =>
    if lex.tokKind = .eof ∨ lex.tokKind = kind then
      match _ : parseStringLiteral cfg (skipCodes nChar { lex with tokKind := kind }) isRaw with
      | .error e => .error e
      | .ok lex' =>
        let lex' := (skipWhitespace lex' true).1
        if isStringOrBytes lex' then stringTokens lex' else .ok lex'
    else .ok lex
-- at the start of every further round there is a character
termination_by 2 * lex.left + if lex.chr0 = none then 1 else 0
decreasing_by
  have hmoves := (moves_string cfg ‹_›).left
  have hle : (nextChar { lex with tokKind := kind }).left + (if lex.chr0 = none then 0 else 1) ≤
    lex.left := left_nextChar _
  rw [if_neg (ne_none_of_isStringOrBytes ‹_›)]
  split_ifs at hle ⊢ <;> omega

/-- Strings next to each other are all passed. -/
theorem moves_stringTokens {lex lex' : Lexer} (h : stringTokens cfg lex = .ok lex') :
    Moves lex lex' := by
  have hround : ∀ {lex lex₁ : Lexer} {kind : TokKind} {isRaw : Bool} {nChar : ℕ},
      typeCodes lex = (kind, isRaw, nChar) →
      parseStringLiteral cfg (skipCodes nChar { lex with tokKind := kind }) isRaw = .ok lex₁ →
      Moves lex (skipWhitespace lex₁ true).1 := by
    intro lex lex₁ kind isRaw nChar hcodes hparse
    have hplain := typeCodes_isPlain lex
    rw [hcodes] at hplain
    exact ((moves_withTok lex hplain lex.vstr).trans (moves_nextChar _)).trans
      (moves_string cfg hparse)
  fun_induction stringTokens cfg lex with
  | case1 => cases h
  | case2 lex _ _ _ hcodes _ _ hparse _ _ ih => exact (hround hcodes hparse).trans (ih h)
  | case3 lex _ _ _ hcodes _ _ hparse =>
    obtain rfl := Except.ok.inj h
    exact hround hcodes hparse
  | case4 =>
    cases h
    exact .refl _

/-- There is a string at the end, and a character of it was read. -/
theorem stringTokens_isPlain {lex lex' : Lexer} (heof : lex.tokKind = .eof)
    (h : stringTokens cfg lex = .ok lex') :
    Moves (nextChar { lex with tokKind := (typeCodes lex).1 }) lex' ∧ lex'.tokKind.IsPlain := by
  have hall : Moves (nextChar { lex with tokKind := (typeCodes lex).1 }) lex' := by
    revert h
    fun_cases stringTokens cfg lex with
    | case1 =>
      intro h
      cases h
    | case2 _ _ _ hcodes _ _ hparse =>
      intro h
      rw [hcodes]
      exact (moves_string cfg hparse).trans (moves_stringTokens cfg h)
    | case3 _ _ _ hcodes _ _ hparse =>
      intro h
      obtain rfl := Except.ok.inj h
      rw [hcodes]
      exact moves_string cfg hparse
    | case4 _ _ _ _ hkind => exact absurd (.inl heof) hkind
  exact ⟨hall, hall.plain (typeCodes_isPlain lex)⟩

/-! ### Names and numbers -/

/-- The current character is added to the text of the token. -/
def takeChar : Lexer := nextChar { lex with vstr := lex.vstr ++ lex.chr0.toList }

theorem moves_takeChar (lex : Lexer) : Moves lex (takeChar lex) :=
  (moves_withVstr lex _).trans (moves_nextChar _)

theorem left_takeChar_lt {lex : Lexer} (h : lex.chr0 ≠ none) : (takeChar lex).left < lex.left :=
  @left_nextChar_lt { lex with vstr := _ } h

def nameLoop (lex : Lexer) : Lexer :=
  if lex.chr0 ≠ none ∧ isTailOfIdentifier lex then nameLoop (takeChar lex) else lex
termination_by lex.left
decreasing_by exact left_takeChar_lt (And.left ‹_ ∧ _›)

theorem moves_nameLoop (lex : Lexer) : Moves lex (nameLoop lex) := by
  fun_induction nameLoop lex with
  | case1 lex _ ih => exact (moves_takeChar lex).trans ih
  | case2 lex => exact .refl lex

/-- `strcmp` -/
def strcmp : List UInt8 → List UInt8 → Ordering
  | [], [] => .eq
  | [], _ :: _ => .lt
  | _ :: _, [] => .gt
  | a :: as, b :: bs => if a < b then .lt else if b < a then .gt else strcmp as bs

/-- The bytes of an ASCII text -/
def asciiBytes (s : String) : List UInt8 := s.toList.map fun c => UInt8.ofNat c.toNat

/-- `tok_kw` -/
def tokKw : List (String × Keyword) :=
  [("False", .kwFalse), ("None", .kwNone), ("True", .kwTrue), ("__debug__", .kwDebug),
    ("and", .kwAnd), ("as", .kwAs), ("assert", .kwAssert)] ++
  (if cfg.asyncAwait then [("async", .kwAsync), ("await", .kwAwait)] else []) ++
  [("break", .kwBreak), ("class", .kwClass), ("continue", .kwContinue), ("def", .kwDef),
    ("del", .kwDel), ("elif", .kwElif), ("else", .kwElse), ("except", .kwExcept),
    ("finally", .kwFinally), ("for", .kwFor), ("from", .kwFrom), ("global", .kwGlobal),
    ("if", .kwIf), ("import", .kwImport), ("in", .kwIn), ("is", .kwIs), ("lambda", .kwLambda),
    ("nonlocal", .kwNonlocal), ("not", .kwNot), ("or", .kwOr), ("pass", .kwPass),
    ("raise", .kwRaise), ("return", .kwReturn), ("try", .kwTry), ("while", .kwWhile),
    ("with", .kwWith), ("yield", .kwYield)]

/-- The search of a keyword in the table, which is sorted -/
def findKw (s : List UInt8) : List (String × Keyword) → TokKind
  | [] => .name
  | (text, k) :: rest =>
    match strcmp s (asciiBytes text) with
    | .eq => if k = .kwDebug then .kw (if cfg.debug then .kwTrue else .kwFalse) else .kw k
    | .lt => .name
    | .gt => findKw s rest

theorem findKw_isPlain (s : List UInt8) (kws : List (String × Keyword)) :
    (findKw cfg s kws).IsPlain := by
  induction kws with
  | nil => trivial
  | cons kw kws ih =>
    obtain ⟨text, k⟩ := kw
    rw [findKw]
    split
    · split <;> trivial
    · trivial
    · exact ih

def lexName : Lexer :=
  let lex := takeChar lex
  let lex := nameLoop lex
  { lex with tokKind := findKw cfg lex.vstr (tokKw cfg) }

/-- A name is no token of lines or indentation. -/
theorem moves_lexName (lex : Lexer) :
    Moves (takeChar lex) (lexName cfg lex) ∧ (lexName cfg lex).tokKind.IsPlain := by
  have hplain := findKw_isPlain cfg (nameLoop (takeChar lex)).vstr (tokKw cfg)
  exact ⟨(moves_nameLoop _).trans (moves_withTok _ hplain _), hplain⟩

/-- The start of an exponent, with its sign -/
def takeExponent : Lexer :=
  let lex' := nextChar { lex with tokKind := .floatOrImag, vstr := lex.vstr ++ [101] }
  if lex'.chr0 = some 43 ∨ lex'.chr0 = some 45 then takeChar lex' else lex'

theorem moves_takeExponent (lex : Lexer) : Moves
    (nextChar { lex with tokKind := .floatOrImag, vstr := lex.vstr ++ [101] })
    (takeExponent lex) := by
  rw [takeExponent]
  split
  · exact moves_takeChar _
  · exact .refl _

/-- A point or an imaginary unit makes a float. -/
def takeNumberChar : Lexer :=
  takeChar
    (if lex.chr0 = some 46 ∨ lex.chr0 = some 106 ∨ lex.chr0 = some 74 then
      { lex with tokKind := .floatOrImag }
    else lex)

theorem moves_takeNumberChar (lex : Lexer) : Moves lex (takeNumberChar lex) := by
  have hfloat : TokKind.IsPlain .floatOrImag := trivial
  rw [takeNumberChar]
  split
  · exact (moves_withTok lex hfloat lex.vstr).trans (moves_takeChar _)
  · exact moves_takeChar lex

def numberLoop (forcedInteger : Bool) (lex : Lexer) : Lexer :=
  if lex.chr0 = none then lex
  else if !forcedInteger && (lex.chr0 == some 101 || lex.chr0 == some 69) then
    numberLoop forcedInteger (takeExponent lex)
  else if isLetter lex || isDigit lex || lex.chr0 == some 46 then
    if lex.chr0 = some 46 ∧ lex.tokKind = .floatOrImag then lex
    else numberLoop forcedInteger (takeNumberChar lex)
  else if lex.chr0 = some 95 then numberLoop forcedInteger (nextChar lex)
  else lex
termination_by lex.left
decreasing_by
  · exact (moves_takeExponent lex).left_lt ‹_›
  · rw [takeNumberChar]
    split
    · exact @left_takeChar_lt { lex with tokKind := _ } ‹_›
    · exact left_takeChar_lt ‹_›
  · exact left_nextChar_lt ‹_›

theorem moves_numberLoop (forced : Bool) (lex : Lexer) : Moves lex (numberLoop forced lex) := by
  have hfloat : TokKind.IsPlain .floatOrImag := trivial
  fun_induction numberLoop forced lex with
  | case1 lex | case3 lex | case6 lex => exact .refl lex
  | case2 lex _ _ ih =>
    exact (((moves_withTok lex hfloat _).trans (moves_nextChar _)).trans
      (moves_takeExponent lex)).trans ih
  | case4 lex _ _ _ _ ih => exact (moves_takeNumberChar lex).trans ih
  | case5 lex _ _ _ _ ih => exact (moves_nextChar lex).trans ih

def lexNumber : Lexer :=
  let kind : TokKind := if lex.chr0 = some 46 then .floatOrImag else .integer
  let forcedInteger := lex.chr0 == some 48 && isFollowingBaseChar lex
  let lex := takeChar { lex with tokKind := kind }
  numberLoop forcedInteger lex

/-- The kind of a number at its first character -/
def numberKind (lex : Lexer) : TokKind := if lex.chr0 = some 46 then .floatOrImag else .integer

theorem numberKind_isPlain (lex : Lexer) : (numberKind lex).IsPlain := by
  rw [numberKind]
  split <;> trivial

/-- Nor is a number. -/
theorem moves_lexNumber (lex : Lexer) :
    Moves (takeChar { lex with tokKind := numberKind lex }) (lexNumber lex) ∧
      (lexNumber lex).tokKind.IsPlain := by
  have hloop := moves_numberLoop (lex.chr0 == some 48 && isFollowingBaseChar lex)
    (takeChar { lex with tokKind := numberKind lex })
  exact ⟨hloop, hloop.plain (numberKind_isPlain lex)⟩

/-! ### Operators -/

/-- `tok_enc` -/
def tokEnc : List UInt8 :=
  asciiBytes "()[]\x7b\x7d,;~:e=<e=c<e=>e=c>e=*e=c*e=+e=-e=e>&e=|e=/e=c/e=%e=^e=@e==e=!."

/-- `tok_enc_kind` -/
def tokEncKind : List Operator :=
  [.delParenOpen, .delParenClose, .delBracketOpen, .delBracketClose, .delBraceOpen, .delBraceClose,
    .delComma, .delSemicolon, .tilde, .delColon, .assign, .less, .lessEqual, .dblLess,
    .delDblLessEqual, .more, .moreEqual, .dblMore, .delDblMoreEqual, .star, .delStarEqual, .dblStar,
    .delDblStarEqual, .plus, .delPlusEqual, .minus, .delMinusEqual, .delMinusMore, .ampersand,
    .delAmpersandEqual, .pipe, .delPipeEqual, .slash, .delSlashEqual, .dblSlash, .delDblSlashEqual,
    .percent, .delPercentEqual, .caret, .delCaretEqual, .at, .delAtEqual, .delEqual, .dblEqual]

/-- The search of a character in `tok_enc`: what comes from it on, and its index -/
def encSearch (c : Option UInt8) : List UInt8 → ℕ → List UInt8 × ℕ
  | [], i => ([], i)
  | [b], i => if c = some b then ([b], i) else ([], i + 1)
  | b :: b' :: t, i =>
    if c = some b then (b :: b' :: t, i)
    else if b = 101 ∨ b = 99 then encSearch c t (i + 1)
    else encSearch c (b' :: t) (i + 1)

/-- The longest operator that matches -/
def encMatch : List UInt8 → Lexer → ℕ → ℕ → Lexer × ℕ
  | k :: b :: t, lex, tIndex, index =>
    if k = 99 ∨ k = 101 then
      if lex.chr0 = some b then
        if k = 101 then (nextChar lex, tIndex + 1)
        else encMatch t (nextChar lex) (tIndex + 1) (tIndex + 1)
      else if k = 99 then (lex, index)
      else encMatch t lex (tIndex + 1) index
    else (lex, index)
  | _, lex, _, index => (lex, index)

theorem moves_encMatch (t : List UInt8) (lex : Lexer) (tIndex index : ℕ) :
    Moves lex (encMatch t lex tIndex index).1 := by
  fun_induction encMatch t lex tIndex index with
  | case1 => exact moves_nextChar _
  | case2 _ _ _ _ _ _ _ _ _ ih => exact (moves_nextChar _).trans ih
  | case3 => exact .refl _
  | case4 _ _ _ _ _ _ _ _ _ ih => exact ih
  | case5 => exact .refl _
  | case6 => exact .refl _

/-- The change of the level of brackets -/
def bracketLevel : Operator → ℤ
  | .delParenOpen | .delBracketOpen | .delBraceOpen => 1
  | .delParenClose | .delBracketClose | .delBraceClose => -1
  | _ => 0

def lexOperator : Lexer :=
  let (t, index) := encSearch lex.chr0 tokEnc 0
  let lex := nextChar lex
  match t with
  | [] => { lex with tokKind := .invalid }
  | b :: t =>
    if b = 33 then
      if lex.chr0 = some 61 then { nextChar lex with tokKind := .op .notEqual }
      else { lex with tokKind := .invalid }
    else if b = 46 then
      if lex.chr0 = some 46 ∧ lex.chr1 = some 46 then
        { nextChar (nextChar lex) with tokKind := .ellipsis }
      else { lex with tokKind := .op .delPeriod }
    else
      let (lex, index) := encMatch t lex index index
      match tokEncKind[index]? with
      | none => { lex with tokKind := .invalid }
      | some o =>
        { lex with
          tokKind := .op o
          nestedBracketLevel := lex.nestedBracketLevel + bracketLevel o }

/-- Nor is an operator. -/
theorem moves_lexOperator (lex : Lexer) :
    Moves (nextChar lex) (lexOperator lex) ∧ (lexOperator lex).tokKind.IsPlain := by
  have hop : ∀ o, TokKind.IsPlain (.op o) := fun _ => trivial
  have hellipsis : TokKind.IsPlain .ellipsis := trivial
  rw [lexOperator]
  dsimp only
  split
  · exact ⟨moves_withTok _ isPlain_invalid _, trivial⟩
  · split
    · split
      · exact ⟨(moves_nextChar _).trans (moves_withTok _ (hop _) _), trivial⟩
      · exact ⟨moves_withTok _ isPlain_invalid _, trivial⟩
    · split
      · split
        · exact ⟨((moves_nextChar _).trans (moves_nextChar _)).trans
            (moves_withTok _ hellipsis _), trivial⟩
        · exact ⟨moves_withTok _ (hop _) _, trivial⟩
      · have hmatch : ∀ t i, Moves (nextChar lex) (encMatch t (nextChar lex) i i).1 := fun t i =>
          moves_encMatch t (nextChar lex) i i
        split
        · exact ⟨(hmatch _ _).trans (moves_withTok _ isPlain_invalid _), trivial⟩
        · exact ⟨(hmatch _ _).trans (moves_withOp _ _ _), trivial⟩

/-! ### Tokens of indentation -/

/-- `indent_top` -/
def indentTop : List ℕ → ℕ
  | [] => 0
  | top :: _ => top

/-- `indent_push`. A level has 16 bits. -/
def indentPush (levels : List ℕ) (indent : ℕ) : List ℕ := indent % 2 ^ 16 :: levels

/-- The loop over `indent_pop` -/
def dedentLoop (numSpaces : ℕ) : List ℕ → ℤ → List ℕ × ℤ
  | [], emitDent => ([], emitDent)
  | top :: levels, emitDent =>
    if numSpaces < top then dedentLoop numSpaces levels (emitDent - 1)
    else (top :: levels, emitDent)

/-- The number of spaces at the start of a line -/
def Lexer.numSpaces : ℕ := (lex.column - 1).toNat

/-- The end of a line, and the indentation of the next one -/
def lexNewline : Lexer :=
  if lex.numSpaces = indentTop lex.indentLevel then { lex with tokKind := .newline }
  else if indentTop lex.indentLevel < lex.numSpaces then
    { lex with
      tokKind := .newline
      indentLevel := indentPush lex.indentLevel lex.numSpaces
      emitDent := lex.emitDent + 1 }
  else
    let (levels, emitDent) := dedentLoop lex.numSpaces lex.indentLevel lex.emitDent
    { lex with
      tokKind := if lex.numSpaces ≠ indentTop levels then .dedentMismatch else .newline
      indentLevel := levels
      emitDent := emitDent }

/-- The part of `mp_lexer_to_next` that comes after the whitespace -/
def lexToken (hadPhysicalNewline : Bool) : Except LexExc Lexer :=
  if lex.emitDent < 0 then .ok { lex with tokKind := .dedent, emitDent := lex.emitDent + 1 }
  else if 0 < lex.emitDent then .ok { lex with tokKind := .indent, emitDent := lex.emitDent - 1 }
  else if hadPhysicalNewline ∧ lex.nestedBracketLevel = 0 then .ok (lexNewline lex)
  else if lex.chr0 = none then .ok { lex with tokKind := .eof }
  else if isStringOrBytes lex then stringTokens cfg { lex with tokKind := .eof }
  else if isHeadOfIdentifier lex then .ok (lexName cfg lex)
  else if isDigit lex || (lex.chr0 == some 46 && lex.chr1.any unicharIsdigit) then
    .ok (lexNumber lex)
  else .ok (lexOperator lex)

/-- The place of the token is noted. -/
def Lexer.noteTok : Lexer := { lex with tokLine := lex.line, tokColumn := lex.column }

/-- `mp_lexer_to_next` -/
def lexerToNext : Except LexExc Lexer :=
  let (lex, hadPhysicalNewline) := skipWhitespace { lex with vstr := [] } false
  lexToken cfg lex.noteTok hadPhysicalNewline

/-- The lexer before the first token: three characters are loaded after three zeros. -/
def lexerInit (src : List UInt8) : Lexer :=
  nextChar (nextChar (nextChar
    { reader := src
      chr0 := some 0
      chr1 := some 0
      chr2 := some 0
      line := 1
      column := -2
      emitDent := 0
      nestedBracketLevel := 0
      indentLevel := [0]
      tokLine := 0
      tokColumn := 0
      tokKind := .eof
      vstr := [] }))

theorem moves_noteTok (lex : Lexer) : Moves lex lex.noteTok :=
  ⟨rfl, rfl, fun h => ⟨h.chr1, h.chr0⟩, id, fun h => ⟨h, List.suffix_rfl⟩, le_rfl⟩

/-! ### The start of a token -/

section Start

variable {lex}

/-- There is no whitespace, no comment and no continuation of the line. -/
structure Lexer.AtToken (lex : Lexer) : Prop where
  newline : lex.chr0 ≠ some 10
  space : isWhitespace lex = false
  comment : lex.chr0 ≠ some 35
  continuation : ¬(lex.chr0 = some 92 ∧ lex.chr1 = some 10)

/-- **A token starts where the whitespace ends.** -/
theorem skipLoop_stop (lex : Lexer) (had : Bool) : (skipLoop false lex had).1.AtToken := by
  fun_induction skipLoop false lex had with
  | case1 lex _ hnone =>
    exact ⟨by simp [hnone], by simp [isWhitespace, hnone], by simp [hnone], by simp [hnone]⟩
  | case2 _ _ _ _ hstop => cases hstop.1
  | case3 _ _ _ _ _ ih | case4 _ _ _ _ _ ih | case5 _ _ _ _ _ _ ih | case6 _ _ _ _ _ _ _ ih =>
    exact ih
  | case7 lex _ _ hlf hspace hcomment hcont => exact ⟨hlf, by simpa using hspace, hcomment, hcont⟩

/-- Nothing is skipped at the start of a token. -/
theorem Lexer.AtToken.skipLoop (h : lex.AtToken) (had : Bool) :
    Pycopy.skipLoop false lex had = (lex, had) := by
  rw [Pycopy.skipLoop]
  split
  · rfl
  · rw [if_neg h.newline, if_neg (by rw [h.space]; decide), if_neg h.comment,
      if_neg h.continuation]

/-- The comment ends before the text. -/
theorem skipComment_ne_none {lex : Lexer} (hend : lex.EndOk) (h : lex.chr0 ≠ none) :
    (skipComment lex).chr0 ≠ none := by
  fun_induction skipComment lex with
  | case1 lex hloop ih => exact ih hend.nextChar (hend.nextChar_ne_none h hloop.2)
  | case2 => exact h

/-- If the text has ended after the end of a line, it has ended at the start of a line. -/
def EndsAtLine (r : Lexer × Bool) : Prop := r.1.chr0 = none → r.2 = true → r.1.column = 1

/-- **The text ends at the start of a line.** -/
theorem skipLoop_end {lex : Lexer} {had : Bool} (hend : lex.EndOk) (h : EndsAtLine (lex, had)) :
    EndsAtLine (skipLoop false lex had) := by
  fun_induction skipLoop false lex had with
  | case1 | case2 | case7 => exact h
  | case3 lex _ _ hlf _ ih => exact ih hend.nextChar fun _ _ => column_nextChar_newline hlf
  | case4 lex _ hne hlf _ ih =>
    exact ih hend.nextChar fun hnone => absurd hnone (hend.nextChar_ne_none hne hlf)
  | case5 lex _ hne hlf _ _ ih =>
    have hne' := hend.nextChar_ne_none hne hlf
    refine ih ((moves_skipComment _).endOk hend.nextChar) fun hnone => ?_
    exact absurd hnone (skipComment_ne_none hend.nextChar hne')
  | case6 lex _ _ _ _ _ hcont ih =>
    exact ih hend.nextChar.nextChar fun _ _ => column_nextChar_newline hcont.2

theorem skipWhitespace_stop (lex : Lexer) : (skipWhitespace lex false).1.AtToken :=
  skipLoop_stop _ _

theorem Lexer.AtToken.skipWhitespace (h : lex.AtToken) :
    Pycopy.skipWhitespace lex false = (lex, false) :=
  h.skipLoop _

theorem skipWhitespace_end (hend : lex.EndOk) : EndsAtLine (skipWhitespace lex false) :=
  skipLoop_end hend fun _ h => nomatch h

theorem lexerInit_endOk (src : List UInt8) : (lexerInit src).EndOk := by
  refine Lexer.EndOk.nextChar (Lexer.EndOk.nextChar (Lexer.EndOk.nextChar ⟨?_, ?_⟩))
  · intro h
    cases h
  · intro h
    cases h

end Start

end Pycopy
