import Pycopy.Compile.Progress

/-!
# String Literals

The loop of `parse_string_literal` is described step by step, for a character, for an escape and for
a quote.

In a raw literal nothing is an escape, but a backslash still takes the next character with it. This
character is added as a code point, while all others are added as bytes: if it is the first byte of
a character that is not ASCII, two bytes are added for it.

## Main results

* `raw_literal_iff`: which raw literals are the text between their quotes.
-/

namespace Pycopy

variable {cfg : LexerCfg} {lex lex' : Lexer} {t : List UInt8}

/-! ### Ways of the cursor -/

/-- What is not changed while characters are read -/
def Lexer.frame (lex : Lexer) : ℤ × ℤ × List ℕ × ℕ × ℤ × TokKind :=
  (lex.emitDent, lex.nestedBracketLevel, lex.indentLevel, lex.tokLine, lex.tokColumn, lex.tokKind)

theorem tokKind_of_frame (h : lex'.frame = lex.frame) : lex'.tokKind = lex.tokKind :=
  congrArg (fun f => f.2.2.2.2.2) h

/-- The lexer has come to the text `t`, and it has added `out` to the text of the token. -/
structure Lexer.Goes (lex : Lexer) (t out : List UInt8) (lex' : Lexer) : Prop where
  at_text : lex'.At t
  vstr : lex'.vstr = lex.vstr ++ out
  frame : lex'.frame = lex.frame

theorem Lexer.Goes.trans {lex'' : Lexer} {t' out out' : List UInt8} (h : lex.Goes t out lex')
    (h' : lex'.Goes t' out' lex'') : lex.Goes t' (out ++ out') lex'' :=
  ⟨h'.at_text, by rw [h'.vstr, h.vstr, List.append_assoc], h'.frame.trans h.frame⟩

/-- A character is read, and something is added to the token. -/
theorem Lexer.At.goes_next {c : UInt8} (h : lex.At (c :: t)) (out : List UInt8) :
    lex.Goes t out (nextChar { lex with vstr := lex.vstr ++ out }) :=
  ⟨(h.withTok lex.tokKind _).next, rfl, rfl⟩

/-! ### Steps of the loop -/

section Loop

variable {q : UInt8} {n k : ℕ} {isRaw : Bool} {c : UInt8} {out : List UInt8}

/-- A character that is not special is added to the string. -/
theorem stringLoop_char (cfg : LexerCfg) (isRaw : Bool) (h : lex.At (c :: t)) (hq : c ≠ q)
    (hesc : c ≠ 92) (hlf : 1 < n ∨ c ≠ 10) (hk : k < n) :
    ∃ lex', stringLoop cfg q n isRaw lex k = stringLoop cfg q n isRaw lex' 0 ∧
      lex.Goes t [c] lex' := by
  have hchr : lex.chr0 = some c := h.chr0
  refine ⟨_, ?_, h.goes_next [c]⟩
  rw [stringLoop, if_pos ⟨h.ne_none, by rw [hchr]; simpa using hlf, hk⟩, hchr,
    if_neg (by simpa using hq), if_neg (by simpa using hesc)]
  rfl

theorem stringLoop_quote (cfg : LexerCfg) (isRaw : Bool) (h : lex.At (q :: t)) (hlf : q ≠ 10)
    (hk : k < n) :
    ∃ lex', stringLoop cfg q n isRaw lex k = stringLoop cfg q n isRaw lex' (k + 1) ∧
      lex.Goes t [q] lex' := by
  have hchr : lex.chr0 = some q := h.chr0
  refine ⟨_, ?_, h.goes_next [q]⟩
  rw [stringLoop, if_pos ⟨h.ne_none, by rw [hchr]; simpa using .inr hlf, hk⟩, if_pos hchr]

/-- What follows a backslash, up to its last character `d`, is read as an escape. -/
theorem stringLoop_escape (d : UInt8) (h : lex.At (92 :: t)) (hq : q ≠ 92) (hk : k < n)
    {rest : List UInt8} (hesc : ∃ lex₁, stringEscape cfg (nextChar lex) isRaw = .ok (lex₁, false) ∧
      lex.Goes (d :: rest) out lex₁) :
    ∃ lex', stringLoop cfg q n isRaw lex k = stringLoop cfg q n isRaw lex' 0 ∧
      lex.Goes rest out lex' := by
  obtain ⟨lex₁, hesc, hgoes⟩ := hesc
  have hchr : lex.chr0 = some 92 := h.chr0
  refine ⟨nextChar lex₁, ?_, hgoes.at_text.next, hgoes.vstr, hgoes.frame⟩
  rw [stringLoop, if_pos ⟨h.ne_none, by rw [hchr]; exact .inr (by decide), hk⟩, hchr,
    if_neg (by simpa using hq.symm), if_pos rfl]
  split
  · next herr =>
      rw [hesc] at herr
      cases herr
  · next hok =>
      rw [hesc] at hok
      cases hok
      rfl

theorem stringLoop_close (cfg : LexerCfg) (isRaw : Bool) (hlf : q ≠ 10) (j : ℕ)
    (h : lex.At (List.replicate j q ++ t)) (hj : k + j = n) :
    ∃ lex', stringLoop cfg q n isRaw lex k = .ok (lex', n) ∧
      lex.Goes t (List.replicate j q) lex' := by
  induction j generalizing lex k with
  | zero =>
    obtain rfl : k = n := hj
    refine ⟨lex, ?_, h, by simp, rfl⟩
    rw [stringLoop, if_neg fun hloop => absurd hloop.2.2 (lt_irrefl k)]
  | succ j ih =>
    rw [List.replicate_succ, List.cons_append] at h
    obtain ⟨lex₁, hloop, hgoes⟩ := stringLoop_quote cfg isRaw h hlf (by omega : k < n)
    obtain ⟨lex', hend, hgoes'⟩ := ih hgoes.at_text (by omega : k + 1 + j = n)
    exact ⟨lex', hloop.trans hend, hgoes.trans hgoes'⟩

/-- **A literal is read if its loop is.** A quote behind an empty literal would open a longer
one. -/
theorem parseStringLiteral_eq (cfg : LexerCfg) (isRaw : Bool) {body rest : List UInt8}
    (out : List UInt8) (hquote : q = 34 ∨ q = 39)
    (hn : n = 1 ∨ n = 3) (h : lex.At (List.replicate n q ++ (body ++ (List.replicate n q ++ rest))))
    (hopen : n = 1 → (body ++ (q :: rest)).head? = some q → (body ++ q :: rest).tail.head? ≠ some q)
    (hloop : ∀ lex₁ : Lexer, lex₁.At (body ++ (List.replicate n q ++ rest)) →
      lex₁.vstr = lex.vstr → lex₁.frame = lex.frame →
      ∃ lex', stringLoop cfg q n isRaw lex₁ 0 = stringLoop cfg q n isRaw lex' 0 ∧
        lex₁.Goes (List.replicate n q ++ rest) out lex') :
    ∃ lex', parseStringLiteral cfg lex isRaw = .ok lex' ∧ lex.Goes rest out lex' := by
  have hlf : q ≠ 10 := by rcases hquote with rfl | rfl <;> decide
  obtain ⟨m, rfl⟩ : ∃ m, n = m + 1 := ⟨n - 1, by omega⟩
  rw [List.replicate_succ, List.cons_append] at h
  have hq : quoteChar lex = q := by
    rw [quoteChar, h.chr0, List.head?_cons]
    rcases hquote with rfl | rfl <;> rfl
  -- the opening quotes
  have hopened : ∃ lex₁, openQuotes lex = (lex₁, m + 1) ∧
      lex₁.At (body ++ (List.replicate (m + 1) q ++ rest)) ∧ lex₁.vstr = lex.vstr ∧
      lex₁.frame = lex.frame := by
    have hnext := h.next
    rw [openQuotes, hq]
    rcases hn with hn | hn
    · obtain rfl : m = 0 := by omega
      have hnot : ¬((nextChar lex).chr0 = some q ∧ (nextChar lex).chr1 = some q) := by
        rw [hnext.chr0, hnext.chr1]
        exact fun hboth => hopen rfl hboth.1 hboth.2
      rw [if_neg hnot]
      exact ⟨_, rfl, hnext, rfl, rfl⟩
    · obtain rfl : m = 2 := by omega
      have hboth : (nextChar lex).chr0 = some q ∧ (nextChar lex).chr1 = some q := by
        rw [hnext.chr0, hnext.chr1]
        exact ⟨rfl, rfl⟩
      rw [if_pos hboth]
      exact ⟨_, rfl, hnext.next.next, rfl, rfl⟩
  obtain ⟨lex₁, heq, hat, hvstr, hframe⟩ := hopened
  obtain ⟨lex₂, hsame, hrun⟩ := hloop lex₁ hat hvstr hframe
  obtain ⟨lex₃, hclosed, hclose⟩ := stringLoop_close cfg isRaw hlf (m + 1) hrun.at_text
    (Nat.zero_add _)
  refine ⟨closeQuotes lex₃ (m + 1) (m + 1), ?_, ?_⟩
  · rw [parseStringLiteral, heq, hq]
    dsimp only
    rw [hsame, hclosed]
    rfl
  · have hall := hrun.trans hclose
    have hcut : lex₃.vstr.take (lex₃.vstr.length - (m + 1)) = lex.vstr ++ out := by
      rw [hall.vstr, hvstr, ← List.append_assoc]
      exact List.take_left' (by simp only [List.length_append, List.length_replicate]; omega)
    rw [closeQuotes, hcut, if_neg (lt_irrefl _)]
    exact ⟨hclose.at_text.withTok _ _, rfl, hall.frame.trans hframe⟩

/-! ### Raw literals -/

/-- The text between the quotes of a raw literal, where `k` quotes came before it: there are no `n`
quotes in a row and none at the end, a backslash is together with the next character, and no line
ends in a literal with one quote. -/
inductive RawBody (q : UInt8) (n : ℕ) : ℕ → List UInt8 → Prop
  | nil : RawBody q n 0 []
  | char {k : ℕ} {c : UInt8} {t : List UInt8} : c ≠ 92 → c ≠ q → 1 < n ∨ c ≠ 10 →
      RawBody q n 0 t → RawBody q n k (c :: t)
  | quote {k : ℕ} {t : List UInt8} : k + 1 < n → RawBody q n (k + 1) t → RawBody q n k (q :: t)
  | escape {k : ℕ} (c : UInt8) {t : List UInt8} : RawBody q n 0 t → RawBody q n k (92 :: c :: t)

/-- There is a byte of a character that is not ASCII behind a backslash. -/
def escapesHigh : List UInt8 → Bool
  | [] => false
  | [_] => false
  | a :: c :: t => if a = 92 then 0x80 ≤ c || escapesHigh t else escapesHigh (c :: t)

/-- What is added for the number of a character: its code point or its byte -/
def escapedText (wide : Bool) (num : ℕ) : List UInt8 :=
  if wide then vstrAddChar num else [UInt8.ofNat num]

/-- What is added for the text of a raw literal. -/
def rawOut (wide : Bool) : List UInt8 → List UInt8
  | [] => []
  | [c] => [c]
  | a :: c :: t =>
    if a = 92 then 92 :: (escapedText wide c.toNat ++ rawOut wide t) else a :: rawOut wide (c :: t)

/-- Code points are added to the token. -/
def Lexer.wide (cfg : LexerCfg) (lex : Lexer) : Bool := cfg.strUnicode && lex.tokKind == .string

theorem rawOut_cons {wide : Bool} {a : UInt8} (ha : a ≠ 92) (t : List UInt8) :
    rawOut wide (a :: t) = a :: rawOut wide t := by
  cases t with
  | nil => rfl
  | cons c t => rw [rawOut, if_neg ha]

theorem addEscaped_eq (cfg : LexerCfg) (lex : Lexer)
    (hkind : lex.tokKind = .string ∨ lex.tokKind = .bytes) {num : ℕ} (hmax : num < 0x110000)
    (hnum : lex.wide cfg = false → num < 0x100) :
    addEscaped cfg lex num = { lex with vstr := lex.vstr ++ escapedText (lex.wide cfg) num } := by
  rw [Lexer.wide] at hnum
  rw [addEscaped, if_neg (by omega), escapedText, Lexer.wide]
  rcases hkind with hkind | hkind <;> cases hcfg : cfg.strUnicode <;>
    simp_all

theorem stringEscape_raw (h : lex.chr0 = some c) : stringEscape cfg lex true =
    .ok (addEscaped cfg { lex with vstr := lex.vstr ++ [92] } c.toNat, false) := by
  rw [stringEscape]
  split
  · next hnone =>
      rw [h] at hnone
      cases hnone
  · next d hd =>
      obtain rfl : c = d := Option.some.inj (h.symm.trans hd)
      rfl

/-- The loop reads the text between the quotes of a raw literal. -/
theorem RawBody.loop (cfg : LexerCfg) {body : List UInt8} (hbody : RawBody q n k body)
    (hq : q ≠ 92) (hlf : q ≠ 10) (hk : k < n)
    (hkind : lex.tokKind = .string ∨ lex.tokKind = .bytes) (h : lex.At (body ++ t)) :
    ∃ lex', stringLoop cfg q n true lex k = stringLoop cfg q n true lex' 0 ∧
      lex.Goes t (rawOut (lex.wide cfg) body) lex' := by
  induction hbody generalizing lex with
  | nil => exact ⟨lex, rfl, h, by simp [rawOut], rfl⟩
  | char hesc hne hline _ ih =>
    obtain ⟨lex₁, hloop, hgoes⟩ := stringLoop_char cfg true h hne hesc hline hk
    have htok := tokKind_of_frame hgoes.frame
    obtain ⟨lex₂, hloop₂, hgoes₂⟩ := ih (by omega) (htok ▸ hkind) hgoes.at_text
    rw [Lexer.wide, htok] at hgoes₂
    rw [rawOut_cons hesc]
    exact ⟨lex₂, hloop.trans hloop₂, hgoes.trans hgoes₂⟩
  | quote hlt _ ih =>
    obtain ⟨lex₁, hloop, hgoes⟩ := stringLoop_quote cfg true h hlf hk
    have htok := tokKind_of_frame hgoes.frame
    obtain ⟨lex₂, hloop₂, hgoes₂⟩ := ih hlt (htok ▸ hkind) hgoes.at_text
    rw [Lexer.wide, htok] at hgoes₂
    rw [rawOut_cons hq]
    exact ⟨lex₂, hloop.trans hloop₂, hgoes.trans hgoes₂⟩
  | @escape _ c body _ ih =>
    have hnext : (nextChar lex).At (c :: (body ++ t)) := h.next
    have hesc : ∃ lex₁, stringEscape cfg (nextChar lex) true = .ok (lex₁, false) ∧
        lex.Goes (c :: (body ++ t)) (92 :: escapedText (lex.wide cfg) c.toNat) lex₁ := by
      refine ⟨_, stringEscape_raw hnext.chr0, ?_⟩
      have hlt := c.toNat_lt
      rw [addEscaped_eq cfg { nextChar lex with vstr := (nextChar lex).vstr ++ [92] }
        hkind (by omega) fun _ => hlt]
      exact ⟨hnext.withTok _ _, List.append_assoc _ _ _, rfl⟩
    obtain ⟨lex₁, hloop, hgoes⟩ := stringLoop_escape c h hq hk hesc
    have htok := tokKind_of_frame hgoes.frame
    obtain ⟨lex₂, hloop₂, hgoes₂⟩ := ih (by omega) (htok ▸ hkind) hgoes.at_text
    rw [Lexer.wide, htok] at hgoes₂
    rw [rawOut, if_pos rfl]
    exact ⟨lex₂, hloop.trans hloop₂, hgoes.trans hgoes₂⟩

/-- Two bytes are added for a byte that is not ASCII. -/
theorem length_escapedText (wide : Bool) (c : UInt8) :
    (escapedText wide c.toNat).length = if wide ∧ 0x80 ≤ c then 2 else 1 := by
  have hlt := c.toNat_lt
  have hle : (0x80 : UInt8) ≤ c ↔ 128 ≤ c.toNat := UInt8.le_iff_toNat_le
  cases wide with
  | false => rfl
  | true =>
    rw [escapedText, if_pos rfl, vstrAddChar]
    by_cases hc : c.toNat < 128
    · rw [if_pos hc, if_neg (by rw [hle]; omega)]
      rfl
    · rw [if_neg hc, if_pos (by omega), if_pos ⟨rfl, hle.mpr (by omega)⟩]
      rfl

theorem escapedText_ascii (wide : Bool) {num : ℕ} (hnum : num < 0x80) :
    escapedText wide num = [UInt8.ofNat num] := by
  cases wide with
  | false => rfl
  | true => rw [escapedText, if_pos rfl, vstrAddChar, if_pos hnum]

theorem length_le_rawOut (wide : Bool) (body : List UInt8) :
    body.length ≤ (rawOut wide body).length := by
  fun_induction rawOut wide body with
  | case1 => exact Nat.le_refl _
  | case2 => exact Nat.le_refl _
  | case3 c t ih =>
    have hlen := length_escapedText wide c
    have hone : 1 ≤ (escapedText wide c.toNat).length := by split at hlen <;> omega
    simp only [List.length_cons, List.length_append]
    omega
  | case4 a c t ha ih =>
    simp only [List.length_cons] at ih ⊢
    omega

/-- The text of a raw literal is left as it is if nothing that is not ASCII is behind a
backslash. -/
theorem rawOut_eq_iff (wide : Bool) (body : List UInt8) :
    rawOut wide body = body ↔ ¬(wide = true ∧ escapesHigh body = true) := by
  fun_induction rawOut wide body with
  | case1 => simp [escapesHigh]
  | case2 c => simp [escapesHigh]
  | case3 c t ih =>
    rw [escapesHigh, if_pos rfl]
    by_cases hhigh : wide = true ∧ (0x80 : UInt8) ≤ c
    · -- the result is longer
      refine iff_of_false (fun heq => ?_) (fun hno => hno ⟨hhigh.1, by simp [hhigh.2]⟩)
      have hlen := length_escapedText wide c
      have hrest := length_le_rawOut wide t
      have hsize := congrArg List.length heq
      rw [if_pos hhigh] at hlen
      simp only [List.length_cons, List.length_append] at hsize
      omega
    · have hone : escapedText wide c.toNat = [c] := by
        by_cases hc : (0x80 : UInt8) ≤ c
        · have hwide : wide = false := Bool.eq_false_iff.mpr fun hw => hhigh ⟨hw, hc⟩
          rw [hwide, escapedText, if_neg Bool.false_ne_true, UInt8.ofNat_toNat]
        · have hlow : c.toNat < 128 := by
            rw [UInt8.le_iff_toNat_le] at hc
            exact not_le.mp hc
          rw [escapedText_ascii wide hlow, UInt8.ofNat_toNat]
      rw [hone, List.singleton_append, List.cons.injEq, List.cons.injEq]
      simp only [true_and, ih]
      by_cases hc : (0x80 : UInt8) ≤ c
      · have hwide : wide = false := Bool.eq_false_iff.mpr fun hw => hhigh ⟨hw, hc⟩
        simp [hwide]
      · simp [hc]
  | case4 a c t ha ih =>
    rw [List.cons.injEq, escapesHigh, if_neg ha]
    simp only [true_and, ih]

/-- **A raw literal**: the text of the token is the text between the quotes if and only if no byte
of a character that is not ASCII is behind a backslash, or the bytes of the literal are not code
points. The two type codes and the quotes may be any. -/
theorem raw_literal_iff (cfg : LexerCfg) (lex : Lexer) (q : UInt8) (n : ℕ) (body rest : List UInt8)
    (hquote : q = 34 ∨ q = 39) (hn : n = 1 ∨ n = 3)
    (h : lex.At (List.replicate n q ++ (body ++ (List.replicate n q ++ rest))))
    (hbody : RawBody q n 0 body) (hopen : n = 1 → body = [] → rest.head? ≠ some q)
    (hkind : lex.tokKind = .string ∨ lex.tokKind = .bytes) :
    (∃ lex', parseStringLiteral cfg lex true = .ok lex' ∧ lex'.tokKind = lex.tokKind ∧
        lex'.vstr = lex.vstr ++ body ∧ lex'.At rest) ↔
      ¬(cfg.strUnicode = true ∧ lex.tokKind = .string ∧ escapesHigh body = true) := by
  have hq : q ≠ 92 := by rcases hquote with rfl | rfl <;> decide
  have hlf : q ≠ 10 := by rcases hquote with rfl | rfl <;> decide
  have hfirst : n = 1 → (body ++ q :: rest).head? = some q →
      (body ++ q :: rest).tail.head? ≠ some q := by
    rintro rfl hhead
    cases hbody with
    | nil => exact hopen rfl rfl
    | char _ hne => exact absurd (Option.some.inj hhead) hne
    | quote hlt => exact absurd hlt (by omega)
    | escape => exact absurd (Option.some.inj hhead).symm hq
  obtain ⟨lex', hparse, hgoes⟩ := parseStringLiteral_eq cfg true (rawOut (lex.wide cfg) body) hquote
    hn h hfirst (fun lex₁ hat _ hframe => by
      have htok := tokKind_of_frame hframe
      have hloop := hbody.loop cfg hq hlf (by omega) (htok ▸ hkind) hat
      rwa [Lexer.wide, htok] at hloop)
  have htok := tokKind_of_frame hgoes.frame
  have hiff := rawOut_eq_iff (lex.wide cfg) body
  rw [Lexer.wide, Bool.and_eq_true, beq_iff_eq, and_assoc] at hiff
  rw [← hiff]
  constructor
  · rintro ⟨lex₁, hparse₁, -, hvstr, -⟩
    obtain rfl := Except.ok.inj (hparse.symm.trans hparse₁)
    exact List.append_cancel_left (hgoes.vstr.symm.trans hvstr)
  · intro hout
    refine ⟨lex', hparse, htok, ?_, hgoes.at_text⟩
    rw [hgoes.vstr, Lexer.wide, hout]

/-- The lexer at the quote of a source that is a raw literal -/
def rawLexer (src : List UInt8) : Lexer := { nextChar (lexerInit src) with tokKind := .string }

theorem rawLexer_at (src : List UInt8) : (rawLexer src).At (sourceText src).tail :=
  (lexerInit_at src).next.withTok .string _

/-- `r'\''` -/
theorem raw_literal_iff_quote : ∃ lex',
    parseStringLiteral ⟨true, true, true⟩ (rawLexer [114, 39, 92, 39, 39]) true = .ok lex' ∧
      lex'.tokKind = .string ∧ lex'.vstr = [92, 39] ∧ lex'.At [10] :=
  (raw_literal_iff ⟨true, true, true⟩ (rawLexer [114, 39, 92, 39, 39]) 39 1 [92, 39] [10] (.inr rfl)
    (.inl rfl) (rawLexer_at _) (.escape 39 .nil) nofun (.inl rfl)).mpr (by decide)

/-- `r'\é'`: the first byte of the last character becomes a character of two bytes. -/
theorem raw_literal_widened : ¬∃ lex',
    parseStringLiteral ⟨true, true, true⟩ (rawLexer [114, 39, 92, 0xC3, 0xA9, 39]) true = .ok lex' ∧
      lex'.vstr = [92, 0xC3, 0xA9] := by
  have hother : (parseStringLiteral ⟨true, true, true⟩ (rawLexer [114, 39, 92, 0xC3, 0xA9, 39])
      true).toOption.all (·.vstr ≠ [92, 0xC3, 0xA9]) := by decide +kernel
  rintro ⟨lex', hparse, hvstr⟩
  rw [hparse] at hother
  exact absurd hvstr (of_decide_eq_true hother)

end Loop

end Pycopy
