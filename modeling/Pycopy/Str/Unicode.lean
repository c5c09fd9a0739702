import Pycopy.Lib.Utf8

/-!
# Walking over UTF-8

The functions of `py/unicode.c` that walk over the bytes of a string. A string is in memory with a
NUL behind it, and a byte that is neither in the string nor this NUL must not be read. The walks do
not look at the length of the string: what stops them is a byte that does not continue a character,
and in the end the NUL. So they can be told of any bytes: a character is a byte that does not
continue one, with the bytes behind it that do.

## Main results

* `firstStart_charPlace`: where the characters of any bytes are.
* `utf8NextChar_bytes`, `utf8NextChar_offset`: from a character to the next one.
* `utf8PtrToIndex_eq`, `utf8Charlen_eq`: counting characters.
-/

open Utf8

namespace Pycopy

/-! ### Memory -/

/-- What the functions on strings raise, and what must not happen: a read outside of the string and
its NUL, or a walk that does not end. -/
inductive StrExc
  | typeError
  | overflowError
  | indexError
  | valueError
  | notImplementedError
  | badRead
  deriving DecidableEq, Repr

/-- The bytes of a string and the NUL -/
def strMem (data : List UInt8) : List UInt8 := data ++ [0]

/-- `*s` -/
def readByte (mem : List UInt8) (s : ℕ) : Except StrExc UInt8 :=
  match mem[s]? with
  | some b => .ok b
  | none => .error .badRead

/-- The `n` bytes from `s` on, as `memcmp` and `memcpy` read them -/
def readBytes (mem : List UInt8) (s n : ℕ) : Except StrExc (List UInt8) :=
  if s + n ≤ mem.length then .ok ((mem.drop s).take n) else .error .badRead

/-! ### Walks -/

/-- `while (UTF8_IS_CONT(*s)) { ++s; }`, with fuel -/
def skipCont (mem : List UInt8) : ℕ → ℕ → Except StrExc ℕ
  | 0, _ => .error .badRead
  | fuel + 1, s => do
    let b ← readByte mem s
    if isCont b then skipCont mem fuel (s + 1) else .ok s

/-- `utf8_next_char` -/
def utf8NextChar (mem : List UInt8) (s : ℕ) : Except StrExc ℕ := skipCont mem mem.length (s + 1)

/-- `utf8_ptr_to_index`, where the string starts at 0 -/
def utf8PtrToIndex (mem : List UInt8) : ℕ → Except StrExc ℕ
  | 0 => .ok 0
  | ptr + 1 => do
    let b ← readByte mem ptr
    let i ← utf8PtrToIndex mem ptr
    .ok (if isCont b then i else i + 1)

/-- The loop of `utf8_charlen`, with `n` bytes to go -/
def utf8CharlenLoop (mem : List UInt8) : ℕ → ℕ → ℕ → Except StrExc ℕ
  | 0, _, charlen => .ok charlen
  | n + 1, str, charlen => do
    let b ← readByte mem str
    utf8CharlenLoop mem n (str + 1) (if isCont b then charlen else charlen + 1)

/-- `utf8_charlen` -/
def utf8Charlen (mem : List UInt8) (str len : ℕ) : Except StrExc ℕ := utf8CharlenLoop mem len str 0

/-! ### Reads -/

theorem readByte_append (xs ys : List UInt8) (b : UInt8) :
    readByte (xs ++ b :: ys) xs.length = .ok b := by
  simp [readByte]

variable {mem : List UInt8}

theorem readByte_of_getElem? {s : ℕ} {b : UInt8} (h : mem[s]? = some b) :
    readByte mem s = .ok b := by
  rw [readByte, h]

theorem readBytes_of_le {s n : ℕ} (h : s + n ≤ mem.length) :
    readBytes mem s n = .ok ((mem.drop s).take n) :=
  if_pos h

/-! ### Characters of any bytes -/

/-- There is no byte at a place that continues a character. -/
def Starts (s : List UInt8) (q : ℕ) : Prop := ∀ b ∈ s[q]?, isCont b = false

/-- The first place from `p` on where a character starts, or the end of the bytes -/
structure FirstStart (s : List UInt8) (p q : ℕ) : Prop where
  le : p ≤ q
  le_length : q ≤ s.length
  starts : Starts s q
  between : ∀ j, p ≤ j → j < q → ¬Starts s j

/-- The number of characters in some bytes -/
def numChars (s : List UInt8) : ℕ := s.countP fun b => !isCont b

/-- Where the character of a number starts, or the end of the bytes -/
def charPlace : List UInt8 → ℕ → ℕ
  | [], _ => 0
  | b :: bs, k =>
    if isCont b then charPlace bs k + 1 else if k = 0 then 0 else charPlace bs (k - 1) + 1

variable {s : List UInt8} {p q : ℕ}

theorem starts_length (s : List UInt8) : Starts s s.length := by
  intro b hb
  rw [List.getElem?_eq_none le_rfl] at hb
  cases hb

@[simp] theorem starts_cons_zero (b : UInt8) (s : List UInt8) :
    Starts (b :: s) 0 ↔ isCont b = false := by
  simp [Starts]

theorem firstStart_self (hp : p ≤ s.length) (h : Starts s p) : FirstStart s p p :=
  ⟨le_rfl, hp, h, fun _ h1 h2 => absurd h1 (Nat.not_le.mpr h2)⟩

/-- There is only one first place. -/
theorem FirstStart.unique {q' : ℕ} (h : FirstStart s p q) (h' : FirstStart s p q') : q = q' := by
  rcases Nat.lt_trichotomy q q' with hlt | heq | hlt
  · exact absurd h.starts (h'.between q h.le hlt)
  · exact heq
  · exact absurd h'.starts (h.between q' h'.le hlt)

theorem FirstStart.cons (b : UInt8) (h : FirstStart s p q) :
    FirstStart (b :: s) (p + 1) (q + 1) where
  le := Nat.succ_le_succ h.le
  le_length := Nat.succ_le_succ h.le_length
  starts := h.starts
  between j h1 h2 := by
    obtain ⟨j, rfl⟩ : ∃ i, j = i + 1 := ⟨j - 1, by omega⟩
    exact h.between j (by omega) (by omega)

/-- From inside a character the search goes on. -/
theorem FirstStart.of_succ (h : FirstStart s (p + 1) q) (hp : ¬Starts s p) :
    FirstStart s p q where
  le := Nat.le_of_succ_le h.le
  le_length := h.le_length
  starts := h.starts
  between j h1 h2 := by
    rcases Nat.eq_or_lt_of_le h1 with rfl | hlt
    · exact hp
    · exact h.between j hlt h2

/-- **The characters in front of a place tell which one comes next.** -/
theorem firstStart_charPlace (h : p ≤ s.length) :
    FirstStart s p (charPlace s (numChars (s.take p))) := by
  induction s generalizing p with
  | nil =>
    cases Nat.le_zero.mp h
    exact firstStart_self le_rfl (starts_length [])
  | cons b bs ih =>
    cases p with
    | zero =>
      rw [charPlace, List.take_zero, numChars, List.countP_nil]
      cases hb : isCont b with
      | false => exact firstStart_self (Nat.zero_le _) ((starts_cons_zero b bs).mpr hb)
      | true =>
        have hrest := (ih (Nat.zero_le _)).cons b
        rw [List.take_zero] at hrest
        exact hrest.of_succ (by simp [hb])
    | succ p =>
      have hrest := (ih (Nat.le_of_succ_le_succ h)).cons b
      rw [List.take_succ_cons, numChars, List.countP_cons, charPlace]
      cases hb : isCont b <;> exact hrest

theorem charPlace_of_starts (hp : p ≤ s.length) (h : Starts s p) :
    charPlace s (numChars (s.take p)) = p :=
  (firstStart_charPlace hp).unique (firstStart_self hp h)

theorem charPlace_le (s : List UInt8) (k : ℕ) : charPlace s k ≤ s.length := by
  induction s generalizing k with
  | nil => exact Nat.le_refl 0
  | cons b bs ih =>
    rw [charPlace]
    split_ifs
    · exact Nat.succ_le_succ (ih k)
    · exact Nat.zero_le _
    · exact Nat.succ_le_succ (ih (k - 1))

theorem starts_charPlace (s : List UInt8) (k : ℕ) : Starts s (charPlace s k) := by
  induction s generalizing k with
  | nil => exact starts_length []
  | cons b bs ih =>
    rw [charPlace]
    split_ifs with hb hk
    · exact ih k
    · exact (starts_cons_zero b bs).mpr (eq_false_of_ne_true hb)
    · exact ih (k - 1)

theorem numChars_take_charPlace {k : ℕ} (h : charPlace s k < s.length) :
    numChars (s.take (charPlace s k + 1)) = k + 1 := by
  induction s generalizing k with
  | nil => exact absurd h (Nat.not_lt_zero _)
  | cons b bs ih =>
    rw [charPlace] at h ⊢
    split_ifs at h ⊢ with hb hk
    · rw [List.take_succ_cons, numChars, List.countP_cons_of_neg (by simp [hb])]
      exact ih (Nat.lt_of_succ_lt_succ h)
    · simp [numChars, hb, hk]
    · rw [List.take_succ_cons, numChars, List.countP_cons_of_pos (by simp [hb])]
      have := ih (Nat.lt_of_succ_lt_succ h)
      rw [numChars] at this
      omega

/-- The characters are found one behind the other. -/
theorem firstStart_charPlace_succ {k : ℕ} (h : charPlace s k < s.length) :
    FirstStart s (charPlace s k + 1) (charPlace s (k + 1)) := by
  rw [← numChars_take_charPlace h]
  exact firstStart_charPlace h

theorem charPlace_lt_iff {k : ℕ} : charPlace s k < s.length ↔ k < numChars s := by
  induction s generalizing k with
  | nil => simp [charPlace, numChars]
  | cons b bs ih =>
    rw [charPlace, List.length_cons, numChars, List.countP_cons, ← numChars]
    have hsame := @ih k
    have hpred := @ih (k - 1)
    cases hb : isCont b <;> by_cases hk : k = 0 <;> simp [hk] at hsame hpred ⊢ <;> omega

theorem charPlace_of_numChars_le {k : ℕ} (h : numChars s ≤ k) : charPlace s k = s.length :=
  Nat.le_antisymm (charPlace_le s k)
    (Nat.le_of_not_lt fun hlt => Nat.not_lt.mpr h (charPlace_lt_iff.mp hlt))

theorem numChars_take_add_one {b : UInt8} (h : s[p]? = some b) :
    numChars (s.take (p + 1)) = numChars (s.take p) + if isCont b then 0 else 1 := by
  rw [List.take_add_one, h, numChars, List.countP_append, Option.toList_some,
    List.countP_singleton]
  cases isCont b <;> rfl

/-! ### Characters of a text -/

variable {l : List Char} {i : ℕ}

theorem starts_offset (l : List Char) (i : ℕ) : Starts (code.encode l) (code.offset l i) := by
  rcases Nat.lt_or_ge i l.length with hlt | hge
  · obtain ⟨x, xs, hcons, hx⟩ := code.exists_encode_eq_cons (l := l.drop i) (by simpa using hlt)
    intro b hb
    rw [← Nat.add_zero (code.offset l i), ← List.getElem?_drop, code.drop_offset, hcons] at hb
    cases hb
    exact hx
  · rw [code.offset_of_length_le hge]
    exact starts_length _

theorem numChars_encode (l : List Char) : numChars (code.encode l) = l.length :=
  code.countP_encode l

/-- The characters of a text are where they should be. -/
theorem charPlace_encode (hi : i ≤ l.length) : charPlace (code.encode l) i = code.offset l i := by
  have hplace := charPlace_of_starts (code.offset_le l i) (starts_offset l i)
  have hnum : numChars ((code.encode l).take (code.offset l i)) = i := code.countP_take_offset hi
  rwa [hnum] at hplace

/-! ### Over one character -/

theorem readByte_strMem {b : UInt8} (h : s[p]? = some b) : readByte (strMem s) p = .ok b :=
  readByte_of_getElem? (List.getElem?_append_left (List.getElem?_eq_some_iff.mp h).1 ▸ h)

/-- The walk to the next character in any bytes -/
theorem utf8NextChar_bytes (h : p < s.length) :
    ∃ q, utf8NextChar (strMem s) p = .ok q ∧ FirstStart s (p + 1) q := by
  have hskip (fuel p : ℕ) (hp : p ≤ s.length) (hfuel : s.length - p < fuel) :
      ∃ q, skipCont (strMem s) fuel p = .ok q ∧ FirstStart s p q := by
    induction fuel generalizing p with
    | zero => omega
    | succ fuel ih =>
      rw [skipCont]
      rcases Nat.eq_or_lt_of_le hp with rfl | hlt
      · refine ⟨s.length, ?_, firstStart_self le_rfl (starts_length s)⟩
        rw [strMem, readByte_append]
        rfl
      · have hget : s[p]? = some s[p] := List.getElem?_eq_getElem hlt
        rw [readByte_strMem hget]
        simp only [bind, Except.bind]
        cases hcont : isCont s[p] with
        | false =>
          refine ⟨p, rfl, firstStart_self hp fun b hb => ?_⟩
          cases hget.symm.trans hb
          exact hcont
        | true =>
          obtain ⟨q, hq, hfirst⟩ := ih (p + 1) hlt (by omega)
          refine ⟨q, hq, hfirst.of_succ fun hs => ?_⟩
          rw [hs _ hget] at hcont
          cases hcont
  refine hskip (strMem s).length (p + 1) h ?_
  rw [strMem, List.length_append]
  exact Nat.lt_succ_of_le (Nat.sub_le _ _)

/-- **From a character to the next one** -/
theorem utf8NextChar_offset (hi : i < l.length) :
    utf8NextChar (strMem (code.encode l)) (code.offset l i) = .ok (code.offset l (i + 1)) := by
  have hlt := code.offset_lt_length hi
  obtain ⟨q, hq, hfirst⟩ := utf8NextChar_bytes hlt
  rw [← charPlace_encode (Nat.le_of_lt hi)] at hlt hfirst
  rw [hq, hfirst.unique (firstStart_charPlace_succ hlt), charPlace_encode hi]

/-- The first byte of a character -/
theorem readByte_offset (hi : i < l.length) :
    ∃ h t, String.utf8EncodeChar l[i] = h :: t ∧ HeadOf h t.length ∧
      readByte (strMem (code.encode l)) (code.offset l i) = .ok h := by
  obtain ⟨h, t, heq, hhead, -⟩ := exists_head l[i]
  have hword : code.word l[i] = h :: t := heq
  refine ⟨h, t, heq, hhead, readByte_strMem ?_⟩
  rw [← Nat.add_zero (code.offset l i), ← List.getElem?_drop, code.drop_offset,
    List.drop_eq_getElem_cons hi, SyncCode.encode_cons, hword]
  rfl

/-! ### Counting -/

theorem utf8PtrToIndex_eq {ptr : ℕ} (h : ptr ≤ mem.length) :
    utf8PtrToIndex mem ptr = .ok ((mem.take ptr).countP fun b => !isCont b) := by
  induction ptr with
  | zero => rfl
  | succ ptr ih =>
    have hget : mem[ptr]? = some (mem.get ⟨ptr, h⟩) := List.getElem?_eq_getElem h
    rw [utf8PtrToIndex, readByte_of_getElem? hget, ih (Nat.le_of_succ_le h),
      List.take_add_one, hget, List.countP_append]
    simp only [bind, Except.bind, Option.toList_some, List.countP_singleton]
    cases isCont (mem.get ⟨ptr, h⟩) <;> rfl

theorem utf8CharlenLoop_eq {n str : ℕ} (h : str + n ≤ mem.length) (charlen : ℕ) :
    utf8CharlenLoop mem n str charlen =
      .ok (charlen + ((mem.drop str).take n).countP fun b => !isCont b) := by
  induction n generalizing str charlen with
  | zero => simp [utf8CharlenLoop]
  | succ n ih =>
    have hlt : str < mem.length := by omega
    rw [utf8CharlenLoop, readByte_of_getElem? (List.getElem?_eq_getElem hlt),
      List.drop_eq_getElem_cons hlt, List.take_succ_cons, List.countP_cons]
    simp only [bind, Except.bind]
    rw [ih (by omega)]
    congr 1
    cases isCont mem[str] with
    | false =>
      simp
      omega
    | true => simp

/-- **Counting characters** -/
theorem utf8Charlen_eq (l : List Char) :
    utf8Charlen (strMem (code.encode l)) 0 (code.encode l).length = .ok l.length := by
  rw [utf8Charlen, utf8CharlenLoop_eq (by simp [strMem]), strMem, List.drop_zero, List.take_left,
    Nat.zero_add]
  exact congrArg _ (code.countP_encode l)

/-- Counting the characters in front of one -/
theorem utf8PtrToIndex_offset (hi : i ≤ l.length) :
    utf8PtrToIndex (strMem (code.encode l)) (code.offset l i) = .ok i := by
  have hle := code.offset_le l i
  rw [utf8PtrToIndex_eq (by simp [strMem]; omega), strMem, List.take_append_of_le_length hle]
  exact congrArg _ (code.countP_take_offset hi)

end Pycopy
