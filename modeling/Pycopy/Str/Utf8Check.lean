import Pycopy.Str.Unichar
import Pycopy.Str.Unicode
import Mathlib.Algebra.Order.Ring.Nat

/-!
# Checking and Decoding UTF-8

`utf8_check` of `py/unicode.c` decides which bytes are a string. It looks up in a constant how many
bytes follow the first byte of a character. `utf8_get_char` and `utf8_next_char` do not count: they
go on as long as the bytes continue the character. Both agree on what `vstr_add_char` adds for a
code point, surrogates included.

## Main results

* `utf8_roundtrip`: this, and that code points are decoded as they were encoded.
-/

open Utf8

namespace Pycopy

/-! ### Definitions -/

/-- The loop of `utf8_check`, with the number of bytes that must follow -/
def utf8CheckLoop : ℕ → List UInt8 → Bool
  | need, [] => need == 0
  | need, c :: cs =>
    if need ≠ 0 then
      if isCont c then utf8CheckLoop (need - 1) cs else false
    else if 0xc0 ≤ c.toNat then
      if 0xf8 ≤ c.toNat then false
      else utf8CheckLoop ((0xe5 >>> ((c.toNat >>> 3) &&& 6)) &&& 3) cs
    else if 0x80 ≤ c.toNat then false
    else utf8CheckLoop 0 cs

/-- `utf8_check` -/
def utf8Check (data : List UInt8) : Bool := utf8CheckLoop 0 data

/-- `for (unichar mask = 0x40; ord & mask; mask >>= 1) { ord &= ~mask; }`, with fuel for the bits -/
def clearLead : ℕ → ℕ → ℕ → ℕ
  | 0, ord, _ => ord
  | fuel + 1, ord, mask =>
    if ord &&& mask ≠ 0 then clearLead fuel (ord - (ord &&& mask)) (mask >>> 1) else ord

/-- `while (UTF8_IS_CONT(*s)) { ord = (ord << 6) | (*s++ & 0x3F); }`, with fuel -/
def addCont (mem : List UInt8) : ℕ → ℕ → ℕ → Except StrExc ℕ
  | 0, _, _ => .error .badRead
  | fuel + 1, ord, s => do
    let b ← readByte mem s
    if isCont b then addCont mem fuel (((ord <<< 6) ||| (b.toNat &&& 0x3F)) % 2 ^ 32) (s + 1)
    else .ok ord

/-- `utf8_get_char` -/
def utf8GetCharAt (mem : List UInt8) (s : ℕ) : Except StrExc ℕ := do
  let b ← readByte mem s
  if b.toNat &&& 0x80 = 0 then .ok b.toNat
  else addCont mem mem.length (clearLead 7 (b.toNat &&& 0x7F) 0x40) (s + 1)

/-- A string is decoded with `utf8_get_char` and `utf8_next_char`, with fuel. -/
def decodeFrom (data : List UInt8) : ℕ → ℕ → Except StrExc (List ℕ)
  | 0, _ => .error .badRead
  | fuel + 1, s =>
    if s < data.length then do
      let c ← utf8GetCharAt (strMem data) s
      let s ← utf8NextChar (strMem data) s
      let cs ← decodeFrom data fuel s
      .ok (c :: cs)
    else .ok []

/-! ### What is accepted -/

/-- The bytes of a character: the first one says how many continue it. -/
def IsUnit (u : List UInt8) : Prop :=
  ∃ h t, u = h :: t ∧ HeadOf h t.length ∧ ∀ x ∈ t, isCont x = true

/-- A concatenation of such bytes -/
def IsUnits (data : List UInt8) : Prop :=
  ∃ us : List (List UInt8), us.flatten = data ∧ ∀ u ∈ us, IsUnit u

theorem need_eq {c : UInt8} (h1 : 0xc0 ≤ c.toNat) (h2 : c.toNat < 0xf8) :
    HeadOf c ((0xe5 >>> ((c.toNat >>> 3) &&& 6)) &&& 3) := by
  have h : ∀ n < 0xf8, 0xc0 ≤ n →
      (((0xe5 >>> ((n >>> 3) &&& 6)) &&& 3 = 1 ∧ n < 224) ∨
        ((0xe5 >>> ((n >>> 3) &&& 6)) &&& 3 = 2 ∧ 224 ≤ n ∧ n < 240) ∨
        ((0xe5 >>> ((n >>> 3) &&& 6)) &&& 3 = 3 ∧ 240 ≤ n)) := by
    decide +kernel
  rcases h c.toNat h2 h1 with ⟨h, h'⟩ | h | ⟨h, h'⟩
  · exact .inr (.inl ⟨h, h1, h'⟩)
  · exact .inr (.inr (.inl h))
  · exact .inr (.inr (.inr ⟨h, h', h2⟩))

theorem headOf_unique {h : UInt8} {k l : ℕ} (hk : HeadOf h k) (hl : HeadOf h l) : k = l := by
  rcases hk with hk | hk | hk | hk <;> rcases hl with hl | hl | hl | hl <;> omega

/-- The bytes that must follow are taken first. -/
theorem utf8CheckLoop_need (need : ℕ) (data : List UInt8) :
    utf8CheckLoop need data = true ↔
      ∃ t rest, data = t ++ rest ∧ t.length = need ∧ (∀ x ∈ t, isCont x = true) ∧
        utf8Check rest = true := by
  induction need generalizing data with
  | zero =>
    constructor
    · intro h
      exact ⟨[], data, rfl, rfl, by simp, h⟩
    · rintro ⟨t, rest, rfl, ht, -, h⟩
      rw [List.eq_nil_of_length_eq_zero ht]
      exact h
  | succ need ih =>
    cases data with
    | nil =>
      refine iff_of_false (by simp [utf8CheckLoop]) ?_
      rintro ⟨t, rest, h, ht, -⟩
      rw [List.append_eq_nil_iff.mp h.symm |>.1] at ht
      cases ht
    | cons c cs =>
      rw [utf8CheckLoop, if_pos (Nat.succ_ne_zero need)]
      constructor
      · intro h
        split at h
        · rename_i hc
          obtain ⟨t, rest, rfl, ht, hcont, hrest⟩ := (ih cs).mp h
          refine ⟨c :: t, rest, rfl, by rw [List.length_cons, ht], ?_, hrest⟩
          exact List.forall_mem_cons.mpr ⟨hc, hcont⟩
        · cases h
      · rintro ⟨t, rest, h, ht, hcont, hrest⟩
        obtain ⟨x, t, rfl⟩ := List.exists_cons_of_length_eq_add_one ht
        rw [List.cons_append] at h
        obtain ⟨rfl, rfl⟩ := List.cons.inj h
        obtain ⟨hc, hcont⟩ := List.forall_mem_cons.mp hcont
        rw [if_pos hc]
        exact (ih _).mpr ⟨t, rest, rfl, Nat.succ.inj ht, hcont, hrest⟩

theorem utf8Check_cons (c : UInt8) (cs : List UInt8) :
    utf8Check (c :: cs) = true ↔ ∃ k, HeadOf c k ∧ utf8CheckLoop k cs = true := by
  have hhead {k : ℕ} (hk : HeadOf c k) (h : utf8CheckLoop k cs = true) :
      ∃ k, HeadOf c k ∧ utf8CheckLoop k cs = true := ⟨k, hk, h⟩
  rw [utf8Check, utf8CheckLoop, if_neg (by decide)]
  split
  · rename_i hc
    split
    · refine iff_of_false (by simp) ?_
      rintro ⟨k, hk | hk | hk | hk, -⟩ <;> omega
    · have hneed := need_eq hc (by omega)
      refine ⟨hhead hneed, ?_⟩
      rintro ⟨k, hk, h⟩
      rwa [headOf_unique hneed hk]
  · split
    · refine iff_of_false (by simp) ?_
      rintro ⟨k, hk | hk | hk | hk, -⟩ <;> omega
    · have hascii : HeadOf c 0 := .inl ⟨rfl, by omega⟩
      refine ⟨hhead hascii, ?_⟩
      rintro ⟨k, hk, h⟩
      rwa [headOf_unique hascii hk]

/-- **What is accepted** -/
theorem utf8Check_eq_true_iff (data : List UInt8) : utf8Check data = true ↔ IsUnits data := by
  constructor
  · intro h
    induction hn : data.length using Nat.strong_induction_on generalizing data with
    | _ n ih =>
      cases data with
      | nil => exact ⟨[], rfl, by simp⟩
      | cons c cs =>
        obtain ⟨k, hk, hloop⟩ := (utf8Check_cons c cs).mp h
        obtain ⟨t, rest, rfl, rfl, hcont, hrest⟩ := (utf8CheckLoop_need _ _).mp hloop
        have hlt : rest.length < n := by
          rw [← hn, List.length_cons, List.length_append]
          omega
        obtain ⟨us, hflat, hus⟩ := ih rest.length hlt rest hrest rfl
        refine ⟨(c :: t) :: us, by rw [List.flatten_cons, hflat, List.cons_append], ?_⟩
        exact List.forall_mem_cons.mpr ⟨⟨c, t, rfl, hk, hcont⟩, hus⟩
  · rintro ⟨us, rfl, hus⟩
    induction us with
    | nil => rfl
    | cons u us ih =>
      obtain ⟨⟨c, t, rfl, hk, hcont⟩, hrest⟩ := List.forall_mem_cons.mp hus
      rw [List.flatten_cons, List.cons_append, utf8Check_cons]
      exact ⟨_, hk, (utf8CheckLoop_need _ _).mpr ⟨t, us.flatten, rfl, rfl, hcont, ih hrest⟩⟩

/-! ### Encoding and decoding -/

theorem addCont_append {t : List UInt8} {x : UInt8} (ht : ∀ y ∈ t, isCont y = true)
    (hx : isCont x = false) {fuel : ℕ} (hfuel : t.length < fuel) (ord : ℕ) (xs ys : List UInt8) :
    addCont (xs ++ (t ++ x :: ys)) fuel ord xs.length =
      .ok (t.foldl (fun ord b => ((ord <<< 6) ||| (b.toNat &&& 0x3F)) % 2 ^ 32) ord) := by
  induction t generalizing fuel ord xs with
  | nil =>
    obtain ⟨fuel, rfl⟩ := Nat.exists_eq_add_of_lt hfuel
    simp [addCont, readByte_append, hx, bind, Except.bind]
  | cons y t ih =>
    obtain ⟨fuel, rfl⟩ : ∃ k, fuel = k + 1 := ⟨fuel - 1, by simp at hfuel; omega⟩
    have h := fun ord => ih (fun z hz => ht z (List.mem_cons_of_mem y hz))
      (by simpa using hfuel) ord (xs ++ [y])
    rw [addCont, List.cons_append, readByte_append]
    simp only [bind, Except.bind, ht y List.mem_cons_self, if_true, List.foldl_cons]
    simpa using h _

/-- The code point of the bytes of a character -/
def unitValue : List UInt8 → ℕ
  | [] => 0
  | h :: t =>
    if h.toNat &&& 0x80 = 0 then h.toNat
    else t.foldl (fun ord b => ((ord <<< 6) ||| (b.toNat &&& 0x3F)) % 2 ^ 32)
      (clearLead 7 (h.toNat &&& 0x7F) 0x40)

theorem skipCont_append {h : UInt8} {t : List UInt8} (ht : ∀ x ∈ t, isCont x = true)
    (hh : isCont h = false) {fuel : ℕ} (hfuel : t.length < fuel) (xs ys : List UInt8) :
    skipCont (xs ++ (t ++ h :: ys)) fuel xs.length = .ok (xs.length + t.length) := by
  induction t generalizing fuel xs with
  | nil =>
    obtain ⟨fuel, rfl⟩ := Nat.exists_eq_add_of_lt hfuel
    simp [skipCont, readByte_append, hh, bind, Except.bind]
  | cons x t ih =>
    obtain ⟨fuel, rfl⟩ : ∃ k, fuel = k + 1 := ⟨fuel - 1, by simp at hfuel; omega⟩
    have h := ih (fun y hy => ht y (List.mem_cons_of_mem x hy)) (by simpa using hfuel) (xs ++ [x])
    rw [List.append_assoc, List.length_append] at h
    rw [skipCont, List.cons_append, readByte_append]
    simp only [bind, Except.bind, ht x List.mem_cons_self, if_true]
    rw [List.length_cons]
    refine h.trans ?_
    simp
    omega

/-- A character in memory, with a byte behind it that does not continue it -/
theorem utf8GetCharAt_append {h x : UInt8} {t : List UInt8} (ht : ∀ y ∈ t, isCont y = true)
    (hx : isCont x = false) (xs ys : List UInt8) :
    utf8GetCharAt (xs ++ (h :: t ++ x :: ys)) xs.length = .ok (unitValue (h :: t)) ∧
      utf8NextChar (xs ++ (h :: t ++ x :: ys)) xs.length = .ok (xs.length + (h :: t).length) := by
  have hfuel : t.length < (xs ++ (h :: t ++ x :: ys)).length := by
    simp only [List.length_append, List.length_cons]
    omega
  have hmem : xs ++ (h :: t ++ x :: ys) = xs ++ [h] ++ (t ++ x :: ys) := by simp
  have hlen : (xs ++ [h]).length = xs.length + 1 := by simp
  constructor
  · have hadd := addCont_append ht hx hfuel (clearLead 7 (h.toNat &&& 0x7F) 0x40) (xs ++ [h]) ys
    rw [← hmem, hlen] at hadd
    rw [utf8GetCharAt, List.cons_append, readByte_append, ← List.cons_append, unitValue]
    simp only [bind, Except.bind]
    split
    · rfl
    · exact hadd
  · have hskip := skipCont_append ht hx hfuel (xs ++ [h]) ys
    rw [← hmem, hlen] at hskip
    rw [utf8NextChar, hskip, List.length_cons]
    congr 1
    omega

theorem or_lead : (∀ n < 32, n ||| 0xC0 = n + 192) ∧ (∀ n < 16, n ||| 0xE0 = n + 224) ∧
    (∀ n < 8, n ||| 0xF0 = n + 240) ∧ ∀ n < 64, n ||| 0x80 = n + 128 := by
  decide

theorem clearLead_lead : (∀ n < 32, clearLead 7 ((n + 192) &&& 0x7F) 0x40 = n) ∧
    (∀ n < 16, clearLead 7 ((n + 224) &&& 0x7F) 0x40 = n) ∧
    ∀ n < 8, clearLead 7 ((n + 240) &&& 0x7F) 0x40 = n := by
  decide

theorem addCont_step {ord n : ℕ} (hord : ord < 2 ^ 26) (hn : n < 64) :
    ((ord <<< 6) ||| ((UInt8.ofNat (n + 128)).toNat &&& 0x3F)) % 2 ^ 32 = ord * 64 + n := by
  have hbyte : (UInt8.ofNat (n + 128)).toNat &&& 0x3F = n := by
    rw [UInt8.toNat_ofNat', Nat.and_two_pow_sub_one_eq_mod _ 6]
    omega
  rw [hbyte, ← Nat.shiftLeft_add_eq_or_of_lt hn, Nat.shiftLeft_eq]
  omega

theorem cont_of_byte (n : ℕ) : isCont (UInt8.ofNat (n % 64 + 128)) = true :=
  isCont_ofNat (Nat.mod_lt n (by decide))

/-- What `vstr_add_char` adds, in numbers -/
theorem vstrAddChar_of_lt {c : ℕ} (hc : c < 0x110000) :
    vstrAddChar c =
      if c < 0x80 then [UInt8.ofNat c]
      else if c < 0x800 then [UInt8.ofNat (c / 64 + 192), UInt8.ofNat (c % 64 + 128)]
      else if c < 0x10000 then
        [UInt8.ofNat (c / 4096 + 224), UInt8.ofNat (c / 64 % 64 + 128), UInt8.ofNat (c % 64 + 128)]
      else
        [UInt8.ofNat (c / 262144 + 240), UInt8.ofNat (c / 4096 % 64 + 128),
          UInt8.ofNat (c / 64 % 64 + 128), UInt8.ofNat (c % 64 + 128)] := by
  obtain ⟨h2, h3, h4, hcont⟩ := or_lead
  have hand (n : ℕ) : n &&& 0x3F ||| 0x80 = n % 64 + 128 := by
    rw [Nat.and_two_pow_sub_one_eq_mod _ 6]
    exact hcont _ (Nat.mod_lt _ (by decide))
  rw [vstrAddChar]
  simp only [hand, Nat.shiftRight_eq_div_pow]
  split
  · rfl
  split
  · rw [h2 _ (by omega)]
  split
  · rw [h3 _ (by omega)]
  · rw [h4 _ (by omega)]

/-- The bytes of a code point are those of a character, with this code point. -/
theorem vstrAddChar_unit {c : ℕ} (hc : c < 0x110000) :
    IsUnit (vstrAddChar c) ∧ unitValue (vstrAddChar c) = c := by
  obtain ⟨h2, h3, h4⟩ := clearLead_lead
  have htoNat {n : ℕ} (hn : n < 256) : (UInt8.ofNat n).toNat = n := by
    rw [UInt8.toNat_ofNat', Nat.mod_eq_of_lt hn]
  have hhigh : ∀ n < 256, 128 ≤ n → ¬n &&& 0x80 = 0 := by decide +kernel
  have hlow : ∀ n < 128, n &&& 0x80 = 0 := by decide +kernel
  rw [vstrAddChar_of_lt hc]
  split
  · rename_i h
    have hb := htoNat (show c < 256 by omega)
    refine ⟨⟨_, [], rfl, .inl ⟨rfl, by omega⟩, by simp⟩, ?_⟩
    rw [unitValue, hb, if_pos (hlow c h)]
  split
  · have hb := htoNat (show c / 64 + 192 < 256 by omega)
    refine ⟨⟨_, _, rfl, .inr (.inl ⟨rfl, by omega, by omega⟩), ?_⟩, ?_⟩
    · simp only [List.forall_mem_cons, cont_of_byte, List.not_mem_nil, false_imp_iff, implies_true,
        and_self]
    · rw [unitValue, hb, if_neg (hhigh _ (by omega) (by omega)), h2 _ (by omega)]
      simp only [List.foldl_cons, List.foldl_nil]
      rw [addCont_step (by omega) (by omega)]
      omega
  split
  · have hb := htoNat (show c / 4096 + 224 < 256 by omega)
    refine ⟨⟨_, _, rfl, .inr (.inr (.inl ⟨rfl, by omega, by omega⟩)), ?_⟩, ?_⟩
    · simp only [List.forall_mem_cons, cont_of_byte, List.not_mem_nil, false_imp_iff, implies_true,
        and_self]
    · rw [unitValue, hb, if_neg (hhigh _ (by omega) (by omega)), h3 _ (by omega)]
      simp only [List.foldl_cons, List.foldl_nil]
      have h1 := @addCont_step (c / 4096) (c / 64 % 64) (by omega) (by omega)
      rw [h1, addCont_step (by omega) (by omega)]
      omega
  · have hb := htoNat (show c / 262144 + 240 < 256 by omega)
    refine ⟨⟨_, _, rfl, .inr (.inr (.inr ⟨rfl, by omega, by omega⟩)), ?_⟩, ?_⟩
    · simp only [List.forall_mem_cons, cont_of_byte, List.not_mem_nil, false_imp_iff, implies_true,
        and_self]
    · rw [unitValue, hb, if_neg (hhigh _ (by omega) (by omega)), h4 _ (by omega)]
      simp only [List.foldl_cons, List.foldl_nil]
      have h1 := @addCont_step (c / 262144) (c / 4096 % 64) (by omega) (by omega)
      have h2 := @addCont_step (c / 262144 * 64 + c / 4096 % 64) (c / 64 % 64) (by omega) (by omega)
      rw [h1, h2, addCont_step (by omega) (by omega)]
      omega

/-- Behind some characters there is a byte that does not continue one. -/
theorem exists_strMem_cons {us : List (List UInt8)} (hus : ∀ u ∈ us, IsUnit u) :
    ∃ x ys, strMem us.flatten = x :: ys ∧ isCont x = false := by
  cases us with
  | nil => exact ⟨0, [], rfl, by decide⟩
  | cons u us =>
    obtain ⟨h, t, rfl, hh, -⟩ := hus u List.mem_cons_self
    exact ⟨h, t ++ us.flatten ++ [0], by simp [strMem], hh.not_isCont⟩

theorem decodeFrom_append (done : List UInt8) {us : List (List UInt8)} (hus : ∀ u ∈ us, IsUnit u)
    {fuel : ℕ} (hfuel : us.length < fuel) :
    decodeFrom (done ++ us.flatten) fuel done.length = .ok (us.map unitValue) := by
  induction us generalizing done fuel with
  | nil =>
    obtain ⟨fuel, rfl⟩ := Nat.exists_eq_add_of_lt hfuel
    simp [decodeFrom]
  | cons u us ih =>
    obtain ⟨fuel, rfl⟩ : ∃ k, fuel = k + 1 := ⟨fuel - 1, by simp at hfuel; omega⟩
    obtain ⟨⟨h, t, rfl, -, ht⟩, hrest⟩ := List.forall_mem_cons.mp hus
    obtain ⟨x, ys, hmem, hx⟩ := exists_strMem_cons hrest
    obtain ⟨hget, hnext⟩ := utf8GetCharAt_append ht hx done ys
    have hstr : strMem (done ++ ((h :: t) :: us).flatten) = done ++ (h :: t ++ x :: ys) := by
      rw [← hmem, strMem, strMem]
      simp
    have hlt : done.length < (done ++ ((h :: t) :: us).flatten).length := by simp
    have hih := ih (done ++ h :: t) hrest (by simpa using hfuel)
    rw [decodeFrom, if_pos hlt, hstr, hget, hnext]
    simp only [bind, Except.bind]
    rw [← List.length_append, List.flatten_cons, ← List.append_assoc, hih, List.map_cons]

/-- **`utf8_check` accepts just the concatenations of characters**, and code points are accepted and
decoded as they were added. -/
theorem utf8_roundtrip :
    (∀ data, utf8Check data = true ↔ IsUnits data) ∧
      ∀ cs : List ℕ, (∀ c ∈ cs, c < 0x110000) →
        utf8Check (cs.flatMap vstrAddChar) = true ∧
          decodeFrom (cs.flatMap vstrAddChar) ((cs.flatMap vstrAddChar).length + 1) 0 = .ok cs := by
  refine ⟨utf8Check_eq_true_iff, fun cs hcs => ?_⟩
  have hunits : ∀ u ∈ cs.map vstrAddChar, IsUnit u := by
    intro u hu
    obtain ⟨c, hc, rfl⟩ := List.mem_map.mp hu
    exact (vstrAddChar_unit (hcs c hc)).1
  have hvalues : (cs.map vstrAddChar).map unitValue = cs := by
    rw [List.map_map]
    refine (List.map_congr_left fun c hc => ?_).trans (List.map_id cs)
    exact (vstrAddChar_unit (hcs c hc)).2
  have hlen : (cs.map vstrAddChar).length ≤ (cs.map vstrAddChar).flatten.length := by
    generalize cs.map vstrAddChar = us at hunits
    induction us with
    | nil => rfl
    | cons u us ih =>
      obtain ⟨⟨h, t, rfl, -⟩, hrest⟩ := List.forall_mem_cons.mp hunits
      have := ih hrest
      simp only [List.flatten_cons, List.length_append, List.length_cons]
      omega
  have hdecode := decodeFrom_append [] hunits (Nat.lt_succ_of_le hlen)
  rw [List.flatMap_def, utf8Check_eq_true_iff]
  refine ⟨⟨_, rfl, hunits⟩, ?_⟩
  rwa [List.nil_append, List.length_nil, hvalues] at hdecode

/-- `"é"`, a surrogate and the last code point -/
theorem utf8_roundtrip_surrogate :
    decodeFrom ([0xE9, 0xD800, 0x10FFFF].flatMap vstrAddChar) 10 0 =
      .ok [0xE9, 0xD800, 0x10FFFF] :=
  (utf8_roundtrip.2 [0xE9, 0xD800, 0x10FFFF] (by decide)).2

end Pycopy
