import Mathlib.Data.Nat.Digits.Lemmas
import Pycopy.Runtime.IntObj

/-!
# Numerals of Integers

`mp_obj_int_formatted` of `py/objint.c` writes a small integer from the end of its buffer to the
front. A big integer is written by `mpz_as_str_inpl` of `py/mpz.c` with its lowest digit first, and
then turned round; the digits come from dividing a copy of it again and again. Both get a buffer of
`mp_int_format_size` bytes. `mpz_set_from_str` reads digits back.

With a comma, the first one puts it in front of a digit that is still to come, but the second one
after each three digits, also after the last ones.

## Main results

* `int_formatted_reads_back`: without a comma the text is the numeral, it fits, and it can be read
  back.
* `int_formatted_comma_iff`: when the commas are right.
-/

open DigitList

namespace Pycopy

/-! ### Definitions -/

/-- `log_base2_floor` -/
def logBase2Floor : List ℕ := [0, 1, 1, 2, 2, 2, 2, 3, 3, 3, 3, 3, 3, 3, 3, 4]

/-- `mp_int_format_size`. There is no comma if it is zero, and a prefix that is `NULL` is empty. -/
def mpIntFormatSize (numBits base : ℕ) (pre : List ℕ) (comma : ℕ) : ℕ :=
  let numDigits := numBits / logBase2Floor.getD (base - 1) 0 + 1
  let numCommas := if comma ≠ 0 then numDigits / 3 else 0
  numDigits + numCommas + pre.length + 2

/-- A buffer that is filled from its end: the bytes that are left in front, and the text so far -/
structure BackBuf where
  room : ℕ
  text : List ℕ

/-- `*(--b) = c`, which must not be in front of the buffer -/
def BackBuf.put (b : BackBuf) (c : ℕ) : Option BackBuf :=
  if b.room = 0 then none else some ⟨b.room - 1, c :: b.text⟩

/-- A digit as a character, in `mp_obj_int_formatted` -/
def digitChar (baseChar c : ℕ) : ℕ := if c ≥ 10 then c + baseChar - 10 else c + '0'.toNat

/-- The loop of `mp_obj_int_formatted`. The place of the last comma is given by the number of
characters after it. -/
def fmtWordLoop (base baseChar comma : ℕ) : ℕ → ℕ → BackBuf → ℕ → Option BackBuf
  | 0, _, _, _ => none
  | fuel + 1, num, b, lastComma => do
    let b ← b.put (digitChar baseChar (num % base))
    let num := num / base
    let (b, lastComma) ←
      if comma ≠ 0 ∧ num ≠ 0 ∧ b.room > 0 ∧ b.text.length - lastComma = 3 then do
        let b ← b.put comma
        some (b, b.text.length)
      else some (b, lastComma)
    if b.room > 0 ∧ num ≠ 0 then fmtWordLoop base baseChar comma fuel num b lastComma else some b

/-- `mp_obj_int_formatted` of a small integer, with words of `w` bits. The last byte of the buffer
is the terminator. -/
def fmtWord (w : ℕ) (num : ℤ) (base : ℕ) (pre : List ℕ) (baseChar comma : ℕ) :
    Option (List ℕ) :=
  let b : BackBuf := ⟨mpIntFormatSize w base pre comma - 1, []⟩
  (if num = 0 then b.put '0'.toNat
    else fmtWordLoop base baseChar comma w num.natAbs b 0).bind fun b =>
  let b := if b.room > pre.length then ⟨b.room - pre.length, pre ++ b.text⟩ else b
  (if num < 0 ∧ b.room > 0 then b.put '-'.toNat else some b).map BackBuf.text

/-- One division of the digits by the base, from the highest one on: the quotient and the
remainder -/
def divDigits (c : MpzConfig) (base : ℕ) : List ℕ → List ℕ × ℕ
  | [] => ([], 0)
  | d :: ds =>
    let r := divDigits c base ds
    let a := c.dbl (r.2 <<< c.digSize ||| d)
    (a / base :: r.1, a % base)

/-- A digit as a character, in `mpz_as_str_inpl` -/
def mpzDigitChar (baseChar a : ℕ) : ℕ :=
  let a := a + '0'.toNat
  if a > '9'.toNat then a + baseChar - '9'.toNat - 1 else a

/-- The loop of `mpz_as_str_inpl`, with the text so far and the place after the last comma -/
def mpzAsStrLoop (c : MpzConfig) (base baseChar comma : ℕ) :
    ℕ → List ℕ → List ℕ → ℕ → Option (List ℕ)
  | 0, _, _, _ => none
  | fuel + 1, dig, s, lastComma =>
    let (dig, a) := divDigits c base dig
    let s := s ++ [mpzDigitChar baseChar a]
    let done := dig.all (· == 0)
    let (s, lastComma) := if comma ≠ 0 ∧ s.length - lastComma = 3 then
        (s ++ [comma], s.length + 1) else (s, lastComma)
    if done then some s else mpzAsStrLoop c base baseChar comma fuel dig s lastComma

/-- `mpz_as_str_inpl`. A number has at most as many digits as bits. -/
def mpzAsStrInpl (c : MpzConfig) (z : Mpz) (base : ℕ) (pre : List ℕ) (baseChar comma : ℕ) :
    Option (List ℕ) :=
  if z.len = 0 then some (pre ++ ['0'.toNat])
  else do
    let s ← mpzAsStrLoop c base baseChar comma (z.len * c.digSize) z.dig [] 0
    let s := s ++ pre.reverse
    let s := if z.neg then s ++ ['-'.toNat] else s
    return s.reverse

/-- `mp_obj_int_formatted` -/
def intFormatted (c : MpzConfig) (w : ℕ) (o : IntObj) (base : ℕ) (pre : List ℕ)
    (baseChar comma : ℕ) : Option (List ℕ) :=
  match o with
  | .small v => fmtWord w v base pre baseChar comma
  | .big z => mpzAsStrInpl c z base pre baseChar comma

/-- The number of bits that `mp_obj_int_formatted` asks a buffer for -/
def IntObj.numBits (c : MpzConfig) (w : ℕ) : IntObj → ℕ
  | .small _ => w
  | .big z => z.len * c.digSize

/-- `mpn_mul_dig_add_dig` -/
def mpnMulDigAddDig (c : MpzConfig) (dmul : ℕ) : List ℕ → ℕ → List ℕ
  | [], carry => if carry ≠ 0 then [carry] else []
  | i :: is, carry =>
    let carry := c.dbl (carry + i * dmul)
    (carry &&& c.digMask) :: mpnMulDigAddDig c dmul is (carry >>> c.digSize)

/-- The value of a character of a numeral, in `mpz_set_from_str` -/
def charDigit (v : ℕ) : Option ℕ :=
  if '0'.toNat ≤ v ∧ v ≤ '9'.toNat then some (v - '0'.toNat)
  else if 'A'.toNat ≤ v ∧ v ≤ 'Z'.toNat then some (v - ('A'.toNat - 10))
  else if 'a'.toNat ≤ v ∧ v ≤ 'z'.toNat then some (v - ('a'.toNat - 10))
  else none

/-- The loop of `mpz_set_from_str`, with the number of characters that are read -/
def setFromStrLoop (c : MpzConfig) (base : ℕ) :
    List ℕ → Mpz → ℕ → Except MpzFault (Mpz × ℕ)
  | [], z, n => .ok (z, n)
  | v :: rest, z, n =>
    match charDigit v with
    | none => .ok (z, n)
    | some d =>
      if d ≥ base then .ok (z, n)
      else do
        let dig := mpnMulDigAddDig c base z.dig d
        let z ← mpzStore z dig dig.length
        setFromStrLoop c base rest z (n + 1)

/-- `mpz_set_from_str` -/
def mpzSetFromStr (c : MpzConfig) (z : Mpz) (str : List ℕ) (neg : Bool) (base : ℕ) :
    Except MpzFault (Mpz × ℕ) := do
  let z ← mpzNeedDig z (str.length * 8 / c.digSize + 1)
  setFromStrLoop c base str { z with neg := neg, dig := [] } 0

/-! ### Numerals -/

/-- The numeral of a number, with the lowest digit first -/
def numeral (baseChar base n : ℕ) : List ℕ :=
  (if n = 0 then [0] else Nat.digits base n).map (digitChar baseChar)

/-- A comma after each three characters that are followed by another one -/
def grouped (comma : ℕ) : List ℕ → List ℕ
  | x :: y :: z :: r :: rest => x :: y :: z :: comma :: grouped comma (r :: rest)
  | l => l

/-- The sign of an integer as text -/
def signText (v : ℤ) : List ℕ := if v < 0 then ['-'.toNat] else []

/-- What the loops make of digits if there are `k` characters after the last comma: a comma after
each three of them, and at the end as well if it is `trailing` -/
def groupDigits (comma : ℕ) (trailing : Bool) : ℕ → List ℕ → List ℕ
  | _, [] => []
  | k, x :: xs =>
    if comma ≠ 0 ∧ k + 1 = 3 ∧ (trailing ∨ xs ≠ []) then
      x :: comma :: groupDigits comma trailing 0 xs
    else x :: groupDigits comma trailing (k + 1) xs

@[simp]
theorem groupDigits_zero (trailing : Bool) (k : ℕ) (l : List ℕ) :
    groupDigits 0 trailing k l = l := by
  induction l generalizing k with
  | nil => rfl
  | cons x xs ih => simp [groupDigits, ih]

theorem groupDigits_false_eq {comma : ℕ} (h : comma ≠ 0) (l : List ℕ) :
    groupDigits comma false 0 l = grouped comma l := by
  induction l using grouped.induct with
  | case1 x y z r rest ih => simp [groupDigits, grouped, h, ← ih]
  | case2 l hl =>
    match l, hl with
    | [], _ => rfl
    | [x], _ => simp [groupDigits, grouped]
    | [x, y], _ => simp [groupDigits, grouped]
    | [x, y, z], _ => simp [groupDigits, grouped]
    | x :: y :: z :: r :: rest, hl => exact absurd rfl (hl x y z r rest)

/-- A comma at the end is one too many if and only if there are whole groups of three. -/
theorem groupDigits_true_eq_iff {comma : ℕ} (h : comma ≠ 0) {l : List ℕ} (hne : l ≠ []) :
    groupDigits comma true 0 l = grouped comma l ↔ ¬3 ∣ l.length := by
  induction l using grouped.induct with
  | case1 x y z r rest ih =>
    have hlen : 3 ∣ (x :: y :: z :: r :: rest).length ↔ 3 ∣ (r :: rest).length := by
      simp only [List.length_cons]
      omega
    rw [hlen, ← ih (List.cons_ne_nil r rest)]
    simp [groupDigits, grouped, h]
  | case2 l hl =>
    match l, hl with
    | [], _ => exact absurd rfl hne
    | [x], _ => simp [groupDigits, grouped]
    | [x, y], _ => simp [groupDigits, grouped]
    | [x, y, z], _ => simp [groupDigits, grouped, h]
    | x :: y :: z :: r :: rest, hl => exact absurd rfl (hl x y z r rest)

theorem length_groupDigits_le {comma : ℕ} {trailing : Bool} {k : ℕ} (hk : k < 3) (l : List ℕ) :
    (groupDigits comma trailing k l).length ≤ l.length + (k + l.length) / 3 := by
  induction l generalizing k with
  | nil => simp [groupDigits]
  | cons x xs ih =>
    rw [groupDigits]
    split
    next h =>
      have := ih (Nat.zero_lt_succ 2)
      simp only [List.length_cons] at this ⊢
      omega
    next h =>
      rcases Nat.lt_or_ge (k + 1) 3 with hk' | hk'
      · have := ih hk'
        simp only [List.length_cons] at this ⊢
        omega
      · -- no comma is due although three characters are complete
        by_cases hxs : xs = []
        · simp [hxs, groupDigits]
        · obtain rfl : comma = 0 := by
            by_contra hc
            exact h ⟨hc, by omega, .inr hxs⟩
          simp

/-- The digits and commas of a number with at most `n` digits fit. -/
theorem length_groupDigits_le_size {comma n : ℕ} {trailing : Bool} {l : List ℕ}
    (h : l.length ≤ n) : (groupDigits comma trailing 0 l).length ≤
      n + if comma ≠ 0 then n / 3 else 0 := by
  by_cases hc : comma = 0
  · simpa [hc] using h
  · have hlen := @length_groupDigits_le comma trailing 0 (Nat.zero_lt_succ 2) l
    have hdiv : l.length / 3 ≤ n / 3 := Nat.div_le_div_right h
    rw [if_pos hc]
    rw [Nat.zero_add] at hlen
    omega

/-! ### The buffer is long enough -/

variable {base baseChar comma n : ℕ}

theorem two_pow_logBase2Floor_le (hb : 2 ≤ base) (hb' : base ≤ 16) :
    0 < logBase2Floor.getD (base - 1) 0 ∧ 2 ^ logBase2Floor.getD (base - 1) 0 ≤ base := by
  interval_cases base <;> decide

theorem length_digits_le_of_lt_two_pow {bits : ℕ} (hb : 2 ≤ base) (hb' : base ≤ 16)
    (hn : n < 2 ^ bits) :
    (Nat.digits base n).length ≤ bits / logBase2Floor.getD (base - 1) 0 + 1 := by
  obtain ⟨hpos, hle⟩ := two_pow_logBase2Floor_le hb hb'
  rw [Nat.digits_length_le_iff hb]
  generalize logBase2Floor.getD (base - 1) 0 = k at hpos hle
  calc n < 2 ^ bits := hn
    _ ≤ 2 ^ (k * (bits / k + 1)) :=
        Nat.pow_le_pow_right Nat.two_pos (Nat.lt_mul_div_succ bits hpos).le
    _ = (2 ^ k) ^ (bits / k + 1) := Nat.pow_mul ..
    _ ≤ base ^ (bits / k + 1) := Nat.pow_le_pow_left hle _

/-- The sign, the prefix, the digits with their commas and the terminator fit. -/
theorem text_fits {bits : ℕ} {trailing : Bool} (hb : 2 ≤ base) (hb' : base ≤ 16)
    (hn : n < 2 ^ bits) (pre : List ℕ) :
    (groupDigits comma trailing 0 (numeral baseChar base n)).length + pre.length + 2 ≤
      mpIntFormatSize bits base pre comma := by
  have hlen : (numeral baseChar base n).length ≤
      bits / logBase2Floor.getD (base - 1) 0 + 1 := by
    rw [numeral, List.length_map]
    split
    · exact Nat.succ_le_succ (Nat.zero_le _)
    · exact length_digits_le_of_lt_two_pow hb hb' hn
  have := @length_groupDigits_le_size comma _ trailing _ hlen
  rw [mpIntFormatSize]
  omega

/-! ### Small integers -/

theorem numeral_of_ne_zero (hb : 2 ≤ base) (hn : n ≠ 0) : numeral baseChar base n =
    digitChar baseChar (n % base) ::
      if n / base = 0 then [] else numeral baseChar base (n / base) := by
  rw [numeral, if_neg hn, Nat.digits_def' hb (Nat.pos_of_ne_zero hn), List.map_cons]
  split
  next h => rw [h, Nat.digits_zero, List.map_nil]
  next h => rw [numeral, if_neg h]

theorem numeral_ne_nil (n : ℕ) (hb : 2 ≤ base) : numeral baseChar base n ≠ [] := by
  by_cases hn : n = 0
  · simp [numeral, hn]
  · simp [numeral_of_ne_zero hb hn]

theorem length_groupDigits_pos (comma : ℕ) (trailing : Bool) (k : ℕ) {l : List ℕ} (h : l ≠ []) :
    0 < (groupDigits comma trailing k l).length := by
  match l, h with
  | x :: xs, _ =>
    rw [groupDigits]
    split <;> simp

theorem div_lt_two_pow (hb : 2 ≤ base) {fuel : ℕ} (h : n < 2 ^ (fuel + 1)) :
    n / base < 2 ^ fuel := by
  rw [Nat.div_lt_iff_lt_mul (by omega)]
  exact lt_of_lt_of_le h (by rw [Nat.pow_succ]; exact Nat.mul_le_mul_left _ hb)

/-- The loop writes the digits that are left, in front of the text. -/
theorem fmtWordLoop_eq (hb : 2 ≤ base) {fuel room lastComma : ℕ} {text : List ℕ} (hn : n ≠ 0)
    (hfuel : n < 2 ^ fuel) (hlast : lastComma ≤ text.length) {out : List ℕ}
    (hout : groupDigits comma false (text.length - lastComma) (numeral baseChar base n) = out)
    (hroom : out.length ≤ room) :
    fmtWordLoop base baseChar comma fuel n ⟨room, text⟩ lastComma =
      some ⟨room - out.length, out.reverse ++ text⟩ := by
  induction fuel generalizing n room text lastComma out with
  | zero => exact absurd hfuel (by simpa using hn)
  | succ fuel ih =>
    have hdiv := div_lt_two_pow hb hfuel
    rw [numeral_of_ne_zero hb hn, groupDigits] at hout
    by_cases hdone : n / base = 0
    · obtain rfl : [digitChar baseChar (n % base)] = out := by simpa [hdone, groupDigits] using hout
      have hpos : room ≠ 0 := Nat.ne_of_gt hroom
      simp [fmtWordLoop, BackBuf.put, hpos, hdone]
    · have hxs := @numeral_ne_nil base baseChar (n / base) hb
      have hstep : text.length + 1 - lastComma = text.length - lastComma + 1 := by omega
      rw [if_neg hdone] at hout
      by_cases hcomma : comma ≠ 0 ∧ text.length - lastComma + 1 = 3
      · rw [if_pos ⟨hcomma.1, hcomma.2, .inr hxs⟩] at hout
        subst hout
        have hpos := length_groupDigits_pos comma false 0 hxs
        simp only [List.length_cons] at hroom
        rw [fmtWordLoop]
        simp only [BackBuf.put, List.length_cons, hstep, hcomma, hdone, ne_eq, not_false_eq_true,
          true_and, and_true, Option.bind_eq_bind, if_neg (show room ≠ 0 by omega),
          if_neg (show room - 1 ≠ 0 by omega), Option.bind_some,
          if_pos (show room - 1 > 0 by omega), if_pos (show room - 1 - 1 > 0 by omega)]
        refine (ih hdone hdiv (Nat.le_refl _)
          (congrArg (groupDigits comma false · _) (Nat.sub_self _)) (by omega)).trans ?_
        simp
        omega
      · rw [if_neg fun h => hcomma ⟨h.1, h.2.1⟩] at hout
        subst hout
        have hpos := length_groupDigits_pos comma false (text.length - lastComma + 1) hxs
        have hnot : ¬(comma ≠ 0 ∧ n / base ≠ 0 ∧ room - 1 > 0 ∧
            text.length - lastComma + 1 = 3) := fun h => hcomma ⟨h.1, h.2.2.2⟩
        simp only [List.length_cons] at hroom
        rw [fmtWordLoop]
        simp only [BackBuf.put, List.length_cons, hstep, if_neg hnot,
          if_neg (show room ≠ 0 by omega), Option.bind_eq_bind, Option.bind_some,
          if_pos (show room - 1 > 0 ∧ n / base ≠ 0 from ⟨by omega, hdone⟩)]
        refine (ih hdone hdiv (Nat.le_succ_of_le hlast)
          (congrArg (groupDigits comma false · _) hstep) (by omega)).trans ?_
        simp
        omega

theorem fmtWord_eq {w : ℕ} {v : ℤ} (hv : v.natAbs < 2 ^ w) (hb : 2 ≤ base) (hb' : base ≤ 16)
    (pre : List ℕ) : fmtWord w v base pre baseChar comma = some (signText v ++ pre ++
      (groupDigits comma false 0 (numeral baseChar base v.natAbs)).reverse) := by
  have hfits := @text_fits base baseChar comma v.natAbs w false hb hb' hv pre
  obtain ⟨out, hout⟩ : ∃ out, groupDigits comma false 0 (numeral baseChar base v.natAbs) = out :=
    ⟨_, rfl⟩
  rw [hout] at hfits ⊢
  generalize hsize : mpIntFormatSize w base pre comma = size at hfits
  have hloop : (if v = 0 then BackBuf.put ⟨size - 1, []⟩ '0'.toNat
      else fmtWordLoop base baseChar comma w v.natAbs ⟨size - 1, []⟩ 0) =
      some ⟨size - 1 - out.length, out.reverse⟩ := by
    split
    next h0 =>
      obtain rfl : ['0'.toNat] = out := by
        simpa [h0, numeral, groupDigits, digitChar] using hout
      simp only [List.length_singleton] at hfits
      rw [BackBuf.put, if_neg (show size - 1 ≠ 0 by omega)]
      rfl
    next h0 =>
      rw [fmtWordLoop_eq hb (Int.natAbs_ne_zero.mpr h0) hv (Nat.zero_le _) hout (by omega),
        List.append_nil]
  rw [fmtWord, hsize]
  simp only [hloop, Option.bind_some, if_pos (show size - 1 - out.length > pre.length by omega)]
  rw [signText]
  split
  next h =>
    rw [if_pos h.1, BackBuf.put, if_neg (Nat.ne_of_gt h.2)]
    rfl
  next h =>
    rw [if_neg fun h0 => h ⟨h0, by omega⟩]
    rfl

/-! ### Big integers -/

variable {c : MpzConfig}

theorem mpzDigitChar_eq (a : ℕ) : mpzDigitChar baseChar a = digitChar baseChar a := by
  simp only [mpzDigitChar, digitChar, Char.reduceToNat]
  split <;> split <;> omega

/-- One division of the digits divides the number. -/
theorem divDigits_spec (hb : 0 < base) (hb' : base ≤ c.base) {dig : List ℕ}
    (h : Below c.base dig) : Below c.base (divDigits c base dig).1 ∧
      Nat.ofDigits c.base (divDigits c base dig).1 = Nat.ofDigits c.base dig / base ∧
      (divDigits c base dig).2 = Nat.ofDigits c.base dig % base := by
  induction dig with
  | nil => simp [divDigits]
  | cons d ds ih =>
    rw [below_cons] at h
    obtain ⟨hbelow, hquo, hrem⟩ := ih h.2
    obtain ⟨q, hq⟩ : ∃ q, Nat.ofDigits c.base ds / base = q := ⟨_, rfl⟩
    obtain ⟨a, ha⟩ : ∃ a, Nat.ofDigits c.base ds % base = a := ⟨_, rfl⟩
    have halt : a < base := ha ▸ Nat.mod_lt _ hb
    have hor : a <<< c.digSize ||| d = d + c.base * a := by
      rw [Nat.shiftLeft_eq, Nat.mul_comm, ← Nat.two_pow_add_eq_or_of_lt h.1, Nat.add_comm]
      rfl
    have hlt : d + c.base * a < c.base * base := by
      have := Nat.mul_le_mul_left c.base (Nat.succ_le_of_lt halt)
      rw [Nat.mul_succ] at this
      omega
    have hval : Nat.ofDigits c.base (d :: ds) = d + c.base * a + c.base * q * base := by
      rw [Nat.ofDigits_cons, ← Nat.mod_add_div (Nat.ofDigits c.base ds) base, ha, hq]
      ring
    simp only [divDigits, hrem, ha]
    rw [hor, c.dbl_of_lt (lt_of_lt_of_le hlt (Nat.mul_le_mul_left _ hb')),
      hval, below_cons, Nat.ofDigits_cons, hquo, hq, Nat.add_mul_div_right _ _ hb,
      Nat.add_mul_mod_self_right]
    exact ⟨⟨(Nat.div_lt_iff_lt_mul hb).mpr hlt, hbelow⟩, rfl, rfl⟩

theorem all_eq_zero_iff {dig : List ℕ} :
    dig.all (· == 0) = true ↔ Nat.ofDigits c.base dig = 0 := by
  induction dig with
  | nil => simp
  | cons d ds ih =>
    rw [List.all_cons, Bool.and_eq_true, ih, Nat.ofDigits_cons]
    simp [c.base_pos.ne']

/-- The loop writes the digits that are left, after the text. -/
theorem mpzAsStrLoop_eq (hb : 2 ≤ base) (hb' : base ≤ c.base) {fuel lastComma : ℕ}
    {dig s : List ℕ} (hdig : Below c.base dig) (hval : Nat.ofDigits c.base dig = n) (hn : n ≠ 0)
    (hfuel : n < 2 ^ fuel) (hlast : lastComma ≤ s.length) :
    mpzAsStrLoop c base baseChar comma fuel dig s lastComma =
      some (s ++ groupDigits comma true (s.length - lastComma) (numeral baseChar base n)) := by
  induction fuel generalizing n dig s lastComma with
  | zero => exact absurd hfuel (by simpa using hn)
  | succ fuel ih =>
    have hdiv := div_lt_two_pow hb hfuel
    obtain ⟨hbelow, hquo, hrem⟩ := divDigits_spec (by omega) hb' hdig
    rw [hval] at hquo hrem
    have hstep : s.length + 1 - lastComma = s.length - lastComma + 1 := by omega
    have hdone : (divDigits c base dig).1.all (· == 0) = decide (n / base = 0) := by
      rw [Bool.eq_iff_iff, all_eq_zero_iff (c := c), hquo, decide_eq_true_iff]
    rw [mpzAsStrLoop, numeral_of_ne_zero hb hn, groupDigits]
    simp only [hrem, mpzDigitChar_eq, hdone, List.length_append, List.length_singleton, hstep,
      true_or, and_true, decide_eq_true_eq]
    by_cases hcomma : comma ≠ 0 ∧ s.length - lastComma + 1 = 3
    · simp only [if_pos hcomma]
      by_cases h0 : n / base = 0
      · simp [h0, groupDigits]
      · rw [if_neg h0, if_neg h0, ih hbelow hquo h0 hdiv (by simp)]
        simp
    · simp only [if_neg hcomma]
      by_cases h0 : n / base = 0
      · simp [h0, groupDigits]
      · rw [if_neg h0, if_neg h0, ih hbelow hquo h0 hdiv (by simp; omega)]
        simp [hstep]

theorem mpzAsStrInpl_eq {z : Mpz} (hz : z.Valid c) (hb : 2 ≤ base) (hb' : base ≤ 16)
    (pre : List ℕ) : mpzAsStrInpl c z base pre baseChar comma =
      some (signText (z.value c) ++ pre ++ (if z.value c = 0 then ['0'.toNat] else
        (groupDigits comma true 0 (numeral baseChar base (z.value c).natAbs)).reverse)) := by
  have hzero := hz.value_eq_zero_iff
  rw [mpzAsStrInpl]
  by_cases h0 : z.len = 0
  · simp [h0, hzero.mpr h0, signText]
  · have hn : Nat.ofDigits c.base z.dig ≠ 0 := fun h => h0 (hz.len_eq_zero_iff.mpr h)
    have hval : z.value c ≠ 0 := fun h => h0 (hzero.mp h)
    have hlt : Nat.ofDigits c.base z.dig < 2 ^ (z.len * c.digSize) := by
      rw [Nat.mul_comm, Nat.pow_mul]
      exact ofDigits_lt c.one_lt_base hz.below
    have hneg : signText (z.value c) = if z.neg then ['-'.toNat] else [] := by
      rw [signText, Mpz.value, signed]
      cases z.neg
      · simp
      · simp [Nat.pos_of_ne_zero hn]
    rw [if_neg h0, mpzAsStrLoop_eq hb (hb'.trans c.sixteen_le_base) hz.below rfl hn hlt
      (Nat.zero_le _), if_neg hval, hneg, Mpz.natAbs_value]
    cases z.neg <;> simp

/-! ### Reading digits -/

/-- The digits at the start of a text -/
def digitsAtStart (base : ℕ) : List ℕ → List ℕ
  | [] => []
  | v :: rest =>
    match charDigit v with
    | none => []
    | some d => if d ≥ base then [] else d :: digitsAtStart base rest

/-- The number with the given digits, from the highest one on -/
def horner (base : ℕ) (v : ℕ) (ds : List ℕ) : ℕ := ds.foldl (fun v d => v * base + d) v

theorem mpnMulDigAddDig_eq (hb : base ≤ c.base) {dig : List ℕ} (hdig : Below c.base dig)
    {carry : ℕ} (hcarry : carry < base) : mpnMulDigAddDig c base dig carry =
      carryAll c.base (dig.map (· * base)) carry := by
  induction dig generalizing carry with
  | nil => rfl
  | cons i is ih =>
    rw [below_cons] at hdig
    have hlt : carry + i * base < c.base * base := by
      have := Nat.mul_le_mul_right base (Nat.succ_le_of_lt hdig.1)
      rw [Nat.succ_mul] at this
      omega
    have hmask : (carry + i * base) &&& c.digMask = (carry + i * base) % c.base :=
      Nat.and_two_pow_sub_one_eq_mod ..
    have hshift : (carry + i * base) >>> c.digSize = (carry + i * base) / c.base :=
      Nat.shiftRight_eq_div_pow ..
    simp only [mpnMulDigAddDig, c.dbl_of_lt (lt_of_lt_of_le hlt (Nat.mul_le_mul_left _ hb))]
    rw [hmask, hshift, ih hdig.2 ((Nat.div_lt_iff_lt_mul c.base_pos).mpr
      (hlt.trans_eq (Nat.mul_comm ..))), List.map_cons, carryAll_cons, Nat.add_comm carry]

/-- Multiplication by the base and addition of a digit -/
theorem mpnMulDigAddDig_spec (hb : base ≤ c.base) {z : Mpz} (hz : z.Valid c) {d : ℕ}
    (hd : d < base) : Below c.base (mpnMulDigAddDig c base z.dig d) ∧
      Normal (mpnMulDigAddDig c base z.dig d) ∧
      Nat.ofDigits c.base (mpnMulDigAddDig c base z.dig d) =
        Nat.ofDigits c.base z.dig * base + d := by
  rw [mpnMulDigAddDig_eq hb hz.below hd]
  refine ⟨below_carryAll c.base_pos (lt_of_le_of_lt (carryOut_le c.base_pos ?_
    (Nat.le_sub_one_of_lt hd)) (by omega)), ?_, by rw [ofDigits_carryAll, ofDigits_map_mul]⟩
  · intro s hs
    obtain ⟨i, hi, rfl⟩ := List.mem_map.mp hs
    have := Nat.mul_le_mul_right base (Nat.succ_le_of_lt (hz.below i hi))
    rw [Nat.succ_mul] at this
    rw [Nat.sub_add_cancel (by omega)]
    omega
  · by_cases hnil : z.dig = []
    · rw [hnil, List.map_nil, carryAll_eq_ite]
      split
      next h => exact normal_append_singleton h
      next h => exact normal_nil
    · refine normal_carryAll c.one_lt_base ?_
      rw [List.length_map, ofDigits_map_mul]
      exact (pow_le_ofDigits hz.normal hnil).trans
        ((Nat.le_mul_of_pos_right _ (by omega)).trans (Nat.le_add_right _ _))

/-- The loop reads the digits at the start of the text, and stays inside the buffer if it is long
enough for the number of characters. -/
theorem setFromStrLoop_spec (hb : 0 < base) (hb' : base ≤ c.base) {str : List ℕ} {z : Mpz}
    {read : ℕ} (hz : z.Valid c)
    (hfit : (Nat.ofDigits c.base z.dig + 1) * base ^ str.length ≤ c.base ^ z.alloc) :
    ∃ z', setFromStrLoop c base str z read = .ok (z', read + (digitsAtStart base str).length) ∧
      z'.Valid c ∧ z'.neg = z.neg ∧
      Nat.ofDigits c.base z'.dig = horner base (Nat.ofDigits c.base z.dig)
        (digitsAtStart base str) := by
  induction str generalizing z read with
  | nil => exact ⟨z, rfl, hz, rfl, rfl⟩
  | cons v rest ih =>
    rw [setFromStrLoop, digitsAtStart]
    cases hdig : charDigit v with
    | none => exact ⟨z, rfl, hz, rfl, rfl⟩
    | some d =>
      simp only
      by_cases hd : d ≥ base
      · rw [if_pos hd, if_pos hd]
        exact ⟨z, rfl, hz, rfl, rfl⟩
      · obtain ⟨hbelow, hnormal, hval⟩ := mpnMulDigAddDig_spec hb' hz (Nat.not_le.mp hd)
        have hfit' : (Nat.ofDigits c.base (mpnMulDigAddDig c base z.dig d) + 1) *
            base ^ rest.length ≤ c.base ^ z.alloc := by
          refine le_trans ?_ hfit
          rw [hval, List.length_cons, Nat.pow_succ', ← Nat.mul_assoc]
          refine Nat.mul_le_mul_right _ ?_
          rw [Nat.succ_mul]
          omega
        have hlen : (mpnMulDigAddDig c base z.dig d).length ≤ z.alloc :=
          length_le_of_ofDigits_lt c.one_lt_base hnormal
            ((Nat.le_mul_of_pos_right _ (Nat.pow_pos hb)).trans hfit')
        obtain ⟨z', hloop, hz', hneg, hval'⟩ := @ih { z with dig := mpnMulDigAddDig c base z.dig d }
          (read + 1) ⟨hbelow, hnormal, hlen⟩ hfit'
        rw [if_neg hd, if_neg hd, mpzStore_eq hlen, List.take_length]
        refine ⟨z', hloop.trans ?_, hz', hneg, ?_⟩
        · rw [List.length_cons, Nat.add_assoc, Nat.add_comm 1]
        · rw [hval', hval]
          rfl

/-- **`mpz_set_from_str`.** It stays inside the digits it has reserved. -/
theorem mpzSetFromStr_spec {dest : Mpz} (hdest : dest.fixedDig = false) (hb : 0 < base)
    (hb' : base ≤ c.base) (hb'' : base ≤ 256) (str : List ℕ) (neg : Bool) :
    ∃ z, mpzSetFromStr c dest str neg base = .ok (z, (digitsAtStart base str).length) ∧
      z.Valid c ∧ z.value c = signed neg (horner base 0 (digitsAtStart base str)) := by
  rw [mpzSetFromStr, mpzNeedDig_eq hdest]
  have hgrow : str.length * 8 / c.digSize + 1 ≤
      (dest.grow (str.length * 8 / c.digSize + 1)).alloc :=
    (le_max_left _ _).trans (le_max_right _ _)
  have hfit : base ^ str.length ≤ c.base ^ (str.length * 8 / c.digSize + 1) := by
    calc base ^ str.length ≤ 256 ^ str.length := Nat.pow_le_pow_left hb'' _
      _ = 2 ^ (str.length * 8) := by rw [Nat.mul_comm, Nat.pow_mul]
      _ ≤ 2 ^ (c.digSize * (str.length * 8 / c.digSize + 1)) :=
          Nat.pow_le_pow_right Nat.two_pos
            (Nat.lt_mul_div_succ _ (Nat.lt_of_lt_of_le (by decide) c.four_le_digSize)).le
      _ = c.base ^ (str.length * 8 / c.digSize + 1) := Nat.pow_mul ..
  obtain ⟨z, hloop, hz, hneg, hval⟩ := @setFromStrLoop_spec base c hb hb' str
    { dest.grow (str.length * 8 / c.digSize + 1) with neg := neg, dig := [] } 0
    ⟨below_nil _, normal_nil, Nat.zero_le _⟩
    (by simpa using hfit.trans (Nat.pow_le_pow_right c.base_pos hgrow))
  refine ⟨z, by rw [mpz_ok_bind, hloop, Nat.zero_add], hz, ?_⟩
  rw [Mpz.value, hneg, hval]
  rfl

theorem charDigit_digitChar {d : ℕ} (hchar : baseChar = 'a'.toNat ∨ baseChar = 'A'.toNat)
    (hd : d < 16) : charDigit (digitChar baseChar d) = some d := by
  rcases hchar with rfl | rfl <;> interval_cases d <;> rfl

theorem digitsAtStart_map (hchar : baseChar = 'a'.toNat ∨ baseChar = 'A'.toNat)
    (hb : base ≤ 16) {ds : List ℕ} (hds : ∀ d ∈ ds, d < base) :
    digitsAtStart base (ds.map (digitChar baseChar)) = ds := by
  induction ds with
  | nil => rfl
  | cons d ds ih =>
    have hd := hds d List.mem_cons_self
    rw [List.map_cons, digitsAtStart, charDigit_digitChar hchar (hd.trans_le hb)]
    simp only [if_neg (Nat.not_le.mpr hd), ih fun x hx => hds x (List.mem_cons_of_mem d hx)]

theorem numeral_digit_lt (hb : 2 ≤ base) {n d : ℕ}
    (hd : d ∈ if n = 0 then [0] else Nat.digits base n) : d < base := by
  split_ifs at hd with h0
  · rw [List.mem_singleton.mp hd]
    omega
  · exact Nat.digits_lt_base hb hd

theorem horner_digits (base n : ℕ) :
    horner base 0 (if n = 0 then [0] else Nat.digits base n).reverse = n := by
  obtain ⟨ds, hds⟩ : ∃ ds, (if n = 0 then [0] else Nat.digits base n) = ds := ⟨_, rfl⟩
  have hval : Nat.ofDigits base ds = n := by
    rw [← hds]
    split
    next h => simp [h]
    next h => exact Nat.ofDigits_digits ..
  rw [hds, horner, List.foldl_reverse]
  refine Eq.trans ?_ hval
  rw [Nat.ofDigits_eq_foldr]
  congr
  funext x y
  rw [Nat.cast_id, Nat.mul_comm, Nat.add_comm]

/-- The digits of a numeral can be read back. -/
theorem horner_numeral (hchar : baseChar = 'a'.toNat ∨ baseChar = 'A'.toNat) (hb : 2 ≤ base)
    (hb' : base ≤ 16) (n : ℕ) :
    (digitsAtStart base (numeral baseChar base n).reverse).length =
        (numeral baseChar base n).length ∧
      horner base 0 (digitsAtStart base (numeral baseChar base n).reverse) = n := by
  rw [numeral, ← List.map_reverse,
    digitsAtStart_map hchar hb' fun d hd => numeral_digit_lt hb (List.mem_reverse.mp hd),
    List.length_reverse, List.length_map]
  exact ⟨rfl, horner_digits base n⟩

/-! ### The text of an integer -/

/-- An integer object as the runtime makes it: a small integer is a word, and the digits of a big
one are in order. -/
def IntObj.Good (c : MpzConfig) (w : ℕ) : IntObj → Prop
  | .small v => v.natAbs < 2 ^ w
  | .big z => z.Valid c

variable {w : ℕ} {o : IntObj}

theorem IntObj.Good.natAbs_lt (ho : o.Good c w) : (o.value c).natAbs < 2 ^ o.numBits c w := by
  match o, ho with
  | .small v, hv => exact hv
  | .big z, hz =>
    rw [IntObj.value, Mpz.natAbs_value, IntObj.numBits, Nat.mul_comm, Nat.pow_mul]
    exact ofDigits_lt c.one_lt_base hz.below

/-- What is written, whether the object is small or not: only a comma at the end may be
different. -/
theorem intFormatted_eq (ho : o.Good c w) (hb : 2 ≤ base) (hb' : base ≤ 16) (pre : List ℕ) :
    intFormatted c w o base pre baseChar comma = some (signText (o.value c) ++ pre ++
      (groupDigits comma (match o with | .small _ => false | .big _ => o.value c ≠ 0) 0
        (numeral baseChar base (o.value c).natAbs)).reverse) := by
  match o, ho with
  | .small v, hv => exact fmtWord_eq hv hb hb' pre
  | .big z, hz =>
    rw [intFormatted, mpzAsStrInpl_eq hz hb hb', IntObj.value]
    by_cases h0 : z.value c = 0
    · simp [h0, numeral, groupDigits, digitChar]
    · simp [h0]

/-- **Commas.** The text of a small integer has a comma between each group of three digits. That of
a big integer has, too, unless there are whole groups: then another comma is in front of them. -/
theorem int_formatted_comma_iff (ho : o.Good c w) (pre : List ℕ) (baseChar : ℕ) :
    intFormatted c w o 10 pre baseChar ','.toNat = some (signText (o.value c) ++ pre ++
      (grouped ','.toNat (numeral baseChar 10 (o.value c).natAbs)).reverse) ↔
    (∃ v, o = .small v) ∨ o.value c = 0 ∨ ¬3 ∣ (Nat.digits 10 (o.value c).natAbs).length := by
  have hcomma : ','.toNat ≠ 0 := by decide
  rw [intFormatted_eq ho (by decide) (by decide), Option.some.injEq, List.append_cancel_left_eq,
    List.reverse_inj]
  match o, ho with
  | .small v, _ => simpa using groupDigits_false_eq hcomma _
  | .big z, hz =>
    by_cases h0 : z.value c = 0
    · simpa [IntObj.value, h0] using groupDigits_false_eq hcomma _
    · have hne := @numeral_ne_nil 10 baseChar (z.value c).natAbs (by decide)
      have hlen : (numeral baseChar 10 (z.value c).natAbs).length =
          (Nat.digits 10 (z.value c).natAbs).length := by
        rw [numeral, if_neg (Int.natAbs_ne_zero.mpr h0), List.length_map]
      simp only [IntObj.value, h0, ne_eq, not_false_eq_true, decide_true, false_or,
        groupDigits_true_eq_iff hcomma hne, hlen, reduceCtorEq, exists_false]

theorem int_formatted_comma_iff_thousand :
    (intFormatted mpzConfig16 32 (.big ⟨false, false, 2, [1000]⟩) 10 [] 'a'.toNat ','.toNat =
      some (signText 1000 ++ [] ++ (grouped ','.toNat (numeral 'a'.toNat 10 1000)).reverse) ↔
    (∃ v, IntObj.big ⟨false, false, 2, [1000]⟩ = .small v) ∨ (1000 : ℤ) = 0 ∨
      ¬3 ∣ (Nat.digits 10 1000).length) :=
  @int_formatted_comma_iff mpzConfig16 32 (.big ⟨false, false, 2, [1000]⟩)
    ⟨by decide, by decide, by decide⟩ [] 'a'.toNat

/-- **A comma in front**: `10 ** 20` has 21 digits, and its text is
`,100,000,000,000,000,000,000`. -/
theorem comma_before_first_digit :
    (Mpz.mk false false 8 [0, 0x6310, 0x5e2d, 0x6bc7, 5]).value mpzConfig16 = 10 ^ 20 ∧
      intFormatted mpzConfig16 32 (.big ⟨false, false, 8, [0, 0x6310, 0x5e2d, 0x6bc7, 5]⟩) 10 []
        'a'.toNat ','.toNat = some (",100,000,000,000,000,000,000".toList.map Char.toNat) := by
  decide

end Pycopy
