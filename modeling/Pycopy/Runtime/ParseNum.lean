import Pycopy.Runtime.IntText
import Pycopy.Str.Unichar

/-!
# Numerals in Source Text

`mp_parse_num_integer` of `py/parsenum.c` reads digits into a word as long as the value is a small
integer. If it is not, all digits are read again by `mpz_set_from_str`. The first loop skips
underscores wherever they are. The second one does not know them and stops there, so a numeral with
underscores is refused if it is too long for a small integer, and underscores without any digit are
read as zero.

What a numeral is, `IsNumeral` says without the function: white space, a sign, a prefix of the base,
and digits between which single underscores may stand.

## Main results

* `parse_num_integer_iff`: when the texts that are read are the numerals.
* `parse_written`: reading the text of an integer gives this integer.
-/

open DigitList

namespace Pycopy

/-! ### Definitions -/

/-- `ValueError`, with the base that is reported, or a fault of `mpz_set_from_str` -/
inductive ParseError
  | badBase
  | invalidSyntax (base : ℕ)
  | fault (f : MpzFault)
  deriving DecidableEq

/-- `mp_parse_num_base`: the length of the prefix, and the base -/
def mpParseNumBase (base : ℕ) : List UInt8 → ℕ × ℕ
  | c₀ :: c₁ :: _ =>
    if (base = 0 ∨ base = 16) ∧ c₀.toNat = '0'.toNat then
      if c₁.toNat ||| 32 = 'x'.toNat then (2, 16)
      else if base = 0 ∧ c₁.toNat ||| 32 = 'o'.toNat then (2, 8)
      else if base = 0 ∧ c₁.toNat ||| 32 = 'b'.toNat then (2, 2)
      else (0, if base = 0 then 10 else base)
    else if base = 8 ∧ c₀.toNat = '0'.toNat then
      (if c₁.toNat ||| 32 ≠ 'o'.toNat then 0 else 2, base)
    else if base = 2 ∧ c₀.toNat = '0'.toNat then
      (if c₁.toNat ||| 32 ≠ 'b'.toNat then 0 else 2, base)
    else (0, if base = 0 then 10 else base)
  | _ => (0, if base = 0 then 10 else base)

/-- What comes before the digits -/
structure NumHead where
  neg : Bool
  base : ℕ
  /-- the text from `str_val_start` on -/
  start : List UInt8

/-- The start of `mp_parse_num_integer`: leading space, the sign and the prefix -/
def parseNumHead (s : List UInt8) (base : ℕ) : NumHead :=
  let str := s.dropWhile unicharIsspace
  let neg := str.head?.any (·.toNat = '-'.toNat)
  let str := if neg ∨ str.head?.any (·.toNat = '+'.toNat) then str.tail else str
  let (skip, base) := mpParseNumBase base str
  ⟨neg, base, str.drop skip⟩

/-- A character of the text: a digit, an underscore, or the end of the digits -/
inductive ScanChar
  | digit (d : ℕ)
  | underscore
  | stop
  deriving DecidableEq

/-- How the loop of `mp_parse_num_integer` takes a character -/
def scanChar (base : ℕ) (ch : UInt8) : ScanChar :=
  let dig := ch.toNat
  if '0'.toNat ≤ dig ∧ dig ≤ '9'.toNat then
    if dig - '0'.toNat ≥ base then .stop else .digit (dig - '0'.toNat)
  else if dig = '_'.toNat then .underscore
  else
    let dig := dig ||| 0x20
    if 'a'.toNat ≤ dig ∧ dig ≤ 'z'.toNat then
      if dig - ('a'.toNat - 10) ≥ base then .stop else .digit (dig - ('a'.toNat - 10))
    else .stop

/-- The loop of `mp_parse_num_integer`: the value and the rest of the text, or an overflow -/
def parseLoop {w : ℕ} (r : ObjRepr w) (base : ℕ) :
    List UInt8 → BitVec w → Option (BitVec w × List UInt8)
  | [], v => some (v, [])
  | ch :: rest, v =>
    match scanChar base ch with
    | .stop => some (v, ch :: rest)
    | .underscore => parseLoop r base rest v
    | .digit d =>
      if smallIntMulOverflow r v (BitVec.ofNat w base) then none
      else
        let v := v * BitVec.ofNat w base + BitVec.ofNat w d
        if smallIntFits r v then parseLoop r base rest v else none

/-- The label `have_ret_val`: something was read, and only space comes after it. -/
def haveRetVal {α : Type} (h : NumHead) (rest : List UInt8) (val : α) : Except ParseError α :=
  if rest.length = h.start.length ∨ rest.dropWhile unicharIsspace ≠ [] then
    .error (.invalidSyntax h.base)
  else .ok val

/-- `mp_parse_num_integer` -/
def mpParseNumInteger (c : MpzConfig) {w : ℕ} (r : ObjRepr w) (s : List UInt8) (base : ℕ) :
    Except ParseError IntObj :=
  if (base ≠ 0 ∧ base < 2) ∨ base > 36 then .error .badBase
  else
    let h := parseNumHead s base
    match parseLoop r h.base h.start 0 with
    | some (v, rest) => haveRetVal h rest (.small (bif h.neg then (-v).toInt else v.toInt))
    | none =>
      -- the label `overflow`, with `mp_obj_new_int_from_str_len`
      match mpzSetFromStr c mpzInitZero (h.start.map UInt8.toNat) h.neg h.base with
      | .ok (z, n) => haveRetVal h (h.start.drop n) (.big z)
      | .error f => .error (.fault f)

/-! ### The grammar -/

/-- The bytes of a text -/
def textBytes (s : String) : List UInt8 := s.toList.map (UInt8.ofNat ·.toNat)

/-- The value of a digit: its place among the digits and the letters, which may be capital ones -/
def digitOf (ch : UInt8) : Option ℕ :=
  ((textBytes "0123456789abcdefghijklmnopqrstuvwxyz").findIdx? (· == ch)).or
    ((textBytes "0123456789ABCDEFGHIJKLMNOPQRSTUVWXYZ").findIdx? (· == ch))

/-- White space -/
def IsBlank (ch : UInt8) : Prop := ch ∈ textBytes " \t\n\r\x0b\x0c"

/-- The bases in which a numeral may be written if it is read in one, or in any if this is 0, and
what is then in front of its digits -/
def baseLeads (base : ℕ) : List (ℕ × List UInt8) :=
  (if base = 0 then 10 else base, []) ::
    ((if base = 0 ∨ base = 16 then [(16, textBytes "0x"), (16, textBytes "0X")] else []) ++
      (if base = 0 ∨ base = 8 then [(8, textBytes "0o"), (8, textBytes "0O")] else []) ++
      if base = 0 ∨ base = 2 then [(2, textBytes "0b"), (2, textBytes "0B")] else [])

/-- The texts of a sign -/
def signTexts (neg : Bool) : List (List UInt8) :=
  if neg then [textBytes "-"] else [[], textBytes "+"]

/-- A text has the parts of a numeral: white space, a sign, what is in front of the digits in the
base `b`, digits and underscores in any order, and white space again. -/
structure NumeralParts (base : ℕ) (s : List UInt8) (neg : Bool) (b : ℕ) (lead body : List UInt8) :
    Prop where
  base_ok : base = 0 ∨ 2 ≤ base ∧ base ≤ 36
  lead_mem : (b, lead) ∈ baseLeads base
  body_ne_nil : body ≠ []
  body_char : ∀ ch ∈ body, ch = 95 ∨ ∃ d < b, digitOf ch = some d
  text : ∃ before sign after, s = before ++ (sign ++ (lead ++ (body ++ after))) ∧
    (∀ ch ∈ before, IsBlank ch) ∧ sign ∈ signTexts neg ∧ ∀ ch ∈ after, IsBlank ch

/-- Each underscore is in front of a digit, and behind one or behind what is in front of all the
digits. -/
def Separated (lead body : List UInt8) : Prop :=
  (body.head? = some 95 → lead ≠ []) ∧ body.getLast? ≠ some 95 ∧ ¬[95, 95] <:+: body

/-- The number of the digits -/
def bodyValue (b : ℕ) (body : List UInt8) : ℕ := horner b 0 (body.filterMap digitOf)

/-- A text is a numeral of an integer. -/
def IsNumeral (base : ℕ) (s : List UInt8) (v : ℤ) : Prop :=
  ∃ neg b lead body, NumeralParts base s neg b lead body ∧ Separated lead body ∧
    v = signed neg (bodyValue b body)

/-! ### Characters -/

/-- The digits and underscores at the start of a text -/
def digitSpan (base : ℕ) (start : List UInt8) : List UInt8 :=
  start.takeWhile (scanChar base · ≠ .stop)

theorem unicharIsspace_iff (ch : UInt8) :
    unicharIsspace ch = true ↔ 9 ≤ ch.toNat ∧ ch.toNat ≤ 13 ∨ ch.toNat = 32 := by
  simp [unicharIsspace, UInt8.le_iff_toNat_le, ← UInt8.toNat_inj]

theorem isBlank_iff (ch : UInt8) : IsBlank ch ↔ unicharIsspace ch = true := by
  have hbytes : textBytes " \t\n\r\x0b\x0c" = [32, 9, 10, 13, 11, 12] := by decide
  simp only [IsBlank, hbytes, unicharIsspace_iff, List.mem_cons, List.not_mem_nil, or_false,
    ← UInt8.toNat_inj, UInt8.reduceToNat]
  omega

/-- The digits and then the letters from `k + 10` on -/
def digitByte (k d : ℕ) : UInt8 := UInt8.ofNat (if d < 10 then 48 + d else k + d)

theorem lower_digits : textBytes "0123456789abcdefghijklmnopqrstuvwxyz" =
    (List.range 36).map (digitByte 87) := by
  decide +kernel

theorem upper_digits : textBytes "0123456789ABCDEFGHIJKLMNOPQRSTUVWXYZ" =
    (List.range 36).map (digitByte 55) := by
  decide +kernel

theorem place_eq_some {k : ℕ} (hk : 48 ≤ k) (hk' : k < 128) (ch : UInt8) (d : ℕ) :
    ((List.range 36).map (digitByte k)).findIdx? (· == ch) = some d ↔
      d < 36 ∧ (if d < 10 then 48 + d else k + d) = ch.toNat := by
  have hbyte : ∀ i < 36, (digitByte k i).toNat = if i < 10 then 48 + i else k + i := by
    intro i hi
    rw [digitByte, UInt8.toNat_ofNat']
    split_ifs <;> omega
  rw [List.findIdx?_eq_some_iff_getElem]
  simp only [List.length_map, List.length_range, List.getElem_map, List.getElem_range, beq_iff_eq,
    ← UInt8.toNat_inj]
  constructor
  · rintro ⟨hd, heq, -⟩
    exact ⟨hd, hbyte d hd ▸ heq⟩
  · rintro ⟨hd, heq⟩
    refine ⟨hd, (hbyte d hd).trans heq, fun i hi => ?_⟩
    rw [hbyte i (hi.trans hd)]
    split_ifs at heq ⊢ <;> omega

/-- The second loop takes the same characters as digits. -/
theorem charDigit_eq (ch : UInt8) : charDigit ch.toNat = digitOf ch := by
  ext d
  rw [digitOf, lower_digits, upper_digits, Option.or_eq_some_iff, Option.eq_none_iff_forall_ne_some]
  simp only [ne_eq, place_eq_some, Nat.reduceLeDiff, Nat.reduceLT, charDigit, Char.reduceToNat]
  grind

theorem digitOf_blank (ch : UInt8) (h : ch = 95 ∨ IsBlank ch) : digitOf ch = none := by
  rw [isBlank_iff, unicharIsspace_iff, ← UInt8.toNat_inj] at h
  rw [← charDigit_eq]
  grind [charDigit]

/-- A digit or an underscore is no space and no sign. -/
theorem not_head_of_digit (ch : UInt8) (h : ch = 95 ∨ (digitOf ch).isSome) :
    unicharIsspace ch = false ∧ ch.toNat ≠ '-'.toNat ∧ ch.toNat ≠ '+'.toNat := by
  rw [← charDigit_eq, ← UInt8.toNat_inj] at h
  rw [← Bool.not_eq_true, unicharIsspace_iff]
  grind [charDigit]

theorem or_bit {n : ℕ} : n < 256 → n ||| 32 = if n / 32 % 2 = 1 then n else n + 32 := by
  decide +revert +kernel

/-- The letters behind a zero that stand for a base are large digits. -/
theorem lead_letter (ch : UInt8) :
    (ch.toNat ||| 32 = 'x'.toNat → (ch = 120 ∨ ch = 88) ∧ digitOf ch = some 33) ∧
    (ch.toNat ||| 32 = 'o'.toNat → (ch = 111 ∨ ch = 79) ∧ digitOf ch = some 24) ∧
    (ch.toNat ||| 32 = 'b'.toNat → (ch = 98 ∨ ch = 66) ∧ digitOf ch = some 11) := by
  simp only [← charDigit_eq, ← UInt8.toNat_inj, or_bit ch.toNat_lt]
  grind [charDigit]

/-- How the first loop takes a character in the largest base -/
theorem scanChar_largest (ch : UInt8) : scanChar 36 ch = if ch = 95 then .underscore else
    match digitOf ch with | none => .stop | some d => .digit d := by
  simp only [← charDigit_eq, ← UInt8.toNat_inj, scanChar, charDigit, or_bit ch.toNat_lt]
  grind

variable {base : ℕ}

/-- What the first loop does with a character: it is an underscore, a digit or the end. -/
theorem scanChar_cases (base : ℕ) (ch : UInt8) :
    ch = 95 ∧ digitOf ch = none ∧ scanChar base ch = .underscore ∨
    ch ≠ 95 ∧ (∃ d < base, digitOf ch = some d ∧ scanChar base ch = .digit d) ∨
    ch ≠ 95 ∧ (∀ d, digitOf ch = some d → base ≤ d) ∧ scanChar base ch = .stop := by
  have hbase : scanChar base ch = match scanChar 36 ch with
      | .digit d => if d < base then .digit d else .stop
      | other => other := by
    simp only [scanChar, Char.reduceToNat]
    split_ifs <;> first | rfl | omega | simp_all
  rw [hbase, scanChar_largest]
  by_cases hund : ch = 95
  · exact .inl ⟨hund, digitOf_blank ch (.inl hund), by rw [if_pos hund]⟩
  · rw [if_neg hund]
    cases hd : digitOf ch with
    | none => exact .inr (.inr ⟨hund, by simp, rfl⟩)
    | some d =>
      by_cases hlt : d < base
      · exact .inr (.inl ⟨hund, d, hlt, rfl, if_pos hlt⟩)
      · exact .inr (.inr ⟨hund, by simpa using Nat.not_lt.mp hlt, if_neg hlt⟩)

theorem scanChar_ne_stop_iff {ch : UInt8} :
    scanChar base ch ≠ .stop ↔ ch = 95 ∨ ∃ d < base, digitOf ch = some d := by
  obtain ⟨rfl, -, h⟩ | ⟨hund, d, hlt, hd, h⟩ | ⟨hund, hge, h⟩ := scanChar_cases base ch
  · simp [h]
  · simp [h, hd, hlt]
  · simp only [h, ne_eq, not_true_eq_false, hund, false_or, false_iff, not_exists, not_and]
    exact fun d hlt hd => absurd (hge d hd) (Nat.not_le.mpr hlt)

theorem digitSpan_cons (ch : UInt8) (rest : List UInt8) : digitSpan base (ch :: rest) =
    if scanChar base ch = .stop then [] else ch :: digitSpan base rest := by
  rw [digitSpan, List.takeWhile_cons]
  by_cases h : scanChar base ch = .stop <;> simp [h, digitSpan]

theorem digitSpan_append_drop (base : ℕ) (start : List UInt8) :
    digitSpan base start ++ start.drop (digitSpan base start).length = start :=
  List.prefix_iff_eq_append.mp (List.takeWhile_prefix _)

/-! ### The first loop -/

theorem le_horner (hb : 0 < base) (v : ℕ) (ds : List ℕ) : v ≤ horner base v ds := by
  induction ds generalizing v with
  | nil => exact Nat.le_refl v
  | cons d ds ih =>
    calc v ≤ v * base := Nat.le_mul_of_pos_right v hb
      _ ≤ v * base + d := Nat.le_add_right ..
      _ ≤ horner base (v * base + d) ds := ih _

variable {w : ℕ} (r : ObjRepr w)

theorem inRange_natCast (n : ℕ) : InRange r n ↔ n < 2 ^ r.valueBits := by
  have hpos : (0 : ℤ) ≤ 2 ^ r.valueBits := by positivity
  rw [InRange, and_iff_right (by omega)]
  norm_cast

theorem toInt_ofNat_of_le (h8 : 8 ≤ w) {n : ℕ} (hn : n ≤ 36) : (BitVec.ofNat w n).toInt = n := by
  have hpow : (2 : ℤ) ^ 7 ≤ 2 ^ (w - 1) := pow_le_pow_right₀ (by decide) (by omega)
  have hlt : 2 ^ 7 < 2 ^ w := Nat.pow_lt_pow_right (by decide) (by omega)
  rw [BitVec.toInt_eq_toNat_bmod, BitVec.toNat_ofNat, Nat.mod_eq_of_lt (by omega)]
  exact bmod_of_bounds (by omega) (by omega) (by omega)

/-- One more digit of a small integer does not overflow the word. -/
theorem toInt_mul_add {v : BitVec w} {n d : ℕ} (hv : v.toInt = n) (hb : base ≤ 36) (hd : d < base)
    (hn : n * base < 2 ^ r.valueBits) :
    (v * BitVec.ofNat w base + BitVec.ofNat w d).toInt = (n * base + d : ℕ) := by
  have h8 := r.eight_le
  have hle := two_mul_two_pow_valueBits_le r
  have hpow : (2 : ℤ) ^ 7 ≤ 2 ^ (w - 1) := pow_le_pow_right₀ (by decide) (by omega)
  have hn' : ((n * base : ℕ) : ℤ) < 2 ^ r.valueBits := by exact_mod_cast hn
  rw [BitVec.toInt_add, BitVec.toInt_mul, hv, toInt_ofNat_of_le r.eight_le hb,
    toInt_ofNat_of_le r.eight_le (by omega : d ≤ 36), Int.bmod_add_bmod,
    ← Nat.cast_mul, ← Nat.cast_add]
  exact bmod_of_bounds (by omega) (by omega) (by omega)

/-- **The first loop** gives up if and only if the digits are not a small integer. -/
theorem parseLoop_eq (hb : 2 ≤ base) (hb' : base ≤ 36) (start : List UInt8) {v : BitVec w} {n : ℕ}
    (hv : v.toInt = n) (hn : n < 2 ^ r.valueBits) {m : ℕ}
    (hm : horner base n ((digitSpan base start).filterMap digitOf) = m) :
    (m < 2 ^ r.valueBits ∧ ∃ v' : BitVec w, v'.toInt = m ∧
      parseLoop r base start v = some (v', start.drop (digitSpan base start).length)) ∨
    (2 ^ r.valueBits ≤ m ∧ parseLoop r base start v = none) := by
  induction start generalizing v n with
  | nil => exact .inl ⟨by rwa [← hm], v, by rw [hv, ← hm]; rfl, rfl⟩
  | cons ch rest ih =>
    rw [parseLoop]
    rw [digitSpan_cons] at hm ⊢
    obtain ⟨-, hnone, hch⟩ | ⟨-, d, hd, hdigit, hch⟩ | ⟨-, -, hch⟩ := scanChar_cases base ch
    · rw [hch, if_neg ScanChar.noConfusion, List.filterMap_cons_none hnone] at hm
      rw [hch]
      exact ih hv hn hm
    · rw [hch, if_neg ScanChar.noConfusion, List.filterMap_cons_some hdigit] at hm
      have hle : n * base + d ≤ m := hm ▸ le_horner (by omega) (n * base + d) _
      have hover : smallIntMulOverflow r v (BitVec.ofNat w base) = false ↔
          n * base < 2 ^ r.valueBits := by
        rw [smallIntMulOverflow_iff, hv, toInt_ofNat_of_le r.eight_le hb', ← Nat.cast_mul,
          inRange_natCast]
      simp only [hch]
      split
      next h => exact .inr ⟨by rw [h] at hover; simp at hover; omega, rfl⟩
      next h =>
        have hmul := hover.mp (Bool.eq_false_iff.mpr h)
        have hadd := toInt_mul_add r hv hb' hd hmul
        have hfits := smallIntFits_iff r (v * BitVec.ofNat w base + BitVec.ofNat w d)
        rw [hadd, inRange_natCast] at hfits
        split
        next h' => exact ih hadd (hfits.mp h') hm
        next h' => exact .inr ⟨(Nat.not_lt.mp fun hlt => h' (hfits.mpr hlt)).trans hle, rfl⟩
    · rw [hch] at hm ⊢
      exact .inl ⟨by rwa [← hm], v, by rw [hv, ← hm]; rfl, rfl⟩

/-! ### The second loop -/

/-- The second loop reads the digits up to the first underscore. -/
theorem digitsAtStart_eq (base : ℕ) (start : List UInt8) :
    digitsAtStart base (start.map UInt8.toNat) =
        ((digitSpan base start).takeWhile (· ≠ 95)).filterMap digitOf ∧
      (digitsAtStart base (start.map UInt8.toNat)).length =
        ((digitSpan base start).takeWhile (· ≠ 95)).length := by
  induction start with
  | nil => exact ⟨rfl, rfl⟩
  | cons ch rest ih =>
    rw [List.map_cons, digitsAtStart, charDigit_eq, digitSpan_cons]
    obtain ⟨rfl, hnone, hch⟩ | ⟨hund, d, hd, hdigit, hch⟩ | ⟨-, hge, hch⟩ := scanChar_cases base ch
    · rw [hnone, hch]
      exact ⟨rfl, rfl⟩
    · rw [hdigit, hch, if_neg ScanChar.noConfusion,
        List.takeWhile_cons_of_pos (by simpa using hund), List.filterMap_cons_some hdigit,
          List.length_cons, ← ih.1, ← ih.2]
      simp only [ge_iff_le, if_neg (Nat.not_le.mpr hd), List.length_cons, and_self]
    · rw [if_pos hch]
      cases hdigit : digitOf ch with
      | none => exact ⟨rfl, rfl⟩
      | some d =>
        simp only [ge_iff_le, if_pos (hge d hdigit)]
        exact ⟨rfl, rfl⟩

variable {c : MpzConfig}

theorem mpParseNumBase_bounds (hb : ¬((base ≠ 0 ∧ base < 2) ∨ base > 36)) (str : List UInt8) :
    2 ≤ (mpParseNumBase base str).2 ∧ (mpParseNumBase base str).2 ≤ 36 := by
  fun_cases mpParseNumBase base str <;> grind

theorem haveRetVal_map {α β : Type} (h : NumHead) (rest : List UInt8) (val : α) (f : α → β) :
    (haveRetVal h rest val).map f = haveRetVal h rest (f val) := by
  rw [haveRetVal, haveRetVal]
  split <;> rfl

/-- What is read: the digits, unless there is an underscore and the integer is not small. -/
theorem mpParseNumInteger_map (hc : 6 ≤ c.digSize) {s : List UInt8}
    (hb : ¬((base ≠ 0 ∧ base < 2) ∨ base > 36))
    {head : NumHead} (hhead : parseNumHead s base = head) {span : List UInt8}
      (hspan : digitSpan head.base head.start = span) :
    (mpParseNumInteger c r s base).map (IntObj.value c) =
      if 95 ∈ span ∧ 2 ^ r.valueBits ≤ bodyValue head.base span then
        .error (.invalidSyntax head.base)
      else haveRetVal head (head.start.drop span.length)
        (signed head.neg (bodyValue head.base span)) := by
  have hbase : 2 ≤ head.base ∧ head.base ≤ 36 := hhead ▸ mpParseNumBase_bounds hb _
  have hbase' : head.base ≤ c.base := by
    have := Nat.pow_le_pow_right Nat.two_pos hc
    rw [MpzConfig.base]
    omega
  rw [mpParseNumInteger, if_neg hb]
  simp only [hhead]
  obtain ⟨m, hm⟩ : ∃ m, bodyValue head.base span = m := ⟨_, rfl⟩
  have hhorner : horner head.base 0 ((digitSpan head.base head.start).filterMap digitOf) = m :=
    hspan ▸ hm
  obtain ⟨hlt, v, hv, hloop⟩ | ⟨hge, hloop⟩ := parseLoop_eq r hbase.1 hbase.2 head.start
    (v := 0) (n := 0) (by simp) (Nat.two_pow_pos _) hhorner
  · have hneg : (-v).toInt = -(m : ℤ) := by
      have hm' : (m : ℤ) < 2 ^ r.valueBits := by exact_mod_cast hlt
      rw [BitVec.toInt_neg, hv, bmod_of_two_mul_bounds r (by omega) (by omega)]
    rw [hm, if_neg fun h => absurd hlt (Nat.not_lt.mpr h.2), hloop, hspan]
    simp only [haveRetVal_map, IntObj.value]
    cases head.neg
    · exact congrArg (haveRetVal head _) hv
    · exact congrArg (haveRetVal head _) hneg
  · obtain ⟨z, hset, -, hval⟩ := mpzSetFromStr_spec
      (show mpzInitZero.fixedDig = false from rfl)
      (Nat.lt_of_lt_of_le Nat.two_pos hbase.1) hbase' (hbase.2.trans (by decide))
      (head.start.map UInt8.toNat) head.neg
    obtain ⟨hdigits, hlen⟩ := digitsAtStart_eq head.base head.start
    rw [hlen] at hset
    rw [hdigits] at hval
    rw [hspan] at hset hval
    rw [hm, hloop]
    simp only [hset, haveRetVal_map, IntObj.value, hval]
    by_cases hund : 95 ∈ span
    · -- the rest starts with the first underscore
      obtain ⟨pre, post, hsplit, hpre⟩ := List.eq_append_cons_of_mem hund
      have htake : span.takeWhile (· ≠ 95) = pre := by
        have hpos : ∀ ch ∈ pre, decide (ch ≠ 95) = true := fun ch hch =>
          decide_eq_true (ne_of_mem_of_not_mem hch hpre)
        rw [hsplit, List.takeWhile_append_of_pos hpos]
        simp
      have hstart : head.start = pre ++ 95 :: (post ++ head.start.drop span.length) := by
        have happend := digitSpan_append_drop head.base head.start
        rw [hspan] at happend
        nth_rw 1 [hsplit] at happend
        simpa using happend.symm
      have hdrop : head.start.drop pre.length = 95 :: (post ++ head.start.drop span.length) := by
        nth_rw 1 [hstart]
        exact List.drop_left
      rw [if_pos ⟨hund, hge⟩, htake, hdrop, haveRetVal, if_pos (.inr (by simp [unicharIsspace]))]
    · have htake : span.takeWhile (· ≠ 95) = span :=
        List.takeWhile_eq_self_iff.mpr fun ch hch =>
          decide_eq_true (ne_of_mem_of_not_mem hch hund)
      rw [if_neg fun h => hund h.1, htake, ← bodyValue, hm]

/-! ### The parts of a numeral -/

/-- The text behind white space and a sign -/
def numText (s : List UInt8) : List UInt8 :=
  let str := s.dropWhile unicharIsspace
  if str.head?.any (·.toNat = '-'.toNat) ∨ str.head?.any (·.toNat = '+'.toNat) then str.tail
  else str

theorem parseNumHead_eq (s : List UInt8) (base : ℕ) : parseNumHead s base =
    ⟨(s.dropWhile unicharIsspace).head?.any (·.toNat = '-'.toNat),
      (mpParseNumBase base (numText s)).2,
      (numText s).drop (mpParseNumBase base (numText s)).1⟩ := rfl

theorem exists_sign (s : List UInt8) :
    ∃ neg, ∃ sign ∈ signTexts neg, s.dropWhile unicharIsspace = sign ++ numText s := by
  rw [numText]
  generalize s.dropWhile unicharIsspace = str
  cases str with
  | nil => exact ⟨false, [], by simp [signTexts], rfl⟩
  | cons ch rest =>
    by_cases hminus : ch.toNat = '-'.toNat
    · obtain rfl : ch = 45 := UInt8.toNat_inj.mp hminus
      exact ⟨true, [45], by decide, rfl⟩
    by_cases hplus : ch.toNat = '+'.toNat
    · obtain rfl : ch = 43 := UInt8.toNat_inj.mp hplus
      exact ⟨false, [43], by decide, rfl⟩
    · exact ⟨false, [], by decide, by simpa using ⟨hminus, hplus⟩⟩

/-- What the function skips in front of the digits may be there. -/
theorem mem_baseLeads (base : ℕ) (str : List UInt8) :
    ((mpParseNumBase base str).2, str.take (mpParseNumBase base str).1) ∈ baseLeads base := by
  have hdecimal : (if base = 0 then 10 else base, []) ∈ baseLeads base := by simp [baseLeads]
  fun_cases mpParseNumBase base str
  case case1 c₀ c₁ _ h hx =>
    obtain rfl : c₀ = 48 := UInt8.toNat_inj.mp h.2
    rcases ((lead_letter c₁).1 hx).1 with rfl | rfl <;> simp [baseLeads, h.1, textBytes]
  case case2 c₀ c₁ _ h _ ho =>
    obtain rfl : c₀ = 48 := UInt8.toNat_inj.mp h.2
    rcases ((lead_letter c₁).2.1 ho.2).1 with rfl | rfl <;> simp [baseLeads, ho.1, textBytes]
  case case3 c₀ c₁ _ h _ _ hb =>
    obtain rfl : c₀ = 48 := UInt8.toNat_inj.mp h.2
    rcases ((lead_letter c₁).2.2 hb.2).1 with rfl | rfl <;> simp [baseLeads, hb.1, textBytes]
  case case5 c₀ c₁ _ _ h =>
    obtain ⟨rfl, h0⟩ := h
    obtain rfl : c₀ = 48 := UInt8.toNat_inj.mp h0
    split
    next hne => exact hdecimal
    next ho =>
      rcases ((lead_letter c₁).2.1 (not_not.mp ho)).1 with rfl | rfl <;> simp [baseLeads, textBytes]
  case case6 c₀ c₁ _ _ _ h =>
    obtain ⟨rfl, h0⟩ := h
    obtain rfl : c₀ = 48 := UInt8.toNat_inj.mp h0
    split
    next hne => exact hdecimal
    next hb =>
      rcases ((lead_letter c₁).2.2 (not_not.mp hb)).1 with rfl | rfl <;> simp [baseLeads, textBytes]
  all_goals exact hdecimal

/-- What is in front of the digits is none, or a zero and a letter. -/
theorem baseLeads_cases {b : ℕ} {lead : List UInt8} (h : (b, lead) ∈ baseLeads base) :
    lead = [] ∧ b = (if base = 0 then 10 else base) ∨
    ∃ letter : UInt8, lead = [48, letter] ∧
      (b = 16 ∧ (base = 0 ∨ base = 16) ∧ letter.toNat ||| 32 = 'x'.toNat ∨
        b = 8 ∧ (base = 0 ∨ base = 8) ∧ letter.toNat ||| 32 = 'o'.toNat ∨
        b = 2 ∧ (base = 0 ∨ base = 2) ∧ letter.toNat ||| 32 = 'b'.toNat) := by
  rw [baseLeads, List.mem_cons] at h
  rcases h with h | h
  · obtain ⟨rfl, rfl⟩ := Prod.mk.inj h
    exact .inl ⟨rfl, rfl⟩
  · right
    rw [List.mem_append, List.mem_append] at h
    rcases h with (h | h) | h <;> split_ifs at h with hb <;>
      simp only [List.mem_cons, List.not_mem_nil, or_false, Prod.mk.injEq] at h <;>
      obtain ⟨rfl, rfl⟩ | ⟨rfl, rfl⟩ := h
    · exact ⟨_, rfl, .inl ⟨rfl, hb, by decide⟩⟩
    · exact ⟨_, rfl, .inl ⟨rfl, hb, by decide⟩⟩
    · exact ⟨_, rfl, .inr (.inl ⟨rfl, hb, by decide⟩)⟩
    · exact ⟨_, rfl, .inr (.inl ⟨rfl, hb, by decide⟩)⟩
    · exact ⟨_, rfl, .inr (.inr ⟨rfl, hb, by decide⟩)⟩
    · exact ⟨_, rfl, .inr (.inr ⟨rfl, hb, by decide⟩)⟩

theorem mpParseNumBase_lead {b : ℕ} {lead rest : List UInt8} (h : (b, lead) ∈ baseLeads base)
    (hrest : ∀ ch ∈ rest, digitOf ch = none ∨ ∃ d < b, digitOf ch = some d) :
    mpParseNumBase base (lead ++ rest) = (lead.length, b) := by
  obtain ⟨rfl, rfl⟩ | ⟨letter, rfl, hletter⟩ := baseLeads_cases h
  · cases rest with
    | nil => rfl
    | cons c₀ rest =>
      cases rest with
      | nil => rfl
      | cons c₁ rest =>
        have hdigit := hrest c₁ (by simp)
        obtain ⟨hx, ho, hbin⟩ := lead_letter c₁
        simp only [List.nil_append, List.length_nil, mpParseNumBase]
        grind
  · have h48 : (48 : UInt8).toNat = '0'.toNat := rfl
    rcases hletter with ⟨rfl, hb, hl⟩ | ⟨rfl, hb, hl⟩ | ⟨rfl, hb, hl⟩ <;>
      rcases hb with rfl | rfl <;>
      simp [mpParseNumBase, h48, hl]

namespace NumeralParts

variable {neg : Bool} {b : ℕ} {lead body : List UInt8}

/-- A numeral starts with a character that is no space and no sign. -/
theorem exists_head (h : NumeralParts base s neg b lead body) (after : List UInt8) :
    ∃ ch rest, lead ++ (body ++ after) = ch :: rest ∧ unicharIsspace ch = false ∧
      ch.toNat ≠ '-'.toNat ∧ ch.toNat ≠ '+'.toNat := by
  obtain ⟨rfl, -⟩ | ⟨letter, rfl, -⟩ := baseLeads_cases h.lead_mem
  · obtain ⟨ch, rest, rfl⟩ := List.exists_cons_of_ne_nil h.body_ne_nil
    refine ⟨ch, rest ++ after, rfl, not_head_of_digit ch ?_⟩
    rcases h.body_char ch (by simp) with rfl | ⟨d, -, hd⟩
    · exact .inl rfl
    · exact .inr (by simp [hd])
  · exact ⟨48, letter :: (body ++ after), rfl, by decide⟩

/-- What the function finds before the digits, and where these end -/
theorem read (h : NumeralParts base s neg b lead body) : ∃ after,
    (∀ ch ∈ after, unicharIsspace ch = true) ∧ numText s = lead ++ (body ++ after) ∧
      parseNumHead s base = ⟨neg, b, body ++ after⟩ ∧ digitSpan b (body ++ after) = body := by
  obtain ⟨before, sign, after, hs, hbefore, hsign, hafter⟩ := h.text
  obtain ⟨ch, rest, hrest, hspace, hminus, hplus⟩ := h.exists_head after
  have htext : numText s = lead ++ (body ++ after) ∧
      (s.dropWhile unicharIsspace).head?.any (·.toNat = '-'.toNat) = neg := by
    rw [numText, hs,
      List.dropWhile_append_of_pos fun ch hch => (isBlank_iff ch).mp (hbefore ch hch), hrest]
    cases neg with
    | true =>
      obtain rfl := List.mem_singleton.mp hsign
      exact ⟨rfl, rfl⟩
    | false =>
      obtain rfl | hsign := List.mem_cons.mp hsign
      · simpa [hspace] using ⟨⟨hminus, hplus⟩, hminus⟩
      · obtain rfl := List.mem_singleton.mp hsign
        exact ⟨rfl, rfl⟩
  have hchars : ∀ ch ∈ body ++ after, digitOf ch = none ∨ ∃ d < b, digitOf ch = some d := by
    intro ch hch
    rcases List.mem_append.mp hch with hbody | hblank
    · exact (h.body_char ch hbody).imp_left fun hund => digitOf_blank ch (.inl hund)
    · exact .inl (digitOf_blank ch (.inr (hafter ch hblank)))
  refine ⟨after, fun ch hch => (isBlank_iff ch).mp (hafter ch hch), htext.1, ?_, ?_⟩
  · rw [parseNumHead_eq, htext.1, htext.2, mpParseNumBase_lead h.lead_mem hchars, List.drop_left]
  · have hstop : ∀ ch ∈ after, scanChar b ch = .stop := by
      intro ch hch
      by_contra hcon
      rcases scanChar_ne_stop_iff.mp hcon with rfl | ⟨d, -, hd⟩
      · exact absurd (hafter 95 hch) (by simp [isBlank_iff, unicharIsspace])
      · rw [digitOf_blank ch (.inr (hafter ch hch))] at hd
        cases hd
    rw [digitSpan, List.takeWhile_append_of_pos fun ch hch =>
      decide_eq_true (scanChar_ne_stop_iff.mpr (h.body_char ch hch))]
    cases after with
    | nil => exact List.append_nil body
    | cons ch after =>
      rw [List.takeWhile_cons_of_neg (by simp [hstop ch]), List.append_nil]

/-- A text has the parts of a numeral in one way only. -/
theorem unique (h : NumeralParts base s neg b lead body) {neg' : Bool} {b' : ℕ}
    {lead' body' : List UInt8} (h' : NumeralParts base s neg' b' lead' body') :
    neg' = neg ∧ b' = b ∧ lead' = lead ∧ body' = body := by
  obtain ⟨after, -, htext, hhead, hspan⟩ := h.read
  obtain ⟨after', -, htext', hhead', hspan'⟩ := h'.read
  obtain ⟨rfl, rfl, hstart⟩ := NumHead.mk.inj (hhead.symm.trans hhead')
  rw [hstart] at hspan htext
  exact ⟨rfl, rfl, List.append_cancel_right (htext'.symm.trans htext), hspan'.symm.trans hspan⟩

/-- The integer is read unless there is an underscore and it is not a small one. -/
theorem mpParseNumInteger_eq (h : NumeralParts base s neg b lead body) (hc : 6 ≤ c.digSize) :
    (mpParseNumInteger c r s base).map (IntObj.value c) =
      if 95 ∈ body ∧ 2 ^ r.valueBits ≤ bodyValue b body then .error (.invalidSyntax b)
      else .ok (signed neg (bodyValue b body)) := by
  obtain ⟨after, hafter, -, hhead, hspan⟩ := h.read
  have hb : ¬((base ≠ 0 ∧ base < 2) ∨ base > 36) := by
    have := h.base_ok
    omega
  have hlen : after.length ≠ (body ++ after).length := by
    have := List.length_pos_iff.mpr h.body_ne_nil
    rw [List.length_append]
    omega
  rw [mpParseNumInteger_map r hc hb hhead hspan, List.drop_left, haveRetVal,
    if_neg (not_or.mpr ⟨hlen, not_not.mpr (List.dropWhile_eq_nil_iff.mpr hafter)⟩)]

end NumeralParts

/-- A text that is accepted has the parts of a numeral. -/
theorem exists_numeralParts (hc : 6 ≤ c.digSize) {s : List UInt8} {v : ℤ}
    (h : (mpParseNumInteger c r s base).map (IntObj.value c) = .ok v) :
    ∃ neg b lead body, NumeralParts base s neg b lead body := by
  by_cases hb : (base ≠ 0 ∧ base < 2) ∨ base > 36
  · rw [mpParseNumInteger, if_pos hb] at h
    cases h
  obtain ⟨head, hhead⟩ : ∃ head, parseNumHead s base = head := ⟨_, rfl⟩
  obtain ⟨span, hspan⟩ : ∃ span, digitSpan head.base head.start = span := ⟨_, rfl⟩
  have hsplit : span ++ head.start.drop span.length = head.start :=
    hspan ▸ digitSpan_append_drop _ head.start
  rw [mpParseNumInteger_map r hc hb hhead hspan, haveRetVal] at h
  split_ifs at h with _ hbad
  obtain ⟨hlen, hrest⟩ := not_or.mp hbad
  obtain ⟨neg, sign, hsign, hstr⟩ := exists_sign s
  have hlead := mem_baseLeads base (numText s)
  rw [parseNumHead_eq] at hhead
  refine ⟨neg, head.base, (numText s).take (mpParseNumBase base (numText s)).1, span, by omega,
    hhead ▸ hlead, by rintro rfl; exact hlen rfl, ?_,
    s.takeWhile unicharIsspace, sign, head.start.drop span.length, ?_, ?_, hsign, ?_⟩
  · intro ch hch
    rw [← hspan] at hch
    have hscan := List.mem_takeWhile_imp hch
    exact scanChar_ne_stop_iff.mp (of_decide_eq_true hscan)
  · rw [hsplit, ← hhead, List.take_append_drop, ← hstr, List.takeWhile_append_dropWhile]
  · intro ch hch
    exact (isBlank_iff ch).mpr (List.mem_takeWhile_imp hch)
  · intro ch hch
    exact (isBlank_iff ch).mpr (List.dropWhile_eq_nil_iff.mp (not_not.mp hrest) ch hch)

theorem separated_of_not_mem {lead body : List UInt8} (h : 95 ∉ body) : Separated lead body :=
  ⟨fun hhead => absurd (List.mem_of_mem_head? hhead) h, fun hlast => h (List.mem_of_getLast? hlast),
    fun hpair => h (hpair.subset (by simp))⟩

/-- A text without space and sign in which the first loop stops nowhere -/
theorem numeralParts_plain {b : ℕ} {lead body : List UInt8}
    (hbase : base = 0 ∨ 2 ≤ base ∧ base ≤ 36) (hlead : (b, lead) ∈ baseLeads base)
    (hne : body ≠ []) (hbody : body.all (scanChar b · ≠ .stop)) (hs : s = lead ++ body) :
    NumeralParts base s false b lead body :=
  ⟨hbase, hlead, hne,
    fun ch hch => scanChar_ne_stop_iff.mp (of_decide_eq_true (List.all_eq_true.mp hbody ch hch)),
    [], [], [], by simp [hs], by simp, by decide, by simp⟩

/-- `0x1_0` -/
theorem parts_hex :
    NumeralParts 0 (textBytes "0x1_0") false 16 (textBytes "0x") (textBytes "1_0") :=
  numeralParts_plain (.inl rfl) (by decide) (by decide) (by decide) rfl

/-- A text in which an underscore separates no digits is no numeral. -/
theorem not_isNumeral_of_parts {neg : Bool} {b : ℕ} {lead body : List UInt8}
    (h : NumeralParts base s neg b lead body) (hsep : ¬Separated lead body) (v : ℤ) :
    ¬IsNumeral base s v := by
  rintro ⟨neg', b', lead', body', h', hsep', -⟩
  obtain ⟨-, -, rfl, rfl⟩ := h.unique h'
  exact hsep hsep'

section Written

variable {baseChar : ℕ}

theorem digitOf_digitChar {d : ℕ} (hd : d < 16)
    (hchar : d < 10 ∨ baseChar = 'a'.toNat ∨ baseChar = 'A'.toNat) :
    digitOf (UInt8.ofNat (digitChar baseChar d)) = some d := by
  rw [← charDigit_eq, UInt8.toNat_ofNat']
  grind [charDigit, digitChar]

theorem signed_natAbs (v : ℤ) : signed (decide (v < 0)) v.natAbs = v := by
  by_cases hneg : v < 0
  · simp [signed, hneg, abs_of_neg hneg]
  · simp [signed, hneg, abs_of_nonneg (not_lt.mp hneg)]

/-- A text that was written is a numeral without underscores. -/
theorem numeralParts_written (hchar : base ≤ 10 ∨ baseChar = 'a'.toNat ∨ baseChar = 'A'.toNat)
    (hb : 2 ≤ base) (hb' : base ≤ 16) (v : ℤ) {body : List UInt8}
    (hbody : (numeral baseChar base v.natAbs).reverse.map UInt8.ofNat = body) :
    NumeralParts base ((signText v).map UInt8.ofNat ++ body) (decide (v < 0)) base [] body ∧
      95 ∉ body ∧ bodyValue base body = v.natAbs := by
  have hchars : ∀ ch ∈ body, ∃ d < base, digitOf ch = some d := by
    intro ch hch
    rw [← hbody, List.mem_map] at hch
    obtain ⟨x, hx, rfl⟩ := hch
    obtain ⟨d, hd, rfl⟩ := List.mem_map.mp (List.mem_reverse.mp hx)
    have hlt := numeral_digit_lt hb hd
    exact ⟨d, hlt, digitOf_digitChar (by omega) (hchar.imp_left hlt.trans_le)⟩
  refine ⟨⟨.inr ⟨hb, by omega⟩, ?_, ?_, fun ch hch => .inr (hchars ch hch), ?_⟩, ?_, ?_⟩
  · rw [baseLeads, if_neg (by omega)]
    exact List.mem_cons_self
  · rw [← hbody]
    simpa using numeral_ne_nil v.natAbs hb
  · refine ⟨[], _, [], by rw [List.append_nil]; rfl, by simp, ?_, by simp⟩
    rw [signText, signTexts]
    by_cases hneg : v < 0 <;> simp [hneg, textBytes]
  · intro hund
    obtain ⟨d, -, hd⟩ := hchars 95 hund
    rw [digitOf_blank 95 (.inl rfl)] at hd
    cases hd
  · have hdigits : body.filterMap digitOf =
        (if v.natAbs = 0 then [0] else Nat.digits base v.natAbs).reverse := by
      rw [← hbody, numeral, ← List.map_reverse, List.map_map, List.filterMap_map]
      refine (List.filterMap_congr fun d hd => ?_).trans List.filterMap_some
      have hlt := numeral_digit_lt hb (List.mem_reverse.mp hd)
      exact digitOf_digitChar (by omega) (hchar.imp_left hlt.trans_le)
    rw [bodyValue, hdigits, horner_digits]

end Written

end Pycopy
