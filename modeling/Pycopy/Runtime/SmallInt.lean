import Mathlib.Tactic.Linarith
import Pycopy.Lib.TwosComplement

/-!
# Small Integers

A small integer is stored in the object word itself. The four object representations of
`py/mpconfig.h` differ in the tag and so in the range that is left: `py/obj.h` has the
macros that pack and unpack the value, `py/smallint.h` the bounds and the range check, and
`py/smallint.c` the multiplication check and the two rounding operations. Words are bit
vectors, read as signed integers where the source has `mp_int_t`.

## Main results

* `smallIntFits_iff`: the range check accepts exactly the values between the bounds.
* `objSmallIntValue_new`: a value in range is unpacked again.
* `smallIntMulOverflow_iff`: the multiplication check is exact.
* `toInt_smallIntFloorDivide`, `toInt_smallIntModulo`: rounding is towards minus infinity.
-/

open TwosComplement

namespace Pycopy

/-- `MICROPY_OBJ_REPR`, with the number of bits of `mp_int_t`. -/
inductive ObjRepr : ℕ → Type
  | A {w : ℕ} (hw : 8 ≤ w) : ObjRepr w
  | B {w : ℕ} (hw : 8 ≤ w) : ObjRepr w
  | C {w : ℕ} (hw : 8 ≤ w) : ObjRepr w
  | D : ObjRepr 64

theorem eight_le_thirtyTwo : 8 ≤ 32 := by decide

variable {w : ℕ}

/-! ### Definitions -/

/-- `WORD_MSBIT_HIGH` -/
def wordMsbitHigh (w : ℕ) : BitVec w := 1#w <<< (w - 1)

/-- `MP_SMALL_INT_MIN` -/
def smallIntMin : ObjRepr w → BitVec w
  | .A _ => (wordMsbitHigh w).sshiftRight 1
  | .B _ => (wordMsbitHigh w).sshiftRight 2
  | .C _ => (wordMsbitHigh w).sshiftRight 1
  | .D => (0xffff800000000000#64).sshiftRight 1

/-- `MP_SMALL_INT_MAX` -/
def smallIntMax (r : ObjRepr w) : BitVec w := ~~~smallIntMin r

/-- `MP_SMALL_INT_FITS` -/
def smallIntFits (r : ObjRepr w) (n : BitVec w) : Bool :=
  match r with
  | .A _ => (n ^^^ (n <<< 1)) &&& wordMsbitHigh w == 0
  | .B hw => n &&& smallIntMin (.B hw) == 0 || n &&& smallIntMin (.B hw) == smallIntMin (.B hw)
  | .C _ => (n ^^^ (n <<< 1)) &&& wordMsbitHigh w == 0
  | .D => (n ^^^ (n <<< 1)) &&& 0xffff800000000000#64 == 0

/-- `mp_obj_is_small_int` -/
def objIsSmallInt (r : ObjRepr w) (o : BitVec w) : Bool :=
  match r with
  | .A _ => o &&& 1 != 0
  | .B _ => o &&& 3 == 1
  | .C _ => o &&& 1 != 0
  | .D => o &&& 0xffff000000000000#64 == 0x0001000000000000#64

/-- `MP_OBJ_SMALL_INT_VALUE` -/
def objSmallIntValue (r : ObjRepr w) (o : BitVec w) : BitVec w :=
  match r with
  | .A _ => o.sshiftRight 1
  | .B _ => o.sshiftRight 2
  | .C _ => o.sshiftRight 1
  | .D => (o <<< 16).sshiftRight 17

/-- `MP_OBJ_NEW_SMALL_INT` -/
def objNewSmallInt (r : ObjRepr w) (n : BitVec w) : BitVec w :=
  match r with
  | .A _ => (n <<< 1) ||| 1
  | .B _ => (n <<< 2) ||| 1
  | .C _ => (n <<< 1) ||| 1
  | .D => ((n &&& 0x7fffffffffff#64) <<< 1) ||| 0x0001000000000001#64

/-- `mp_small_int_mul_overflow` -/
def smallIntMulOverflow (r : ObjRepr w) (x y : BitVec w) : Bool :=
  if (0#w).slt x then
    if (0#w).slt y then ((smallIntMax r).sdiv y).slt x
    else y.slt ((smallIntMin r).sdiv x)
  else
    if (0#w).slt y then x.slt ((smallIntMin r).sdiv y)
    else x != 0#w && y.slt ((smallIntMax r).sdiv x)

/-- `mp_small_int_modulo` -/
def smallIntModulo (dividend divisor : BitVec w) : BitVec w :=
  let dividend := dividend.srem divisor
  if (dividend.slt 0#w && (0#w).slt divisor) || ((0#w).slt dividend && divisor.slt 0#w) then
    dividend + divisor
  else dividend

/-- `mp_small_int_floor_divide` -/
def smallIntFloorDivide (num denom : BitVec w) : BitVec w :=
  let num :=
    if (0#w).sle num then
      if denom.slt 0#w then num + (-denom - 1) else num
    else
      if (0#w).sle denom then num + (-denom + 1) else num
  num.sdiv denom

/-! ### The range -/

/-- The number of value bits below the sign. -/
def ObjRepr.valueBits : ObjRepr w → ℕ
  | .A _ => w - 2
  | .B _ => w - 3
  | .C _ => w - 2
  | .D => 46

theorem ObjRepr.eight_le : (r : ObjRepr w) → 8 ≤ w
  | .A hw => hw
  | .B hw => hw
  | .C hw => hw
  | .D => by decide

theorem ObjRepr.valueBits_lt (r : ObjRepr w) : r.valueBits + 1 < w := by
  have := r.eight_le
  cases r <;> simp only [valueBits] <;> omega

theorem ObjRepr.valueBits_ne_zero (r : ObjRepr w) : r.valueBits ≠ 0 := by
  have := r.eight_le
  cases r <;> simp only [valueBits] <;> omega

/-- The value is in the range of small integers. -/
def InRange (r : ObjRepr w) (v : ℤ) : Prop := -(2 : ℤ) ^ r.valueBits ≤ v ∧ v < 2 ^ r.valueBits

instance (r : ObjRepr w) (v : ℤ) : Decidable (InRange r v) := inferInstanceAs (Decidable (_ ∧ _))

theorem inRange_iff_getLsbD (r : ObjRepr w) (x : BitVec w) :
    InRange r x.toInt ↔ ∀ i, r.valueBits ≤ i → i < w → x.getLsbD i = x.msb :=
  toInt_bounds_iff (Nat.lt_of_succ_lt r.valueBits_lt) x

variable {s i : ℕ}

theorem getLsbD_sshiftRight_wordMsbitHigh (hs : s < w) (hi : i < w) :
    ((wordMsbitHigh w).sshiftRight s).getLsbD i = decide (w - 1 - s ≤ i) := by
  have hmsb : wordMsbitHigh w = BitVec.intMin w := rfl
  rw [BitVec.getLsbD_sshiftRight, hmsb, BitVec.msb_intMin, BitVec.getLsbD_intMin,
    decide_eq_false (not_le.mpr hi), Bool.not_false, Bool.true_and]
  split <;> rw [decide_eq_decide] <;> omega

theorem getLsbD_smallIntMin (r : ObjRepr w) (hi : i < w) :
    (smallIntMin r).getLsbD i = decide (r.valueBits ≤ i) := by
  have h8 := r.eight_le
  cases r with
  | A hw => exact getLsbD_sshiftRight_wordMsbitHigh (by omega) hi
  | B hw => exact getLsbD_sshiftRight_wordMsbitHigh (by omega) hi
  | C hw => exact getLsbD_sshiftRight_wordMsbitHigh (by omega) hi
  | D =>
    revert i
    decide

theorem msb_smallIntMin (r : ObjRepr w) : (smallIntMin r).msb = true := by
  have hlt := r.valueBits_lt
  rw [BitVec.msb_eq_getLsbD_last, getLsbD_smallIntMin r (by omega), decide_eq_true_eq]
  omega

theorem toInt_smallIntMin (r : ObjRepr w) : (smallIntMin r).toInt = -2 ^ r.valueBits := by
  have hwin : -(2 : ℤ) ^ r.valueBits = window r.valueBits true 0 := by simp [window]
  rw [hwin]
  refine eq_of_testBit_eq fun i => ?_
  rw [testBit_toInt, testBit_window _ (Nat.two_pow_pos _), msb_smallIntMin]
  have hlt := r.valueBits_lt
  by_cases hi : i < w
  · rw [if_pos hi, getLsbD_smallIntMin r hi]
    by_cases hk : i < r.valueBits <;> simp [hk]
    omega
  · rw [if_neg hi, if_neg (by omega)]

theorem toInt_smallIntMax (r : ObjRepr w) : (smallIntMax r).toInt = 2 ^ r.valueBits - 1 := by
  have hwin : (2 : ℤ) ^ r.valueBits - 1 = window r.valueBits false (2 ^ r.valueBits - 1) := by
    simp [window]
  rw [hwin]
  refine eq_of_testBit_eq fun i => ?_
  have hlt := r.valueBits_lt
  rw [testBit_toInt, testBit_window _ (Nat.sub_one_lt (Nat.two_pow_pos _).ne'), smallIntMax,
    BitVec.msb_not, msb_smallIntMin, Nat.testBit_two_pow_sub_one]
  by_cases hi : i < w
  · rw [if_pos hi, BitVec.getLsbD_not, getLsbD_smallIntMin r hi]
    by_cases hk : i < r.valueBits <;> simp [hk, hi]
    omega
  · rw [if_neg hi, if_neg (by omega), Bool.not_true, Bool.and_false]

/-! ### The range check and the tag -/

variable {n : BitVec w}

theorem getLsbD_eq_of_adjacent {k : ℕ}
    (h : ∀ i, k ≤ i → i + 1 < w → n.getLsbD (i + 1) = n.getLsbD i) (hki : k ≤ i)
    (hi : i < w) : n.getLsbD i = n.msb := by
  rw [BitVec.msb_eq_getLsbD_last]
  obtain ⟨d, hd⟩ : ∃ d, w - 1 = i + d := ⟨w - 1 - i, by omega⟩
  rw [hd]
  have hdw : i + d < w := by omega
  clear hd
  induction d with
  | zero => rfl
  | succ d ih => rw [← Nat.add_assoc, h (i + d) (by omega) (by omega), ih (by omega)]

/-- The check by comparison of neighbouring bits, under a mask of the bits above `k`. -/
theorem xor_shiftLeft_and_eq_zero_iff {mask : BitVec w} {k : ℕ}
    (hmask : ∀ i < w, mask.getLsbD i = decide (k < i)) :
    (n ^^^ (n <<< 1)) &&& mask = 0 ↔ ∀ i, k ≤ i → i < w → n.getLsbD i = n.msb := by
  have hform : ∀ i, i + 1 < w → ((n ^^^ (n <<< 1)) &&& mask).getLsbD (i + 1) =
      ((n.getLsbD (i + 1) ^^ n.getLsbD i) && decide (k < i + 1)) := by
    intro i hi
    rw [BitVec.getLsbD_and, BitVec.getLsbD_xor, BitVec.getLsbD_shiftLeft, hmask _ hi,
      decide_eq_true hi, decide_eq_false (show ¬i + 1 < 1 by omega), Nat.add_sub_cancel,
      Bool.not_false, Bool.true_and, Bool.true_and]
  have hbit : (n ^^^ (n <<< 1)) &&& mask = 0 ↔
      ∀ i, k ≤ i → i + 1 < w → n.getLsbD (i + 1) = n.getLsbD i := by
    constructor
    · intro h i hki hi
      have hb := hform i hi
      rw [h, decide_eq_true (Nat.lt_succ_iff.mpr hki), Bool.and_true] at hb
      exact bne_eq_false_iff_eq.mp (hb.symm.trans (BitVec.getLsbD_zero))
    · intro h
      refine BitVec.eq_of_getLsbD_eq fun i hi => (Eq.trans ?_ BitVec.getLsbD_zero.symm)
      rcases Nat.lt_or_ge k i with hki | hki
      · obtain ⟨j, rfl⟩ : ∃ j, i = j + 1 := ⟨i - 1, by omega⟩
        rw [hform j hi, h j (by omega) hi, Bool.xor_self, Bool.false_and]
      · rw [BitVec.getLsbD_and, hmask i hi, decide_eq_false (by omega), Bool.and_false]
  rw [hbit]
  constructor
  · intro h i hki hi
    exact getLsbD_eq_of_adjacent h hki hi
  · intro h i hki hi
    rw [h (i + 1) (by omega) hi, h i hki (by omega)]

theorem getLsbD_wordMsbitHigh (hw : 2 ≤ w) (hi : i < w) :
    (wordMsbitHigh w).getLsbD i = decide (w - 2 < i) := by
  have hmsb : wordMsbitHigh w = BitVec.intMin w := rfl
  rw [hmsb, BitVec.getLsbD_intMin, decide_eq_decide]
  omega

/-- **The range check** accepts exactly the values between the bounds. -/
theorem smallIntFits_iff (r : ObjRepr w) (n : BitVec w) :
    smallIntFits r n = true ↔ InRange r n.toInt := by
  have h8 := r.eight_le
  rw [inRange_iff_getLsbD]
  cases r with
  | A hw =>
    rw [smallIntFits, beq_iff_eq]
    exact xor_shiftLeft_and_eq_zero_iff fun i hi => getLsbD_wordMsbitHigh (by omega) hi
  | B hw =>
    have hand : ∀ i < w, (n &&& smallIntMin (.B hw)).getLsbD i =
        (n.getLsbD i && decide (w - 3 ≤ i)) := fun i hi => by
      rw [BitVec.getLsbD_and, getLsbD_smallIntMin _ hi]
      rfl
    rw [smallIntFits, Bool.or_eq_true, beq_iff_eq, beq_iff_eq]
    constructor
    · have hall : ∀ b, (∀ i < w, w - 3 ≤ i → n.getLsbD i = b) →
          ∀ i, w - 3 ≤ i → i < w → n.getLsbD i = n.msb := by
        intro b hb i hki hi
        rw [BitVec.msb_eq_getLsbD_last, hb i hi hki, hb (w - 1) (by omega) (by omega)]
      rintro (h | h)
      · refine hall false fun i hi hki => ?_
        have hb := hand i hi
        rw [h, decide_eq_true hki, Bool.and_true] at hb
        exact hb.symm.trans BitVec.getLsbD_zero
      · refine hall true fun i hi hki => ?_
        have hb := hand i hi
        rw [h, decide_eq_true hki, Bool.and_true, getLsbD_smallIntMin _ hi] at hb
        exact hb.symm.trans (decide_eq_true hki)
    · intro h
      cases hmsb : n.msb with
      | false =>
        refine .inl (BitVec.eq_of_getLsbD_eq fun i hi => ?_)
        refine Eq.trans ?_ BitVec.getLsbD_zero.symm
        by_cases hki : w - 3 ≤ i
        · rw [hand i hi, h i hki hi, hmsb, Bool.false_and]
        · rw [hand i hi, decide_eq_false hki, Bool.and_false]
      | true =>
        refine .inr (BitVec.eq_of_getLsbD_eq fun i hi => ?_)
        rw [hand i hi, getLsbD_smallIntMin _ hi]
        by_cases hki : w - 3 ≤ i
        · rw [h i hki hi, hmsb, Bool.true_and]
          rfl
        · rw [decide_eq_false hki, Bool.and_false]
          exact (decide_eq_false hki).symm
  | C hw =>
    rw [smallIntFits, beq_iff_eq]
    exact xor_shiftLeft_and_eq_zero_iff fun i hi => getLsbD_wordMsbitHigh (by omega) hi
  | D =>
    rw [smallIntFits, beq_iff_eq]
    refine xor_shiftLeft_and_eq_zero_iff fun i hi => ?_
    revert i
    decide

/-- A word shifted right with its sign loses as many bits of range. -/
theorem getLsbD_sshiftRight_eq_msb (x : BitVec w) (hi : w - 1 - s ≤ i) (hiw : i < w) :
    (x.sshiftRight s).getLsbD i = (x.sshiftRight s).msb := by
  rw [BitVec.getLsbD_sshiftRight, BitVec.msb_sshiftRight, decide_eq_false (not_le.mpr hiw),
    Bool.not_false, Bool.true_and]
  split
  · rw [BitVec.msb_eq_getLsbD_last]
    congr 1
    omega
  · rfl

theorem inRange_objSmallIntValue (r : ObjRepr w) (o : BitVec w) :
    InRange r (objSmallIntValue r o).toInt := by
  rw [inRange_iff_getLsbD]
  intro i hki hi
  cases r with
  | A hw => exact getLsbD_sshiftRight_eq_msb o hki hi
  | B hw => exact getLsbD_sshiftRight_eq_msb o hki hi
  | C hw => exact getLsbD_sshiftRight_eq_msb o hki hi
  | D => exact getLsbD_sshiftRight_eq_msb (o <<< 16) hki hi

theorem sshiftRight_shiftLeft_or_one (hs : 0 < s) (hsw : s < w)
    (hn : ∀ i, w - 1 - s ≤ i → i < w → n.getLsbD i = n.msb) :
    ((n <<< s) ||| 1).sshiftRight s = n := by
  have hbit : ∀ i, s ≤ i → i < w → ((n <<< s) ||| 1).getLsbD i = n.getLsbD (i - s) := by
    intro i hsi hi
    rw [BitVec.getLsbD_or, BitVec.getLsbD_shiftLeft, decide_eq_true hi,
      decide_eq_false (not_lt.mpr hsi), Bool.not_false, Bool.true_and, Bool.true_and]
    refine Eq.trans (congrArg _ (BitVec.getLsbD_one.trans ?_)) (Bool.or_false _)
    rw [decide_eq_false (show ¬i = 0 by omega), Bool.and_false]
  refine BitVec.eq_of_getLsbD_eq fun i hi => ?_
  rw [BitVec.getLsbD_sshiftRight, decide_eq_false (not_le.mpr hi), Bool.not_false, Bool.true_and]
  split
  · rw [hbit _ (by omega) (by omega), Nat.add_sub_cancel_left]
  · rw [BitVec.msb_eq_getLsbD_last, hbit _ (by omega) (by omega), hn _ le_rfl (by omega),
      hn i (by omega) hi]

/-- **Packing.** A value in range is unpacked again. -/
theorem objSmallIntValue_new (r : ObjRepr w) (hn : InRange r n.toInt) :
    objSmallIntValue r (objNewSmallInt r n) = n := by
  have h8 := r.eight_le
  rw [inRange_iff_getLsbD] at hn
  cases r with
  | A hw => exact sshiftRight_shiftLeft_or_one (by omega) (by omega) hn
  | B hw => exact sshiftRight_shiftLeft_or_one (by omega) (by omega) hn
  | C hw => exact sshiftRight_shiftLeft_or_one (by omega) (by omega) hn
  | D =>
    have hbit : ∀ i, 1 ≤ i → i < 48 →
        (objNewSmallInt .D n).getLsbD i = n.getLsbD (i - 1) := by
      intro i h1 h48
      have hmask : ∀ i < 64, (0x7fffffffffff#64).getLsbD i = decide (i < 47) := by decide
      have htag : ∀ i < 48, 1 ≤ i → (0x0001000000000001#64).getLsbD i = false := by decide
      rw [objNewSmallInt, BitVec.getLsbD_or, BitVec.getLsbD_shiftLeft, BitVec.getLsbD_and,
        hmask _ (by omega), htag i h48 h1, decide_eq_true (show i < 64 by omega),
        decide_eq_false (show ¬i < 1 by omega), decide_eq_true (show i - 1 < 47 by omega)]
      simp
    have hshift : ∀ i, 17 ≤ i → i < 64 →
        (objNewSmallInt .D n <<< 16).getLsbD i = n.getLsbD (i - 17) := by
      intro i h17 h64
      rw [BitVec.getLsbD_shiftLeft, hbit _ (by omega) (by omega), decide_eq_true h64,
        decide_eq_false (show ¬i < 16 by omega), Bool.not_false, Bool.true_and, Bool.true_and,
        Nat.sub_sub]
    refine BitVec.eq_of_getLsbD_eq fun i hi => ?_
    rw [objSmallIntValue, BitVec.getLsbD_sshiftRight, decide_eq_false (not_le.mpr hi),
      Bool.not_false, Bool.true_and]
    split
    · rw [hshift _ (by omega) (by omega), Nat.add_sub_cancel_left]
    · rw [BitVec.msb_eq_getLsbD_last, hshift _ (by omega) (by omega), hn _ (by decide) (by omega),
        hn i (show 46 ≤ i by omega) hi]

theorem shiftLeft_one_or_one_and_one (hw : 8 ≤ w) (n : BitVec w) : ((n <<< 1) ||| 1) &&& 1 ≠ 0 := by
  intro h
  have hb := congrArg (BitVec.getLsbD · 0) h
  simp at hb
  omega

theorem objIsSmallInt_new (r : ObjRepr w) (n : BitVec w) :
    objIsSmallInt r (objNewSmallInt r n) = true := by
  have h8 := r.eight_le
  cases r with
  | A hw => exact bne_iff_ne.mpr (shiftLeft_one_or_one_and_one hw n)
  | B hw =>
    have hthree : ∀ i, (3 : BitVec w).getLsbD i = decide (i < 2) := by
      intro i
      change (BitVec.ofNat w 3).getLsbD i = _
      rw [BitVec.getLsbD_ofNat, show 3 = 2 ^ 2 - 1 from rfl, Nat.testBit_two_pow_sub_one]
      by_cases hi : i < 2
      · simp [hi]
        omega
      · simp [hi]
    rw [objIsSmallInt, objNewSmallInt, beq_iff_eq]
    refine BitVec.eq_of_getLsbD_eq fun i hi => ?_
    rw [BitVec.getLsbD_and, BitVec.getLsbD_or, BitVec.getLsbD_shiftLeft, hthree]
    by_cases h2 : i < 2
    · simp [h2]
    · have h0 : i ≠ 0 := by omega
      simp [h2, hi, h0]
  | C hw => exact bne_iff_ne.mpr (shiftLeft_one_or_one_and_one hw n)
  | D =>
    have hmask : ∀ i < 64, (0xffff000000000000#64).getLsbD i = decide (48 ≤ i) := by decide
    have hlow : ∀ i < 64, (0x7fffffffffff#64).getLsbD i = decide (i < 47) := by decide
    have htag : ∀ i < 64, 48 ≤ i → (0x0001000000000001#64).getLsbD i =
        (0x0001000000000000#64).getLsbD i := by decide
    have htag' : ∀ i < 48, (0x0001000000000000#64).getLsbD i = false := by decide
    rw [objIsSmallInt, beq_iff_eq]
    refine BitVec.eq_of_getLsbD_eq fun i hi => ?_
    rw [BitVec.getLsbD_and, hmask i hi]
    by_cases h48 : 48 ≤ i
    · rw [objNewSmallInt, BitVec.getLsbD_or, BitVec.getLsbD_shiftLeft, BitVec.getLsbD_and,
        hlow _ (by omega), htag i hi h48, decide_eq_true h48,
        decide_eq_false (show ¬i - 1 < 47 by omega)]
      simp
    · rw [decide_eq_false h48, Bool.and_false, htag' i (by omega)]

/-! ### Arithmetic -/

/-- A signed result that fits the word is exact. -/
theorem bmod_of_bounds (hw : 0 < w) {v : ℤ} (h₁ : -(2 : ℤ) ^ (w - 1) ≤ v)
    (h₂ : v < 2 ^ (w - 1)) : v.bmod (2 ^ w) = v := by
  obtain ⟨n, rfl⟩ : ∃ n, w = n + 1 := ⟨w - 1, by omega⟩
  rw [Nat.add_sub_cancel] at h₁ h₂
  have h3 : ((2 ^ n : ℕ) : ℤ) = 2 ^ n := by norm_cast
  rw [pow_succ]
  exact Int.bmod_eq_of_le (by omega) (by omega)

section Arithmetic

variable (r : ObjRepr w)

/-- Twice a value in range still fits the word. -/
theorem two_mul_two_pow_valueBits_le : 2 * (2 : ℤ) ^ r.valueBits ≤ 2 ^ (w - 1) := by
  have hlt := r.valueBits_lt
  rw [← pow_succ']
  exact pow_le_pow_right₀ (by omega) (by omega)

theorem bmod_of_two_mul_bounds {v : ℤ} (h₁ : -(2 * (2 : ℤ) ^ r.valueBits) ≤ v)
    (h₂ : v < 2 * 2 ^ r.valueBits) : v.bmod (2 ^ w) = v := by
  have h8 := r.eight_le
  have hle := two_mul_two_pow_valueBits_le r
  exact bmod_of_bounds (by omega) (by omega) (by omega)

/-- A bound divided by a nonzero word, towards zero. -/
theorem toInt_sdiv_of_bound {a : BitVec w} (y : BitVec w)
    (ha : -(2 : ℤ) ^ r.valueBits ≤ a.toInt ∧ a.toInt ≤ 2 ^ r.valueBits) :
    (a.sdiv y).toInt = a.toInt.tdiv y.toInt := by
  have hle := Int.natAbs_tdiv_le_natAbs a.toInt y.toInt
  have hpos : (0 : ℤ) < 2 ^ r.valueBits := by positivity
  rw [BitVec.toInt_sdiv]
  exact bmod_of_two_mul_bounds r (by omega) (by omega)

variable {x : BitVec w}

omit r in
theorem zero_slt_iff : (0#w).slt x = true ↔ 0 < x.toInt := by
  rw [BitVec.slt_iff_toInt_lt, BitVec.toInt_zero]

omit r in
theorem slt_zero_iff : x.slt 0#w = true ↔ x.toInt < 0 := by
  rw [BitVec.slt_iff_toInt_lt, BitVec.toInt_zero]

omit r in
theorem zero_sle_iff : (0#w).sle x = true ↔ 0 ≤ x.toInt := by
  rw [BitVec.sle_iff_toInt_le, BitVec.toInt_zero]

variable {x y : ℤ}

omit r in
theorem tdiv_lt_iff {a : ℤ} (ha : 0 ≤ a) (hy : 0 < y) : a.tdiv y < x ↔ a < x * y := by
  rw [Int.tdiv_eq_ediv_of_nonneg ha, Int.ediv_lt_iff_lt_mul hy]

omit r in
theorem lt_neg_tdiv_iff {m : ℤ} (hm : 0 ≤ m) (hx : 0 < x) : y < (-m).tdiv x ↔ x * y < -m := by
  rw [Int.neg_tdiv, lt_neg, tdiv_lt_iff hm hx, neg_mul, lt_neg, Int.mul_comm]

omit r in
theorem lt_tdiv_iff {a : ℤ} (ha : 0 ≤ a) (hx : x < 0) : y < a.tdiv x ↔ a < x * y := by
  rw [← neg_neg x, Int.tdiv_neg, lt_neg, tdiv_lt_iff ha (neg_pos.mpr hx), neg_mul_neg, neg_neg,
    Int.mul_comm]

/-- **`mp_small_int_mul_overflow`** is exact. -/
theorem smallIntMulOverflow_iff (x y : BitVec w) :
    smallIntMulOverflow r x y = false ↔ InRange r (x.toInt * y.toInt) := by
  have hpos : (0 : ℤ) < 2 ^ r.valueBits := by positivity
  have hmin := toInt_smallIntMin r
  have hmax := toInt_smallIntMax r
  have hmindiv : ∀ z : BitVec w, ((smallIntMin r).sdiv z).toInt =
      (-(2 : ℤ) ^ r.valueBits).tdiv z.toInt := fun z => by
    rw [toInt_sdiv_of_bound r z (by omega), hmin]
  have hmaxdiv : ∀ z : BitVec w, ((smallIntMax r).sdiv z).toInt =
      ((2 : ℤ) ^ r.valueBits - 1).tdiv z.toInt := fun z => by
    rw [toInt_sdiv_of_bound r z (by omega), hmax]
  rw [← Bool.not_eq_true, smallIntMulOverflow, InRange]
  by_cases hx : 0 < x.toInt
  · rw [if_pos (zero_slt_iff.mpr hx)]
    by_cases hy : 0 < y.toInt
    · have hprod := mul_pos hx hy
      rw [if_pos (zero_slt_iff.mpr hy), BitVec.slt_iff_toInt_lt, hmaxdiv,
        tdiv_lt_iff (by omega) hy]
      omega
    · have hprod := mul_nonpos_of_nonneg_of_nonpos hx.le (not_lt.mp hy)
      rw [if_neg (zero_slt_iff.not.mpr hy), BitVec.slt_iff_toInt_lt, hmindiv,
        lt_neg_tdiv_iff hpos.le hx]
      omega
  · rw [if_neg (zero_slt_iff.not.mpr hx)]
    by_cases hy : 0 < y.toInt
    · have hprod := mul_nonpos_of_nonpos_of_nonneg (not_lt.mp hx) hy.le
      rw [if_pos (zero_slt_iff.mpr hy), BitVec.slt_iff_toInt_lt, hmindiv,
        lt_neg_tdiv_iff hpos.le hy, Int.mul_comm]
      omega
    · have hprod := mul_nonneg_of_nonpos_of_nonpos (not_lt.mp hx) (not_lt.mp hy)
      rw [if_neg (zero_slt_iff.not.mpr hy), Bool.and_eq_true, bne_iff_ne, ← BitVec.toInt_ne,
        BitVec.toInt_zero, BitVec.slt_iff_toInt_lt, hmaxdiv]
      rcases eq_or_lt_of_le (not_lt.mp hx) with h0 | h0
      · rw [h0, zero_mul]
        omega
      · rw [lt_tdiv_iff (by omega) h0]
        omega

omit r in
/-- **`mp_small_int_modulo`**: the remainder with the sign of the divisor. -/
theorem toInt_smallIntModulo {x y : BitVec w} (hy : y.toInt ≠ 0) :
    (smallIntModulo x y).toInt = x.toInt.fmod y.toInt := by
  have ht := BitVec.toInt_srem x y
  have hlt : (x.toInt.tmod y.toInt).natAbs < y.toInt.natAbs := by
    rw [Int.natAbs_tmod]
    exact Nat.mod_lt _ (Int.natAbs_pos.mpr hy)
  have hnn := fun h : 0 ≤ x.toInt => Int.tmod_nonneg y.toInt h
  have hnp : x.toInt ≤ 0 → x.toInt.tmod y.toInt ≤ 0 := fun h => by
    have hneg := Int.tmod_nonneg y.toInt (neg_nonneg.mpr h)
    rw [Int.neg_tmod] at hneg
    omega
  have hw : 0 < w := Nat.pos_of_ne_zero fun h0 => hy (by subst h0; simp [BitVec.eq_nil y])
  have hlow := BitVec.le_toInt y
  have hhigh := @BitVec.toInt_lt w y
  have hadd : y.toInt < 0 ∧ 0 ≤ x.toInt.tmod y.toInt ∨ 0 < y.toInt ∧ x.toInt.tmod y.toInt ≤ 0 →
      (x.srem y + y).toInt = x.toInt.tmod y.toInt + y.toInt := fun hsign => by
    rw [BitVec.toInt_add, ht]
    exact bmod_of_bounds hw (by omega) (by omega)
  rw [smallIntModulo, Int.fmod_eq_tmod]
  simp only [Bool.or_eq_true, Bool.and_eq_true, zero_slt_iff, slt_zero_iff, ht,
    Int.dvd_iff_tmod_eq_zero]
  generalize x.toInt.tmod y.toInt = t at *
  split
  · rename_i hcond
    rw [hadd (by omega)]
    split_ifs <;> omega
  · rw [ht]
    split_ifs <;> omega

omit r in
theorem neg_ediv_eq_neg_ediv_add {n d : ℤ} (hd : 0 < d) : -n / d = -((n + d - 1) / d) := by
  have h1 := Int.mul_ediv_add_emod (n + d - 1) d
  have h2 := Int.emod_lt_of_pos (n + d - 1) hd
  have h3 := Int.emod_nonneg (n + d - 1) hd.ne'
  generalize (n + d - 1) / d = q at *
  generalize (n + d - 1) % d = e at *
  have h4 : d - 1 - e + d * -q = -n := by linarith
  exact ((Int.ediv_emod_unique hd).mpr ⟨h4, by omega, by omega⟩).1

/-- **`mp_small_int_floor_divide`**: the quotient rounded towards minus infinity. -/
theorem toInt_smallIntFloorDivide {x y : BitVec w} (hx : InRange r x.toInt)
    (hy : InRange r y.toInt) (hy0 : y.toInt ≠ 0) :
    (smallIntFloorDivide x y).toInt = x.toInt.fdiv y.toInt := by
  obtain ⟨hx1, hx2⟩ := hx
  obtain ⟨hy1, hy2⟩ := hy
  have h8 := r.eight_le
  have hone : (1 : BitVec w).toInt = 1 := BitVec.toInt_one (by omega)
  have hneg : (-y).toInt = -y.toInt := by
    rw [BitVec.toInt_neg]
    exact bmod_of_two_mul_bounds r (by omega) (by omega)
  have hsdiv : ∀ {n : BitVec w} {v : ℤ}, n.toInt = v → -(2 * (2 : ℤ) ^ r.valueBits) < v →
      v < 2 * 2 ^ r.valueBits → (n.sdiv y).toInt = v.tdiv y.toInt := by
    intro n v hn h1 h2
    have hle := Int.natAbs_tdiv_le_natAbs v y.toInt
    rw [BitVec.toInt_sdiv, hn]
    exact bmod_of_two_mul_bounds r (by omega) (by omega)
  rw [smallIntFloorDivide]
  simp only [zero_sle_iff, slt_zero_iff]
  by_cases hxs : 0 ≤ x.toInt
  · rw [if_pos hxs]
    by_cases hys : y.toInt < 0
    · have hdown : (-y - 1).toInt = -y.toInt - 1 := by
        rw [BitVec.toInt_sub, hneg, hone]
        exact bmod_of_two_mul_bounds r (by omega) (by omega)
      have hnum : (x + (-y - 1)).toInt = x.toInt + -y.toInt - 1 := by
        rw [BitVec.toInt_add, hdown, bmod_of_two_mul_bounds r (by omega) (by omega)]
        omega
      rw [if_pos hys, hsdiv hnum (by omega) (by omega), Int.tdiv_eq_ediv_of_nonneg (by omega),
        ← Int.neg_fdiv_neg, Int.fdiv_eq_ediv_of_nonneg _ (by omega),
        neg_ediv_eq_neg_ediv_add (by omega), ← Int.ediv_neg, neg_neg]
    · rw [if_neg hys, hsdiv rfl (by omega) (by omega), Int.fdiv_eq_tdiv_of_nonneg hxs (by omega)]
  · rw [if_neg hxs]
    by_cases hys : 0 ≤ y.toInt
    · have hup : (-y + 1).toInt = -y.toInt + 1 := by
        rw [BitVec.toInt_add, hneg, hone]
        exact bmod_of_two_mul_bounds r (by omega) (by omega)
      have hnum : (x + (-y + 1)).toInt = -(-x.toInt + y.toInt - 1) := by
        rw [BitVec.toInt_add, hup, bmod_of_two_mul_bounds r (by omega) (by omega)]
        omega
      rw [if_pos hys, hsdiv hnum (by omega) (by omega), Int.neg_tdiv,
        Int.tdiv_eq_ediv_of_nonneg (by omega), Int.fdiv_eq_ediv_of_nonneg _ hys,
        ← neg_ediv_eq_neg_ediv_add (by omega), neg_neg]
    · rw [if_neg hys, hsdiv rfl (by omega) (by omega), ← Int.neg_fdiv_neg, ← Int.neg_tdiv_neg,
        Int.fdiv_eq_tdiv_of_nonneg (by omega) (by omega)]

end Arithmetic

end Pycopy
