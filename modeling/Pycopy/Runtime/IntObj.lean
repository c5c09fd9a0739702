import Pycopy.Mpz.Arith
import Pycopy.Runtime.SmallInt

/-!
# Integer Objects

An integer is a small integer or an `mpz_t` on the heap. Where the runtime needs a machine word it
goes through `mp_obj_get_int_maybe` of `py/obj.c`, and from there for big integers through
`mpz_as_int_checked` of `py/mpz.c`, which gives up before the word overflows.

## Main results

* `mpz_as_word_checked`: the checked conversions to signed and unsigned words.
-/

open DigitList

namespace Pycopy

/-- Integer objects: a small integer, or the digits of one on the heap -/
inductive IntObj
  | small (v : ℤ)
  | big (z : Mpz)
  deriving DecidableEq

/-- The integer that an object stands for -/
def IntObj.value (c : MpzConfig) : IntObj → ℤ
  | .small v => v
  | .big z => z.value c

/-! ### Conversion to a machine word -/

/-- The loop of `mpz_as_int_checked`, from the highest digit on -/
def mpzAsIntLoop (c : MpzConfig) (w : ℕ) : List ℕ → Option ℕ
  | [] => some 0
  | d :: ds =>
    (mpzAsIntLoop c w ds).bind fun val =>
      if (2 ^ (w - 1) - 1) >>> c.digSize < val then none
      else some ((val <<< c.digSize ||| d) % 2 ^ w)

/-- `mpz_as_int_checked`. The magnitude that is left has its top bit clear. -/
def mpzAsIntChecked (c : MpzConfig) (w : ℕ) (z : Mpz) : Option ℤ :=
  (mpzAsIntLoop c w z.dig).map (signed z.neg)

/-- The loop of `mpz_as_uint_checked` -/
def mpzAsUintLoop (c : MpzConfig) (w : ℕ) : List ℕ → Option ℕ
  | [] => some 0
  | d :: ds =>
    (mpzAsUintLoop c w ds).bind fun val =>
      if (2 ^ (w - 1) - 1) >>> (c.digSize - 1) < val then none
      else some ((val <<< c.digSize ||| d) % 2 ^ w)

/-- `mpz_as_uint_checked` -/
def mpzAsUintChecked (c : MpzConfig) (w : ℕ) (z : Mpz) : Option ℕ :=
  if z.neg then none else mpzAsUintLoop c w z.dig

/-- An argument where an integer is expected -/
inductive IndexObj
  | bool (b : Bool)
  | int (o : IntObj)
  | other
  deriving DecidableEq

/-- How `mp_obj_get_int_maybe` ends without a word: it returns false, or it raises an error. -/
inductive GetIntError
  | notInt
  | overflowError
  deriving DecidableEq, Repr

/-- `mp_obj_get_int_maybe` -/
def getIntMaybe (c : MpzConfig) (w : ℕ) : IndexObj → Except GetIntError ℤ
  | .bool false => .ok 0
  | .bool true => .ok 1
  | .int (.small v) => .ok v
  | .int (.big z) =>
    match mpzAsIntChecked c w z with
    | some value => .ok value
    | none => .error .overflowError
  | .other => .error .notInt

/-! ### Which integers are converted -/

variable {c : MpzConfig}

theorem shiftRight_two_pow_sub_one {a s : ℕ} (h : s ≤ a) :
    (2 ^ a - 1) >>> s = 2 ^ (a - s) - 1 := by
  have hpos : 0 < 2 ^ (a - s) := Nat.two_pow_pos _
  have hsplit : 2 ^ a = 2 ^ (a - s) * 2 ^ s := by rw [← Nat.pow_add, Nat.sub_add_cancel h]
  rw [Nat.shiftRight_eq_div_pow, hsplit, Nat.div_eq_of_lt_le]
  · rw [Nat.sub_mul, Nat.one_mul]
    exact Nat.sub_le_sub_left Nat.one_le_two_pow _
  · rw [Nat.sub_add_cancel hpos]
    exact Nat.sub_lt (Nat.mul_pos hpos (Nat.two_pow_pos _)) Nat.one_pos

variable {w : ℕ}

/-- One more digit below a value: the test before the shift is exact for a bound of `k` bits. -/
theorem checkedDigit_eq {k d : ℕ} (hk : c.digSize ≤ k) (hkw : k ≤ w) (hd : d < c.base) (n : ℕ) :
    ((if n < 2 ^ k then some n else none).bind fun val =>
      if 2 ^ (k - c.digSize) - 1 < val then none
      else some ((val <<< c.digSize ||| d) % 2 ^ w)) =
      if d + c.base * n < 2 ^ k then some (d + c.base * n) else none := by
  have hor : n <<< c.digSize ||| d = d + c.base * n := by
    rw [Nat.shiftLeft_eq, Nat.mul_comm, ← Nat.two_pow_add_eq_or_of_lt hd, Nat.add_comm]
    rfl
  have hiff : d + c.base * n < 2 ^ k ↔ n < 2 ^ (k - c.digSize) := by
    have hsplit : 2 ^ k = c.base * 2 ^ (k - c.digSize) := by
      rw [MpzConfig.base, ← Nat.pow_add, Nat.add_sub_cancel' hk]
    rw [hsplit]
    constructor
    · intro h
      exact Nat.lt_of_mul_lt_mul_left (Nat.lt_of_le_of_lt (Nat.le_add_left _ d) h)
    · intro h
      have := Nat.mul_le_mul_left c.base (Nat.succ_le_of_lt h)
      rw [Nat.mul_succ] at this
      omega
  have hle : 2 ^ k ≤ 2 ^ w := Nat.pow_le_pow_right (by decide) hkw
  have hmono : 2 ^ (k - c.digSize) ≤ 2 ^ k := Nat.pow_le_pow_right (by decide) (Nat.sub_le _ _)
  by_cases hn : n < 2 ^ (k - c.digSize)
  · have hlt := hiff.mpr hn
    rw [if_pos (by omega), Option.bind_some, if_neg (by omega), hor, if_pos hlt,
      Nat.mod_eq_of_lt (by omega)]
  · rw [if_neg (mt hiff.mp hn)]
    split
    · rw [Option.bind_some, if_pos (by have := Nat.two_pow_pos (k - c.digSize); omega)]
    · rfl

theorem mpzAsIntLoop_eq (hw : c.digSize < w) {ds : List ℕ} (hds : Below c.base ds) :
    mpzAsIntLoop c w ds =
      if Nat.ofDigits c.base ds < 2 ^ (w - 1) then some (Nat.ofDigits c.base ds) else none := by
  induction ds with
  | nil => simp [mpzAsIntLoop]
  | cons d ds ih =>
    obtain ⟨hd, hds⟩ := below_cons.mp hds
    rw [mpzAsIntLoop, ih hds, shiftRight_two_pow_sub_one (by omega),
      checkedDigit_eq (by omega) (by omega) hd, Nat.ofDigits_cons]

/-- The test of the unsigned loop leaves one bit more. -/
theorem mpzAsUintLoop_eq (hw : c.digSize < w) {ds : List ℕ} (hds : Below c.base ds) :
    mpzAsUintLoop c w ds =
      if Nat.ofDigits c.base ds < 2 ^ w then some (Nat.ofDigits c.base ds) else none := by
  have hlimit : (2 ^ (w - 1) - 1) >>> (c.digSize - 1) = 2 ^ (w - c.digSize) - 1 := by
    have := c.four_le_digSize
    rw [shiftRight_two_pow_sub_one (by omega),
      show w - 1 - (c.digSize - 1) = w - c.digSize by omega]
  induction ds with
  | nil => simp [mpzAsUintLoop]
  | cons d ds ih =>
    obtain ⟨hd, hds⟩ := below_cons.mp hds
    rw [mpzAsUintLoop, ih hds, hlimit, checkedDigit_eq (by omega) le_rfl hd, Nat.ofDigits_cons]

/-- **Which big integers are converted**: those whose magnitude has the top bit of the word free. -/
theorem mpzAsIntChecked_eq (hw : c.digSize < w) {z : Mpz} (hz : z.Valid c) :
    mpzAsIntChecked c w z =
      if (z.value c).natAbs < 2 ^ (w - 1) then some (z.value c) else none := by
  have habs : (z.value c).natAbs = Nat.ofDigits c.base z.dig := by
    rw [Mpz.value, signed]
    cases z.neg <;> simp
  rw [mpzAsIntChecked, mpzAsIntLoop_eq hw hz.below, habs]
  split <;> rfl

/-- **The checked conversions are exact.** The signed one accepts the magnitudes below the top bit,
and so not the least word; the unsigned one accepts no negative sign. -/
theorem mpz_as_word_checked (hw : c.digSize < w) {z : Mpz} (hz : z.Valid c) :
    mpzAsIntChecked c w z =
        (if |z.value c| ≤ 2 ^ (w - 1) - 1 then some (z.value c) else none) ∧
      (mpzAsUintChecked c w z).map Int.ofNat =
        if z.neg = false ∧ z.value c < 2 ^ w then some (z.value c) else none := by
  constructor
  · rw [mpzAsIntChecked_eq hw hz]
    have hcast : ((2 ^ (w - 1) : ℕ) : ℤ) = 2 ^ (w - 1) := by simp
    refine if_congr ?_ rfl rfl
    rw [Int.abs_eq_natAbs]
    omega
  · rw [mpzAsUintChecked, Mpz.value, signed]
    cases z.neg with
    | true => simp
    | false =>
      rw [if_neg Bool.false_ne_true, mpzAsUintLoop_eq hw hz.below]
      have hcast : ((2 ^ w : ℕ) : ℤ) = 2 ^ w := by simp
      by_cases hlt : Nat.ofDigits c.base z.dig < 2 ^ w
      · rw [if_pos hlt, if_pos ⟨rfl, by rw [cond_false]; omega⟩]
        rfl
      · rw [if_neg hlt, if_neg fun h => hlt (by rw [cond_false] at h; omega)]
        rfl

/-- The least word with digits of 16 bits and words of 32, and the number after it -/
theorem mpz_as_word_checked_least :
    mpzAsIntChecked ⟨16, 32, 32, by decide, by decide, by decide, by decide⟩ 32
        ⟨true, false, 2, [0, 0x8000]⟩ = none ∧
      mpzAsIntChecked ⟨16, 32, 32, by decide, by decide, by decide, by decide⟩ 32
        ⟨true, false, 2, [0xffff, 0x7fff]⟩ = some (1 - 2 ^ 31) := by
  constructor
  · exact (mpz_as_word_checked (by decide) ⟨by decide, by decide, by decide⟩).1.trans (by decide)
  · exact (mpz_as_word_checked (by decide) ⟨by decide, by decide, by decide⟩).1.trans (by decide)

/-! ### Arguments -/

/-- The integer of an argument -/
def IndexObj.value (c : MpzConfig) : IndexObj → ℤ
  | .bool b => b.toInt
  | .int o => o.value c
  | .other => 0

/-- An argument is an integer: a truth value, a small integer in its range, or a big integer that
is well formed. -/
def IndexObj.IsInt (r : ObjRepr w) (c : MpzConfig) : IndexObj → Prop
  | .bool _ => True
  | .int (.small v) => InRange r v
  | .int (.big z) => z.Valid c
  | .other => False

/-- An integer fits a machine word with room for its sign. -/
def IndexObj.Fits (c : MpzConfig) (w : ℕ) (o : IndexObj) : Prop := (o.value c).natAbs < 2 ^ (w - 1)

instance (c : MpzConfig) (w : ℕ) (o : IndexObj) : Decidable (o.Fits c w) :=
  inferInstanceAs (Decidable (_ < _))

/-- **Which integers are converted** -/
theorem getIntMaybe_eq {r : ObjRepr w} (hw : c.digSize < w) {o : IndexObj} (ho : o.IsInt r c) :
    getIntMaybe c w o = if o.Fits c w then .ok (o.value c) else .error .overflowError := by
  have hpow : (2 : ℤ) ^ r.valueBits < 2 ^ (w - 1) := by
    have := r.valueBits_lt
    exact pow_lt_pow_right₀ (by decide) (by omega)
  match o, ho with
  | .bool b, _ =>
    have : 2 ^ 1 ≤ 2 ^ (w - 1) := Nat.pow_le_pow_right (by decide) (by have := r.eight_le; omega)
    have hfits : IndexObj.Fits c w (.bool b) :=
      Nat.lt_of_lt_of_le ((by decide : ∀ b : Bool, b.toInt.natAbs < 2 ^ 1) b) this
    rw [if_pos hfits]
    cases b <;> rfl
  | .int (.small v), ho =>
    rw [if_pos]
    · rfl
    · have hcast : ((2 ^ (w - 1) : ℕ) : ℤ) = 2 ^ (w - 1) := by simp
      obtain ⟨h1, h2⟩ := (ho : InRange r v)
      simp only [IndexObj.Fits, IndexObj.value, IntObj.value]
      omega
  | .int (.big z), ho =>
    rw [getIntMaybe, mpzAsIntChecked_eq hw ho]
    by_cases h : IndexObj.Fits c w (.int (.big z))
    · rw [if_pos h, if_pos (show (z.value c).natAbs < 2 ^ (w - 1) from h)]
      rfl
    · rw [if_neg h, if_neg (show ¬(z.value c).natAbs < 2 ^ (w - 1) from h)]

end Pycopy
