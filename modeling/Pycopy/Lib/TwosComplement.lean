import Mathlib.Data.Int.Bitwise
import Mathlib.Tactic.Linarith
import Mathlib.Tactic.Positivity

/-!
# Two's Complement in a Window

An integer between `-2 ^ w` and `2 ^ w` is determined by its low `w` bits and its sign. The low bits
are `residue w v`; the integer with given low bits and sign is `window w neg x`.

## Main results

* `window_residue`: an integer of the window is put together again from its two parts.
* `toInt_and`, `toInt_or`, `toInt_xor`: bitwise operations on machine words are those on the
  integers they stand for.
* `toInt_bounds_iff`: a word stands for a narrower integer when its high bits are all equal.
-/

namespace TwosComplement

/-- The low `w` bits of an integer. -/
def residue (w : ℕ) (v : ℤ) : ℕ := (v % 2 ^ w).toNat

/-- The integer with low bits `x` whose bits from `w` on are all `neg`. -/
def window (w : ℕ) (neg : Bool) (x : ℕ) : ℤ := x - bif neg then 2 ^ w else 0

theorem residue_lt (w : ℕ) (v : ℤ) : residue w v < 2 ^ w := by
  have h1 := Int.emod_lt_of_pos v (show (0 : ℤ) < 2 ^ w by positivity)
  have h2 := Int.emod_nonneg v (show (2 : ℤ) ^ w ≠ 0 by positivity)
  have h3 : ((2 ^ w : ℕ) : ℤ) = 2 ^ w := by norm_cast
  rw [residue]
  omega

variable {x : ℕ}

/-- An integer of the window is put together again from its low bits and its sign. -/
theorem window_residue {w : ℕ} {v : ℤ} (h₁ : -(2 : ℤ) ^ w ≤ v) (h₂ : v < 2 ^ w) :
    window w (decide (v < 0)) (residue w v) = v := by
  have hnn := Int.emod_nonneg v (show (2 : ℤ) ^ w ≠ 0 by positivity)
  rw [window, residue, Int.toNat_of_nonneg hnn]
  by_cases hneg : v < 0
  · have h3 : v % 2 ^ w = v + 2 ^ w := by
      rw [← Int.add_emod_right, Int.emod_eq_of_lt (by linarith) (by linarith)]
    simp [hneg, h3]
  · simp [hneg, Int.emod_eq_of_lt (not_lt.mp hneg) h₂]

theorem window_bounds {w : ℕ} (neg : Bool) (hx : x < 2 ^ w) :
    -(2 : ℤ) ^ w ≤ window w neg x ∧ window w neg x < 2 ^ w := by
  have h1 : (x : ℤ) < 2 ^ w := by exact_mod_cast hx
  cases neg <;> simp only [window, cond_true, cond_false] <;> constructor <;> omega

theorem testBit_window {w : ℕ} (neg : Bool) (hx : x < 2 ^ w) (i : ℕ) :
    (window w neg x).testBit i = if i < w then x.testBit i else neg := by
  have hhigh : ¬i < w → x.testBit i = false := fun hi =>
    Nat.testBit_lt_two_pow (lt_of_lt_of_le hx (Nat.pow_le_pow_right (by omega) (by omega)))
  cases neg with
  | false =>
    have h1 : window w false x = Int.ofNat x := by simp [window]
    rw [h1]
    change x.testBit i = _
    split
    · rfl
    · rename_i hi
      exact hhigh hi
  | true =>
    have h1 : window w true x = Int.negSucc (2 ^ w - (x + 1)) := by
      have h2 : ((2 ^ w : ℕ) : ℤ) = 2 ^ w := by norm_cast
      rw [window, cond_true, Int.negSucc_eq]
      omega
    rw [h1]
    change (!(2 ^ w - (x + 1)).testBit i) = _
    rw [Nat.testBit_two_pow_sub_succ hx]
    by_cases hi : i < w <;> simp [hi]

/-- Integers with the same bits are equal. -/
theorem eq_of_testBit_eq {a b : ℤ} (h : ∀ i, a.testBit i = b.testBit i) : a = b := by
  have hmixed : ∀ m n : ℕ, ¬∀ i, m.testBit i = !n.testBit i := by
    intro m n hall
    have h1 := hall (m + n)
    rw [Nat.testBit_lt_two_pow (lt_of_le_of_lt (Nat.le_add_right m n) Nat.lt_two_pow_self),
      Nat.testBit_lt_two_pow (lt_of_le_of_lt (Nat.le_add_left n m) Nat.lt_two_pow_self)] at h1
    cases h1
  cases a with
  | ofNat m =>
    cases b with
    | ofNat n => exact congrArg Int.ofNat (Nat.eq_of_testBit_eq h)
    | negSucc n => exact absurd h (hmixed m n)
  | negSucc m =>
    cases b with
    | ofNat n => exact absurd (fun i => (h i).symm) (hmixed n m)
    | negSucc n =>
      exact congrArg Int.negSucc (Nat.eq_of_testBit_eq fun i => Bool.not_inj (h i))

/-! ### Machine words -/

variable {k : ℕ}

section Words

variable {w : ℕ}

theorem toInt_eq_window (x : BitVec w) : x.toInt = window w x.msb x.toNat := by
  rw [BitVec.toInt_eq_msb_cond, window]
  cases x.msb <;> simp

theorem testBit_toInt (x : BitVec w) (i : ℕ) :
    x.toInt.testBit i = if i < w then x.getLsbD i else x.msb := by
  rw [toInt_eq_window, testBit_window _ x.isLt, BitVec.testBit_toNat]

theorem toInt_and (x y : BitVec w) : (x &&& y).toInt = Int.land x.toInt y.toInt := by
  refine eq_of_testBit_eq fun i => ?_
  rw [Int.testBit_land, testBit_toInt, testBit_toInt, testBit_toInt, BitVec.getLsbD_and,
    BitVec.msb_and]
  split <;> rfl

theorem toInt_or (x y : BitVec w) : (x ||| y).toInt = Int.lor x.toInt y.toInt := by
  refine eq_of_testBit_eq fun i => ?_
  rw [Int.testBit_lor, testBit_toInt, testBit_toInt, testBit_toInt, BitVec.getLsbD_or,
    BitVec.msb_or]
  split <;> rfl

theorem toInt_xor (x y : BitVec w) : (x ^^^ y).toInt = Int.xor x.toInt y.toInt := by
  refine eq_of_testBit_eq fun i => ?_
  rw [Int.testBit_lxor, testBit_toInt, testBit_toInt, testBit_toInt, BitVec.getLsbD_xor,
    BitVec.msb_xor]
  split <;> rfl

/-- A word stands for an integer of `k + 1` bits exactly when its bits from `k` on agree. -/
theorem toInt_bounds_iff (hk : k < w) (x : BitVec w) : -(2 : ℤ) ^ k ≤ x.toInt ∧ x.toInt < 2 ^ k ↔
      ∀ i, k ≤ i → i < w → x.getLsbD i = x.msb := by
  constructor
  · rintro ⟨h₁, h₂⟩ i hki hiw
    have hbit := testBit_toInt x i
    rw [if_pos hiw, ← window_residue h₁ h₂, testBit_window _ (residue_lt k _),
      if_neg (by omega), ← BitVec.msb_eq_toInt] at hbit
    exact hbit.symm
  · intro hbits
    have hlow : x.toNat % 2 ^ k < 2 ^ k := Nat.mod_lt _ (Nat.two_pow_pos k)
    have hx : x.toInt = window k x.msb (x.toNat % 2 ^ k) := by
      refine eq_of_testBit_eq fun i => ?_
      rw [testBit_toInt, testBit_window _ hlow, Nat.testBit_mod_two_pow, BitVec.testBit_toNat]
      by_cases hik : i < k
      · simp [hik, hik.trans hk]
      · by_cases hiw : i < w
        · rw [if_pos hiw, if_neg hik]
          exact hbits i (by omega) hiw
        · simp [hik, hiw]
    rw [hx]
    exact window_bounds x.msb hlow

end Words

/-! ### Masks -/

theorem two_pow_sub_two_pow {w : ℕ} (hk : k ≤ w) : 2 ^ w - 2 ^ k = (2 ^ (w - k) - 1) * 2 ^ k := by
  rw [Nat.sub_mul, ← pow_add, Nat.sub_add_cancel hk, Nat.one_mul]

/-- A mask of the bits from `k` up to `w` clears the others. -/
theorem and_two_pow_sub_two_pow {w k : ℕ} (hk : k ≤ w) (x : ℕ) :
    x &&& (2 ^ w - 2 ^ k) = x / 2 ^ k * 2 ^ k % 2 ^ w := by
  refine Nat.eq_of_testBit_eq fun i => ?_
  rw [two_pow_sub_two_pow hk, Nat.testBit_and, Nat.testBit_mod_two_pow,
    Nat.testBit_mul_two_pow, Nat.testBit_mul_two_pow, Nat.testBit_two_pow_sub_one,
    Nat.testBit_div_two_pow]
  by_cases hi : k ≤ i
  · by_cases hiw : i < w
    · simp [hi, hiw, Nat.sub_add_cancel hi, Nat.sub_lt_sub_right hi hiw]
    · have : ¬i - k < w - k := by omega
      simp [hiw, this]
  · simp [hi]

end TwosComplement
