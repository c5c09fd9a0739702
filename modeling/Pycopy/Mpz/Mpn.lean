import Pycopy.Lib.DigitList

/-!
# Digit Arrays of `py/mpz.c`

The `mpn` functions of `py/mpz.c` act on non-negative integers held in little-endian
digit arrays. Here an array is the list of its digits, and a pointer that walks along
an array is the remaining suffix of the list.

Arithmetic in `mpz_dbl_dig_t` wraps modulo `2 ^ dblDigSize` (`MpzConfig.dbl`) and the
signed variant wraps symmetrically (`MpzConfig.sdbl`).

## Main results

* `mpnCmpLoop_eq_sign`: comparison of arrays of the same length is the sign of the difference.
-/

open DigitList

namespace Pycopy

/-- The compile-time parameters of `mpz.h`: `MPZ_DIG_SIZE`, `MPZ_DBL_DIG_SIZE` and the
width of `mp_uint_t`, with the constraints the header states. -/
structure MpzConfig where
  /-- `MPZ_DIG_SIZE` -/
  digSize : ℕ
  /-- `MPZ_DBL_DIG_SIZE` -/
  dblDigSize : ℕ
  /-- the number of bits of `mp_uint_t` -/
  wordSize : ℕ
  four_le_digSize : 4 ≤ digSize
  digSize_le : digSize ≤ 32
  two_mul_digSize_le : 2 * digSize ≤ dblDigSize
  wordSize_pos : 0 < wordSize

namespace MpzConfig

variable (c : MpzConfig)

/-- `DIG_BASE` -/
def base : ℕ := 2 ^ c.digSize

/-- `DIG_MASK` -/
def digMask : ℕ := 2 ^ c.digSize - 1

/-- Conversion to `mpz_dbl_dig_t`. -/
def dbl (x : ℕ) : ℕ := x % 2 ^ c.dblDigSize

/-- Conversion to `mpz_dbl_dig_signed_t`. -/
def sdbl (x : ℤ) : ℤ := Int.bmod x (2 ^ c.dblDigSize)

theorem sixteen_le_base : 16 ≤ c.base :=
  Nat.pow_le_pow_right (n := 2) (by omega) c.four_le_digSize

theorem one_lt_base : 1 < c.base :=
  lt_of_lt_of_le (by omega) c.sixteen_le_base

theorem base_pos : 0 < c.base :=
  lt_trans Nat.zero_lt_one c.one_lt_base

/-- Two digits fit the double-width type. -/
theorem base_mul_base_le : c.base * c.base ≤ 2 ^ c.dblDigSize := by
  rw [base, ← pow_add, ← two_mul]
  exact Nat.pow_le_pow_right (by omega) c.two_mul_digSize_le

theorem two_mul_base_le : 2 * c.base ≤ 2 ^ c.dblDigSize := by
  have h1 := c.sixteen_le_base
  have h2 := c.base_mul_base_le
  nlinarith

theorem dbl_of_lt {x : ℕ} (h : x < c.base * c.base) : c.dbl x = x :=
  Nat.mod_eq_of_lt (lt_of_lt_of_le h c.base_mul_base_le)

theorem sdbl_of_bounds {x : ℤ} (h₁ : -(c.base : ℤ) ≤ x) (h₂ : x < c.base) : c.sdbl x = x := by
  have h3 : (2 * c.base : ℤ) ≤ ((2 ^ c.dblDigSize : ℕ) : ℤ) := by
    exact_mod_cast c.two_mul_base_le
  exact Int.bmod_eq_of_le (by omega) (by omega)

end MpzConfig

variable (c : MpzConfig)

/-! ### Definitions -/

/-- `mpn_remove_trailing_zeros`: the length of the digits without leading zeros. -/
def mpnRemoveTrailingZeros (dig : List ℕ) : ℕ :=
  (stripZeros dig).length

/-- The comparison loop of `mpn_cmp`, most significant digit first. -/
def mpnCmpLoop : List ℕ → List ℕ → ℤ
  | i :: is, j :: js =>
    let cmp := c.sdbl ((i : ℤ) - j)
    if cmp < 0 then -1 else if cmp > 0 then 1 else mpnCmpLoop is js
  | _, _ => 0

/-- `mpn_cmp` -/
def mpnCmp (idig jdig : List ℕ) : ℤ :=
  if idig.length < jdig.length then -1
  else if idig.length > jdig.length then 1
  else mpnCmpLoop c idig.reverse jdig.reverse

/-! ### Comparison -/

variable {c}

/-- The loop of `mpn_cmp` decides at the first differing digit from the top. -/
theorem mpnCmpLoop_eq_sign {is js : List ℕ} (hlen : is.length = js.length)
    (hi : Below c.base is) (hj : Below c.base js) :
    mpnCmpLoop c is js =
      Int.sign ((Nat.ofDigits c.base is.reverse : ℕ) - (Nat.ofDigits c.base js.reverse : ℕ)) := by
  induction is generalizing js with
  | nil =>
    obtain rfl : js = [] := List.length_eq_zero_iff.mp (by simpa using hlen.symm)
    simp [mpnCmpLoop]
  | cons i is ih =>
    cases js with
    | nil => simp at hlen
    | cons j js =>
      obtain ⟨hi0, his⟩ := below_cons.mp hi
      obtain ⟨hj0, hjs⟩ := below_cons.mp hj
      have hlen' : is.length = js.length := by simpa using hlen
      have hrev : ∀ l : List ℕ, Below c.base l → Below c.base l.reverse :=
        fun l hl d hd => hl d (List.mem_reverse.mp hd)
      have hI := ofDigits_lt c.one_lt_base (hrev is his)
      have hJ := ofDigits_lt c.one_lt_base (hrev js hjs)
      have hs : c.sdbl ((i : ℤ) - j) = (i : ℤ) - j :=
        c.sdbl_of_bounds (by omega) (by omega)
      simp only [mpnCmpLoop, hs, List.reverse_cons, Nat.ofDigits_append,
        Nat.ofDigits_singleton, List.length_reverse] at hI hJ ⊢
      rw [hlen'] at hI ⊢
      rcases lt_trichotomy i j with hlt | heq | hgt
      · rw [if_pos (by omega), eq_comm, Int.sign_eq_neg_one_iff_neg]
        have h1 : c.base ^ js.length * i + c.base ^ js.length ≤ c.base ^ js.length * j := by
          nlinarith [Nat.pow_pos (n := js.length) c.base_pos]
        omega
      · subst heq
        rw [if_neg (by omega), if_neg (by omega), ih hlen' his hjs]
        congr 1
        omega
      · rw [if_neg (by omega), if_pos (by omega), eq_comm, Int.sign_eq_one_iff_pos]
        have h1 : c.base ^ js.length * j + c.base ^ js.length ≤ c.base ^ js.length * i := by
          nlinarith [Nat.pow_pos (n := js.length) c.base_pos]
        omega

end Pycopy
