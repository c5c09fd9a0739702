import Pycopy.Lib.BitMemory
import Mathlib.Algebra.Order.Group.Nat
import Mathlib.Tactic.Ring

/-!
# Numbers as Strings of Bytes

Numbers as strings of bytes with the low byte first.

## Main results

* `ofBytes_toBytes`, `toBytes_ofBytes`: the two directions of the number format.
* `toBytes_congr`: only the low bytes of a number matter.
-/

open BitMemory

namespace ByteString

/-! ### Numbers -/

/-- The `k` low bytes of a number, the low byte first. -/
def toBytes : ℕ → ℕ → List (BitVec 8)
  | 0, _ => []
  | k + 1, n => BitVec.ofNat 8 n :: toBytes k (n / 256)

/-- The number that a string of bytes stands for. -/
def ofBytes : List (BitVec 8) → ℕ
  | [] => 0
  | x :: xs => x.toNat + 256 * ofBytes xs

@[simp] theorem length_toBytes (k n : ℕ) : (toBytes k n).length = k := by
  induction k generalizing n with
  | zero => rfl
  | succ k ih => rw [toBytes, List.length_cons, ih]

theorem ofBytes_lt (xs : List (BitVec 8)) : ofBytes xs < 256 ^ xs.length := by
  induction xs with
  | nil => exact Nat.one_pos
  | cons x xs ih =>
    have hx := x.isLt
    rw [ofBytes, List.length_cons, pow_succ]
    omega

/-- **Writing and reading a number** keeps its low bytes. -/
theorem ofBytes_toBytes (k n : ℕ) : ofBytes (toBytes k n) = n % 256 ^ k := by
  induction k generalizing n with
  | zero => rw [pow_zero, Nat.mod_one]; rfl
  | succ k ih =>
    rw [toBytes, ofBytes, ih, BitVec.toNat_ofNat, show 2 ^ 8 = 256 from rfl, pow_succ', Nat.mod_mul]

theorem toBytes_ofBytes (xs : List (BitVec 8)) : toBytes xs.length (ofBytes xs) = xs := by
  induction xs with
  | nil => rfl
  | cons x xs ih =>
    have hx := x.isLt
    rw [List.length_cons, toBytes, ofBytes, show (x.toNat + 256 * ofBytes xs) / 256 = ofBytes xs
      by omega, ih]
    congr 1
    apply BitVec.eq_of_toNat_eq
    rw [BitVec.toNat_ofNat]
    omega

theorem toBytes_add (j k n : ℕ) : toBytes (j + k) n = toBytes j n ++ toBytes k (n / 256 ^ j) := by
  induction j generalizing n with
  | zero => simp [toBytes]
  | succ j ih =>
    rw [Nat.succ_add, toBytes, toBytes, ih, List.cons_append, Nat.div_div_eq_div_mul, pow_succ']

/-- Only the low bytes of a number matter. -/
theorem toBytes_congr {k n n' : ℕ} (h : n % 256 ^ k = n' % 256 ^ k) :
    toBytes k n = toBytes k n' := by
  rw [← ofBytes_toBytes, ← ofBytes_toBytes k n'] at h
  have hn := toBytes_ofBytes (toBytes k n)
  rw [h, length_toBytes] at hn
  rw [← hn]
  have hn' := toBytes_ofBytes (toBytes k n')
  rwa [length_toBytes] at hn'

/-- The low bytes come first. -/
theorem take_toBytes {j k : ℕ} (h : j ≤ k) (n : ℕ) : (toBytes k n).take j = toBytes j n := by
  obtain ⟨i, rfl⟩ := Nat.exists_eq_add_of_le h
  rw [toBytes_add, List.take_append_of_le_length (by simp), List.take_of_length_le (by simp)]

theorem toBytes_zero (k : ℕ) : toBytes k 0 = List.replicate k 0#8 := by
  induction k with
  | zero => rfl
  | succ k ih => rw [toBytes, List.replicate_succ, Nat.zero_div, ih]

end ByteString
