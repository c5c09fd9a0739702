import Mathlib.Logic.Function.Basic
import Mathlib.Tactic.Common

/-!
# Memory as Bytes and as Bits

Memory is a function from addresses to bytes. Tables of small fields are packed into its bytes
and changed by or-ing and masking; what such a change does is said bit by bit.

## Main results

* `bit_orByte`, `bit_clearByte`: the bits after a change of one byte.
* `byte_ext`: a byte is known when its bits are.
-/

namespace BitMemory

/-- The byte at each address. -/
abbrev Memory := ℕ → BitVec 8

variable {m m' : Memory} {a i k : ℕ} {mask : BitVec 8}

/-- Bit `k` of the memory, the low bits of each byte first. -/
def bit (m : Memory) (k : ℕ) : Bool := (m (k / 8)).getLsbD (k % 8)

/-- `m[a] |= mask` -/
def orByte (m : Memory) (a : ℕ) (mask : BitVec 8) : Memory := Function.update m a (m a ||| mask)

/-- `m[a] &= ~mask` -/
def clearByte (m : Memory) (a : ℕ) (mask : BitVec 8) : Memory :=
  Function.update m a (m a &&& ~~~mask)

/-- `memset(m + a, v, n)` -/
def memset (m : Memory) (a : ℕ) (v : BitVec 8) (n : ℕ) : Memory :=
  fun i => if a ≤ i ∧ i < a + n then v else m i

/-- `memcpy(m + dst, m + src, n)` -/
def memcpy (m : Memory) (dst src n : ℕ) : Memory :=
  fun i => if dst ≤ i ∧ i < dst + n then m (src + (i - dst)) else m i

/-- The bits of the mask are set, and no other. -/
theorem bit_orByte :
    bit (orByte m a mask) k = (bit m k || (decide (k / 8 = a) && mask.getLsbD (k % 8))) := by
  rw [bit, bit, orByte, Function.update_apply]
  by_cases h : k / 8 = a
  · rw [if_pos h, BitVec.getLsbD_or, h, decide_eq_true rfl, Bool.true_and]
  · rw [if_neg h, decide_eq_false h, Bool.false_and, Bool.or_false]

/-- The bits of the mask are cleared, and no other. -/
theorem bit_clearByte :
    bit (clearByte m a mask) k = (bit m k && !(decide (k / 8 = a) && mask.getLsbD (k % 8))) := by
  have hlt : k % 8 < 8 := Nat.mod_lt k (by decide)
  rw [bit, bit, clearByte, Function.update_apply]
  by_cases h : k / 8 = a
  · rw [if_pos h, BitVec.getLsbD_and, BitVec.getLsbD_not, h, decide_eq_true rfl, Bool.true_and,
      decide_eq_true hlt, Bool.true_and]
  · rw [if_neg h, decide_eq_false h, Bool.false_and, Bool.not_false, Bool.and_true]

theorem orByte_of_ne (h : i ≠ a) : orByte m a mask i = m i := Function.update_of_ne h _ _

theorem clearByte_of_ne (h : i ≠ a) : clearByte m a mask i = m i := Function.update_of_ne h _ _

/-- A byte is known when its bits are. -/
theorem byte_ext (h : ∀ k, k / 8 = a → bit m k = bit m' k) : m a = m' a := by
  refine BitVec.eq_of_getLsbD_eq fun i hi => ?_
  have := h (8 * a + i) (by omega)
  rwa [bit, bit, show (8 * a + i) / 8 = a by omega, show (8 * a + i) % 8 = i by omega] at this

variable {v : BitVec 8} {n : ℕ}

theorem memset_of_mem (hi : a ≤ i) (hlt : i < a + n) : memset m a v n i = v := if_pos ⟨hi, hlt⟩

theorem memset_of_not_mem (h : ¬(a ≤ i ∧ i < a + n)) : memset m a v n i = m i := if_neg h

theorem memcpy_of_mem {dst src : ℕ} (hi : dst ≤ i) (hlt : i < dst + n) :
    memcpy m dst src n i = m (src + (i - dst)) := if_pos ⟨hi, hlt⟩

theorem memcpy_of_not_mem {dst src : ℕ} (h : ¬(dst ≤ i ∧ i < dst + n)) :
    memcpy m dst src n i = m i := if_neg h

end BitMemory
