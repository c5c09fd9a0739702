import Mathlib.Data.Nat.Digits.Defs
import Mathlib.Tactic.SplitIfs
import Pycopy.Mpz.Mpn

/-!
# The Integers `mpz_t`

An `mpz_t` is a sign bit, the digits in use and the size of the buffer that holds them.
The operations of `py/mpz.c` first ask `mpz_need_dig` for a buffer, let an `mpn` function
store digits into it and then set the sign. A call either returns the new destination or
stops with a `MpzFault`: a failed `assert`, or a digit stored outside the buffer. Allocation
itself is taken to succeed, and a destination is distinct from the operands.

Zero has two representations, since the sign bit of any value may be set. Both have the value
`0` here.

## Main results

* `computes_store`: a buffer is asked for, digits are stored and the sign is set.
-/

open DigitList

namespace Pycopy

/-- How a call can go wrong: an `assert` fails, a digit is accessed outside its buffer, or
a loop does not end. -/
inductive MpzFault
  | assertFail
  | outOfBounds
  | noReturn
  deriving DecidableEq, Repr

/-- `mpz_t`. The field `dig` is the list of the `len` digits in use; `alloc` is the number
of digits the buffer can hold. -/
structure Mpz where
  neg : Bool
  fixedDig : Bool
  alloc : ℕ
  dig : List ℕ
  deriving DecidableEq, Repr

/-- The integer with the given sign bit and magnitude. -/
def signed (neg : Bool) (n : ℕ) : ℤ := bif neg then -(n : ℤ) else n

namespace Mpz

/-- The field `len`. -/
def len (z : Mpz) : ℕ := z.dig.length

/-- The integer an `mpz_t` stands for. -/
def value (c : MpzConfig) (z : Mpz) : ℤ := signed z.neg (Nat.ofDigits c.base z.dig)

/-- The digits are in range and normalised, and lie inside the buffer. Nothing is asked
of the sign of zero. -/
structure Valid (c : MpzConfig) (z : Mpz) : Prop where
  below : Below c.base z.dig
  normal : Normal z.dig
  len_le : z.dig.length ≤ z.alloc

end Mpz

/-! ### Definitions -/

/-- `mpz_init_zero` -/
def mpzInitZero : Mpz := ⟨false, false, 0, []⟩

/-- `MIN_ALLOC` -/
def minAlloc : ℕ := 2

/-- `mpz_need_dig` -/
def mpzNeedDig (z : Mpz) (need : ℕ) : Except MpzFault Mpz :=
  let need := if need < minAlloc then minAlloc else need
  if z.alloc < need then
    if z.fixedDig then .error .assertFail else .ok { z with alloc := need }
  else .ok z

/-- The effect of an `mpn` function on its destination: the digits `stored` are written
from the start of the buffer, and `len` of them are kept. -/
def mpzStore (z : Mpz) (stored : List ℕ) (len : ℕ) : Except MpzFault Mpz :=
  if stored.length ≤ z.alloc then .ok { z with dig := stored.take len }
  else .error .outOfBounds

variable (c : MpzConfig)

/-- `MPZ_NUM_DIG_FOR_INT` -/
def mpzNumDigForInt : ℕ := (c.wordSize + c.digSize - 1) / c.digSize

/-- `mpz_set_from_int`. The sign bit is left alone when the value is zero. -/
def mpzSetFromInt (z : Mpz) (val : ℤ) : Except MpzFault Mpz :=
  if val = 0 then .ok { z with dig := [] }
  else do
    let z ← mpzNeedDig z (mpzNumDigForInt c)
    let uval := (if val < 0 then -val else val) % 2 ^ c.wordSize
    let digits := Nat.digits c.base uval.toNat
    let z ← mpzStore z digits digits.length
    return { z with neg := decide (val < 0) }

/-- `mpz_cmp` -/
def mpzCmp (z1 z2 : Mpz) : ℤ :=
  if z1.len = 0 ∧ z2.len = 0 then 0
  else
    let cmp : ℤ := (z2.neg.toNat : ℤ) - z1.neg.toNat
    if cmp ≠ 0 then cmp
    else
      let cmp := mpnCmp c z1.dig z2.dig
      if z1.neg then -cmp else cmp

variable {c}

/-! ### Storing a result -/

/-- A call that returned hands its result on. -/
theorem mpz_ok_bind {α β : Type} (a : α) (f : α → Except MpzFault β) :
    (Except.ok a >>= f) = f a := rfl

/-- The call returns a normalised value inside its buffer that stands for `v`. -/
def Computes (c : MpzConfig) (call : Except MpzFault Mpz) (v : ℤ) : Prop :=
  ∃ r, call = .ok r ∧ r.Valid c ∧ r.fixedDig = false ∧ r.value c = v

/-- The destination once `mpz_need_dig` has grown it. -/
def Mpz.grow (z : Mpz) (need : ℕ) : Mpz := { z with alloc := max z.alloc (max need minAlloc) }

variable {z : Mpz}

/-- A buffer that is not fixed can grow. -/
theorem mpzNeedDig_eq (hz : z.fixedDig = false) (need : ℕ) :
    mpzNeedDig z need = .ok (z.grow need) := by
  have hneed : (if need < minAlloc then minAlloc else need) = max need minAlloc := by
    split <;> omega
  rw [mpzNeedDig, hneed, Mpz.grow]
  by_cases h : z.alloc < max need minAlloc
  · simp only [h, if_true, hz, Bool.false_eq_true, if_false, max_eq_right h.le]
  · simp only [h, if_false, max_eq_left (not_lt.mp h)]

theorem mpzStore_eq {stored : List ℕ} (h : stored.length ≤ z.alloc) (len : ℕ) :
    mpzStore z stored len = .ok { z with dig := stored.take len } :=
  if_pos h

section Store

variable {dest : Mpz} {stored : List ℕ} {need len v : ℕ} (hdest : dest.fixedDig = false)
  (hbelow : Below c.base stored) (hnormal : Normal (stored.take len))
  (hval : Nat.ofDigits c.base (stored.take len) = v)

include hdest hbelow hnormal hval

/-- What is stored in a buffer with room is the result. -/
theorem computes_mpzStore (hfit : stored.length ≤ dest.alloc) (neg : Bool) : Computes c (do
      let dest ← mpzStore dest stored len
      return { dest with neg := neg }) (signed neg v) := by
  refine ⟨{ dest with dig := stored.take len, neg := neg }, ?_, ⟨?_, hnormal, ?_⟩,
    hdest, congrArg (signed neg) hval⟩
  · rw [mpzStore_eq hfit]
    rfl
  · exact hbelow.sublist (List.take_sublist _ _)
  · exact le_trans (List.length_take_le' _ _) hfit

/-- The shape shared by the operations: get the buffer, store the digits, set the sign. -/
theorem computes_store (hneed : stored.length ≤ max need minAlloc) (neg : Bool) : Computes c (do
      let dest ← mpzNeedDig dest need
      let dest ← mpzStore dest stored len
      return { dest with neg := neg }) (signed neg v) := by
  rw [mpzNeedDig_eq hdest]
  exact computes_mpzStore (show (dest.grow need).fixedDig = false from hdest) hbelow hnormal hval
    (le_trans hneed (le_max_right _ _)) neg

end Store

/-! ### Zero -/

theorem Mpz.Valid.len_eq_zero_iff (hz : z.Valid c) : z.len = 0 ↔ Nat.ofDigits c.base z.dig = 0 := by
  rw [Mpz.len, List.length_eq_zero_iff, ofDigits_eq_zero_iff c.one_lt_base hz.normal]

/-- The digits are those of the magnitude. -/
theorem Mpz.natAbs_value (z : Mpz) : (z.value c).natAbs = Nat.ofDigits c.base z.dig := by
  rw [Mpz.value, signed]
  cases z.neg <;> simp

theorem Mpz.Valid.value_eq_zero_iff (hz : z.Valid c) : z.value c = 0 ↔ z.len = 0 := by
  rw [hz.len_eq_zero_iff, ← Mpz.natAbs_value, Int.natAbs_eq_zero]

/-- The digits of a 32-bit machine: `MPZ_DIG_SIZE` 16 in a 32-bit word. -/
def mpzConfig16 : MpzConfig := ⟨16, 32, 32, by decide, by decide, by decide, by decide⟩

theorem mpzConfig16_digSize_lt : mpzConfig16.digSize < 32 := by decide

end Pycopy
