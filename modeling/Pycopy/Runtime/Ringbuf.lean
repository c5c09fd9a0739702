import Mathlib.Algebra.Order.Group.Nat
import Mathlib.Data.Int.Order.Basic
import Pycopy.Lib.RingBuffer

/-!
# The Ring Buffer of Bytes

`py/ringbuf.c` and `py/ringbuf.h`: bytes, and words of two bytes with the high one first, between an
interrupt and the program. One place of the buffer stays free, so that `iget = iput` means that it
is empty. The indices are `uint16_t`; what is computed in a `uint32_t` on the way does not wrap.

The operations are compared with those of a queue that holds `size - 1` bytes. `ringbuf_get16` adds
two to `iget` in 16 bits, and with the greatest size that a `ringbuf_t` can have this wraps in front
of the comparison that is meant to wrap it.

## Main results

* `ringbuf_right_iff`: sequences of operations.
-/

namespace Pycopy

/-! ### The source -/

/-- `ringbuf_t` -/
structure Ringbuf where
  buf : ℕ → UInt8
  size : ℕ
  iget : ℕ
  iput : ℕ

/-- `ringbuf_alloc`, with whatever the memory holds -/
def ringbufAlloc (buf : ℕ → UInt8) (size : ℕ) : Ringbuf := ⟨buf, size, 0, 0⟩

namespace Ringbuf

/-- `r->buf[i]`, or nothing if this is not in the buffer -/
def read (r : Ringbuf) (i : ℕ) : Option UInt8 := if i < r.size then some (r.buf i) else none

/-- `r->buf[i] = v` -/
def write (r : Ringbuf) (i : ℕ) (v : UInt8) : Option Ringbuf :=
  if i < r.size then some { r with buf := Function.update r.buf i v } else none

end Ringbuf

/-- `ringbuf_get` -/
def ringbufGet (r : Ringbuf) : Option (Ringbuf × ℤ) :=
  if r.iget = r.iput then some (r, -1)
  else do
    let v ← r.read r.iget
    let iget := (r.iget + 1) % 2 ^ 16
    some ({ r with iget := if iget ≥ r.size then 0 else iget }, v.toNat)

/-- `ringbuf_put` -/
def ringbufPut (r : Ringbuf) (v : UInt8) : Option (Ringbuf × ℤ) :=
  let iputNew := if r.iput + 1 ≥ r.size then 0 else r.iput + 1
  if iputNew = r.iget then some (r, -1)
  else do
    let r' ← r.write r.iput v
    some ({ r' with iput := iputNew % 2 ^ 16 }, 0)

/-- `ringbuf_free` -/
def ringbufFree (r : Ringbuf) : ℕ := (r.size + r.iget - r.iput - 1) % r.size

/-- `ringbuf_avail` -/
def ringbufAvail (r : Ringbuf) : ℕ := (r.size + r.iput - r.iget) % r.size

/-- `ringbuf_peek16` -/
def ringbufPeek16 (r : Ringbuf) : Option ℤ :=
  if r.iget = r.iput then some (-1)
  else
    let igetA := if r.iget + 1 = r.size then 0 else r.iget + 1
    if igetA = r.iput then some (-1)
    else do
      let high ← r.read r.iget
      let low ← r.read igetA
      some ((high.toNat <<< 8 ||| low.toNat : ℕ) : ℤ)

/-- `ringbuf_get16` -/
def ringbufGet16 (r : Ringbuf) : Option (Ringbuf × ℤ) := do
  let v ← ringbufPeek16 r
  if v = -1 then some (r, v)
  else
    let iget := (r.iget + 2) % 2 ^ 16
    some ({ r with iget := if iget ≥ r.size then iget - r.size else iget }, v)

/-- `ringbuf_put16` -/
def ringbufPut16 (r : Ringbuf) (v : UInt16) : Option (Ringbuf × ℤ) :=
  let iputA := if r.iput + 1 = r.size then 0 else r.iput + 1
  if iputA = r.iget then some (r, -1)
  else
    let iputB := if iputA + 1 = r.size then 0 else iputA + 1
    if iputB = r.iget then some (r, -1)
    else do
      let r₁ ← r.write r.iput ((v >>> 8) &&& 0xff).toUInt8
      let r₂ ← r₁.write iputA (v &&& 0xff).toUInt8
      some ({ r₂ with iput := iputB % 2 ^ 16 }, 0)

/-- An operation -/
inductive RingbufOp
  | put (v : UInt8)
  | get
  | put16 (v : UInt16)
  | get16
  | peek16

/-- The buffer after an operation, and the result -/
def ringbufStep (r : Ringbuf) : RingbufOp → Option (Ringbuf × ℤ)
  | .put v => ringbufPut r v
  | .get => ringbufGet r
  | .put16 v => ringbufPut16 r v
  | .get16 => ringbufGet16 r
  | .peek16 => (ringbufPeek16 r).map fun v => (r, v)

/-! ### A queue of bytes -/

/-- The operations on a queue of at most `cap` bytes -/
def byteQueueStep (cap : ℕ) (q : List UInt8) : RingbufOp → List UInt8 × ℤ
  | .put v => if q.length + 1 ≤ cap then (q ++ [v], 0) else (q, -1)
  | .get =>
    match q with
    | v :: rest => (rest, v.toNat)
    | [] => (q, -1)
  | .put16 v =>
    if q.length + 2 ≤ cap then
      (q ++ [UInt8.ofNat (v.toNat / 256), UInt8.ofNat (v.toNat % 256)], 0)
    else (q, -1)
  | .get16 =>
    match q with
    | high :: low :: rest => (rest, (256 * high.toNat + low.toNat : ℕ))
    | _ => (q, -1)
  | .peek16 =>
    match q with
    | high :: low :: _ => (q, (256 * high.toNat + low.toNat : ℕ))
    | _ => (q, -1)

namespace Ringbuf

/-- The indices are in the buffer. -/
structure Good (r : Ringbuf) : Prop where
  two_le : 2 ≤ r.size
  lt_word : r.size < 2 ^ 16
  iget_lt : r.iget < r.size
  iput_lt : r.iput < r.size

/-- The bytes that were put and not yet got -/
def ring (r : Ringbuf) : RingBuffer.Ring UInt8 := ⟨r.iget, ringbufAvail r, r.buf⟩

/-- These bytes in order -/
def contents (r : Ringbuf) : List UInt8 := r.ring.contents r.size

end Ringbuf

/-- An operation is right if no access is outside, the bytes and the result are those of a queue,
and an operation that is refused changes nothing. -/
structure StepRight (r : Ringbuf) (op : RingbufOp) (r' : Ringbuf) (v : ℤ) : Prop where
  step : ringbufStep r op = some (r', v)
  size : r'.size = r.size
  iget_lt : r'.iget < r'.size
  iput_lt : r'.iput < r'.size
  queue : (r'.contents, v) = byteQueueStep (r.size - 1) r.contents op
  refused : v = -1 → r' = r

/-- All operations of a sequence are right, and every place but one is taken or free between
them. -/
def RunRight : Ringbuf → List RingbufOp → Prop
  | r, [] => ringbufAvail r + ringbufFree r = r.size - 1
  | r, op :: ops =>
    ringbufAvail r + ringbufFree r = r.size - 1 ∧ ∃ r' v, StepRight r op r' v ∧ RunRight r' ops

/-- Two bytes are got where `iget + 2` is not a `uint16_t`. -/
def WrapsAt (r : Ringbuf) (op : RingbufOp) : Prop :=
  op = .get16 ∧ r.size = 65535 ∧ r.iget = 65534 ∧ 2 ≤ ringbufAvail r

/-- This happens in a sequence of operations. -/
def RunWraps : Ringbuf → List RingbufOp → Prop
  | _, [] => False
  | r, op :: ops => WrapsAt r op ∨ ∃ r' v, ringbufStep r op = some (r', v) ∧ RunWraps r' ops

variable {r r' : Ringbuf} {op : RingbufOp}

/-! ### Indices -/

namespace Ringbuf.Good

theorem avail_eq (hr : r.Good) :
    ringbufAvail r = if r.iget ≤ r.iput then r.iput - r.iget else r.size + r.iput - r.iget := by
  have h₁ := hr.iget_lt
  have h₂ := hr.iput_lt
  unfold ringbufAvail
  split_ifs with h
  · rw [show r.size + r.iput - r.iget = r.iput - r.iget + r.size by omega, Nat.add_mod_right,
      Nat.mod_eq_of_lt (by omega)]
  · exact Nat.mod_eq_of_lt (by omega)

theorem free_eq (hr : r.Good) :
    ringbufFree r =
      if r.iget ≤ r.iput then r.size + r.iget - r.iput - 1 else r.iget - r.iput - 1 := by
  have h₁ := hr.iget_lt
  have h₂ := hr.iput_lt
  unfold ringbufFree
  split_ifs with h
  · exact Nat.mod_eq_of_lt (by omega)
  · rw [show r.size + r.iget - r.iput - 1 = r.iget - r.iput - 1 + r.size by omega,
      Nat.add_mod_right, Nat.mod_eq_of_lt (by omega)]

/-- **Every place but one** is taken or free. -/
theorem avail_add_free (hr : r.Good) : ringbufAvail r + ringbufFree r = r.size - 1 := by
  have h₁ := hr.iget_lt
  have h₂ := hr.iput_lt
  rw [hr.avail_eq, hr.free_eq]
  split_ifs <;> omega

/-- The place behind the last byte -/
theorem place_eq (hr : r.Good) : (r.iget + ringbufAvail r) % r.size = r.iput := by
  have h₁ := hr.iget_lt
  have h₂ := hr.iput_lt
  rw [hr.avail_eq]
  split_ifs with h
  · rw [Nat.add_sub_cancel' h, Nat.mod_eq_of_lt h₂]
  · rw [show r.iget + (r.size + r.iput - r.iget) = r.iput + r.size by omega, Nat.add_mod_right,
      Nat.mod_eq_of_lt h₂]

end Ringbuf.Good

theorem Ringbuf.length_contents (r : Ringbuf) : r.contents.length = ringbufAvail r :=
  RingBuffer.Ring.length_contents _

/-- The next place, as both ways of the source to write it compute it -/
def nextPlace (size i : ℕ) : ℕ := if i + 1 = size then 0 else i + 1

theorem nextPlace_eq_mod {size i : ℕ} (hi : i < size) : nextPlace size i = (i + 1) % size := by
  unfold nextPlace
  split_ifs with h
  · rw [h, Nat.mod_self]
  · exact (Nat.mod_eq_of_lt (by omega)).symm

theorem nextPlace_lt {size i : ℕ} (hi : i < size) : nextPlace size i < size := by
  rw [nextPlace_eq_mod hi]
  exact Nat.mod_lt _ (by omega)

/-! ### One byte more or less -/

/-- A byte was put. -/
def Ringbuf.push (r : Ringbuf) (v : UInt8) : Ringbuf :=
  { r with buf := Function.update r.buf r.iput v, iput := nextPlace r.size r.iput }

/-- The word of the first two bytes -/
def Ringbuf.firstWord (r : Ringbuf) : ℤ :=
  (256 * (r.buf r.iget).toNat + (r.buf (nextPlace r.size r.iget)).toNat : ℕ)

/-- A byte was got. -/
def Ringbuf.pop (r : Ringbuf) : Ringbuf := { r with iget := nextPlace r.size r.iget }

namespace Ringbuf.Good

theorem push (hr : r.Good) (v : UInt8) : (r.push v).Good :=
  ⟨hr.two_le, hr.lt_word, hr.iget_lt, nextPlace_lt hr.iput_lt⟩

theorem pop (hr : r.Good) : r.pop.Good :=
  ⟨hr.two_le, hr.lt_word, nextPlace_lt hr.iget_lt, hr.iput_lt⟩

/-- The buffer is full if the next place is the first one. -/
theorem full_iff (hr : r.Good) : nextPlace r.size r.iput = r.iget ↔
    ringbufAvail r + 1 = r.size := by
  have h₁ := hr.iget_lt
  have h₂ := hr.iput_lt
  rw [hr.avail_eq, nextPlace]
  split_ifs <;> omega

theorem empty_iff (hr : r.Good) : r.iget = r.iput ↔ ringbufAvail r = 0 := by
  have h₁ := hr.iget_lt
  have h₂ := hr.iput_lt
  rw [hr.avail_eq]
  split_ifs <;> omega

theorem avail_push (hr : r.Good) (v : UInt8) (hroom : ringbufAvail r + 1 < r.size) :
    ringbufAvail (r.push v) = ringbufAvail r + 1 := by
  have h₁ := hr.iget_lt
  have h₂ := hr.iput_lt
  rw [hr.avail_eq] at hroom ⊢
  rw [(hr.push v).avail_eq]
  simp only [Ringbuf.push, nextPlace]
  split_ifs at hroom ⊢ <;> omega

theorem avail_pop (hr : r.Good) (hsome : 0 < ringbufAvail r) :
    ringbufAvail r.pop = ringbufAvail r - 1 := by
  have h₁ := hr.iget_lt
  have h₂ := hr.iput_lt
  rw [hr.avail_eq] at hsome ⊢
  rw [hr.pop.avail_eq]
  simp only [Ringbuf.pop, nextPlace]
  split_ifs at hsome ⊢ <;> omega

theorem contents_push (hr : r.Good) (v : UInt8) (hroom : ringbufAvail r + 1 < r.size) :
    (r.push v).contents = r.contents ++ [v] := by
  have hring : (r.push v).ring = r.ring.push r.size v := by
    simp only [ring, RingBuffer.Ring.push, hr.avail_push v hroom, hr.place_eq]
    rfl
  rw [contents, hring]
  exact RingBuffer.Ring.contents_push
    (show r.ring.len < r.size from (Nat.lt_succ_self _).trans hroom) v

theorem contents_pop (hr : r.Good) (hsome : 0 < ringbufAvail r) :
    r.contents = r.buf r.iget :: r.pop.contents := by
  have hring : r.pop.ring = r.ring.pop r.size := by
    simp only [ring, RingBuffer.Ring.pop, hr.avail_pop hsome, ← nextPlace_eq_mod hr.iget_lt]
    rfl
  rw [contents, contents, hring, RingBuffer.Ring.contents_pop (r := r.ring) hsome]
  simp only [ring, Nat.mod_eq_of_lt hr.iget_lt]
  rfl

end Ringbuf.Good

/-! ### The operations -/

theorem word_low (v : UInt16) : (v &&& 0xff).toUInt8 = UInt8.ofNat (v.toNat % 256) := by
  apply UInt8.toNat_inj.mp
  have h := Nat.and_two_pow_sub_one_eq_mod v.toNat 8
  simp only [UInt16.toNat_toUInt8, UInt16.toNat_and, UInt8.toNat_ofNat']
  rw [show (0xff : UInt16).toNat = 2 ^ 8 - 1 from rfl, h, Nat.mod_mod]

theorem word_high (v : UInt16) :
    ((v >>> 8) &&& 0xff).toUInt8 = UInt8.ofNat (v.toNat / 256) := by
  have hshift : (v >>> 8).toNat = v.toNat / 256 := by
    rw [UInt16.toNat_shiftRight]
    exact Nat.shiftRight_eq_div_pow _ 8
  have hlt := v.toNat_lt
  rw [word_low, hshift, Nat.mod_eq_of_lt (by omega)]

namespace Ringbuf.Good

theorem nextPlace_mod (hr : r.Good) {i : ℕ} (hi : i < r.size) :
    nextPlace r.size i % 2 ^ 16 = nextPlace r.size i :=
  Nat.mod_eq_of_lt ((nextPlace_lt hi).trans hr.lt_word)

theorem put_eq (hr : r.Good) (v : UInt8) :
    ringbufPut r v = some (if ringbufAvail r + 1 < r.size then (r.push v, 0) else (r, -1)) := by
  have hnext : (if r.iput + 1 ≥ r.size then 0 else r.iput + 1) = nextPlace r.size r.iput := by
    have h := hr.iput_lt
    unfold nextPlace
    split_ifs <;> omega
  have hle : ringbufAvail r < r.size := Nat.mod_lt _ (by have := hr.two_le; omega)
  simp only [ringbufPut, hnext, hr.full_iff]
  by_cases hfull : ringbufAvail r + 1 = r.size
  · rw [if_pos hfull, if_neg (by omega)]
  · rw [if_neg hfull, if_pos (by omega), write, if_pos hr.iput_lt]
    simp only [Option.bind_eq_bind, Option.bind_some, hr.nextPlace_mod hr.iput_lt]
    rfl

theorem get_eq (hr : r.Good) :
    ringbufGet r =
      some (if 0 < ringbufAvail r then (r.pop, ((r.buf r.iget).toNat : ℤ)) else (r, -1)) := by
  have hlt := hr.iget_lt
  have hword := hr.lt_word
  have hnext : (if (r.iget + 1) % 2 ^ 16 ≥ r.size then 0 else (r.iget + 1) % 2 ^ 16)
      = nextPlace r.size r.iget := by
    rw [Nat.mod_eq_of_lt (by omega), nextPlace]
    split_ifs <;> omega
  simp only [ringbufGet, hnext, hr.empty_iff]
  by_cases h0 : ringbufAvail r = 0
  · rw [if_pos h0, if_neg (by omega)]
  · rw [if_neg h0, if_pos (by omega), read, if_pos hlt]
    rfl

theorem peek16_eq (hr : r.Good) :
    ringbufPeek16 r = some (if 2 ≤ ringbufAvail r then firstWord r else -1) := by
  have hsecond (h0 : ringbufAvail r ≠ 0) :
      nextPlace r.size r.iget = r.iput ↔ ringbufAvail r = 1 := by
    have h := hr.pop.empty_iff
    rw [hr.avail_pop (by omega)] at h
    exact h.trans (by omega)
  rw [ringbufPeek16, ← nextPlace]
  simp only [hr.empty_iff]
  by_cases h0 : ringbufAvail r = 0
  · rw [if_pos h0, if_neg (by omega)]
  rw [if_neg h0]
  by_cases h1 : ringbufAvail r = 1
  · rw [if_pos ((hsecond h0).mpr h1), if_neg (by omega)]
  rw [if_neg (h1 ∘ (hsecond h0).mp), if_pos (by omega), read, if_pos hr.iget_lt, read,
    if_pos (nextPlace_lt hr.iget_lt)]
  have hlow := (r.buf (nextPlace r.size r.iget)).toNat_lt
  simp only [Option.bind_eq_bind, Option.bind_some]
  rw [← Nat.shiftLeft_add_eq_or_of_lt hlow, Nat.shiftLeft_eq, Nat.mul_comm]
  rfl

/-- `ringbuf_get16` in terms of what the 16-bit sum leaves in `iget` -/
theorem get16_eq (hr : r.Good) (r' : Ringbuf)
    (hr' : r' = { r with
      iget := if (r.iget + 2) % 2 ^ 16 ≥ r.size then (r.iget + 2) % 2 ^ 16 - r.size
        else (r.iget + 2) % 2 ^ 16 }) :
    ringbufGet16 r = some (if 2 ≤ ringbufAvail r then (r', firstWord r) else (r, -1)) := by
  rw [ringbufGet16, hr.peek16_eq, hr']
  by_cases h2 : 2 ≤ ringbufAvail r
  · have hne : firstWord r ≠ -1 := by
      unfold firstWord
      omega
    simp only [if_pos h2, Option.bind_eq_bind, Option.bind_some, if_neg hne]
  · simp only [if_neg h2, Option.bind_eq_bind, Option.bind_some, if_true]

/-- Two places further, unless the sum wraps -/
theorem get16_right (hr : r.Good) (hwrap : ¬(r.size = 65535 ∧ r.iget = 65534)) :
    ringbufGet16 r =
      some (if 2 ≤ ringbufAvail r then (r.pop.pop, firstWord r) else (r, -1)) := by
  have h₁ := hr.iget_lt
  have h₂ := hr.lt_word
  refine hr.get16_eq r.pop.pop ?_
  simp only [Ringbuf.pop, nextPlace, Ringbuf.mk.injEq, true_and, and_true]
  have h₃ := hr.two_le
  rw [Nat.mod_eq_of_lt (by omega)]
  split_ifs <;> omega

/-- **Where the sum wraps, only one byte is got.** -/
theorem get16_wraps (hr : r.Good) (hwrap : WrapsAt r .get16) :
    ringbufGet16 r = some (r.pop, firstWord r) := by
  obtain ⟨-, hsize, higet, h2⟩ := hwrap
  rw [hr.get16_eq r.pop, if_pos h2]
  simp only [Ringbuf.pop, nextPlace, hsize, higet]
  rfl

theorem put16_eq (hr : r.Good) (v : UInt16) :
    ringbufPut16 r v =
      some (if ringbufAvail r + 2 < r.size then
        ((r.push (UInt8.ofNat (v.toNat / 256))).push (UInt8.ofNat (v.toNat % 256)), 0)
      else (r, -1)) := by
  have hle : ringbufAvail r < r.size := Nat.mod_lt _ (by have := hr.two_le; omega)
  rw [ringbufPut16, word_high, word_low]
  simp only [← nextPlace.eq_1]
  by_cases hfull : ringbufAvail r + 1 = r.size
  · rw [if_pos (hr.full_iff.mpr hfull), if_neg (by omega)]
  have hfull' : nextPlace r.size (nextPlace r.size r.iput) = r.iget ↔
      ringbufAvail r + 1 + 1 = r.size := by
    have h := (hr.push 0).full_iff
    rw [hr.avail_push 0 (by omega)] at h
    exact h
  rw [if_neg (hfull ∘ hr.full_iff.mp)]
  by_cases hone : ringbufAvail r + 1 + 1 = r.size
  · rw [if_pos (hfull'.mpr hone), if_neg (by omega)]
  rw [if_neg (hone ∘ hfull'.mp), if_pos (by omega), write, if_pos hr.iput_lt]
  simp only [Option.bind_eq_bind, Option.bind_some, write, if_pos (nextPlace_lt hr.iput_lt),
    hr.nextPlace_mod (nextPlace_lt hr.iput_lt)]
  rfl

theorem contents_two (hr : r.Good) (h2 : 2 ≤ ringbufAvail r) :
    r.contents =
      r.buf r.iget :: r.buf (nextPlace r.size r.iget) :: r.pop.pop.contents := by
  have hsome : 0 < ringbufAvail r.pop := by
    rw [hr.avail_pop (by omega)]
    omega
  rw [hr.contents_pop (by omega), hr.pop.contents_pop hsome]
  rfl

end Ringbuf.Good

/-- The word operations on a queue of fewer than two bytes -/
theorem queue_few {r : Ringbuf} (h2 : ¬2 ≤ ringbufAvail r) (cap : ℕ) :
    byteQueueStep cap r.contents .get16 = (r.contents, -1) ∧
      byteQueueStep cap r.contents .peek16 = (r.contents, -1) := by
  rw [← Ringbuf.length_contents] at h2
  match r.contents, h2 with
  | [], _ => exact ⟨rfl, rfl⟩
  | [_], _ => exact ⟨rfl, rfl⟩
  | _ :: _ :: _, h2 => simp at h2

/-! ### What is right -/

theorem StepRight.refuse (hr : r.Good) (hstep : ringbufStep r op = some (r, -1))
    (hqueue : byteQueueStep (r.size - 1) r.contents op = (r.contents, -1)) :
    StepRight r op r (-1) :=
  ⟨hstep, rfl, hr.iget_lt, hr.iput_lt, hqueue.symm, fun _ => rfl⟩

theorem StepRight.accept {v : ℤ} (hr' : r'.Good) (hsize : r'.size = r.size) (hv : 0 ≤ v)
    (hstep : ringbufStep r op = some (r', v))
    (hqueue : byteQueueStep (r.size - 1) r.contents op = (r'.contents, v)) :
    StepRight r op r' v :=
  ⟨hstep, hsize, hr'.iget_lt, hr'.iput_lt, hqueue.symm, fun h => absurd h (by omega)⟩

theorem stepRight_put (hr : r.Good) (v : UInt8) : ∃ r' z, StepRight r (.put v) r' z := by
  have hput := hr.put_eq v
  by_cases hroom : ringbufAvail r + 1 < r.size
  · rw [if_pos hroom] at hput
    refine ⟨_, _, .accept (hr.push v) rfl le_rfl hput ?_⟩
    rw [byteQueueStep, if_pos (by rw [Ringbuf.length_contents]; omega),
      hr.contents_push v hroom]
  · rw [if_neg hroom] at hput
    refine ⟨_, _, .refuse hr hput ?_⟩
    rw [byteQueueStep, if_neg (by rw [Ringbuf.length_contents]; omega)]

theorem stepRight_get (hr : r.Good) : ∃ r' z, StepRight r .get r' z := by
  have hget := hr.get_eq
  by_cases hsome : 0 < ringbufAvail r
  · rw [if_pos hsome] at hget
    refine ⟨_, _, .accept hr.pop rfl (Int.natCast_nonneg _) hget ?_⟩
    rw [hr.contents_pop hsome]
    rfl
  · rw [if_neg hsome] at hget
    refine ⟨_, _, .refuse hr hget ?_⟩
    have hnil : r.contents = [] := by
      apply List.eq_nil_of_length_eq_zero
      rw [Ringbuf.length_contents]
      omega
    rw [hnil]
    rfl

theorem stepRight_put16 (hr : r.Good) (v : UInt16) : ∃ r' z, StepRight r (.put16 v) r' z := by
  have hput := hr.put16_eq v
  by_cases hroom : ringbufAvail r + 2 < r.size
  · rw [if_pos hroom] at hput
    have hr₁ := hr.push (UInt8.ofNat (v.toNat / 256))
    have havail := hr.avail_push (UInt8.ofNat (v.toNat / 256)) (by omega)
    refine ⟨_, _, .accept (hr₁.push _) rfl le_rfl hput ?_⟩
    rw [byteQueueStep, if_pos (by rw [Ringbuf.length_contents]; omega),
      hr₁.contents_push _ (by rw [havail]; exact hroom), hr.contents_push _ (by omega),
      List.append_assoc]
    rfl
  · rw [if_neg hroom] at hput
    refine ⟨_, _, .refuse hr hput ?_⟩
    rw [byteQueueStep, if_neg (by rw [Ringbuf.length_contents]; omega)]

theorem stepRight_peek16 (hr : r.Good) : ∃ r' z, StepRight r .peek16 r' z := by
  have hpeek : ringbufStep r .peek16 =
      some (r, if 2 ≤ ringbufAvail r then Ringbuf.firstWord r else -1) := by
    rw [ringbufStep, hr.peek16_eq, Option.map_some]
  by_cases h2 : 2 ≤ ringbufAvail r
  · rw [if_pos h2] at hpeek
    refine ⟨_, _, .accept hr rfl (Int.natCast_nonneg _) hpeek ?_⟩
    rw [hr.contents_two h2]
    rfl
  · rw [if_neg h2] at hpeek
    exact ⟨_, _, .refuse hr hpeek (queue_few h2 _).2⟩

/-- A word is got by the queue if it is right. -/
theorem queue_get16 (hr : r.Good) (h2 : 2 ≤ ringbufAvail r) (cap : ℕ) :
    byteQueueStep cap r.contents .get16 = (r.pop.pop.contents, Ringbuf.firstWord r) := by
  rw [hr.contents_two h2]
  rfl

theorem stepRight_get16_iff (hr : r.Good) :
    (∃ r' z, StepRight r .get16 r' z) ↔ ¬WrapsAt r .get16 := by
  constructor
  · rintro ⟨r', z, hright⟩ hwrap
    have hstep := hright.step
    rw [ringbufStep, hr.get16_wraps hwrap, Option.some_inj, Prod.mk.injEq] at hstep
    have h2 := hwrap.2.2.2
    -- one byte is left that the queue does not have any more
    have hlen := congrArg (fun p => p.1.length) hright.queue
    simp only [queue_get16 hr h2, ← hstep.1, Ringbuf.length_contents] at hlen
    rw [hr.pop.avail_pop (by rw [hr.avail_pop (by omega)]; omega), hr.avail_pop (by omega)] at hlen
    omega
  · intro hwrap
    by_cases h2 : 2 ≤ ringbufAvail r
    · have hget := hr.get16_right fun h => hwrap ⟨rfl, h.1, h.2, h2⟩
      rw [if_pos h2] at hget
      exact ⟨_, _, .accept hr.pop.pop rfl (Int.natCast_nonneg _) hget (queue_get16 hr h2 _)⟩
    · have hget := hr.get16_eq _ rfl
      rw [if_neg h2] at hget
      exact ⟨_, _, .refuse hr hget (queue_few h2 _).1⟩

/-- **An operation is right** unless it gets two bytes where the sum wraps. -/
theorem stepRight_iff (hr : r.Good) (op : RingbufOp) :
    (∃ r' z, StepRight r op r' z) ↔ ¬WrapsAt r op := by
  cases op with
  | put v => exact iff_of_true (stepRight_put hr v) (fun h => nomatch h.1)
  | get => exact iff_of_true (stepRight_get hr) (fun h => nomatch h.1)
  | put16 v => exact iff_of_true (stepRight_put16 hr v) (fun h => nomatch h.1)
  | get16 => exact stepRight_get16_iff hr
  | peek16 => exact iff_of_true (stepRight_peek16 hr) (fun h => nomatch h.1)

theorem StepRight.toGood {v : ℤ} (hr : r.Good) (hright : StepRight r op r' v) : r'.Good :=
  ⟨hright.size ▸ hr.two_le, hright.size ▸ hr.lt_word, hright.iget_lt, hright.iput_lt⟩

/-- **A sequence of operations is right** unless one of them gets two bytes where the sum wraps. -/
theorem runRight_iff (hr : r.Good) (ops : List RingbufOp) : RunRight r ops ↔ ¬RunWraps r ops := by
  induction ops generalizing r with
  | nil => exact iff_of_true hr.avail_add_free id
  | cons op ops ih =>
    rw [RunRight, RunWraps, not_or, ← stepRight_iff hr op]
    constructor
    · rintro ⟨-, r', v, hright, hrun⟩
      refine ⟨⟨r', v, hright⟩, ?_⟩
      rintro ⟨r'', v', hstep, hwraps⟩
      rw [hright.step, Option.some_inj, Prod.mk.injEq] at hstep
      rw [← hstep.1] at hwraps
      exact (ih (hright.toGood hr)).mp hrun hwraps
    · rintro ⟨⟨r', v, hright⟩, hrun⟩
      refine ⟨hr.avail_add_free, r', v, hright, (ih (hright.toGood hr)).mpr fun hwraps => ?_⟩
      exact hrun ⟨r', v, hright.step, hwraps⟩

/-! ### The greatest size -/

/-- Bytes that are put and got one by one -/
def putGet : ℕ → List RingbufOp
  | 0 => []
  | n + 1 => .put 0 :: .get :: putGet n

/-- They move both indices. -/
theorem runWraps_putGet (n : ℕ) {ops : List RingbufOp} (hr : r.Good) (hempty : r.iput = r.iget)
    (hn : r.iget + n < r.size)
    (hops : ∀ r' : Ringbuf, r'.Good → r'.size = r.size → r'.iget = r.iget + n →
      r'.iput = r'.iget → RunWraps r' ops) :
    RunWraps r (putGet n ++ ops) := by
  induction n generalizing r with
  | zero => exact hops r hr rfl rfl hempty
  | succ n ih =>
    have h0 : ringbufAvail r = 0 := hr.empty_iff.mp hempty.symm
    have hnext : nextPlace r.size r.iget = r.iget + 1 := if_neg (by omega)
    have hroom : ringbufAvail r + 1 < r.size := by have := hr.two_le; omega
    have hr₁ := hr.push 0
    have hsome : 0 < ringbufAvail (r.push 0) := by
      rw [hr.avail_push 0 hroom]
      omega
    refine .inr ⟨r.push 0, 0, (hr.put_eq 0).trans (by rw [if_pos hroom]), .inr ⟨(r.push 0).pop, _,
      hr₁.get_eq.trans (by rw [if_pos hsome]), ?_⟩⟩
    have higet : (r.push 0).pop.iget = r.iget + 1 := hnext
    refine ih hr₁.pop ?_ ?_ fun r' hr' hsize higet' hiput => ?_
    · rw [higet, ← hnext, ← hempty]
      rfl
    · rw [higet]
      exact (by omega : r.iget + 1 + n < r.size)
    · refine hops r' hr' hsize ?_ hiput
      rw [higet', higet]
      omega

theorem alloc_good (buf : ℕ → UInt8) {size : ℕ} (h2 : 2 ≤ size) (hsize : size < 2 ^ 16) :
    (ringbufAlloc buf size).Good :=
  ⟨h2, hsize, Nat.two_pos.trans_le h2, Nat.two_pos.trans_le h2⟩

/-- A word that starts in the last place of the greatest buffer -/
theorem runWraps_max (buf : ℕ → UInt8) (v : UInt16) :
    RunWraps (ringbufAlloc buf 65535) (putGet 65534 ++ [.put16 v, .get16]) := by
  refine runWraps_putGet 65534 (alloc_good buf (by omega) (by omega)) rfl
    (by simp only [ringbufAlloc]; omega) fun r hr hsize higet hiput => ?_
  have hsize : r.size = 65535 := hsize
  have h0 : ringbufAvail r = 0 := hr.empty_iff.mp hiput.symm
  have hr₁ := hr.push (UInt8.ofNat (v.toNat / 256))
  have havail := hr.avail_push (UInt8.ofNat (v.toNat / 256)) (by omega)
  have hput := hr.put16_eq v
  rw [if_pos (by omega)] at hput
  refine .inr ⟨_, _, hput, .inl ⟨rfl, hsize, ?_, ?_⟩⟩
  · exact higet.trans (Nat.zero_add _)
  · rw [hr₁.avail_push _ (by rw [havail]; exact (by omega : ringbufAvail r + 2 < r.size)), havail]
    omega

/-- Only the greatest buffer can wrap. -/
theorem not_runWraps (hr : r.Good) (hsize : r.size ≠ 65535) (ops : List RingbufOp) :
    ¬RunWraps r ops := by
  induction ops generalizing r with
  | nil => exact id
  | cons op ops ih =>
    have hstep : ¬WrapsAt r op := fun h => hsize h.2.1
    obtain ⟨r', v, hright⟩ := (stepRight_iff hr op).mpr hstep
    rintro (h | ⟨r'', v', hstep', hwraps⟩)
    · exact hstep h
    · rw [hright.step, Option.some_inj, Prod.mk.injEq] at hstep'
      rw [← hstep'.1] at hwraps
      exact ih (hright.toGood hr) (hright.size ▸ hsize) hwraps

/-- **A ring buffer is a queue of `size - 1` bytes**, as long as no word is got where the sum wraps.
For every size but the greatest one this is always so. -/
theorem ringbuf_right_iff (buf : ℕ → UInt8) (size : ℕ) (h2 : 2 ≤ size) (hsize : size < 2 ^ 16) :
    (∀ ops, RunRight (ringbufAlloc buf size) ops ↔ ¬RunWraps (ringbufAlloc buf size) ops) ∧
      ((∀ ops, RunRight (ringbufAlloc buf size) ops) ↔ size ≠ 65535) := by
  have hgood := alloc_good buf h2 hsize
  refine ⟨runRight_iff hgood, fun hall hmax => ?_, fun hne ops => ?_⟩
  · subst hmax
    exact (runRight_iff hgood _).mp (hall _) (runWraps_max buf 0)
  · exact (runRight_iff hgood ops).mpr (not_runWraps hgood hne ops)

/-- A buffer of four bytes -/
theorem ringbuf_right_four :
    2 ≤ 4 ∧ 4 < 2 ^ 16 ∧ ∀ ops, RunRight (ringbufAlloc (fun _ => 0) 4) ops :=
  ⟨by omega, by omega, (ringbuf_right_iff (fun _ => 0) 4 (by omega) (by omega)).2.mpr (by omega)⟩

/-- The word `0x1234` in the last and the first place of the greatest buffer: its low byte comes out
again. -/
theorem ringbuf_max_wrong :
    ¬RunRight (ringbufAlloc (fun _ => 0) 65535) (putGet 65534 ++ [.put16 0x1234, .get16]) := by
  intro hrun
  exact (runRight_iff (alloc_good _ (by omega) (by omega)) _).mp hrun (runWraps_max _ 0x1234)

end Pycopy
