import Mathlib.Algebra.Order.Group.Nat
import Pycopy.Lib.BitMemory
import Pycopy.Lib.BlockTable

/-!
# The Garbage-Collected Heap

The memory that `gc_init` of `py/gc.c` divides up, and the macros that read and write its
tables. From low to high addresses there are the allocation table with two bits for each block,
the finaliser table with one bit for each block when `MICROPY_ENABLE_FINALISER` is set, a gap,
and the pool of blocks that reaches to the end:

    | allocation table | finaliser table | gap | pool |

Addresses are relative to the start of this memory. Nothing separates the tables, and the macros
take any block number: the entry of the first block number after the last block lies in the
finaliser table, in the gap or in the pool.

## Main results

* `GcHeap.tables_le_poolStart`: the assertion of `gc_init` holds.
* `atbGetKind_anyToFree` and its companions: what each macro does to the entries of all blocks.
* `ftbGet_eq_bit`, `atbGetKind_past_end`: the entries after the table are finaliser bits.
-/

open BitMemory BlockTable

namespace Pycopy

/-! ### Configuration and layout -/

/-- The configuration: `BYTES_PER_BLOCK`, `sizeof(void *)`, the width of `size_t`,
`MICROPY_ENABLE_FINALISER`, `MICROPY_GC_CONSERVATIVE_CLEAR`, `MICROPY_GC_ALLOC_THRESHOLD` and
`MICROPY_ALLOC_GC_STACK_SIZE`, and the way the machine reads a pointer from its bytes. -/
structure GcConfig where
  bytesPerBlock : ℕ
  ptrBytes : ℕ
  sizeBits : ℕ
  enableFinaliser : Bool
  conservativeClear : Bool
  allocThreshold : Bool
  stackSize : ℕ
  ptrOfBytes : List (BitVec 8) → ℕ
  bytesPerBlock_pos : 0 < bytesPerBlock
  ptrBytes_pos : 0 < ptrBytes
  ptrBytes_dvd : ptrBytes ∣ bytesPerBlock
  stackSize_pos : 0 < stackSize

/-- The memory that is passed to `gc_init`: the addresses of its first byte and of the byte after
its last one. -/
structure GcHeap extends GcConfig where
  start : ℕ
  stop : ℕ
  start_le : start ≤ stop - stop % bytesPerBlock

namespace GcHeap

variable (H : GcHeap)

/-- `end`, aligned on a block boundary -/
def endAddr : ℕ := H.stop - H.stop % H.bytesPerBlock

/-- `total_byte_len` -/
def totalByteLen : ℕ := H.endAddr - H.start

/-- `gc_alloc_table_byte_len` -/
def allocTableByteLen : ℕ :=
  if H.enableFinaliser then
    H.totalByteLen * 8 % 2 ^ H.sizeBits / (8 + 8 * 4 / 8 + 8 * 4 * H.bytesPerBlock)
  else H.totalByteLen / (1 + 8 / 2 * H.bytesPerBlock)

/-- `gc_finaliser_table_byte_len`, zero when there is no such table -/
def finaliserTableByteLen : ℕ :=
  if H.enableFinaliser then (H.allocTableByteLen * 4 + 8 - 1) / 8 else 0

/-- `gc_pool_block_len` -/
def poolBlockLen : ℕ := H.allocTableByteLen * 4

/-- `gc_pool_start` -/
def poolStart : ℕ := H.totalByteLen - H.poolBlockLen * H.bytesPerBlock

/-- The address of a block, as `PTR_FROM_BLOCK` but relative to the start of the memory. -/
def blockAddr (b : ℕ) : ℕ := H.poolStart + b * H.bytesPerBlock

/-- The tables and the pool fit the memory. -/
theorem tables_and_pool_le :
    H.allocTableByteLen + H.finaliserTableByteLen + H.poolBlockLen * H.bytesPerBlock ≤
      H.totalByteLen := by
  rw [finaliserTableByteLen, poolBlockLen]
  generalize hA : H.allocTableByteLen = A
  rw [allocTableByteLen] at hA
  split at hA
  · rename_i hfin
    rw [if_pos hfin]
    have hmul := Nat.div_mul_le_self (H.totalByteLen * 8 % 2 ^ H.sizeBits)
      (8 + 8 * 4 / 8 + 8 * 4 * H.bytesPerBlock)
    rw [hA] at hmul
    have hmod := Nat.mod_le (H.totalByteLen * 8) (2 ^ H.sizeBits)
    have hring : A * (8 + 8 * 4 / 8 + 8 * 4 * H.bytesPerBlock) =
        12 * A + 8 * (A * 4 * H.bytesPerBlock) := by
      rw [Nat.mul_add, show 8 * 4 * H.bytesPerBlock = 8 * (4 * H.bytesPerBlock) by omega,
        Nat.mul_left_comm, Nat.mul_assoc]
      omega
    omega
  · rename_i hfin
    rw [if_neg hfin]
    have hmul := Nat.div_mul_le_self H.totalByteLen (1 + 8 / 2 * H.bytesPerBlock)
    rw [hA] at hmul
    have hring : A * (1 + 8 / 2 * H.bytesPerBlock) = A + A * 4 * H.bytesPerBlock := by
      rw [Nat.mul_add, Nat.mul_one, Nat.mul_assoc]
    omega

/-- **The assertion of `gc_init`**: the pool starts after the tables. -/
theorem tables_le_poolStart : H.allocTableByteLen + H.finaliserTableByteLen ≤ H.poolStart := by
  have := H.tables_and_pool_le
  rw [poolStart]
  omega

theorem allocTableByteLen_le : H.allocTableByteLen ≤ H.poolStart :=
  (Nat.le_add_right _ _).trans H.tables_le_poolStart

theorem poolBlockLen_eq : H.poolBlockLen = 4 * H.allocTableByteLen := Nat.mul_comm _ _

theorem poolStart_add : H.poolStart + H.poolBlockLen * H.bytesPerBlock = H.totalByteLen := by
  have := H.tables_and_pool_le
  rw [poolStart]
  omega

end GcHeap

/-! ### The tables -/

/-- The kind of a table entry: `AT_FREE`, `AT_HEAD`, `AT_TAIL`, `AT_MARK`. -/
def kindOfBits (lo hi : Bool) : Kind :=
  match lo, hi with
  | false, false => .free
  | true, false => .head
  | false, true => .tail
  | true, true => .mark

theorem kindOfBits_inj {lo hi lo' hi' : Bool} (h : kindOfBits lo hi = kindOfBits lo' hi') :
    lo = lo' ∧ hi = hi' := by
  revert lo hi lo' hi'
  decide

/-- `AT_FREE`, `AT_HEAD`, `AT_TAIL` and `AT_MARK` as numbers -/
def atCode : Kind → BitVec 8
  | .free => 0
  | .head => 1
  | .tail => 2
  | .mark => 3

/-- The kind with a number. -/
def atKind (x : BitVec 8) : Kind :=
  if x = atCode .free then .free
  else if x = atCode .head then .head
  else if x = atCode .tail then .tail
  else .mark

/-- `BLOCK_SHIFT` -/
def blockShift (b : ℕ) : ℕ := 2 * (b % 4)

/-- `ATB_GET_KIND` -/
def atbGetKind (m : Memory) (b : ℕ) : Kind := atKind (m (b / 4) >>> blockShift b &&& 3#8)

/-- `ATB_ANY_TO_FREE` -/
def atbAnyToFree (m : Memory) (b : ℕ) : Memory :=
  clearByte m (b / 4) (atCode .mark <<< blockShift b)

/-- `ATB_FREE_TO_HEAD` -/
def atbFreeToHead (m : Memory) (b : ℕ) : Memory := orByte m (b / 4) (atCode .head <<< blockShift b)

/-- `ATB_FREE_TO_TAIL` -/
def atbFreeToTail (m : Memory) (b : ℕ) : Memory := orByte m (b / 4) (atCode .tail <<< blockShift b)

/-- `ATB_HEAD_TO_MARK` -/
def atbHeadToMark (m : Memory) (b : ℕ) : Memory := orByte m (b / 4) (atCode .mark <<< blockShift b)

/-- `ATB_MARK_TO_HEAD` -/
def atbMarkToHead (m : Memory) (b : ℕ) : Memory :=
  clearByte m (b / 4) (atCode .tail <<< blockShift b)

/-- `FTB_GET` -/
def ftbGet (H : GcHeap) (m : Memory) (b : ℕ) : Bool :=
  m (H.allocTableByteLen + b / 8) >>> (b % 8) &&& 1#8 ≠ 0#8

/-- `FTB_SET` -/
def ftbSet (H : GcHeap) (m : Memory) (b : ℕ) : Memory :=
  orByte m (H.allocTableByteLen + b / 8) (1#8 <<< (b % 8))

/-- `FTB_CLEAR` -/
def ftbClear (H : GcHeap) (m : Memory) (b : ℕ) : Memory :=
  clearByte m (H.allocTableByteLen + b / 8) (1#8 <<< (b % 8))

variable {m m' : Memory} {b i k : ℕ}

/-- The kind of a block is in two bits of the table. -/
theorem atbGetKind_eq_bits (m : Memory) (b : ℕ) :
    atbGetKind m b = kindOfBits (bit m (2 * b)) (bit m (2 * b + 1)) := by
  have hbyte : ∀ x : BitVec 8, atKind (x &&& 3#8) = kindOfBits (x.getLsbD 0) (x.getLsbD 1) := by
    decide +kernel
  rw [atbGetKind, blockShift, hbyte, BitVec.getLsbD_ushiftRight, BitVec.getLsbD_ushiftRight,
    Nat.add_zero, bit, bit,
    show 2 * b / 8 = b / 4 by omega, show (2 * b + 1) / 8 = b / 4 by omega,
    show 2 * b % 8 = 2 * (b % 4) by omega, show (2 * b + 1) % 8 = 2 * (b % 4) + 1 by omega]

/-- A finaliser flag is a bit behind the allocation table. -/
theorem ftbGet_eq_bit (H : GcHeap) (m : Memory) (b : ℕ) :
    ftbGet H m b = bit m (8 * H.allocTableByteLen + b) := by
  have hbyte : ∀ x : BitVec 8, decide (x &&& 1#8 ≠ 0#8) = x.getLsbD 0 := by decide +kernel
  rw [ftbGet, hbyte, BitVec.getLsbD_ushiftRight, Nat.add_zero, bit,
    show (8 * H.allocTableByteLen + b) / 8 = H.allocTableByteLen + b / 8 by omega,
    show (8 * H.allocTableByteLen + b) % 8 = b % 8 by omega]

/-- **The entries after the allocation table** are pairs of the bits that follow it. -/
theorem atbGetKind_past_end (H : GcHeap) (m : Memory) (j : ℕ) : atbGetKind m (H.poolBlockLen + j) =
      kindOfBits (ftbGet H m (2 * j)) (ftbGet H m (2 * j + 1)) := by
  rw [atbGetKind_eq_bits, ftbGet_eq_bit, ftbGet_eq_bit, GcHeap.poolBlockLen,
    show 2 * (H.allocTableByteLen * 4 + j) = 8 * H.allocTableByteLen + 2 * j by omega,
      Nat.add_assoc]

/-- An entry is known when its byte is. -/
theorem atbGetKind_congr (h : m' (b / 4) = m (b / 4)) : atbGetKind m' b = atbGetKind m b := by
  rw [atbGetKind, atbGetKind, h]

theorem ftbGet_congr {H : GcHeap}
    (h : m' (H.allocTableByteLen + b / 8) = m (H.allocTableByteLen + b / 8)) :
    ftbGet H m' b = ftbGet H m b := by rw [ftbGet, ftbGet, h]

/-! ### The macros, bit by bit -/

/-- The bits that a mask for a block touches. -/
theorem atCode_shift_getLsbD (b j : ℕ) (hj : j < 8) :
    (atCode .mark <<< blockShift b).getLsbD j = decide (j / 2 = b % 4) ∧
    (atCode .head <<< blockShift b).getLsbD j = decide (j = 2 * (b % 4)) ∧
    (atCode .tail <<< blockShift b).getLsbD j = decide (j = 2 * (b % 4) + 1) := by
  have hmask : ∀ r < 4, ∀ j < 8, (atCode .mark <<< (2 * r)).getLsbD j = decide (j / 2 = r) ∧
      (atCode .head <<< (2 * r)).getLsbD j = decide (j = 2 * r) ∧
      (atCode .tail <<< (2 * r)).getLsbD j = decide (j = 2 * r + 1) := by decide
  exact hmask (b % 4) (Nat.mod_lt b (by decide)) j hj

theorem one_shift_getLsbD (b j : ℕ) (hj : j < 8) :
    (1#8 <<< (b % 8)).getLsbD j = decide (j = b % 8) := by
  have hmask : ∀ r < 8, ∀ j < 8, (1#8 <<< r).getLsbD j = decide (j = r) := by decide
  exact hmask (b % 8) (Nat.mod_lt b (by decide)) j hj

/-- Both bits are cleared. -/
theorem bit_atbAnyToFree : bit (atbAnyToFree m b) k = (bit m k && !decide (k / 2 = b)) := by
  rw [atbAnyToFree, bit_clearByte, (atCode_shift_getLsbD b _ (Nat.mod_lt k (by decide))).1,
    ← Bool.decide_and]
  congr 3
  rw [eq_iff_iff]
  omega

/-- The low bit is set. -/
theorem bit_atbFreeToHead : bit (atbFreeToHead m b) k = (bit m k || decide (k = 2 * b)) := by
  rw [atbFreeToHead, bit_orByte, (atCode_shift_getLsbD b _ (Nat.mod_lt k (by decide))).2.1,
    ← Bool.decide_and]
  congr 2
  rw [eq_iff_iff]
  omega

/-- The high bit is set. -/
theorem bit_atbFreeToTail : bit (atbFreeToTail m b) k = (bit m k || decide (k = 2 * b + 1)) := by
  rw [atbFreeToTail, bit_orByte, (atCode_shift_getLsbD b _ (Nat.mod_lt k (by decide))).2.2,
    ← Bool.decide_and]
  congr 2
  rw [eq_iff_iff]
  omega

/-- Both bits are set. -/
theorem bit_atbHeadToMark : bit (atbHeadToMark m b) k = (bit m k || decide (k / 2 = b)) := by
  rw [atbHeadToMark, bit_orByte, (atCode_shift_getLsbD b _ (Nat.mod_lt k (by decide))).1,
    ← Bool.decide_and]
  congr 2
  rw [eq_iff_iff]
  omega

/-- The high bit is cleared. -/
theorem bit_atbMarkToHead : bit (atbMarkToHead m b) k = (bit m k && !decide (k = 2 * b + 1)) := by
  rw [atbMarkToHead, bit_clearByte, (atCode_shift_getLsbD b _ (Nat.mod_lt k (by decide))).2.2,
    ← Bool.decide_and]
  congr 3
  rw [eq_iff_iff]
  omega

theorem bit_ftbSet {H : GcHeap} :
    bit (ftbSet H m b) k = (bit m k || decide (k = 8 * H.allocTableByteLen + b)) := by
  rw [ftbSet, bit_orByte, one_shift_getLsbD b _ (Nat.mod_lt k (by decide)), ← Bool.decide_and]
  congr 2
  rw [eq_iff_iff]
  omega

theorem bit_ftbClear {H : GcHeap} :
    bit (ftbClear H m b) k = (bit m k && !decide (k = 8 * H.allocTableByteLen + b)) := by
  rw [ftbClear, bit_clearByte, one_shift_getLsbD b _ (Nat.mod_lt k (by decide)), ← Bool.decide_and]
  congr 3
  rw [eq_iff_iff]
  omega

/-! ### The macros, entry by entry -/

theorem atbGetKind_anyToFree :
    atbGetKind (atbAnyToFree m b) i = if i = b then .free else atbGetKind m i := by
  rw [atbGetKind_eq_bits, atbGetKind_eq_bits, bit_atbAnyToFree, bit_atbAnyToFree,
    show 2 * i / 2 = i by omega, show (2 * i + 1) / 2 = i by omega]
  split
  · rename_i h
    simp [h, kindOfBits]
  · rename_i h
    simp [h]

theorem bits_of_atbGetKind_free (h : atbGetKind m b = .free) :
    bit m (2 * b) = false ∧ bit m (2 * b + 1) = false := by
  rw [atbGetKind_eq_bits] at h
  revert h
  cases bit m (2 * b) <;> cases bit m (2 * b + 1) <;> simp [kindOfBits]

theorem atbGetKind_freeToHead (hfree : atbGetKind m b = .free) :
    atbGetKind (atbFreeToHead m b) i = if i = b then .head else atbGetKind m i := by
  obtain ⟨hlo, hhi⟩ := bits_of_atbGetKind_free hfree
  rw [atbGetKind_eq_bits, atbGetKind_eq_bits, bit_atbFreeToHead, bit_atbFreeToHead,
    decide_eq_false (show ¬(2 * i + 1 = 2 * b) by omega)]
  split
  · rename_i h
    simp [h, hhi, kindOfBits]
  · rename_i h
    rw [decide_eq_false (show ¬(2 * i = 2 * b) by omega), Bool.or_false, Bool.or_false]

theorem atbGetKind_freeToTail (hfree : atbGetKind m b = .free) :
    atbGetKind (atbFreeToTail m b) i = if i = b then .tail else atbGetKind m i := by
  obtain ⟨hlo, hhi⟩ := bits_of_atbGetKind_free hfree
  rw [atbGetKind_eq_bits, atbGetKind_eq_bits, bit_atbFreeToTail, bit_atbFreeToTail,
    decide_eq_false (show ¬(2 * i = 2 * b + 1) by omega)]
  split
  · rename_i h
    simp [h, hlo, kindOfBits]
  · rename_i h
    rw [decide_eq_false (show ¬(2 * i + 1 = 2 * b + 1) by omega), Bool.or_false, Bool.or_false]

theorem atbGetKind_headToMark :
    atbGetKind (atbHeadToMark m b) i = if i = b then .mark else atbGetKind m i := by
  rw [atbGetKind_eq_bits, atbGetKind_eq_bits, bit_atbHeadToMark, bit_atbHeadToMark,
    show 2 * i / 2 = i by omega, show (2 * i + 1) / 2 = i by omega]
  split
  · rename_i h
    simp [h, kindOfBits]
  · rename_i h
    simp [h]

theorem atbGetKind_markToHead (hmark : atbGetKind m b = .mark) :
    atbGetKind (atbMarkToHead m b) i = if i = b then .head else atbGetKind m i := by
  have hlo : bit m (2 * b) = true := by
    rw [atbGetKind_eq_bits] at hmark
    revert hmark
    cases bit m (2 * b) <;> cases bit m (2 * b + 1) <;> simp [kindOfBits]
  rw [atbGetKind_eq_bits, atbGetKind_eq_bits, bit_atbMarkToHead, bit_atbMarkToHead,
    decide_eq_false (show ¬(2 * i = 2 * b + 1) by omega)]
  split
  · rename_i h
    simp [h, hlo, kindOfBits]
  · rename_i h
    rw [decide_eq_false (show ¬(2 * i + 1 = 2 * b + 1) by omega), Bool.not_false, Bool.and_true,
      Bool.and_true]

theorem ftbGet_ftbSet {H : GcHeap} :
    ftbGet H (ftbSet H m b) i = (ftbGet H m i || decide (i = b)) := by
  rw [ftbGet_eq_bit, ftbGet_eq_bit, bit_ftbSet]
  simp only [Nat.add_left_cancel_iff]

theorem ftbGet_ftbClear {H : GcHeap} :
    ftbGet H (ftbClear H m b) i = (ftbGet H m i && !decide (i = b)) := by
  rw [ftbGet_eq_bit, ftbGet_eq_bit, bit_ftbClear]
  simp only [Nat.add_left_cancel_iff]

/-- The finaliser macros leave the allocation table alone. -/
theorem atbGetKind_ftbSet {H : GcHeap} (hi : i < H.poolBlockLen) :
    atbGetKind (ftbSet H m b) i = atbGetKind m i := by
  rw [GcHeap.poolBlockLen] at hi
  exact atbGetKind_congr (orByte_of_ne (by omega))

theorem atbGetKind_ftbClear {H : GcHeap} (hi : i < H.poolBlockLen) :
    atbGetKind (ftbClear H m b) i = atbGetKind m i := by
  rw [GcHeap.poolBlockLen] at hi
  exact atbGetKind_congr (clearByte_of_ne (by omega))

/-! ### The state -/

/-- The state of the collector between calls: the memory, `gc_last_free_atb_index`,
`gc_lock_depth`, `gc_auto_collect_enabled`, `gc_alloc_amount` and `gc_alloc_threshold`. -/
structure GcState where
  mem : Memory
  lastFreeAtbIndex : ℕ
  lockDepth : ℕ
  autoCollectEnabled : Bool
  allocAmount : ℕ
  allocThreshold : ℕ

/-- `gc_init`; what is in the memory before is arbitrary. -/
def gcInit (H : GcHeap) (m : Memory) : GcState where
  mem := memset (memset m 0 0#8 H.allocTableByteLen) H.allocTableByteLen 0#8
    H.finaliserTableByteLen
  lastFreeAtbIndex := 0
  lockDepth := 0
  autoCollectEnabled := true
  allocAmount := 0
  allocThreshold := 2 ^ H.sizeBits - 1

/-- **Well-formed tables**: tails follow blocks in use, there are no marks, and only heads have
finaliser flags. -/
structure TableGood (H : GcHeap) (m : Memory) : Prop where
  wellFormed : WellFormed H.poolBlockLen (atbGetKind m)
  no_mark : ∀ b < H.poolBlockLen, atbGetKind m b ≠ .mark
  ftb_head : H.enableFinaliser = true → ∀ b < 8 * H.finaliserTableByteLen, ftbGet H m b = true →
    b < H.poolBlockLen ∧ atbGetKind m b = .head

/-- All blocks are free at first. -/
theorem gcInit_tableGood (H : GcHeap) (m : Memory) : TableGood H (gcInit H m).mem := by
  have hzero : ∀ a < H.allocTableByteLen + H.finaliserTableByteLen, (gcInit H m).mem a = 0#8 := by
    intro a ha
    dsimp only [gcInit]
    by_cases h : a < H.allocTableByteLen
    · rw [memset_of_not_mem (by omega), memset_of_mem (by omega) (by omega)]
    · rw [memset_of_mem (by omega) (by omega)]
  have hfree : ∀ b < H.poolBlockLen, atbGetKind (gcInit H m).mem b = .free := by
    intro b hb
    rw [GcHeap.poolBlockLen] at hb
    rw [atbGetKind, hzero _ (by omega), BitVec.zero_ushiftRight]
    rfl
  refine ⟨⟨fun h0 => ?_, fun b hb htail => ?_⟩, fun b hb => ?_, fun _ b hb hset => ?_⟩
  · rw [hfree 0 h0]
    decide
  · rw [hfree _ hb] at htail
    cases htail
  · rw [hfree b hb]
    decide
  · rw [ftbGet, hzero _ (by omega), BitVec.zero_ushiftRight] at hset
    exact absurd hset (by decide)

/-- A little-endian configuration with pointers of four bytes and blocks of sixteen. -/
def gcConfig32 (enableFinaliser : Bool) : GcConfig where
  bytesPerBlock := 16
  ptrBytes := 4
  sizeBits := 32
  enableFinaliser := enableFinaliser
  conservativeClear := true
  allocThreshold := true
  stackSize := 1
  ptrOfBytes bytes := bytes.foldr (fun x acc => x.toNat + 256 * acc) 0
  bytesPerBlock_pos := by decide
  ptrBytes_pos := by decide
  ptrBytes_dvd := by decide
  stackSize_pos := by decide

end Pycopy
