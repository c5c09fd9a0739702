import Mathlib.Data.Finset.Range
import Mathlib.Data.Finset.Card
import Mathlib.Logic.Relation
import Pycopy.Gc.Heap

/-!
# Collections

Mark and sweep as in `py/gc.c`: `gc_collect_root` marks what the roots point at,
`gc_mark_subtree` follows pointers with a stack of bounded size, and drops a child when the stack
is full. A flag remembers that this happened; `gc_deal_with_stack_overflow` then starts again
from every marked block, until a pass goes by without overflow. `gc_sweep` frees the chains
without a mark.

The chain walk of `gc_mark_subtree` does not know where the table ends. The results are about
heaps in which the entry after the table does not read as a tail.

## Main results

* `gc_collect_frees_unreachable`: a collection frees exactly the chains that are not reachable.
-/

open BitMemory BlockTable

namespace Pycopy

/-! ### Definitions -/

/-- `VERIFY_PTR` -/
def verifyPtr (H : GcHeap) (ptr : ℕ) : Bool :=
  ptr % H.bytesPerBlock == 0 && decide (H.start + H.poolStart ≤ ptr) &&
    decide (ptr < H.start + H.totalByteLen)

/-- `BLOCK_FROM_PTR` -/
def blockFromPtr (H : GcHeap) (ptr : ℕ) : ℕ := (ptr - (H.start + H.poolStart)) / H.bytesPerBlock

/-- `*ptrs`, the pointer stored at an address -/
def loadPtr (H : GcHeap) (m : Memory) (a : ℕ) : ℕ :=
  H.ptrOfBytes ((List.range H.ptrBytes).map fun i => m (a + i))

/-- The loop that counts the blocks of a chain, `n` of them so far. -/
def countBlocks (m : Memory) (block : ℕ) : ℕ → ℕ → Option ℕ
  | 0, _ => none
  | fuel + 1, n =>
    if atbGetKind m (block + (n + 1)) = .tail then countBlocks m block fuel (n + 1)
    else some (n + 1)

/-- The number of blocks in a chain as `gc_mark_subtree` and `gc_nbytes` work it out. The walk
stops at an entry that is not a tail, wherever that is; there is no result when it has left the
memory. -/
def chainBlocks (H : GcHeap) (m : Memory) (block : ℕ) : Option ℕ :=
  countBlocks m block (4 * H.totalByteLen) 0

/-- The state of marking: the memory, `gc_stack` up to `sp` with its top first, and
`gc_stack_overflow`. -/
structure MarkState where
  mem : Memory
  stack : List ℕ
  overflow : Bool

/-- The body of the loop over the words of a block: mark and push what the word points at. -/
def markChild (H : GcHeap) (st : MarkState) (ptr : ℕ) : MarkState :=
  if verifyPtr H ptr = true ∧ atbGetKind st.mem (blockFromPtr H ptr) = .head then
    let mem := atbHeadToMark st.mem (blockFromPtr H ptr)
    if st.stack.length < H.stackSize then
      { st with mem := mem, stack := blockFromPtr H ptr :: st.stack }
    else { st with mem := mem, overflow := true }
  else st

/-- The loop over the words of a block. -/
def scanWords (H : GcHeap) : ℕ → ℕ → MarkState → MarkState
  | 0, _, st => st
  | i + 1, a, st => scanWords H i (a + H.ptrBytes) (markChild H st (loadPtr H st.mem a))

/-- `gc_mark_subtree`, for at most `fuel` blocks -/
def gcMarkSubtree (H : GcHeap) : ℕ → ℕ → MarkState → Option MarkState
  | 0, _, _ => none
  | fuel + 1, block, st =>
    (chainBlocks H st.mem block).bind fun nBlocks =>
      let st := scanWords H (nBlocks * H.bytesPerBlock / H.ptrBytes) (H.blockAddr block) st
      match st.stack with
      | [] => some st
      | top :: rest => gcMarkSubtree H fuel top { st with stack := rest }

/-- `gc_collect_root` -/
def gcCollectRoot (H : GcHeap) (fuel : ℕ) (ptrs : List ℕ) (st : MarkState) : Option MarkState :=
  ptrs.foldlM
    (fun st ptr =>
      if verifyPtr H ptr = true ∧ atbGetKind st.mem (blockFromPtr H ptr) = .head then
        gcMarkSubtree H fuel (blockFromPtr H ptr)
          { st with mem := atbHeadToMark st.mem (blockFromPtr H ptr) }
      else some st)
    st

/-- One pass of `gc_deal_with_stack_overflow` over all blocks. -/
def overflowPass (H : GcHeap) (fuel : ℕ) (st : MarkState) : Option MarkState :=
  (List.range H.poolBlockLen).foldlM
    (fun st block =>
      if atbGetKind st.mem block = .mark then gcMarkSubtree H fuel block st else some st)
    st

/-- `gc_deal_with_stack_overflow`, for at most `passes` rounds -/
def gcDealWithStackOverflow (H : GcHeap) (fuel : ℕ) : ℕ → MarkState → Option MarkState
  | 0, _ => none
  | passes + 1, st =>
    if st.overflow then
      (overflowPass H fuel { st with overflow := false }).bind
        (gcDealWithStackOverflow H fuel passes)
    else some st

/-- The loop of `gc_sweep`, with `k` blocks left from `block` on. Finalisers run before the flag
is cleared and do not touch the heap. -/
def gcSweepLoop (H : GcHeap) : ℕ → ℕ → Bool → Memory → Memory
  | 0, _, _, m => m
  | k + 1, block, freeTail, m =>
    match atbGetKind m block with
    | .head =>
      let m := if H.enableFinaliser && ftbGet H m block then ftbClear H m block else m
      gcSweepLoop H k (block + 1) true (atbAnyToFree m block)
    | .tail =>
      gcSweepLoop H k (block + 1) freeTail (if freeTail then atbAnyToFree m block else m)
    | .mark => gcSweepLoop H k (block + 1) false (atbMarkToHead m block)
    | .free => gcSweepLoop H k (block + 1) freeTail m

/-- `gc_sweep` -/
def gcSweep (H : GcHeap) (m : Memory) : Memory := gcSweepLoop H H.poolBlockLen 0 false m

/-- The end of `gc_collect_end`: the memory has been swept. -/
def gcCollectDone (H : GcHeap) (s : GcState) (m : Memory) : GcState :=
  { s with
    mem := gcSweep H m
    lastFreeAtbIndex := 0
    allocAmount := if H.allocThreshold then 0 else s.allocAmount }

/-- A collection: `gc_collect_start`, `gc_collect_root` for all root pointers, and
`gc_collect_end`. The lock is taken and given back. -/
def gcCollect (H : GcHeap) (fuel : ℕ) (roots : List ℕ) (s : GcState) : Option GcState :=
  (gcCollectRoot H fuel roots ⟨s.mem, [], false⟩).bind fun st =>
    (gcDealWithStackOverflow H fuel fuel st).map fun st => gcCollectDone H s st.mem

/-! ### Pointers -/

variable {H : GcHeap} {m m₀ : Memory} {b : ℕ}

theorem GcHeap.poolStart_aligned (H : GcHeap) : (H.start + H.poolStart) % H.bytesPerBlock = 0 := by
  have hend : H.endAddr % H.bytesPerBlock = 0 := by
    rw [GcHeap.endAddr, Nat.sub_mod_eq_zero_of_mod_eq (Nat.mod_mod _ _).symm]
  have hsum : H.start + H.poolStart + H.poolBlockLen * H.bytesPerBlock = H.endAddr := by
    have hle := H.start_le
    have hadd := H.poolStart_add
    rw [GcHeap.totalByteLen] at hadd
    rw [← GcHeap.endAddr] at hle
    omega
  rw [← hsum, Nat.add_mul_mod_self_right] at hend
  exact hend

/-- The pointers that pass the check are the addresses of the blocks of the pool. -/
theorem verifyPtr_iff {ptr : ℕ} : (verifyPtr H ptr = true ∧ blockFromPtr H ptr = b) ↔
    b < H.poolBlockLen ∧ ptr = H.start + H.blockAddr b := by
  have hbpb := H.bytesPerBlock_pos
  have halign := H.poolStart_aligned
  have hadd := H.poolStart_add
  have haddr : ∀ c, H.blockAddr c = H.poolStart + c * H.bytesPerBlock := fun c => rfl
  rw [verifyPtr, Bool.and_eq_true, Bool.and_eq_true, beq_iff_eq, decide_eq_true_eq,
    decide_eq_true_eq, blockFromPtr, haddr]
  constructor
  · rintro ⟨⟨⟨hmod, hge⟩, hlt⟩, rfl⟩
    have hdvd : (ptr - (H.start + H.poolStart)) % H.bytesPerBlock = 0 :=
      Nat.sub_mod_eq_zero_of_mod_eq (hmod.trans halign.symm)
    refine ⟨?_, ?_⟩
    · rw [Nat.div_lt_iff_lt_mul hbpb]
      omega
    · rw [Nat.div_mul_cancel (Nat.dvd_of_mod_eq_zero hdvd)]
      omega
  · rintro ⟨hlt, rfl⟩
    have hmul : b * H.bytesPerBlock + H.bytesPerBlock ≤ H.poolBlockLen * H.bytesPerBlock := by
      rw [← Nat.succ_mul]
      exact Nat.mul_le_mul_right _ hlt
    refine ⟨⟨⟨?_, by omega⟩, by omega⟩, ?_⟩
    · rw [← Nat.add_assoc, Nat.add_mul_mod_self_right]
      exact halign
    · rw [← Nat.add_assoc, Nat.add_sub_cancel_left, Nat.mul_div_cancel _ hbpb]

/-! ### Chains and their children -/

/-- The chain at `c` holds a pointer to the head block `d`. -/
def PointsTo (H : GcHeap) (m : Memory) (c d : ℕ) : Prop :=
  ∃ n, IsChain H.poolBlockLen (atbGetKind m) c n ∧ d < H.poolBlockLen ∧ atbGetKind m d = .head ∧
    ∃ k < n * H.bytesPerBlock / H.ptrBytes,
      loadPtr H m (H.blockAddr c + k * H.ptrBytes) = H.start + H.blockAddr d

/-- Reachable from the roots by following pointers to heads. -/
def GcReachable (H : GcHeap) (m : Memory) (roots : List ℕ) (b : ℕ) : Prop :=
  ∃ r < H.poolBlockLen, atbGetKind m r = .head ∧ H.start + H.blockAddr r ∈ roots ∧
    Relation.ReflTransGen (PointsTo H m) r b

/-- The walk over a chain counts its blocks, when no tail seems to follow the table. -/
theorem countBlocks_spec {h n : ℕ} (hc : IsChain H.poolBlockLen (atbGetKind m) h n)
    (hend : h + n = H.poolBlockLen → atbGetKind m (h + n) ≠ .tail) {fuel i : ℕ} (hi : i < n)
    (hfuel : n ≤ fuel + i) : countBlocks m h fuel i = some n := by
  induction fuel generalizing i with
  | zero => omega
  | succ fuel ih =>
    rw [countBlocks]
    rcases Nat.lt_or_eq_of_le (Nat.succ_le_of_lt hi) with hlt | heq
    · rw [if_pos (hc.tails _ (by omega) (by omega))]
      exact ih hlt (by omega)
    · have hlast : atbGetKind m (h + (i + 1)) ≠ .tail := by
        rw [show i + 1 = n from heq]
        rcases Nat.lt_or_eq_of_le hc.le with hlt | hN
        · exact hc.ends hlt
        · exact hend hN
      rw [if_neg hlast, show i + 1 = n from heq]

theorem GcHeap.poolBlockLen_le (H : GcHeap) : H.poolBlockLen ≤ 4 * H.totalByteLen := by
  have h1 := H.allocTableByteLen_le
  have h2 := H.poolStart_add
  rw [GcHeap.poolBlockLen] at h2 ⊢
  omega

theorem chainBlocks_eq {h n : ℕ} (hc : IsChain H.poolBlockLen (atbGetKind m) h n)
    (hend : h + n = H.poolBlockLen → atbGetKind m (h + n) ≠ .tail) : chainBlocks H m h = some n :=
  countBlocks_spec hc hend hc.pos (by have := hc.le; have := H.poolBlockLen_le; omega)

/-! ### Marking -/

/-- The memory `m` is `m₀` with some heads marked. -/
structure Marked (H : GcHeap) (m₀ m : Memory) : Prop where
  bytes : ∀ a, H.allocTableByteLen ≤ a → m a = m₀ a
  kinds : ∀ i < H.poolBlockLen, atbGetKind m i = atbGetKind m₀ i ∨
    (atbGetKind m₀ i = .head ∧ atbGetKind m i = .mark)

theorem Marked.refl (H : GcHeap) (m : Memory) : Marked H m m :=
  ⟨fun _ _ => rfl, fun _ _ => .inl rfl⟩

theorem Marked.mark (hm : Marked H m₀ m) (hb : b < H.poolBlockLen)
    (hhead : atbGetKind m b = .head) : Marked H m₀ (atbHeadToMark m b) where
  bytes a ha := by
    rw [GcHeap.poolBlockLen] at hb
    rw [atbHeadToMark, orByte_of_ne (by omega), hm.bytes a ha]
  kinds i hi := by
    rw [atbGetKind_headToMark]
    split
    · rename_i hib
      subst hib
      refine .inr ⟨?_, rfl⟩
      rcases hm.kinds i hi with heq | ⟨h0, -⟩
      · rw [← heq, hhead]
      · exact h0
    · exact hm.kinds i hi

theorem Marked.tail_iff (hm : Marked H m₀ m) (hb : b < H.poolBlockLen) :
    atbGetKind m b = .tail ↔ atbGetKind m₀ b = .tail := by
  rcases hm.kinds b hb with heq | ⟨h0, h1⟩
  · rw [heq]
  · rw [h0, h1]
    decide

theorem Marked.isChain (hm : Marked H m₀ m) {h n : ℕ}
    (hc : IsChain H.poolBlockLen (atbGetKind m₀) h n) :
    IsChain H.poolBlockLen (atbGetKind m) h n where
  starts := by
    have hpos := hc.pos
    have hle := hc.le
    rcases hm.kinds h (by omega) with heq | ⟨-, h1⟩
    · rw [heq]
      exact hc.starts
    · exact .inr h1
  pos := hc.pos
  le := hc.le
  tails i hi hlt := (hm.tail_iff (by have := hc.le; omega)).mpr (hc.tails i hi hlt)
  ends hlt htail := hc.ends hlt ((hm.tail_iff hlt).mp htail)

theorem Marked.past_end (hm : Marked H m₀ m) :
    atbGetKind m H.poolBlockLen = atbGetKind m₀ H.poolBlockLen :=
  atbGetKind_congr (hm.bytes _ (by rw [GcHeap.poolBlockLen]; omega))

theorem Marked.loadPtr (hm : Marked H m₀ m) {a : ℕ} (ha : H.allocTableByteLen ≤ a) :
    loadPtr H m a = loadPtr H m₀ a := by
  rw [Pycopy.loadPtr, Pycopy.loadPtr]
  congr 1
  exact List.map_congr_left fun i _ => hm.bytes _ (by omega)

/-- Marking does not change which blocks are free or tails. -/
theorem Marked.wellFormed (hm : Marked H m₀ m) (hwf : WellFormed H.poolBlockLen (atbGetKind m₀)) :
    WellFormed H.poolBlockLen (atbGetKind m) := by
  refine ⟨fun h0 htail => ?_, fun i hi htail hfree => ?_⟩
  · exact hwf.first h0 ((hm.tail_iff h0).mp htail)
  · refine hwf.follows i hi ((hm.tail_iff hi).mp htail) ?_
    rcases hm.kinds i (by omega) with heq | ⟨-, h1⟩
    · exact heq.symm.trans hfree
    · rw [hfree] at h1
      cases h1

/-- The heads that are not marked yet. -/
def unmarked (H : GcHeap) (m : Memory) : ℕ :=
  ((Finset.range H.poolBlockLen).filter fun b => atbGetKind m b = .head).card

theorem unmarked_headToMark (hb : b < H.poolBlockLen) (hhead : atbGetKind m b = .head) :
    unmarked H (atbHeadToMark m b) + 1 = unmarked H m := by
  have hmem : b ∈ (Finset.range H.poolBlockLen).filter fun i => atbGetKind m i = .head :=
    Finset.mem_filter.mpr ⟨Finset.mem_range.mpr hb, hhead⟩
  have herase : ((Finset.range H.poolBlockLen).filter
      fun i => atbGetKind (atbHeadToMark m b) i = .head) =
      ((Finset.range H.poolBlockLen).filter fun i => atbGetKind m i = .head).erase b := by
    ext i
    rw [Finset.mem_erase, Finset.mem_filter, Finset.mem_filter, atbGetKind_headToMark]
    by_cases hib : i = b <;> simp [hib]
  rw [unmarked, herase, Finset.card_erase_add_one hmem, unmarked]

theorem unmarked_le (H : GcHeap) (m : Memory) : unmarked H m ≤ H.poolBlockLen :=
  (Finset.card_filter_le _ _).trans (Finset.card_range _).le

/-- Marking goes on: marks and the overflow flag stay, and only a new mark raises the flag. -/
structure Progress (H : GcHeap) (st st' : MarkState) : Prop where
  mono : ∀ i, atbGetKind st.mem i = .mark → atbGetKind st'.mem i = .mark
  overflow : st.overflow = true → st'.overflow = true
  unmarked_le : unmarked H st'.mem ≤ unmarked H st.mem
  overflow_lt : st'.overflow = true → st.overflow = true ∨ unmarked H st'.mem < unmarked H st.mem

theorem Progress.refl (H : GcHeap) (st : MarkState) : Progress H st st :=
  ⟨fun _ h => h, fun h => h, Nat.le_refl _, fun h => .inl h⟩

theorem Progress.trans {st st₁ st₂ : MarkState} (h₁ : Progress H st st₁)
    (h₂ : Progress H st₁ st₂) : Progress H st st₂ where
  mono i h := h₂.mono i (h₁.mono i h)
  overflow h := h₂.overflow (h₁.overflow h)
  unmarked_le := h₂.unmarked_le.trans h₁.unmarked_le
  overflow_lt h := by
    rcases h₂.overflow_lt h with h' | h'
    · rcases h₁.overflow_lt h' with h'' | h''
      · exact .inl h''
      · exact .inr (Nat.lt_of_le_of_lt h₂.unmarked_le h'')
    · exact .inr (Nat.lt_of_lt_of_le h' h₁.unmarked_le)

/-- The marks are on blocks that satisfy `R`, and the stack holds marked blocks. -/
structure MarkInv (H : GcHeap) (m₀ : Memory) (R : ℕ → Prop) (st : MarkState) : Prop where
  marked : Marked H m₀ st.mem
  sound : ∀ i < H.poolBlockLen, atbGetKind st.mem i = .mark → R i
  stack : ∀ i ∈ st.stack, i < H.poolBlockLen ∧ atbGetKind st.mem i = .mark

/-- What a scan of the words in `T` has done. -/
structure Scan (H : GcHeap) (m₀ : Memory) (R T : ℕ → Prop) (st st' : MarkState) : Prop where
  inv : MarkInv H m₀ R st'
  progress : Progress H st st'
  targets : ∀ ptr, T ptr → ∀ d < H.poolBlockLen, atbGetKind m₀ d = .head →
    ptr = H.start + H.blockAddr d → atbGetKind st'.mem d = .mark
  new : ∀ i < H.poolBlockLen, atbGetKind st'.mem i = .mark →
    atbGetKind st.mem i = .mark ∨ i ∈ st'.stack ∨ st'.overflow = true
  stack_subset : ∀ i ∈ st.stack, i ∈ st'.stack
  count : unmarked H st'.mem + st'.stack.length ≤ unmarked H st.mem + st.stack.length

variable {R : ℕ → Prop}

theorem Scan.refl {st : MarkState} (hinv : MarkInv H m₀ R st) :
    Scan H m₀ R (fun _ => False) st st where
  inv := hinv
  progress := .refl H st
  targets _ h := h.elim
  new _ _ h := .inl h
  stack_subset _ h := h
  count := Nat.le_refl _

theorem Scan.trans {T₁ T₂ : ℕ → Prop} {st st₁ st₂ : MarkState} (h₁ : Scan H m₀ R T₁ st st₁)
    (h₂ : Scan H m₀ R T₂ st₁ st₂) : Scan H m₀ R (fun ptr => T₁ ptr ∨ T₂ ptr) st st₂ where
  inv := h₂.inv
  progress := h₁.progress.trans h₂.progress
  targets ptr hT d hd hhead hptr := by
    rcases hT with hT | hT
    · exact h₂.progress.mono d (h₁.targets ptr hT d hd hhead hptr)
    · exact h₂.targets ptr hT d hd hhead hptr
  new i hi h := by
    rcases h₂.new i hi h with h' | h' | h'
    · rcases h₁.new i hi h' with h'' | h'' | h''
      · exact .inl h''
      · exact .inr (.inl (h₂.stack_subset i h''))
      · exact .inr (.inr (h₂.progress.overflow h''))
    · exact .inr (.inl h')
    · exact .inr (.inr h')
  stack_subset i h := h₂.stack_subset i (h₁.stack_subset i h)
  count := h₂.count.trans h₁.count

/-- Marking a block on which `R` holds keeps the invariant. -/
theorem MarkInv.mark {st : MarkState} (hinv : MarkInv H m₀ R st) (hb : b < H.poolBlockLen)
    (hhead : atbGetKind st.mem b = .head) (hR : R b) {stack : List ℕ} {overflow : Bool}
    (hstack : ∀ i ∈ stack, i = b ∨ i ∈ st.stack) :
    MarkInv H m₀ R ⟨atbHeadToMark st.mem b, stack, overflow⟩ where
  marked := hinv.marked.mark hb hhead
  sound i hi h := by
    rw [atbGetKind_headToMark] at h
    split at h
    · rename_i hib
      rwa [hib]
    · exact hinv.sound i hi h
  stack i h := by
    rw [atbGetKind_headToMark]
    rcases hstack i h with rfl | h
    · exact ⟨hb, if_pos rfl⟩
    · split
      · exact ⟨(hinv.stack i h).1, rfl⟩
      · exact hinv.stack i h

/-- A block that is a head in the beginning is a head or marked. -/
theorem Marked.head_or_mark (hm : Marked H m₀ m) (hb : b < H.poolBlockLen)
    (hhead : atbGetKind m₀ b = .head) : atbGetKind m b = .head ∨ atbGetKind m b = .mark := by
  rcases hm.kinds b hb with heq | ⟨-, h1⟩
  · exact .inl (heq.trans hhead)
  · exact .inr h1

theorem Marked.head_of_head (hm : Marked H m₀ m) (hb : b < H.poolBlockLen)
    (hhead : atbGetKind m b = .head) : atbGetKind m₀ b = .head := by
  rcases hm.kinds b hb with heq | ⟨h0, -⟩
  · exact heq.symm.trans hhead
  · exact h0

theorem markChild_spec {st : MarkState} (hinv : MarkInv H m₀ R st) (ptr : ℕ)
    (hR : ∀ d < H.poolBlockLen, atbGetKind m₀ d = .head → ptr = H.start + H.blockAddr d → R d) :
    Scan H m₀ R (· = ptr) st (markChild H st ptr) := by
  rw [markChild]
  split
  · rename_i hcond
    obtain ⟨hverify, hhead⟩ := hcond
    obtain ⟨hb, hptr⟩ := verifyPtr_iff.mp ⟨hverify, rfl⟩
    generalize blockFromPtr H ptr = c at hb hptr hhead
    have hRc := hR c hb (hinv.marked.head_of_head hb hhead) hptr
    have hcount := unmarked_headToMark hb hhead
    have hlt : unmarked H (atbHeadToMark st.mem c) < unmarked H st.mem := by omega
    have hmono : ∀ i, atbGetKind st.mem i = .mark →
        atbGetKind (atbHeadToMark st.mem c) i = .mark := by
      intro i h
      rw [atbGetKind_headToMark]
      split
      · rfl
      · exact h
    have htargets : ∀ p, p = ptr → ∀ d < H.poolBlockLen, atbGetKind m₀ d = .head →
        p = H.start + H.blockAddr d → atbGetKind (atbHeadToMark st.mem c) d = .mark := by
      rintro p rfl d hd - hpd
      obtain ⟨-, hd'⟩ := verifyPtr_iff.mpr ⟨hd, hpd⟩
      obtain ⟨-, hc'⟩ := verifyPtr_iff.mpr ⟨hb, hptr⟩
      rw [atbGetKind_headToMark, if_pos (hd'.symm.trans hc')]
    have hnew : ∀ i, atbGetKind (atbHeadToMark st.mem c) i = .mark →
        atbGetKind st.mem i = .mark ∨ i = c := by
      intro i h
      rw [atbGetKind_headToMark] at h
      split at h
      · rename_i hic
        exact .inr hic
      · exact .inl h
    dsimp only
    split
    · refine ⟨hinv.mark hb hhead hRc fun i h => List.mem_cons.mp h,
        ⟨hmono, fun h => h, Nat.le_of_lt hlt, fun h => .inl h⟩, htargets, fun i _ h => ?_,
        fun i h => List.mem_cons_of_mem _ h, ?_⟩
      · rcases hnew i h with h' | rfl
        · exact .inl h'
        · exact .inr (.inl List.mem_cons_self)
      · dsimp only
        rw [List.length_cons]
        omega
    · refine ⟨hinv.mark hb hhead hRc fun i h => .inr h,
        ⟨hmono, fun _ => rfl, Nat.le_of_lt hlt, fun _ => .inr hlt⟩, htargets, fun i _ h =>
          (hnew i h).imp_right fun _ => .inr rfl, fun i h => h, Nat.add_le_add_right
            (Nat.le_of_lt hlt) _⟩
  · rename_i hcond
    refine ⟨hinv, .refl H st, ?_, fun i _ h => .inl h, fun i h => h, Nat.le_refl _⟩
    rintro p rfl d hd hhead hpd
    obtain ⟨hverify, hblock⟩ := verifyPtr_iff.mpr ⟨hd, hpd⟩
    refine (hinv.marked.head_or_mark hd hhead).resolve_left fun h => hcond ⟨hverify, ?_⟩
    rwa [hblock]

/-- The words of a scan, one after the other. -/
theorem scanWords_spec {i a : ℕ} {st : MarkState} (hinv : MarkInv H m₀ R st)
    (ha : H.allocTableByteLen ≤ a)
    (hR : ∀ k < i, ∀ d < H.poolBlockLen, atbGetKind m₀ d = .head →
      loadPtr H m₀ (a + k * H.ptrBytes) = H.start + H.blockAddr d → R d) :
    Scan H m₀ R (fun ptr => ∃ k < i, ptr = loadPtr H m₀ (a + k * H.ptrBytes)) st
      (scanWords H i a st) := by
  induction i generalizing a st with
  | zero =>
    have h := Scan.refl hinv
    exact ⟨h.inv, h.progress, fun ptr ⟨k, hk, _⟩ => absurd hk (Nat.not_lt_zero k), h.new,
      h.stack_subset, h.count⟩
  | succ i ih =>
    rw [scanWords, hinv.marked.loadPtr ha]
    have hfirst := markChild_spec hinv (loadPtr H m₀ a) fun d hd hhead hptr =>
      hR 0 (Nat.succ_pos i) d hd hhead (by rw [Nat.zero_mul, Nat.add_zero]; exact hptr)
    have hstep : ∀ k, a + H.ptrBytes + k * H.ptrBytes = a + (k + 1) * H.ptrBytes := by
      intro k
      rw [Nat.succ_mul]
      omega
    have hrest := ih hfirst.inv (a := a + H.ptrBytes) (by omega) fun k hk d hd hhead hptr =>
      hR (k + 1) (by omega) d hd hhead (by rw [← hstep]; exact hptr)
    have h := hfirst.trans hrest
    refine ⟨h.inv, h.progress, ?_, h.new, h.stack_subset, h.count⟩
    rintro ptr ⟨k, hk, rfl⟩
    refine h.targets _ ?_
    cases k with
    | zero => exact .inl (by rw [Nat.zero_mul, Nat.add_zero])
    | succ k => exact .inr ⟨k, by omega, by rw [hstep]⟩

/-- All that the chain at a block points at is marked. -/
def Closed (H : GcHeap) (m₀ m : Memory) (c : ℕ) : Prop :=
  ∀ d, PointsTo H m₀ c d → atbGetKind m d = .mark

theorem Closed.mono {st st' : MarkState} {c : ℕ} (h : Closed H m₀ st.mem c)
    (hp : Progress H st st') : Closed H m₀ st'.mem c := fun d hd => hp.mono d (h d hd)

/-- Unless the stack has overflowed, a marked block is closed or one of `P`, which are left. -/
def ClosedBut (H : GcHeap) (m₀ : Memory) (P : ℕ → Prop) (st : MarkState) : Prop :=
  st.overflow = false → ∀ i < H.poolBlockLen, atbGetKind st.mem i = .mark →
    P i ∨ Closed H m₀ st.mem i

section Marking

variable (hnomark : ∀ i < H.poolBlockLen, atbGetKind m₀ i ≠ .mark)
  (hend : atbGetKind m₀ H.poolBlockLen ≠ .tail) (hR : ∀ c d, R c → PointsTo H m₀ c d → R d)

include hnomark hend hR

/-- A block that is taken from the stack is scanned whole. -/
theorem scanChain_spec {st : MarkState} (hinv : MarkInv H m₀ R st) {c : ℕ}
    (hc : c < H.poolBlockLen) (hmark : atbGetKind st.mem c = .mark) :
    ∃ n, chainBlocks H st.mem c = some n ∧ ∃ T,
      Scan H m₀ R T st
        (scanWords H (n * H.bytesPerBlock / H.ptrBytes) (H.blockAddr c) st) ∧
      Closed H m₀
        (scanWords H (n * H.bytesPerBlock / H.ptrBytes) (H.blockAddr c) st).mem c := by
  have hhead : atbGetKind m₀ c = .head := by
    rcases hinv.marked.kinds c hc with heq | ⟨h0, -⟩
    · exact absurd (heq.symm.trans hmark) (hnomark c hc)
    · exact h0
  obtain ⟨n, hchain⟩ := exists_isChain hc (.inl hhead)
  have haddr : H.allocTableByteLen ≤ H.blockAddr c :=
    H.allocTableByteLen_le.trans (Nat.le_add_right _ _)
  have hscan := @scanWords_spec H m₀ R (n * H.bytesPerBlock / H.ptrBytes) (H.blockAddr c) st hinv
    haddr fun k hk d hd hdhead hptr =>
      hR c d (hinv.sound c hc hmark) ⟨n, hchain, hd, hdhead, k, hk, hptr⟩
  refine ⟨n, ?_, _, hscan, ?_⟩
  · exact chainBlocks_eq (hinv.marked.isChain hchain) fun hN => by rwa [hN, hinv.marked.past_end]
  · rintro d ⟨n', hchain', hd, hdhead, k, hk, hptr⟩
    rw [hchain'.unique hchain] at hk
    exact hscan.targets _ ⟨k, hk, rfl⟩ d hd hdhead hptr

/-- **Marking a subtree** ends. Without overflow, what was marked on the way is closed; `P` are
the blocks that are left to the caller. -/
theorem gcMarkSubtree_spec (P : ℕ → Prop) {fuel c : ℕ} {st : MarkState}
    (hinv : MarkInv H m₀ R st) (hc : c < H.poolBlockLen) (hmark : atbGetKind st.mem c = .mark)
    (hfuel : unmarked H st.mem + st.stack.length < fuel)
    (hpend : ClosedBut H m₀ (fun i => i = c ∨ i ∈ st.stack ∨ P i) st) :
    ∃ st', gcMarkSubtree H fuel c st = some st' ∧ MarkInv H m₀ R st' ∧ Progress H st st' ∧
      st'.stack = [] ∧ ClosedBut H m₀ P st' := by
  induction fuel generalizing c st with
  | zero => omega
  | succ fuel ih =>
    obtain ⟨n, hn, T, hscan, hclosed⟩ := scanChain_spec hnomark hend hR hinv hc hmark
    rw [gcMarkSubtree, hn, Option.bind_some]
    generalize scanWords H (n * H.bytesPerBlock / H.ptrBytes) (H.blockAddr c) st = st₁
      at hscan hclosed
    -- what is pending after the scan is on its stack
    have hpend₁ : ClosedBut H m₀ (fun i => i ∈ st₁.stack ∨ P i) st₁ := by
      intro hov i hi hi'
      have hov₀ : st.overflow = false := by
        rw [← Bool.not_eq_true] at hov ⊢
        exact fun h => hov (hscan.progress.overflow h)
      rcases hscan.new i hi hi' with h | h | h
      · rcases hpend hov₀ i hi h with (rfl | h | h) | h
        · exact .inr hclosed
        · exact .inl (.inl (hscan.stack_subset i h))
        · exact .inl (.inr h)
        · exact .inr (h.mono hscan.progress)
      · exact .inl (.inl h)
      · rw [hov] at h
        cases h
    dsimp only
    cases hstack : st₁.stack with
    | nil =>
      refine ⟨st₁, rfl, hscan.inv, hscan.progress, hstack, fun hov i hi hi' => ?_⟩
      refine (hpend₁ hov i hi hi').imp_left fun h => h.resolve_left ?_
      rw [hstack]
      exact List.not_mem_nil
    | cons top rest =>
      have hcount := hscan.count
      rw [hstack, List.length_cons] at hcount
      have htop := hscan.inv.stack top (hstack ▸ List.mem_cons_self)
      obtain ⟨st', hret, hinv', hprog, hnil, hpost⟩ := @ih top { st₁ with stack := rest }
        ⟨hscan.inv.marked, hscan.inv.sound, fun i h =>
          hscan.inv.stack i (hstack ▸ List.mem_cons_of_mem top h)⟩ htop.1 htop.2
        (by dsimp only; omega)
        (fun hov i hi hi' => (hpend₁ hov i hi hi').imp_left fun h => by
          rwa [hstack, List.mem_cons, or_assoc] at h)
      exact ⟨st', hret, hinv', hscan.progress.trans
        ⟨hprog.mono, hprog.overflow, hprog.unmarked_le, hprog.overflow_lt⟩, hnil, hpost⟩

/-- One root pointer: mark it, and mark all its children. -/
theorem collectRootPtr_spec {fuel : ℕ} (hfuel : H.poolBlockLen < fuel) (ptr : ℕ)
    (hroot : ∀ d < H.poolBlockLen, atbGetKind m₀ d = .head → ptr = H.start + H.blockAddr d → R d)
    {st : MarkState} (hinv : MarkInv H m₀ R st) (hnil : st.stack = [])
    (hclosed : ClosedBut H m₀ ⊥ st) :
    ∃ st', (if verifyPtr H ptr = true ∧ atbGetKind st.mem (blockFromPtr H ptr) = .head then
        gcMarkSubtree H fuel (blockFromPtr H ptr)
          { st with mem := atbHeadToMark st.mem (blockFromPtr H ptr) }
      else some st) = some st' ∧ MarkInv H m₀ R st' ∧ Progress H st st' ∧ st'.stack = [] ∧
      ClosedBut H m₀ ⊥ st' ∧
      ∀ d < H.poolBlockLen, atbGetKind m₀ d = .head → ptr = H.start + H.blockAddr d →
        atbGetKind st'.mem d = .mark := by
  split
  · rename_i hcond
    obtain ⟨hverify, hhead⟩ := hcond
    obtain ⟨hb, hptr⟩ := verifyPtr_iff.mp ⟨hverify, rfl⟩
    have hsame : ∀ d < H.poolBlockLen, ptr = H.start + H.blockAddr d → d = blockFromPtr H ptr :=
      fun d hd h => (verifyPtr_iff.mpr ⟨hd, h⟩).2.symm
    generalize blockFromPtr H ptr = c at hb hptr hhead hsame
    have hmark : atbGetKind (atbHeadToMark st.mem c) c = .mark := by
      rw [atbGetKind_headToMark, if_pos rfl]
    have hcount := unmarked_headToMark hb hhead
    have hle := unmarked_le H st.mem
    have hprog₀ : Progress H st { st with mem := atbHeadToMark st.mem c } := by
      refine ⟨fun i h => ?_, fun h => h, by dsimp only; omega, fun h => .inl h⟩
      rw [atbGetKind_headToMark]
      split
      · rfl
      · exact h
    have hinv₀ : MarkInv H m₀ R { st with mem := atbHeadToMark st.mem c } :=
      hinv.mark hb hhead (hroot c hb (hinv.marked.head_of_head hb hhead) hptr) fun i h => .inr h
    have hlt : unmarked H (atbHeadToMark st.mem c) + st.stack.length < fuel := by
      rw [hnil, List.length_nil]
      omega
    obtain ⟨st', hret, hinv', hprog, hnil', hpost⟩ := gcMarkSubtree_spec hnomark hend hR
      ⊥ hinv₀ hb hmark hlt (fun hov i hi hi' => by
        dsimp only at hi'
        rw [atbGetKind_headToMark] at hi'
        split at hi'
        · rename_i hic
          exact .inl (.inl hic)
        · exact .inr (((hclosed hov i hi hi').resolve_left id).mono hprog₀))
    refine ⟨st', hret, hinv', hprog₀.trans hprog, hnil', hpost, fun d hd _ hpd => ?_⟩
    rw [hsame d hd hpd]
    exact hprog.mono c hmark
  · rename_i hcond
    refine ⟨st, rfl, hinv, .refl H st, hnil, hclosed, fun d hd hhead hpd => ?_⟩
    obtain ⟨hverify, hblock⟩ := verifyPtr_iff.mpr ⟨hd, hpd⟩
    refine (hinv.marked.head_or_mark hd hhead).resolve_left fun h => hcond ⟨hverify, ?_⟩
    rwa [hblock]

/-- **The roots.** What a root points at is marked. -/
theorem gcCollectRoot_spec {fuel : ℕ} (hfuel : H.poolBlockLen < fuel) (ptrs : List ℕ)
    (hroots : ∀ ptr ∈ ptrs, ∀ d < H.poolBlockLen, atbGetKind m₀ d = .head →
      ptr = H.start + H.blockAddr d → R d)
    {st : MarkState} (hinv : MarkInv H m₀ R st) (hnil : st.stack = [])
    (hclosed : ClosedBut H m₀ ⊥ st) :
    ∃ st', gcCollectRoot H fuel ptrs st = some st' ∧ MarkInv H m₀ R st' ∧ Progress H st st' ∧
      st'.stack = [] ∧ ClosedBut H m₀ ⊥ st' ∧
      ∀ ptr ∈ ptrs, ∀ d < H.poolBlockLen, atbGetKind m₀ d = .head →
        ptr = H.start + H.blockAddr d → atbGetKind st'.mem d = .mark := by
  induction ptrs generalizing st with
  | nil =>
    exact ⟨st, rfl, hinv, .refl H st, hnil, hclosed, fun ptr h => absurd h List.not_mem_nil⟩
  | cons ptr ptrs ih =>
    obtain ⟨st₁, hret₁, hinv₁, hprog₁, hnil₁, hclosed₁, hroot₁⟩ :=
      collectRootPtr_spec hnomark hend hR hfuel ptr (hroots ptr List.mem_cons_self) hinv hnil
        hclosed
    obtain ⟨st', hret, hinv', hprog, hnil', hclosed', hroots'⟩ := ih
      (fun p hp => hroots p (List.mem_cons_of_mem _ hp)) hinv₁ hnil₁ hclosed₁
    refine ⟨st', ?_, hinv', hprog₁.trans hprog, hnil', hclosed', fun p hp d hd hhead hpd => ?_⟩
    · rw [gcCollectRoot, List.foldlM_cons, hret₁]
      exact hret
    · rcases List.mem_cons.mp hp with rfl | hp
      · exact hprog.mono d (hroot₁ d hd hhead hpd)
      · exact hroots' p hp d hd hhead hpd

/-- A pass from block `k` on; the blocks before `k` are dealt with. -/
theorem overflowPass_loop {fuel : ℕ} (hfuel : H.poolBlockLen < fuel) (n k : ℕ)
    (hk : k + n = H.poolBlockLen) {st : MarkState} (hinv : MarkInv H m₀ R st)
    (hnil : st.stack = []) (hpend : ClosedBut H m₀ (k ≤ ·) st) :
    ∃ st', (List.range' k n).foldlM
        (fun st block =>
          if atbGetKind st.mem block = .mark then gcMarkSubtree H fuel block st else some st)
        st = some st' ∧ MarkInv H m₀ R st' ∧ Progress H st st' ∧ st'.stack = [] ∧
      ClosedBut H m₀ ⊥ st' := by
  induction n generalizing k st with
  | zero =>
    exact ⟨st, rfl, hinv, .refl H st, hnil, fun hov i hi hi' =>
      (hpend hov i hi hi').imp_left fun h => absurd h (by omega)⟩
  | succ n ih =>
    -- block `k` itself
    obtain ⟨st₁, hret₁, hinv₁, hprog₁, hnil₁, hpend₁⟩ : ∃ st₁,
        (if atbGetKind st.mem k = .mark then gcMarkSubtree H fuel k st else some st) =
          some st₁ ∧ MarkInv H m₀ R st₁ ∧ Progress H st st₁ ∧ st₁.stack = [] ∧
          ClosedBut H m₀ (k + 1 ≤ ·) st₁ := by
      split
      · rename_i hmark
        have hle := unmarked_le H st.mem
        refine gcMarkSubtree_spec hnomark hend hR (k + 1 ≤ ·) hinv (by omega) hmark
          (by rw [hnil, List.length_nil]; omega) fun hov i hi hi' => ?_
        refine (hpend hov i hi hi').imp_left fun h => ?_
        rcases Nat.lt_or_eq_of_le h with hlt | rfl
        · exact .inr (.inr hlt)
        · exact .inl rfl
      · rename_i hmark
        refine ⟨st, rfl, hinv, .refl H st, hnil, fun hov i hi hi' => ?_⟩
        refine (hpend hov i hi hi').imp_left fun h => Nat.lt_of_le_of_ne h fun hki => ?_
        rw [hki] at hmark
        exact hmark hi'
    obtain ⟨st', hret, hinv', hprog, hnil', hpost⟩ := ih (k + 1) (by omega) hinv₁ hnil₁ hpend₁
    refine ⟨st', ?_, hinv', hprog₁.trans hprog, hnil', hpost⟩
    rw [List.range'_succ, List.foldlM_cons, hret₁]
    exact hret

/-- **The passes end.** A pass that overflows has marked another head, so their number is
bounded; after a pass without overflow everything marked is closed. -/
theorem gcDealWithStackOverflow_spec {fuel : ℕ} (hfuel : H.poolBlockLen < fuel) {passes : ℕ}
    {st : MarkState} (hpasses : unmarked H st.mem < passes) (hinv : MarkInv H m₀ R st)
    (hnil : st.stack = []) (hclosed : ClosedBut H m₀ ⊥ st) :
    ∃ st', gcDealWithStackOverflow H fuel (passes + 1) st = some st' ∧ MarkInv H m₀ R st' ∧
      (∀ i, atbGetKind st.mem i = .mark → atbGetKind st'.mem i = .mark) ∧
      ∀ i < H.poolBlockLen, atbGetKind st'.mem i = .mark → Closed H m₀ st'.mem i := by
  induction passes generalizing st with
  | zero => omega
  | succ passes ih =>
    rw [gcDealWithStackOverflow]
    split
    · rename_i hov
      have hinv₀ : MarkInv H m₀ R { st with overflow := false } :=
        ⟨hinv.marked, hinv.sound, hinv.stack⟩
      obtain ⟨st₁, hret₁, hinv₁, hprog₁, hnil₁, hclosed₁⟩ :=
        overflowPass_loop hnomark hend hR hfuel H.poolBlockLen 0 (Nat.zero_add _) hinv₀ hnil
          fun _ i _ _ => .inl (Nat.zero_le i)
      rw [overflowPass, List.range_eq_range', hret₁, Option.bind_some]
      cases hov₁ : st₁.overflow with
      | false =>
        refine ⟨st₁, ?_, hinv₁, hprog₁.mono, fun i hi hi' =>
          (hclosed₁ hov₁ i hi hi').resolve_left id⟩
        rw [gcDealWithStackOverflow, hov₁]
        rfl
      | true =>
        have hlt : unmarked H st₁.mem < unmarked H st.mem :=
          (hprog₁.overflow_lt hov₁).resolve_left Bool.false_ne_true
        obtain ⟨st', hret, hinv', hmono, hpost⟩ := ih (by omega) hinv₁ hnil₁ hclosed₁
        exact ⟨st', hret, hinv', fun i h => hmono i (hprog₁.mono i h), hpost⟩
    · rename_i hov
      exact ⟨st, rfl, hinv, fun i h => h, fun i hi hi' =>
        (hclosed (Bool.not_eq_true _ ▸ hov) i hi hi').resolve_left id⟩

end Marking

/-! ### Sweeping -/

/-- The memory `m'` after a sweep of `m` has passed the first `b` blocks. -/
structure SweptTo (H : GcHeap) (m : Memory) (b : ℕ) (m' : Memory) : Prop where
  done : ∀ i < b, i < H.poolBlockLen → atbGetKind m' i = swept (atbGetKind m) i
  todo : ∀ i, b ≤ i → i < H.poolBlockLen → atbGetKind m' i = atbGetKind m i
  bytes : ∀ a, H.allocTableByteLen + H.finaliserTableByteLen ≤ a → m' a = m a
  ftb : H.enableFinaliser = true → ∀ i, ftbGet H m' i =
    (ftbGet H m i && !(decide (i < b) && decide (atbGetKind m i = .head)))

theorem SweptTo.zero (H : GcHeap) (m : Memory) : SweptTo H m 0 m where
  done i hi := absurd hi (Nat.not_lt_zero i)
  todo _ _ _ := rfl
  bytes _ _ := rfl
  ftb _ i := by simp

/-- The finaliser flags do not lie in the allocation table. -/
theorem ftbGet_clearByte {a i : ℕ} {mask : BitVec 8} (ha : a < H.allocTableByteLen) :
    ftbGet H (clearByte m a mask) i = ftbGet H m i :=
  ftbGet_congr (clearByte_of_ne (by omega))

/-- A step of the sweep that writes the kind of one block and leaves the finaliser flags. -/
theorem SweptTo.step {m' m'' : Memory} (h : SweptTo H m b m') (hb : b < H.poolBlockLen)
    (hkind : ∀ i < H.poolBlockLen, atbGetKind m'' i =
      if i = b then swept (atbGetKind m) b else atbGetKind m' i)
    (hbytes : ∀ a, H.allocTableByteLen + H.finaliserTableByteLen ≤ a → m'' a = m' a)
    (hftb : H.enableFinaliser = true → ∀ i, ftbGet H m'' i =
      (ftbGet H m' i && !(decide (i = b) && decide (atbGetKind m b = .head)))) :
    SweptTo H m (b + 1) m'' where
  done i hi hi' := by
    rw [hkind i hi']
    split
    · rename_i hib
      rw [hib]
    · exact h.done i (by omega) hi'
  todo i hi hi' := by
    rw [hkind i hi', if_neg (by omega)]
    exact h.todo i (by omega) hi'
  bytes a ha := (hbytes a ha).trans (h.bytes a ha)
  ftb hfin i := by
    rw [hftb hfin i, h.ftb hfin i]
    rcases Nat.lt_trichotomy i b with hlt | rfl | hgt
    · simp [hlt, Nat.lt_succ_of_lt hlt, Nat.ne_of_lt hlt]
    · simp
    · simp [Nat.not_lt_of_gt hgt, Nat.ne_of_gt hgt, show ¬i < b + 1 by omega]

theorem GcHeap.ftbByte_lt (H : GcHeap) (hfin : H.enableFinaliser = true)
    (hb : b < H.poolBlockLen) : b / 8 < H.finaliserTableByteLen := by
  rw [GcHeap.poolBlockLen] at hb
  rw [GcHeap.finaliserTableByteLen, if_pos hfin]
  omega

/-- An unmarked head loses its finaliser flag and is freed. -/
theorem SweptTo.head {m' : Memory} (h : SweptTo H m b m') (hb : b < H.poolBlockLen)
    (hk : atbGetKind m b = .head) :
    SweptTo H m (b + 1)
      (atbAnyToFree (if H.enableFinaliser && ftbGet H m' b then ftbClear H m' b else m') b) := by
  have hlt : b / 4 < H.allocTableByteLen := by
    rw [GcHeap.poolBlockLen] at hb
    omega
  have hswept : swept (atbGetKind m) b = .free := by rw [swept, hk]
  refine h.step hb (fun i hi => ?_) (fun a ha => ?_) (fun hfin i => ?_)
  · rw [atbGetKind_anyToFree, hswept]
    split
    · rfl
    · split
      · exact atbGetKind_ftbClear hi
      · rfl
  · rw [atbAnyToFree, clearByte_of_ne (by omega)]
    split
    · rename_i hcond
      rw [Bool.and_eq_true] at hcond
      have := H.ftbByte_lt hcond.1 hb
      exact clearByte_of_ne (by omega)
    · rfl
  · rw [atbAnyToFree, ftbGet_clearByte hlt, hk, hfin, Bool.true_and]
    split
    · rw [ftbGet_ftbClear]
      simp
    · rename_i hset
      rw [Bool.not_eq_true] at hset
      by_cases hib : i = b
      · rw [hib, hset]
        rfl
      · simp [hib]

/-- A step that clears bits of the entry of a block that is no unmarked head. -/
theorem SweptTo.clear {m' : Memory} (h : SweptTo H m b m') (hb : b < H.poolBlockLen)
    (hk : atbGetKind m b ≠ .head) {mask : BitVec 8}
    (hkind : ∀ i < H.poolBlockLen, atbGetKind (clearByte m' (b / 4) mask) i =
      if i = b then swept (atbGetKind m) b else atbGetKind m' i) :
    SweptTo H m (b + 1) (clearByte m' (b / 4) mask) := by
  have hlt : b / 4 < H.allocTableByteLen := by
    rw [GcHeap.poolBlockLen] at hb
    omega
  refine h.step hb hkind (fun a ha => clearByte_of_ne (by omega)) (fun _ i => ?_)
  rw [ftbGet_clearByte hlt, decide_eq_false hk, Bool.and_false, Bool.not_false, Bool.and_true]

/-- A step that leaves the entry of a block alone. -/
theorem SweptTo.skip {m' : Memory} (h : SweptTo H m b m') (hb : b < H.poolBlockLen)
    (hk : atbGetKind m b ≠ .head) (hswept : swept (atbGetKind m) b = atbGetKind m b) :
    SweptTo H m (b + 1) m' := by
  refine h.step hb (fun i hi => ?_) (fun _ _ => rfl) (fun _ i => ?_)
  · split
    · rename_i hib
      rw [hib, hswept, h.todo b (Nat.le_refl b) hb]
    · rfl
  · rw [decide_eq_false hk, Bool.and_false, Bool.not_false, Bool.and_true]

/-- The loop of the sweep, from block `b` on. -/
theorem gcSweepLoop_spec {k : ℕ} {m' : Memory} (hk : b + k = H.poolBlockLen)
    (h : SweptTo H m b m') :
    SweptTo H m H.poolBlockLen (gcSweepLoop H k b (sweeping (atbGetKind m) b) m') := by
  induction k generalizing b m' with
  | zero => rwa [gcSweepLoop, ← hk, Nat.add_zero]
  | succ k ih =>
    have hb : b < H.poolBlockLen := by omega
    have hcur := h.todo b (Nat.le_refl b) hb
    have hnext := sweeping.eq_2 (atbGetKind m) b
    rw [gcSweepLoop, hcur]
    cases hkb : atbGetKind m b with
    | head =>
      rw [hkb] at hnext
      have := ih (by omega) (h.head hb hkb)
      rwa [hnext] at this
    | mark =>
      rw [hkb] at hnext
      have hstep : SweptTo H m (b + 1) (atbMarkToHead m' b) := by
        refine h.clear hb (by rw [hkb]; decide) fun i _ => ?_
        rw [swept, hkb]
        exact atbGetKind_markToHead (hcur.trans hkb)
      have := ih (by omega) hstep
      rwa [hnext] at this
    | free =>
      rw [hkb] at hnext
      have := ih (by omega) (h.skip hb (by rw [hkb]; decide) (by rw [swept, hkb]))
      rwa [hnext] at this
    | tail =>
      rw [hkb] at hnext
      cases hs : sweeping (atbGetKind m) b with
      | true =>
        have hstep : SweptTo H m (b + 1) (atbAnyToFree m' b) := by
          refine h.clear hb (by rw [hkb]; decide) fun i _ => ?_
          rw [swept, hkb, hs]
          exact atbGetKind_anyToFree
        have := ih (by omega) hstep
        rwa [hnext, hs] at this
      | false =>
        have := ih (by omega)
          (h.skip hb (by rw [hkb]; decide) (by rw [swept, hkb, hs]; rfl))
        rwa [hnext, hs] at this

/-- **A sweep** of the whole table. -/
theorem gcSweep_spec (H : GcHeap) (m : Memory) : SweptTo H m H.poolBlockLen (gcSweep H m) :=
  gcSweepLoop_spec (Nat.zero_add _) (.zero H m)

theorem WellFormed.gcSweep (hwf : WellFormed H.poolBlockLen (atbGetKind m)) :
    WellFormed H.poolBlockLen (atbGetKind (gcSweep H m)) := by
  have hsweep := gcSweep_spec H m
  have hs := hwf.swept
  refine ⟨fun h0 => ?_, fun i hi htail => ?_⟩
  · rw [hsweep.done 0 h0 h0]
    exact hs.first h0
  · rw [hsweep.done _ hi hi] at htail
    rw [hsweep.done i (by omega) (by omega)]
    exact hs.follows i hi htail

theorem IsChain.gcSweep {h n : ℕ} (hc : IsChain H.poolBlockLen (swept (atbGetKind m)) h n) :
    IsChain H.poolBlockLen (atbGetKind (gcSweep H m)) h n := by
  have hsweep := gcSweep_spec H m
  have hle := hc.le
  refine hc.congr (fun i _ hlt => hsweep.done i (by omega) (by omega)) fun hlt => ?_
  rw [hsweep.done _ hlt hlt]
  exact hc.ends hlt

/-! ### Collections -/

/-- **Marking** ends with exactly the reachable heads marked. -/
theorem gcMark_spec (hnomark : ∀ i < H.poolBlockLen, atbGetKind m i ≠ .mark)
    (hend : atbGetKind m H.poolBlockLen ≠ .tail) {fuel : ℕ} (hfuel : H.poolBlockLen + 1 < fuel)
    (roots : List ℕ) :
    ∃ st st', gcCollectRoot H fuel roots ⟨m, [], false⟩ = some st ∧
      gcDealWithStackOverflow H fuel fuel st = some st' ∧ Marked H m st'.mem ∧
      ∀ i < H.poolBlockLen, atbGetKind m i = .head →
        (atbGetKind st'.mem i = .mark ↔ GcReachable H m roots i) := by
  have hR : ∀ c d, GcReachable H m roots c → PointsTo H m c d → GcReachable H m roots d := by
    rintro c d ⟨r, hr, hhead, hroot, hpath⟩ hcd
    exact ⟨r, hr, hhead, hroot, hpath.tail hcd⟩
  have hinit : MarkInv H m (GcReachable H m roots) ⟨m, [], false⟩ :=
    ⟨.refl H m, fun i hi h => absurd h (hnomark i hi), fun i h => absurd h List.not_mem_nil⟩
  obtain ⟨st, hret, hinv, -, hnil, hclosed, hroots⟩ := gcCollectRoot_spec hnomark hend hR
    (show H.poolBlockLen < fuel by omega) roots
    (fun ptr hptr d hd hhead heq => ⟨d, hd, hhead, heq ▸ hptr, .refl⟩) hinit rfl
    fun _ i hi h => absurd h (hnomark i hi)
  have hle := unmarked_le H st.mem
  obtain ⟨st', hret', hinv', hmono, hclosed'⟩ := gcDealWithStackOverflow_spec hnomark hend hR
    (show H.poolBlockLen < fuel by omega) (show unmarked H st.mem < fuel - 1 by omega) hinv hnil
    hclosed
  rw [Nat.sub_add_cancel (by omega)] at hret'
  -- along a path from a root everything is marked
  have hpath : ∀ r i, r < H.poolBlockLen → atbGetKind st'.mem r = .mark →
      Relation.ReflTransGen (PointsTo H m) r i →
        i < H.poolBlockLen ∧ atbGetKind st'.mem i = .mark := by
    intro r i hr hmark hri
    induction hri with
    | refl => exact ⟨hr, hmark⟩
    | tail _ hcd ih =>
      obtain ⟨n, hchain, hd, hdhead, hptr⟩ := hcd
      exact ⟨hd, hclosed' _ ih.1 ih.2 _ ⟨n, hchain, hd, hdhead, hptr⟩⟩
  refine ⟨st, st', hret, hret', hinv'.marked, fun i hi hhead => ⟨hinv'.sound i hi, ?_⟩⟩
  rintro ⟨r, hr, hrhead, hroot, hri⟩
  exact (hpath r i hr (hmono r (hroots _ hroot r hr hrhead rfl)) hri).2

/-- **A collection** on a well-formed heap returns, whatever the size of the mark stack. It keeps
the chains that are reachable from the roots and frees the others, and it leaves the contents of
the pool alone. -/
theorem gc_collect_frees_unreachable (H : GcHeap) (s : GcState)
    (hwf : WellFormed H.poolBlockLen (atbGetKind s.mem))
    (hnomark : ∀ b < H.poolBlockLen, atbGetKind s.mem b ≠ .mark)
    (hend : atbGetKind s.mem H.poolBlockLen ≠ .tail) (roots : List ℕ) (fuel : ℕ)
    (hfuel : H.poolBlockLen + 1 < fuel) :
    ∃ s', gcCollect H fuel roots s = some s' ∧
      (∀ h n, IsChain H.poolBlockLen (atbGetKind s.mem) h n → GcReachable H s.mem roots h →
        IsChain H.poolBlockLen (atbGetKind s'.mem) h n) ∧
      (∀ h n, IsChain H.poolBlockLen (atbGetKind s.mem) h n → ¬GcReachable H s.mem roots h →
        ∀ i, h ≤ i → i < h + n → atbGetKind s'.mem i = .free) ∧
      (∀ b < H.poolBlockLen, atbGetKind s.mem b = .free → atbGetKind s'.mem b = .free) ∧
      (∀ a, H.poolStart ≤ a → s'.mem a = s.mem a) ∧
      WellFormed H.poolBlockLen (atbGetKind s'.mem) ∧
      (∀ b < H.poolBlockLen, atbGetKind s'.mem b ≠ .mark) ∧
      s'.lockDepth = s.lockDepth := by
  obtain ⟨st, st', hroots, hdeal, hmarked, hreach⟩ := gcMark_spec hnomark hend hfuel roots
  have hsweep := gcSweep_spec H st'.mem
  have hpool := H.tables_le_poolStart
  have hstart : ∀ h n, IsChain H.poolBlockLen (atbGetKind s.mem) h n →
      h < H.poolBlockLen ∧ atbGetKind s.mem h = .head := by
    intro h n hc
    have hlt : h < H.poolBlockLen := by have := hc.le; have := hc.pos; omega
    exact ⟨hlt, hc.starts.resolve_right (hnomark h hlt)⟩
  refine ⟨gcCollectDone H s st'.mem, ?_, fun h n hc hr => ?_, fun h n hc hr i hi hlt => ?_,
    fun b hb hfree => ?_, fun a ha => ?_, ?_, fun b hb => ?_, rfl⟩
  · rw [gcCollect, hroots, Option.bind_some, hdeal]
    rfl
  · obtain ⟨hh, hhead⟩ := hstart h n hc
    exact IsChain.gcSweep ((hmarked.isChain hc).swept_mark ((hreach h hh hhead).mpr hr))
  · obtain ⟨hh, hhead⟩ := hstart h n hc
    have hle := hc.le
    have hstill : atbGetKind st'.mem h = .head :=
      (hmarked.head_or_mark hh hhead).resolve_right fun hm => hr ((hreach h hh hhead).mp hm)
    exact (hsweep.done i (by omega) (by omega)).trans
      ((hmarked.isChain hc).swept_head hstill hi hlt)
  · have hstill : atbGetKind st'.mem b = .free := by
      rcases hmarked.kinds b hb with heq | ⟨h0, -⟩
      · exact heq.trans hfree
      · rw [hfree] at h0
        cases h0
    refine (hsweep.done b hb hb).trans ?_
    rw [swept, hstill]
  · exact (hsweep.bytes a (by omega)).trans (hmarked.bytes a (by omega))
  · exact WellFormed.gcSweep (hmarked.wellFormed hwf)
  · intro hmark
    exact swept_ne_mark _ b ((hsweep.done b hb hb).symm.trans hmark)

/-- A heap of four blocks at address 16, with the byte after its table in the gap. -/
def gcHeapFourBlocks : GcHeap :=
  { gcConfig32 false with start := 14, stop := 80, start_le := by decide }

/-- Two blocks in a chain that points at block 2, and block 3 that nothing points at. -/
def fourBlocksMemory : Memory := fun a => if a = 0 then 0x59 else if a = 2 then 48 else 0

/-- The hypotheses hold on a small heap with one root. -/
theorem gc_collect_frees_unreachable_four_blocks :
    ∃ s', gcCollect gcHeapFourBlocks 6 [16] ⟨fourBlocksMemory, 0, 0, true, 0, 0⟩ = some s' ∧
      WellFormed gcHeapFourBlocks.poolBlockLen (atbGetKind s'.mem) := by
  obtain ⟨s', hret, -, -, -, -, hwf, -⟩ := gc_collect_frees_unreachable gcHeapFourBlocks
    ⟨fourBlocksMemory, 0, 0, true, 0, 0⟩ (by decide) (by decide) (by decide) [16] 6 (by decide)
  exact ⟨s', hret, hwf⟩

/-- The collection keeps blocks 0 to 2 and frees block 3. -/
example :
    ((gcCollect gcHeapFourBlocks 6 [16] ⟨fourBlocksMemory, 0, 0, true, 0, 0⟩).map fun s =>
      (List.range 4).map (atbGetKind s.mem)) = some [.head, .tail, .head, .free] := by
  decide +kernel

end Pycopy
