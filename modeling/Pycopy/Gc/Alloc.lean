import Pycopy.Gc.Collect

/-!
# Allocation

`gc_alloc`, `gc_free` and `gc_realloc` of `py/gc.c`. An allocation takes the first run of free
blocks that is long enough, after a collection if need be; a reallocation shrinks or lengthens a
chain in place where it can and moves it otherwise. A collection is given by the heads that its
marking phase reaches; `gcCollect_eq_gcCollectMarks` connects this with the marking phase itself.

`gc_free` walks along the tails of a chain without looking where the table ends. After a chain
that reaches the last block it goes on in the memory behind the table, and clears what reads as a
tail there. With a finaliser table it stops inside this table. Without one, and without a gap,
it can get into the pool; `WalkSafe` excludes this.

## Main results

* `gcCollectMarks_spec`: a collection keeps the marked chains.
* `gcAlloc_spec`, `gcFree_spec`, `gcRealloc_spec`: what the calls do to the chains.
-/

open BitMemory BlockTable

namespace Pycopy

/-! ### Definitions -/

/-- The head at `block` is marked, if it is in `marks`. -/
def markHead (marks : ℕ → Bool) (m : Memory) (block : ℕ) : Memory :=
  if atbGetKind m block = .head ∧ marks block = true then atbHeadToMark m block else m

/-- Marking as far as the sweep is concerned: the heads in `marks` are marked. -/
def markHeads (H : GcHeap) (marks : ℕ → Bool) (m : Memory) : Memory :=
  (List.range H.poolBlockLen).foldl (markHead marks) m

/-- `gc_collect`, when its marking phase marks the heads in `marks` -/
def gcCollectMarks (H : GcHeap) (marks : ℕ → Bool) (s : GcState) : GcState :=
  gcCollectDone H s (markHeads H marks s.mem)

/-- The number of blocks for a number of bytes: rounding up, masking and dividing in `size_t` -/
def blocksFor (H : GcHeap) (nBytes : ℕ) : ℕ :=
  (nBytes + H.bytesPerBlock - 1) % 2 ^ H.sizeBits / H.bytesPerBlock

/-- The search of `gc_alloc` for a run of free blocks, with `k` entries left; returns the last
block of the run and its length. -/
def findRun (m : Memory) (nBlocks : ℕ) : ℕ → ℕ → ℕ → Option (ℕ × ℕ)
  | 0, _, _ => none
  | k + 1, block, nFree =>
    if atbGetKind m block = .free then
      if nFree + 1 ≥ nBlocks then some (block, nFree + 1)
      else findRun m nBlocks k (block + 1) (nFree + 1)
    else findRun m nBlocks k (block + 1) 0

/-- The search starts at the table byte `gc_last_free_atb_index`. -/
def gcAllocSearch (H : GcHeap) (s : GcState) (nBlocks : ℕ) : Option (ℕ × ℕ) :=
  findRun s.mem nBlocks (4 * (H.allocTableByteLen - s.lastFreeAtbIndex))
    (4 * s.lastFreeAtbIndex) 0

/-- Make `k` free blocks tails. -/
def tailLoop : ℕ → ℕ → Memory → Memory
  | 0, _, m => m
  | k + 1, block, m => tailLoop k (block + 1) (atbFreeToTail m block)

/-- Make `k` blocks free. -/
def clearLoop : ℕ → ℕ → Memory → Memory
  | 0, _, m => m
  | k + 1, block, m => clearLoop k (block + 1) (atbAnyToFree m block)

/-- `gc_alloc` after `found:` -/
def gcAllocFound (H : GcHeap) (s : GcState) (nBytes nBlocks : ℕ) (hasFinaliser : Bool)
    (endBlock nFree : ℕ) : ℕ × GcState :=
  let startBlock := endBlock + 1 - nFree
  let mem := tailLoop (endBlock - startBlock) (startBlock + 1) (atbFreeToHead s.mem startBlock)
  let ret := H.blockAddr startBlock
  let size := (endBlock - startBlock + 1) * H.bytesPerBlock
  let mem :=
    if H.conservativeClear then memset mem ret 0#8 size
    else memset mem (ret + nBytes) 0#8 (size - nBytes)
  let mem :=
    if H.enableFinaliser && hasFinaliser then
      -- clear the type pointer, set the flag
      ftbSet H (memset mem ret 0#8 H.ptrBytes) startBlock
    else mem
  (startBlock,
    { s with
      mem := mem
      lastFreeAtbIndex := if nFree = 1 then (endBlock + 1) / 4 else s.lastFreeAtbIndex
      allocAmount := if H.allocThreshold then s.allocAmount + nBlocks else s.allocAmount })

/-- One round of the loop of `gc_alloc`: search, and take what is found. -/
def gcAllocTry (H : GcHeap) (s : GcState) (nBytes : ℕ) (hasFinaliser : Bool) :
    Option (ℕ × GcState) :=
  (gcAllocSearch H s (blocksFor H nBytes)).map fun (endBlock, nFree) =>
    gcAllocFound H s nBytes (blocksFor H nBytes) hasFinaliser endBlock nFree

/-- `gc_alloc`; a collection in the course of it marks the heads in `marks`. The result is a
block, or `none` for `NULL`. -/
def gcAlloc (H : GcHeap) (marks : ℕ → Bool) (s : GcState) (nBytes : ℕ) (hasFinaliser : Bool) :
    Option ℕ × GcState :=
  if blocksFor H nBytes = 0 then (none, s)
  else if s.lockDepth > 0 then (none, s)
  else
    let reached :=
      H.allocThreshold && s.autoCollectEnabled && decide (s.allocAmount ≥ s.allocThreshold)
    let collected := !s.autoCollectEnabled || reached
    let s := if reached then gcCollectMarks H marks s else s
    match gcAllocTry H s nBytes hasFinaliser with
    | some (block, s) => (some block, s)
    | none =>
      if collected then (none, s)
      else
        let s := gcCollectMarks H marks s
        match gcAllocTry H s nBytes hasFinaliser with
        | some (block, s) => (some block, s)
        | none => (none, s)

/-- The loop of `gc_free`: it goes on as long as the next entry is a tail. -/
def freeLoop : ℕ → ℕ → Memory → Option Memory
  | 0, _, _ => none
  | fuel + 1, block, m =>
    if atbGetKind (atbAnyToFree m block) (block + 1) = .tail then
      freeLoop fuel (block + 1) (atbAnyToFree m block)
    else some (atbAnyToFree m block)

/-- `gc_free` of the chain at `block`; no result when the walk leaves the memory. -/
def gcFree (H : GcHeap) (s : GcState) (block : ℕ) : Option GcState :=
  if s.lockDepth > 0 then some s
  else
    (freeLoop (4 * H.totalByteLen - block) block
      (if H.enableFinaliser then ftbClear H s.mem block else s.mem)).map fun mem =>
        { s with
          mem := mem
          lastFreeAtbIndex :=
            if block / 4 < s.lastFreeAtbIndex then block / 4 else s.lastFreeAtbIndex }

/-- The loop of `gc_realloc` that counts the blocks of the chain and the free blocks after it,
with `k` blocks left. -/
def reallocScan (m : Memory) (newBlocks : ℕ) : ℕ → ℕ → ℕ → ℕ → ℕ × ℕ
  | 0, _, nBlocks, nFree => (nBlocks, nFree)
  | k + 1, bl, nBlocks, nFree =>
    match atbGetKind m bl with
    | .tail => reallocScan m newBlocks k (bl + 1) (nBlocks + 1) nFree
    | .free =>
      if nBlocks + (nFree + 1) ≥ newBlocks then (nBlocks, nFree + 1)
      else reallocScan m newBlocks k (bl + 1) nBlocks (nFree + 1)
    | _ => (nBlocks, nFree)

/-- The end of `gc_realloc`: the chain has to be moved. -/
def gcReallocMove (H : GcHeap) (marks : ℕ → Bool) (s : GcState) (block nBlocks nBytes : ℕ) :
    Option (Option ℕ × GcState) :=
  match gcAlloc H marks s nBytes (H.enableFinaliser && ftbGet H s.mem block) with
  | (none, s) => some (none, s)
  | (some out, s) =>
    (gcFree H
      { s with
        mem := memcpy s.mem (H.blockAddr out) (H.blockAddr block) (nBlocks * H.bytesPerBlock) }
      block).map fun s => (some out, s)

/-- `gc_realloc` of the chain at `block`. -/
def gcRealloc (H : GcHeap) (marks : ℕ → Bool) (s : GcState) (block nBytes : ℕ)
    (allowMove : Bool) : Option (Option ℕ × GcState) :=
  if nBytes = 0 then (gcFree H s block).map fun s => (none, s)
  else if s.lockDepth > 0 then some (none, s)
  else
    let newBlocks := blocksFor H nBytes
    let (nBlocks, nFree) :=
      reallocScan s.mem newBlocks (H.poolBlockLen - (block + 1)) (block + 1) 1 0
    if newBlocks = nBlocks then some (some block, s)
    else if newBlocks < nBlocks then
      -- free unneeded tail blocks
      some (some block,
        { s with
          mem := clearLoop (nBlocks - newBlocks) (block + newBlocks) s.mem
          lastFreeAtbIndex :=
            if (block + newBlocks) / 4 < s.lastFreeAtbIndex then (block + newBlocks) / 4
            else s.lastFreeAtbIndex })
    else if newBlocks ≤ nBlocks + nFree then
      -- mark few more blocks as used tail
      let mem := tailLoop (newBlocks - nBlocks) (block + nBlocks) s.mem
      let ptr := H.blockAddr block
      some (some block,
        { s with
          mem :=
            if H.conservativeClear then
              memset mem (ptr + nBlocks * H.bytesPerBlock) 0#8
                ((newBlocks - nBlocks) * H.bytesPerBlock)
            else memset mem (ptr + nBytes) 0#8 (newBlocks * H.bytesPerBlock - nBytes) })
    else if allowMove then gcReallocMove H marks s block nBlocks nBytes
    else some (none, s)

/-! ### The loops over table entries -/

variable {H : GcHeap} {m m' : Memory} {b : ℕ}

/-- The first block and the blocks behind it -/
theorem ite_range_succ (b k i : ℕ) (x y : Kind) :
    (if b + 1 ≤ i ∧ i < b + 1 + k then x else if i = b then x else y) =
      if b ≤ i ∧ i < b + (k + 1) then x else y := by
  split_ifs <;> first | rfl | omega

theorem tailLoop_spec {k : ℕ} (hfree : ∀ i, b ≤ i → i < b + k → atbGetKind m i = .free) :
    (∀ i, atbGetKind (tailLoop k b m) i = if b ≤ i ∧ i < b + k then .tail else atbGetKind m i) ∧
      ∀ a, b + k ≤ 4 * a → tailLoop k b m a = m a := by
  induction k generalizing b m with
  | zero => exact ⟨fun i => by rw [tailLoop, if_neg (by omega)], fun a _ => rfl⟩
  | succ k ih =>
    have hb := hfree b (Nat.le_refl b) (by omega)
    obtain ⟨hkind, hbytes⟩ := @ih (atbFreeToTail m b) (b + 1) fun i hi hlt => by
      rw [atbGetKind_freeToTail hb, if_neg (by omega)]
      exact hfree i (by omega) (by omega)
    rw [tailLoop]
    refine ⟨fun i => ?_, fun a ha => ?_⟩
    · rw [hkind, atbGetKind_freeToTail hb]
      exact ite_range_succ b k i _ _
    · rw [hbytes a (by omega), atbFreeToTail, orByte_of_ne (by omega)]

theorem clearLoop_kind (k b : ℕ) (m : Memory) (i : ℕ) :
    atbGetKind (clearLoop k b m) i = if b ≤ i ∧ i < b + k then .free else atbGetKind m i := by
  induction k generalizing b m with
  | zero => rw [clearLoop, if_neg (by omega)]
  | succ k ih =>
    rw [clearLoop, ih, atbGetKind_anyToFree]
    exact ite_range_succ b k i _ _

variable {k a : ℕ}

theorem clearLoop_bytes (ha : b + k ≤ 4 * a) : clearLoop k b m a = m a := by
  induction k generalizing b m with
  | zero => rfl
  | succ k ih => rw [clearLoop, ih (by omega), atbAnyToFree, clearByte_of_ne (by omega)]

/-- Clearing entries clears bits, also where the bits are finaliser flags. -/
theorem bit_of_bit_clearLoop {j : ℕ} (h : bit (clearLoop k b m) j = true) : bit m j = true := by
  induction k generalizing b m with
  | zero => exact h
  | succ k ih =>
    have := ih h
    rw [bit_atbAnyToFree, Bool.and_eq_true] at this
    exact this.1

variable {e : ℕ}

/-- The walk of `gc_free` clears all entries up to the first that is not a tail. -/
theorem freeLoop_spec {fuel : ℕ} (hbe : b < e)
    (htails : ∀ i, b < i → i < e → atbGetKind m i = .tail) (hend : atbGetKind m e ≠ .tail)
    (hfuel : e ≤ fuel + b) : freeLoop fuel b m = some (clearLoop (e - b) b m) := by
  induction fuel generalizing b m with
  | zero => omega
  | succ fuel ih =>
    have hother : ∀ i, i ≠ b → atbGetKind (atbAnyToFree m b) i = atbGetKind m i := fun i hi => by
      rw [atbGetKind_anyToFree, if_neg hi]
    rw [freeLoop, hother (b + 1) (by omega), show e - b = e - (b + 1) + 1 by omega, clearLoop]
    rcases Nat.lt_or_eq_of_le (Nat.succ_le_of_lt hbe) with hlt | rfl
    · rw [if_pos (htails (b + 1) (by omega) hlt)]
      refine ih hlt (fun i hi hie => ?_) ?_ (by omega)
      · rw [hother i (by omega)]
        exact htails i (by omega) hie
      · rwa [hother e (by omega)]
    · rw [if_neg hend, Nat.sub_self]
      rfl

variable {n f : ℕ}

/-- A run that the search finds has the right length and is free. -/
theorem findRun_spec {nFree : ℕ} (hn : nFree < n) (hle : nFree ≤ b)
    (hfree : ∀ i, b ≤ i + nFree → i < b → atbGetKind m i = .free)
    (h : findRun m n k b nFree = some (e, f)) :
    f = n ∧ f ≤ e + 1 ∧ e < b + k ∧ ∀ i, e + 1 ≤ i + f → i ≤ e → atbGetKind m i = .free := by
  induction k generalizing b nFree with
  | zero => cases h
  | succ k ih =>
    rw [findRun] at h
    split at h
    · rename_i hb
      have hfree' : ∀ i, b + 1 ≤ i + (nFree + 1) → i < b + 1 → atbGetKind m i = .free := by
        intro i hi hlt
        rcases Nat.lt_or_eq_of_le (Nat.le_of_lt_succ hlt) with hlt' | rfl
        · exact hfree i (by omega) hlt'
        · exact hb
      split at h
      · cases h
        exact ⟨by omega, by omega, by omega, fun i hi hle' => hfree' i hi (by omega)⟩
      · obtain ⟨hf, hfe, he, hrun⟩ := ih (by omega) (by omega) hfree' h
        exact ⟨hf, hfe, by omega, hrun⟩
    · obtain ⟨hf, hfe, he, hrun⟩ := ih (by omega) (Nat.zero_le _) (fun i hi hlt => by omega) h
      exact ⟨hf, hfe, by omega, hrun⟩

/-! ### Memory that agrees on the tables -/

theorem TableGood.congr (hgood : TableGood H m)
    (h : ∀ a < H.allocTableByteLen + H.finaliserTableByteLen, m' a = m a) : TableGood H m' := by
  have hkind : ∀ i < H.poolBlockLen, atbGetKind m' i = atbGetKind m i := fun i hi => by
    rw [GcHeap.poolBlockLen] at hi
    exact atbGetKind_congr (h _ (by omega))
  refine ⟨⟨fun h0 => ?_, fun i hi htail => ?_⟩, fun i hi => ?_, fun hfin i hi hset => ?_⟩
  · rw [hkind 0 h0]
    exact hgood.wellFormed.first h0
  · rw [hkind _ hi] at htail
    rw [hkind i (by omega)]
    exact hgood.wellFormed.follows i hi htail
  · rw [hkind i hi]
    exact hgood.no_mark i hi
  · rw [ftbGet_congr (h _ (by omega))] at hset
    obtain ⟨hlt, hhead⟩ := hgood.ftb_head hfin i hi hset
    exact ⟨hlt, (hkind i hlt).trans hhead⟩

theorem isChain_congr {h : ℕ} (hc : IsChain H.poolBlockLen (atbGetKind m) h n)
    (hkind : ∀ i < H.poolBlockLen, atbGetKind m' i = atbGetKind m i) :
    IsChain H.poolBlockLen (atbGetKind m') h n := by
  have hle := hc.le
  refine hc.congr (fun i _ hlt => hkind i (by omega)) fun hlt => ?_
  rw [hkind _ hlt]
  exact hc.ends hlt

theorem atbGetKind_agree (h : ∀ a < H.allocTableByteLen, m' a = m a) :
    ∀ i < H.poolBlockLen, atbGetKind m' i = atbGetKind m i := fun i hi => by
  rw [GcHeap.poolBlockLen] at hi
  exact atbGetKind_congr (h _ (by omega))

/-- The memory of a block run lies in the pool. -/
theorem GcHeap.blockAddr_le (h : b + n ≤ H.poolBlockLen) :
    H.poolStart ≤ H.blockAddr b ∧ H.blockAddr b + n * H.bytesPerBlock ≤ H.totalByteLen := by
  have hadd := H.poolStart_add
  have hmul := Nat.mul_le_mul_right H.bytesPerBlock h
  rw [Nat.add_mul] at hmul
  rw [GcHeap.blockAddr]
  omega

/-- Runs that do not overlap have separate bytes. -/
theorem GcHeap.blockAddr_add_le {b' n : ℕ} (h : b + n ≤ b') :
    H.blockAddr b + n * H.bytesPerBlock ≤ H.blockAddr b' := by
  have hmul := Nat.mul_le_mul_right H.bytesPerBlock h
  rw [Nat.add_mul] at hmul
  rw [GcHeap.blockAddr, GcHeap.blockAddr]
  omega

/-! ### Collections between the calls -/

theorem atbGetKind_markHead (marks : ℕ → Bool) (m : Memory) (b i : ℕ) :
    atbGetKind (markHead marks m b) i =
      if i = b ∧ marks i = true ∧ atbGetKind m i = .head then .mark else atbGetKind m i := by
  rw [markHead]
  split
  · rename_i hcond
    rw [atbGetKind_headToMark]
    by_cases hib : i = b
    · subst hib
      rw [if_pos rfl, if_pos ⟨rfl, hcond.2, hcond.1⟩]
    · rw [if_neg hib, if_neg fun h => hib h.1]
  · rename_i hcond
    refine (if_neg ?_).symm
    rintro ⟨rfl, hmark, hhead⟩
    exact hcond ⟨hhead, hmark⟩

theorem markHeads_loop (marks : ℕ → Bool) (l : List ℕ) (m : Memory) :
    (∀ i, atbGetKind (l.foldl (markHead marks) m) i =
        if i ∈ l ∧ marks i = true ∧ atbGetKind m i = .head then .mark else atbGetKind m i) ∧
      ∀ a, (∀ i ∈ l, i / 4 ≠ a) → l.foldl (markHead marks) m a = m a := by
  induction l generalizing m with
  | nil => exact ⟨fun i => (if_neg fun h => absurd h.1 List.not_mem_nil).symm, fun a _ => rfl⟩
  | cons b l ih =>
    obtain ⟨hkind, hbytes⟩ := ih (markHead marks m b)
    rw [List.foldl_cons]
    refine ⟨fun i => ?_, fun a ha => ?_⟩
    · rw [hkind, atbGetKind_markHead]
      by_cases hmark : marks i = true ∧ atbGetKind m i = .head
      · by_cases hib : i = b
        · rw [if_pos (show i = b ∧ _ from ⟨hib, hmark⟩), if_neg (fun h => nomatch h.2.2),
            if_pos (show i ∈ b :: l ∧ _ from ⟨List.mem_cons.mpr (.inl hib), hmark⟩)]
        · rw [if_neg (show ¬(i = b ∧ _) from fun h => hib h.1)]
          exact if_congr (by rw [List.mem_cons, or_iff_right hib]) rfl rfl
      · rw [if_neg (show ¬(i = b ∧ _) from fun h => hmark h.2), if_neg fun h => hmark h.2,
          if_neg fun h => hmark h.2]
    · rw [hbytes a fun i hi => ha i (List.mem_cons_of_mem b hi), markHead]
      split
      · rw [atbHeadToMark, orByte_of_ne (ha b List.mem_cons_self).symm]
      · rfl

/-- Marking the heads of a set marks exactly these. -/
theorem markHeads_spec (H : GcHeap) (marks : ℕ → Bool) (m : Memory) :
    Marked H m (markHeads H marks m) ∧ ∀ i < H.poolBlockLen, atbGetKind (markHeads H marks m) i =
      if marks i = true ∧ atbGetKind m i = .head then .mark else atbGetKind m i := by
  obtain ⟨hkind, hbytes⟩ := markHeads_loop marks (List.range H.poolBlockLen) m
  have hmarks : ∀ i < H.poolBlockLen, atbGetKind (markHeads H marks m) i =
      if marks i = true ∧ atbGetKind m i = .head then .mark else atbGetKind m i := fun i hi => by
    rw [markHeads, hkind]
    exact if_congr (and_iff_right (List.mem_range.mpr hi)) rfl rfl
  refine ⟨⟨fun a ha => hbytes a fun i hi => ?_, fun i hi => ?_⟩, hmarks⟩
  · rw [List.mem_range, GcHeap.poolBlockLen] at hi
    omega
  · rw [hmarks i hi]
    split
    · rename_i hcond
      exact .inr ⟨hcond.2, rfl⟩
    · exact .inl rfl

/-- The memory after marking is known from what is marked. -/
theorem Marked.eq_markHeads (h : Marked H m m') :
    m' = markHeads H (fun i => decide (atbGetKind m' i = .mark)) m := by
  obtain ⟨hmarked, hkind⟩ := markHeads_spec H (fun i => decide (atbGetKind m' i = .mark)) m
  have hsame : ∀ i < H.poolBlockLen, atbGetKind m' i =
      atbGetKind (markHeads H (fun i => decide (atbGetKind m' i = .mark)) m) i := by
    intro i hi
    rw [hkind i hi]
    split
    · rename_i hcond
      exact of_decide_eq_true hcond.1
    · rename_i hcond
      exact (h.kinds i hi).resolve_right fun hmark =>
        hcond ⟨decide_eq_true hmark.2, hmark.1⟩
  funext a
  by_cases ha : H.allocTableByteLen ≤ a
  · exact (h.bytes a ha).trans (hmarked.bytes a ha).symm
  · refine byte_ext fun k hk => ?_
    have hbits := hsame (k / 2) (by rw [GcHeap.poolBlockLen]; omega)
    rw [atbGetKind_eq_bits, atbGetKind_eq_bits] at hbits
    obtain ⟨hlo, hhi⟩ := kindOfBits_inj hbits
    rcases Nat.mod_two_eq_zero_or_one k with hpar | hpar
    · rwa [show k = 2 * (k / 2) by omega]
    · rwa [show k = 2 * (k / 2) + 1 by omega]

/-- The tables stay good, the chains in `keep` stay, and so do all bytes behind the tables. -/
structure Kept (H : GcHeap) (keep : ℕ → Prop) (m m' : Memory) : Prop where
  good : TableGood H m'
  chains : ∀ h n, keep h → IsChain H.poolBlockLen (atbGetKind m) h n →
    IsChain H.poolBlockLen (atbGetKind m') h n
  bytes : ∀ a, H.allocTableByteLen + H.finaliserTableByteLen ≤ a → m' a = m a

theorem Kept.refl (hgood : TableGood H m) (keep : ℕ → Prop) : Kept H keep m m :=
  ⟨hgood, fun _ _ _ hc => hc, fun _ _ => rfl⟩

theorem Kept.trans {keep : ℕ → Prop} {m₁ m₂ : Memory} (h₁ : Kept H keep m m₁)
    (h₂ : Kept H keep m₁ m₂) : Kept H keep m m₂ :=
  ⟨h₂.good, fun h n hk hc => h₂.chains h n hk (h₁.chains h n hk hc),
    fun a ha => (h₂.bytes a ha).trans (h₁.bytes a ha)⟩

variable {s : GcState}

/-- **A collection** keeps the marked chains and the contents of the pool. -/
theorem gcCollectMarks_spec (hgood : TableGood H s.mem) (marks : ℕ → Bool) :
    Kept H (marks · = true) s.mem (gcCollectMarks H marks s).mem := by
  obtain ⟨hmarked, hmarks⟩ := markHeads_spec H marks s.mem
  have hsweep := gcSweep_spec H (markHeads H marks s.mem)
  have hmem : (gcCollectMarks H marks s).mem = gcSweep H (markHeads H marks s.mem) := rfl
  rw [hmem]
  refine ⟨⟨WellFormed.gcSweep (hmarked.wellFormed hgood.wellFormed), fun b hb hmark => ?_,
    fun hfin b hb hset => ?_⟩, fun h n hh hc => ?_, fun a ha => ?_⟩
  · exact swept_ne_mark _ b ((hsweep.done b hb hb).symm.trans hmark)
  · rw [hsweep.ftb hfin, Bool.and_eq_true, ftbGet_congr (hmarked.bytes _ (by omega))] at hset
    obtain ⟨hlt, hhead⟩ := hgood.ftb_head hfin b hb hset.1
    refine ⟨hlt, (hsweep.done b hlt hlt).trans (swept_eq_head_iff.mpr ?_)⟩
    refine (hmarked.head_or_mark hlt hhead).resolve_left fun hstill => ?_
    rw [decide_eq_true hlt, decide_eq_true hstill] at hset
    exact absurd hset.2 (by decide)
  · have hlt : h < H.poolBlockLen := by have := hc.le; have := hc.pos; omega
    have hhead := hc.starts.resolve_right (hgood.no_mark h hlt)
    refine IsChain.gcSweep ((hmarked.isChain hc).swept_mark ?_)
    rw [hmarks h hlt, if_pos ⟨hh, hhead⟩]
  · exact (hsweep.bytes a ha).trans (hmarked.bytes a (by omega))

/-- A collection from root pointers is one that marks the heads it reaches. -/
theorem gcCollect_eq_gcCollectMarks (hgood : TableGood H s.mem)
    (hend : atbGetKind s.mem H.poolBlockLen ≠ .tail) {fuel : ℕ} (hfuel : H.poolBlockLen + 1 < fuel)
    (roots : List ℕ) :
    ∃ marks, gcCollect H fuel roots s = some (gcCollectMarks H marks s) ∧
      ∀ i < H.poolBlockLen, atbGetKind s.mem i = .head →
        (marks i = true ↔ GcReachable H s.mem roots i) := by
  obtain ⟨st, st', hroots, hdeal, hmarked, hreach⟩ := gcMark_spec hgood.no_mark hend hfuel roots
  refine ⟨fun i => decide (atbGetKind st'.mem i = .mark), ?_, fun i hi hhead => ?_⟩
  · rw [gcCollect, hroots, Option.bind_some, hdeal, Option.map_some, gcCollectMarks,
      ← hmarked.eq_markHeads]
  · rw [decide_eq_true_eq]
    exact hreach i hi hhead

/-- A heap with four blocks -/
theorem gcCollect_eq_gcCollectMarks_four_blocks : ∃ marks,
    gcCollect gcHeapFourBlocks 6 [16] ⟨fourBlocksMemory, 0, 0, true, 0, 0⟩ =
      some (gcCollectMarks gcHeapFourBlocks marks ⟨fourBlocksMemory, 0, 0, true, 0, 0⟩) := by
  obtain ⟨marks, hret, -⟩ := gcCollect_eq_gcCollectMarks (H := gcHeapFourBlocks)
    (s := ⟨fourBlocksMemory, 0, 0, true, 0, 0⟩) ⟨by decide, by decide, by rintro ⟨⟩⟩ (by decide)
    (show _ < 6 by decide) [16]
  exact ⟨marks, hret⟩

/-! ### Allocation -/

/-- What an allocation does: the chains in `keep` stay, and the result is a new chain, outside of
which no byte behind the tables changes. -/
structure AllocEffect (H : GcHeap) (keep : ℕ → Prop) (m : Memory) (nBytes : ℕ) (r : Option ℕ)
    (m' : Memory) : Prop where
  good : TableGood H m'
  chains : ∀ h n, keep h → IsChain H.poolBlockLen (atbGetKind m) h n →
    IsChain H.poolBlockLen (atbGetKind m') h n
  failed : r = none → ∀ a, H.allocTableByteLen + H.finaliserTableByteLen ≤ a → m' a = m a
  placed : ∀ out, r = some out → ∃ n, IsChain H.poolBlockLen (atbGetKind m') out n ∧
    nBytes ≤ n * H.bytesPerBlock ∧
    (∀ h n', keep h → IsChain H.poolBlockLen (atbGetKind m) h n' → h ≠ out) ∧
    ∀ a, H.allocTableByteLen + H.finaliserTableByteLen ≤ a →
      ¬(H.blockAddr out ≤ a ∧ a < H.blockAddr out + n * H.bytesPerBlock) → m' a = m a

variable {nBytes : ℕ}

/-- A size that wraps around when it is rounded up gives 0 blocks. -/
theorem blocksFor_eq_zero (hn : nBytes < 2 ^ H.sizeBits)
    (hwrap : 2 ^ H.sizeBits ≤ nBytes + H.bytesPerBlock - 1) : blocksFor H nBytes = 0 := by
  have hpos := H.bytesPerBlock_pos
  have hmod := Nat.mod_le (nBytes + H.bytesPerBlock - 1 - 2 ^ H.sizeBits) (2 ^ H.sizeBits)
  rw [blocksFor, Nat.mod_eq_sub_mod hwrap]
  exact Nat.div_eq_of_lt (by omega)

theorem le_blocksFor (hn : nBytes < 2 ^ H.sizeBits) (h0 : blocksFor H nBytes ≠ 0) :
    nBytes ≤ blocksFor H nBytes * H.bytesPerBlock := by
  have hpos := H.bytesPerBlock_pos
  rcases Nat.lt_or_ge (nBytes + H.bytesPerBlock - 1) (2 ^ H.sizeBits) with hlt | hwrap
  · rw [blocksFor, Nat.mod_eq_of_lt hlt]
    have hdiv := Nat.div_add_mod (nBytes + H.bytesPerBlock - 1) H.bytesPerBlock
    have hmod := Nat.mod_lt (nBytes + H.bytesPerBlock - 1) hpos
    rw [Nat.mul_comm] at hdiv
    omega
  · exact absurd (blocksFor_eq_zero hn hwrap) h0

/-- The entries after the blocks of a run have been taken. -/
theorem takeRun_kind (hn : 0 < n)
    (hfree : ∀ i, b ≤ i → i < b + n → atbGetKind m i = .free) (i : ℕ) :
    atbGetKind (tailLoop (n - 1) (b + 1) (atbFreeToHead m b)) i =
      if i = b then .head else if b < i ∧ i < b + n then .tail else atbGetKind m i := by
  have hb := hfree b (Nat.le_refl b) (by omega)
  obtain ⟨hkind, -⟩ := @tailLoop_spec (atbFreeToHead m b) (b + 1) (n - 1) fun i hi hlt => by
    rw [atbGetKind_freeToHead hb, if_neg (by omega)]
    exact hfree i (by omega) (by omega)
  rw [hkind, atbGetKind_freeToHead hb]
  by_cases hib : i = b
  · rw [if_neg (by omega), if_pos hib, if_pos hib]
  · rw [if_neg hib, if_neg hib]
    by_cases hin : b < i ∧ i < b + n
    · rw [if_pos (by omega), if_pos hin]
    · rw [if_neg (by omega), if_neg hin]

theorem takeRun_bytes (hn : 0 < n)
    (hfree : ∀ i, b ≤ i → i < b + n → atbGetKind m i = .free) (ha : b + n ≤ 4 * a) :
    tailLoop (n - 1) (b + 1) (atbFreeToHead m b) a = m a := by
  have hb := hfree b (Nat.le_refl b) (by omega)
  obtain ⟨-, hbytes⟩ := @tailLoop_spec (atbFreeToHead m b) (b + 1) (n - 1) fun i hi hlt => by
    rw [atbGetKind_freeToHead hb, if_neg (by omega)]
    exact hfree i (by omega) (by omega)
  rw [hbytes a (by omega), atbFreeToHead, orByte_of_ne (by omega)]

/-- **Taking a run** of free blocks that is long enough. -/
theorem gcAllocFound_spec {s : GcState} (hgood : TableGood H s.mem) {n nBytes nBlocks : ℕ}
    (hasFinaliser : Bool) (hn : 0 < n) (hle : b + n ≤ H.poolBlockLen)
    (hbytes : nBytes ≤ n * H.bytesPerBlock)
    (hfree : ∀ i, b ≤ i → i < b + n → atbGetKind s.mem i = .free) :
    (gcAllocFound H s nBytes nBlocks hasFinaliser (b + n - 1) n).1 = b ∧
      AllocEffect H (fun _ => True) s.mem nBytes (some b)
        (gcAllocFound H s nBytes nBlocks hasFinaliser (b + n - 1) n).2.mem := by
  obtain ⟨haddr, -⟩ := GcHeap.blockAddr_le hle
  have htables := H.tables_le_poolStart
  have hptr : H.ptrBytes ≤ n * H.bytesPerBlock :=
    (Nat.le_of_dvd H.bytesPerBlock_pos H.ptrBytes_dvd).trans (Nat.le_mul_of_pos_left _ hn)
  have hA : H.poolBlockLen = 4 * H.allocTableByteLen := by rw [GcHeap.poolBlockLen, Nat.mul_comm]
  rw [gcAllocFound]
  dsimp only
  rw [show b + n - 1 + 1 - n = b by omega, show b + n - 1 - b = n - 1 by omega,
    show n - 1 + 1 = n by omega]
  refine ⟨rfl, ?_⟩
  -- the table with the new chain, the chain cleared, the flag set
  generalize hm₁ : tailLoop (n - 1) (b + 1) (atbFreeToHead s.mem b) = m₁
  have hkind₁ := takeRun_kind hn hfree
  have hbytes₁ : ∀ a, H.allocTableByteLen ≤ a → m₁ a = s.mem a := fun a ha => by
    rw [← hm₁]
    exact takeRun_bytes hn hfree (by omega)
  rw [hm₁] at hkind₁
  generalize hm₂ : (if H.conservativeClear = true then
      memset m₁ (H.blockAddr b) 0#8 (n * H.bytesPerBlock)
    else memset m₁ (H.blockAddr b + nBytes) 0#8 (n * H.bytesPerBlock - nBytes)) = m₂
  have hout₂ : ∀ a, ¬(H.blockAddr b ≤ a ∧ a < H.blockAddr b + n * H.bytesPerBlock) →
      m₂ a = m₁ a := by
    intro a ha
    rw [← hm₂]
    split
    · exact memset_of_not_mem ha
    · exact memset_of_not_mem (by omega)
  generalize hm₃ : (if (H.enableFinaliser && hasFinaliser) = true then
    ftbSet H (memset m₂ (H.blockAddr b) 0#8 H.ptrBytes) b else m₂) = m₃
  have hkind₃ : ∀ i < H.poolBlockLen, atbGetKind m₃ i =
      if i = b then .head else if b < i ∧ i < b + n then .tail else atbGetKind s.mem i := by
    intro i hi
    rw [← hkind₁ i, ← atbGetKind_congr (hout₂ (i / 4) (by omega)), ← hm₃]
    split
    · rw [atbGetKind_ftbSet hi]
      exact atbGetKind_congr (memset_of_not_mem (by omega))
    · rfl
  have hout₃ : ∀ a, H.allocTableByteLen + H.finaliserTableByteLen ≤ a →
      ¬(H.blockAddr b ≤ a ∧ a < H.blockAddr b + n * H.bytesPerBlock) → m₃ a = s.mem a := by
    intro a ha hna
    rw [← hbytes₁ a (by omega), ← hout₂ a hna, ← hm₃]
    split
    · rename_i hcond
      rw [Bool.and_eq_true] at hcond
      have := H.ftbByte_lt hcond.1 (show b < H.poolBlockLen by omega)
      rw [ftbSet, orByte_of_ne (by omega)]
      exact memset_of_not_mem (by omega)
    · rfl
  have hftb₃ : ∀ i < 8 * H.finaliserTableByteLen, ftbGet H m₃ i = true →
      ftbGet H s.mem i = true ∨ i = b := by
    intro i hi hset
    have hsame : ftbGet H m₂ i = ftbGet H s.mem i :=
      ftbGet_congr ((hout₂ _ (by omega)).trans (hbytes₁ _ (by omega)))
    rw [← hsame]
    rw [← hm₃] at hset
    split at hset
    · rw [ftbGet_ftbSet, Bool.or_eq_true, decide_eq_true_eq,
        ftbGet_congr (memset_of_not_mem (by omega))] at hset
      exact hset
    · exact .inl hset
  obtain ⟨hwf, hchain, hothers⟩ := place hgood.wellFormed hn hle hfree hkind₃
  refine ⟨⟨hwf, fun i hi => ?_, fun hfin i hi hset => ?_⟩, fun h n' _ hc => hothers h n' hc,
    fun h => absurd h (Option.some_ne_none b), ?_⟩
  · rw [hkind₃ i hi]
    split
    · decide
    · split
      · decide
      · exact hgood.no_mark i hi
  · rcases hftb₃ i hi hset with hset | rfl
    · obtain ⟨hlt, hhead⟩ := hgood.ftb_head hfin i hi hset
      refine ⟨hlt, ?_⟩
      have hnot : ¬(b ≤ i ∧ i < b + n) := fun hin => by
        rw [hfree i hin.1 hin.2] at hhead
        cases hhead
      rw [hkind₃ i hlt, if_neg (by omega), if_neg (by omega), hhead]
    · exact ⟨by omega, by rw [hkind₃ i (by omega), if_pos rfl]⟩
  · rintro out ⟨⟩
    refine ⟨n, hchain, hbytes, ?_, hout₃⟩
    rintro h n' - hc rfl
    exact hc.ne_free (Nat.le_refl _) (by have := hc.pos; omega)
      (hfree h (Nat.le_refl _) (by omega))

theorem gcAllocSearch_spec (hn : 0 < n) (h : gcAllocSearch H s n = some (e, f)) :
    f = n ∧ ∃ b, e = b + n - 1 ∧ b + n ≤ H.poolBlockLen ∧
      ∀ i, b ≤ i → i < b + n → atbGetKind s.mem i = .free := by
  rw [gcAllocSearch] at h
  have hle : s.lastFreeAtbIndex ≤ H.allocTableByteLen := by
    by_contra hcon
    rw [show 4 * (H.allocTableByteLen - s.lastFreeAtbIndex) = 0 by omega] at h
    cases h
  obtain ⟨rfl, hfe, he, hrun⟩ := findRun_spec hn (Nat.zero_le _) (fun i hi hlt => by omega) h
  refine ⟨rfl, e + 1 - f, by omega, ?_, fun i hi hlt => hrun i (by omega) (by omega)⟩
  rw [GcHeap.poolBlockLen]
  omega

variable {keep : ℕ → Prop}

theorem Kept.failed (h : Kept H keep m m') (nBytes : ℕ) : AllocEffect H keep m nBytes none m' :=
  ⟨h.good, h.chains, fun _ => h.bytes, fun _ hout => nomatch hout⟩

variable {m₁ : Memory} {r : Option ℕ}

theorem AllocEffect.after
    (h₁ : Kept H keep m m₁) (h : AllocEffect H (fun _ => True) m₁ nBytes r m') :
    AllocEffect H keep m nBytes r m' where
  good := h.good
  chains c n hk hc := h.chains c n trivial (h₁.chains c n hk hc)
  failed hr a ha := (h.failed hr a ha).trans (h₁.bytes a ha)
  placed out hout := by
    obtain ⟨n, hc, hn, hne, hb⟩ := h.placed out hout
    exact ⟨n, hc, hn, fun c n' hk hc' => hne c n' trivial (h₁.chains c n' hk hc'),
      fun a ha hna => (hb a ha hna).trans (h₁.bytes a ha)⟩

theorem gcAllocTry_spec {s' : GcState} (hgood : TableGood H s.mem)
    (hn : nBytes < 2 ^ H.sizeBits) (h0 : blocksFor H nBytes ≠ 0) {hasFinaliser : Bool}
    (h : gcAllocTry H s nBytes hasFinaliser = some (b, s')) :
    AllocEffect H (fun _ => True) s.mem nBytes (some b) s'.mem := by
  rw [gcAllocTry, Option.map_eq_some_iff] at h
  obtain ⟨⟨e, f⟩, hsearch, hfound⟩ := h
  have hpos : 0 < blocksFor H nBytes := Nat.pos_of_ne_zero h0
  obtain ⟨hf, c, he, hle, hfree⟩ := gcAllocSearch_spec hpos hsearch
  obtain ⟨hc, heff⟩ := @gcAllocFound_spec H c s hgood _ _ (blocksFor H nBytes) hasFinaliser hpos
    hle (le_blocksFor hn h0) hfree
  dsimp only at hfound
  rw [hf, he] at hfound
  rw [hfound] at hc heff
  dsimp only at hc heff
  rwa [← hc] at heff

/-- **`gc_alloc`** returns `NULL` or a new chain that is long enough. -/
theorem gcAlloc_spec (hgood : TableGood H s.mem) (marks : ℕ → Bool)
    (hn : nBytes < 2 ^ H.sizeBits) (hasFinaliser : Bool) :
    AllocEffect H (marks · = true) s.mem nBytes (gcAlloc H marks s nBytes hasFinaliser).1
      (gcAlloc H marks s nBytes hasFinaliser).2.mem := by
  rw [gcAlloc]
  split
  · exact (Kept.refl hgood _).failed _
  rename_i h0
  split
  · exact (Kept.refl hgood _).failed _
  dsimp only
  -- the collection at the threshold, if there is one
  generalize (H.allocThreshold && s.autoCollectEnabled &&
    decide (s.allocAmount ≥ s.allocThreshold)) = reached
  have hkept₁ : Kept H (marks · = true) s.mem
      (if reached = true then gcCollectMarks H marks s else s).mem := by
    split
    · exact gcCollectMarks_spec hgood marks
    · exact .refl hgood _
  generalize (if reached = true then gcCollectMarks H marks s else s) = s₁ at hkept₁
  split
  · rename_i block s₂ htry
    exact .after hkept₁ (gcAllocTry_spec hkept₁.good hn h0 htry)
  · split
    · exact hkept₁.failed _
    · have hkept₂ := hkept₁.trans (gcCollectMarks_spec hkept₁.good marks)
      split
      · rename_i block s₂ htry
        exact .after hkept₂ (gcAllocTry_spec hkept₂.good hn h0 htry)
      · exact hkept₂.failed _

/-! ### Freeing -/

/-- The tables stay good, and the chains in `keep` stay with their contents. -/
structure Preserves (H : GcHeap) (keep : ℕ → Prop) (m m' : Memory) : Prop where
  good : TableGood H m'
  chains : ∀ h n, keep h → IsChain H.poolBlockLen (atbGetKind m) h n →
    IsChain H.poolBlockLen (atbGetKind m') h n ∧
      ∀ i < n * H.bytesPerBlock, m' (H.blockAddr h + i) = m (H.blockAddr h + i)

theorem Preserves.refl (hgood : TableGood H m) (keep : ℕ → Prop) : Preserves H keep m m :=
  ⟨hgood, fun _ _ _ hc => ⟨hc, fun _ _ => rfl⟩⟩

theorem Preserves.mono {keep' : ℕ → Prop} (h : Preserves H keep m m')
    (himp : ∀ b, keep' b → keep b) : Preserves H keep' m m' :=
  ⟨h.good, fun c n hk hc => h.chains c n (himp c hk) hc⟩

/-- A table and a memory that only changed outside of the chains that are kept. -/
theorem Preserves.of_bytes (hgood : TableGood H m')
    (hchains : ∀ h n, keep h → IsChain H.poolBlockLen (atbGetKind m) h n →
      IsChain H.poolBlockLen (atbGetKind m') h n)
    (hbytes : ∀ a, H.poolStart ≤ a → m' a = m a) : Preserves H keep m m' :=
  ⟨hgood, fun h n hk hc => ⟨hchains h n hk hc,
    fun i _ => hbytes _ (by rw [GcHeap.blockAddr]; omega)⟩⟩

theorem Kept.preserves (h : Kept H keep m m') : Preserves H keep m m' :=
  .of_bytes h.good h.chains fun a ha => h.bytes a (H.tables_le_poolStart.trans ha)

theorem AllocEffect.preserves (h : AllocEffect H keep m nBytes r m') : Preserves H keep m m' := by
  cases r with
  | none => exact Kept.preserves ⟨h.good, h.chains, h.failed rfl⟩
  | some out =>
    obtain ⟨n, hc, -, hne, hbytes⟩ := h.placed out rfl
    refine ⟨h.good, fun c n' hk hc' => ⟨h.chains c n' hk hc', fun i hi => ?_⟩⟩
    have htables := H.tables_le_poolStart
    have haddr := (GcHeap.blockAddr_le hc'.le).1
    refine hbytes _ (by omega) ?_
    rcases (h.chains c n' hk hc').disjoint hc (hne c n' hk hc') with hlt | hlt
    · have := @GcHeap.blockAddr_add_le H _ _ _ hlt
      omega
    · have := @GcHeap.blockAddr_add_le H _ _ _ hlt
      omega

/-- The walk along the chain at `block` stops before it gets into the pool: there is a finaliser
table, or the chain does not reach the last block, or an entry between the tables and the pool is
not a tail, or else the first byte of the pool is not a tail, whichever of `firsts` is there. -/
def WalkSafe (H : GcHeap) (m : Memory) (block : ℕ) (firsts : List ℕ) : Prop :=
  H.enableFinaliser = true ∨ (∃ i < H.poolBlockLen, block < i ∧ atbGetKind m i ≠ .tail) ∨
    (∃ i < 4 * H.poolStart, H.poolBlockLen ≤ i ∧ atbGetKind m i ≠ .tail) ∨
    ∀ a ∈ firsts, atbGetKind m (4 * a) ≠ .tail

instance (H : GcHeap) (m : Memory) (block : ℕ) (firsts : List ℕ) :
    Decidable (WalkSafe H m block firsts) :=
  inferInstanceAs (Decidable (_ ∨ _ ∨ _ ∨ _))

theorem WalkSafe.first {c : ℕ} (h : WalkSafe H m b [H.poolStart, c]) :
    WalkSafe H m b [H.poolStart] :=
  h.imp_right (Or.imp_right (Or.imp_right fun hfirsts a ha =>
    hfirsts a (List.mem_cons.mpr (.inl (List.mem_singleton.mp ha)))))

/-- The entry at which the walk of `gc_free` stops at the latest. -/
theorem exists_walk_stop (hgood : TableGood H m)
    (hc : IsChain H.poolBlockLen (atbGetKind m) b n) (hsafe : WalkSafe H m b [H.poolStart])
    (hm' : m' = if H.enableFinaliser then ftbClear H m b else m) :
    ∃ i, b < i ∧ i ≤ 4 * H.poolStart ∧ atbGetKind m' i ≠ .tail ∧
      (b + n < H.poolBlockLen → i = b + n) := by
  have hpos := hc.pos
  have hle := hc.le
  have htables := H.tables_le_poolStart
  have hN := H.poolBlockLen_eq
  by_cases hend : b + n < H.poolBlockLen
  · refine ⟨b + n, by omega, by omega, ?_, fun _ => rfl⟩
    rw [hm']
    split
    · rw [atbGetKind_ftbClear hend]
      exact hc.ends hend
    · exact hc.ends hend
  have hlast : b + n = H.poolBlockLen := by omega
  by_cases hfin : H.enableFinaliser = true
  -- the flag of the last block is not set: the block is a tail, or the head that is freed
  · have hF : H.finaliserTableByteLen = (H.allocTableByteLen * 4 + 8 - 1) / 8 := by
      rw [GcHeap.finaliserTableByteLen, if_pos hfin]
    have hflag : ftbGet H m' (4 * H.allocTableByteLen - 1) = false := by
      rw [hm', if_pos hfin, ftbGet_ftbClear]
      by_contra hset
      rw [Bool.not_eq_false, Bool.and_eq_true, Bool.not_eq_true', decide_eq_false_iff_not] at hset
      obtain ⟨-, hhead⟩ := hgood.ftb_head hfin _ (by omega) hset.1
      rw [hc.tails _ (by omega) (by omega)] at hhead
      cases hhead
    refine ⟨H.poolBlockLen + (2 * H.allocTableByteLen - 1), by omega, by omega, ?_,
      fun h => absurd h hend⟩
    rw [atbGetKind_past_end, show 2 * (2 * H.allocTableByteLen - 1) + 1 =
      4 * H.allocTableByteLen - 1 by omega, hflag]
    cases ftbGet H m' (2 * (2 * H.allocTableByteLen - 1)) <;> rintro ⟨⟩
  · rw [if_neg hfin] at hm'
    subst hm'
    rcases hsafe.resolve_left hfin with ⟨i, hi, hbi, hk⟩ | ⟨i, hi, hNi, hk⟩ | hfirst
    · have := hc.le_of_lt hk hbi
      omega
    · exact ⟨i, by omega, by omega, hk, fun h => absurd h hend⟩
    · exact ⟨4 * H.poolStart, by omega, Nat.le_refl _, hfirst _ List.mem_cons_self,
        fun h => absurd h hend⟩

/-- **`gc_free`** of a chain returns and keeps the other chains. -/
theorem gcFree_spec {s : GcState} {n : ℕ} (hgood : TableGood H s.mem)
    (hc : IsChain H.poolBlockLen (atbGetKind s.mem) b n)
    (hsafe : WalkSafe H s.mem b [H.poolStart]) :
    ∃ s', gcFree H s b = some s' ∧ Preserves H (· ≠ b) s.mem s'.mem := by
  rw [gcFree]
  split
  · exact ⟨s, rfl, .refl hgood _⟩
  have hpos := hc.pos
  have hle := hc.le
  have htables := H.tables_le_poolStart
  have htotal := H.poolStart_add
  have hN := H.poolBlockLen_eq
  generalize hm₁ : (if H.enableFinaliser = true then ftbClear H s.mem b else s.mem) = m₁
  obtain ⟨i, hbi, hipool, hi, hiend⟩ := exists_walk_stop hgood hc hsafe hm₁.symm
  have hkind₁ : ∀ j < H.poolBlockLen, atbGetKind m₁ j = atbGetKind s.mem j := by
    intro j hj
    rw [← hm₁]
    split
    · exact atbGetKind_ftbClear hj
    · rfl
  -- the walk stops at the first entry that is no tail
  obtain ⟨k, hwalk⟩ := exists_isChain hbi (t := atbGetKind m₁)
    (by rw [hkind₁ b (by omega)]; exact hc.starts)
  have hend : atbGetKind m₁ (b + k) ≠ .tail := by
    rcases Nat.lt_or_eq_of_le hwalk.le with hlt | heq
    · exact hwalk.ends hlt
    · rwa [heq]
  have hkpos := hwalk.pos
  have hkle := hwalk.le
  have hnk : n ≤ k := by
    by_contra hlt
    exact hend ((hkind₁ _ (by omega)).trans (hc.tails _ (by omega) (by omega)))
  refine ⟨_, congrArg _ (freeLoop_spec (by omega) hwalk.tails hend (by omega)), ?_⟩
  dsimp only
  rw [show b + k - b = k by omega]
  have hkind : ∀ j < H.poolBlockLen, atbGetKind (clearLoop k b m₁) j =
      if b + 0 ≤ j ∧ j < b + n then .free else atbGetKind s.mem j := by
    intro j hj
    rw [clearLoop_kind, hkind₁ j hj]
    exact if_congr (by omega) rfl rfl
  obtain ⟨hwf, -, hothers⟩ := hc.trim hgood.wellFormed (Nat.zero_le n) hkind
  refine .of_bytes ⟨hwf, fun j hj hmark => ?_, fun hfin j hj hset => ?_⟩
    (fun h n' hne hc' => hothers h n' hne hc') fun a ha => ?_
  · rw [hkind j hj] at hmark
    split at hmark
    · cases hmark
    · exact hgood.no_mark j hj hmark
  · rw [ftbGet_eq_bit] at hset
    have hset₁ := bit_of_bit_clearLoop hset
    rw [← hm₁, if_pos hfin, ← ftbGet_eq_bit, ftbGet_ftbClear, Bool.and_eq_true,
      Bool.not_eq_true', decide_eq_false_iff_not] at hset₁
    obtain ⟨hlt, hhead⟩ := hgood.ftb_head hfin j hj hset₁.1
    refine ⟨hlt, (hkind j hlt).trans ?_⟩
    rw [if_neg, hhead]
    intro hin
    rw [hc.tails j (by omega) (by omega)] at hhead
    cases hhead
  · rw [clearLoop_bytes (by omega), ← hm₁]
    split
    · rename_i hfin
      have := H.ftbByte_lt hfin (show b < H.poolBlockLen by omega)
      rw [ftbClear, clearByte_of_ne (by omega)]
    · rfl

/-! ### Reallocation -/

/-- The scan of `gc_realloc` over tails. -/
theorem reallocScan_tails {new j c : ℕ} (hj : ∀ i, b ≤ i → i < b + j → atbGetKind m i = .tail) :
    reallocScan m new (j + k) b c f = reallocScan m new k (b + j) (c + j) f := by
  induction j generalizing b c with
  | zero => rw [Nat.zero_add, Nat.add_zero, Nat.add_zero]
  | succ j ih =>
    rw [show j + 1 + k = j + k + 1 by omega, reallocScan, hj b (Nat.le_refl b) (by omega)]
    dsimp only
    rw [ih fun i hi hlt => hj i (by omega) (by omega)]
    congr 1 <;> omega

/-- The scan of `gc_realloc` over the free blocks after a chain. -/
theorem reallocScan_free {N new k c f : ℕ} (hwf : WellFormed N (atbGetKind m)) (hN : b + k = N)
    (hb : b < N → atbGetKind m b ≠ .tail) :
    ∃ g, g ≤ k ∧ reallocScan m new k b c f = (c, f + g) ∧
      ∀ i, b ≤ i → i < b + g → atbGetKind m i = .free := by
  induction k generalizing b f with
  | zero => exact ⟨0, Nat.le_refl 0, rfl, fun i hi hlt => by omega⟩
  | succ k ih =>
    rw [reallocScan]
    cases hk : atbGetKind m b with
    | tail => exact absurd hk (hb (by omega))
    | free =>
      have hone : ∀ g, (∀ i, b + 1 ≤ i → i < b + 1 + g → atbGetKind m i = .free) →
          ∀ i, b ≤ i → i < b + (g + 1) → atbGetKind m i = .free := by
        intro g hg i hi hlt
        rcases Nat.lt_or_eq_of_le hi with hi | rfl
        · exact hg i hi (by omega)
        · exact hk
      dsimp only
      split
      · exact ⟨1, by omega, rfl, hone 0 fun i hi hlt => by omega⟩
      · obtain ⟨g, hg, hscan, hfree⟩ := @ih (b + 1) (f + 1) (by omega)
          fun hlt htail => hwf.follows b hlt htail hk
        exact ⟨g + 1, by omega, hscan.trans (by rw [Nat.add_assoc, Nat.add_comm 1 g]),
          hone g hfree⟩
    | head => exact ⟨0, Nat.zero_le _, rfl, fun i hi hlt => by omega⟩
    | mark => exact ⟨0, Nat.zero_le _, rfl, fun i hi hlt => by omega⟩

/-- The scan counts the blocks of the chain and free blocks after it. -/
theorem reallocScan_spec {N n new : ℕ} (hwf : WellFormed N (atbGetKind m))
    (hc : IsChain N (atbGetKind m) b n) :
    ∃ f, reallocScan m new (N - (b + 1)) (b + 1) 1 0 = (n, f) ∧ b + n + f ≤ N ∧
      ∀ i, b + n ≤ i → i < b + n + f → atbGetKind m i = .free := by
  have hpos := hc.pos
  have hle := hc.le
  obtain ⟨f, hf, hscan, hfree⟩ := @reallocScan_free m (b + n) N new (N - (b + n)) n 0 hwf
    (by omega) hc.ends
  refine ⟨f, ?_, by omega, hfree⟩
  rw [show N - (b + 1) = n - 1 + (N - (b + n)) by omega,
    reallocScan_tails fun i hi hlt => hc.tails i (by omega) (by omega),
    show b + 1 + (n - 1) = b + n by omega, show 1 + (n - 1) = n by omega, hscan, Nat.zero_add]

/-- What a reallocation does to the chain at `block`: it is unchanged when the result is `NULL`,
and otherwise the result is a chain that is long enough and starts with the same bytes. -/
structure ReallocEffect (H : GcHeap) (keep : ℕ → Prop) (m : Memory) (block n nBytes : ℕ)
    (r : Option ℕ) (m' : Memory) : Prop where
  others : Preserves H (fun h => keep h ∧ h ≠ block) m m'
  failed : r = none → nBytes ≠ 0 → Preserves H (· = block) m m'
  resized : ∀ out, r = some out → ∃ n', IsChain H.poolBlockLen (atbGetKind m') out n' ∧
    nBytes ≤ n' * H.bytesPerBlock ∧
    (∀ h k, keep h ∧ h ≠ block → IsChain H.poolBlockLen (atbGetKind m) h k → h ≠ out) ∧
    ∀ i < min (n * H.bytesPerBlock) nBytes, m' (H.blockAddr out + i) = m (H.blockAddr block + i)

/-- Tables that differ only in entries that are free blocks or tails. -/
theorem TableGood.of_kind (hgood : TableGood H m) (hwf : WellFormed H.poolBlockLen (atbGetKind m'))
    (hkind : ∀ i < H.poolBlockLen, (atbGetKind m i ≠ .head ∧ atbGetKind m' i ≠ .mark) ∨
      atbGetKind m' i = atbGetKind m i)
    (hftb : ∀ a, H.allocTableByteLen ≤ a → m' a = m a ∨ H.poolStart ≤ a) : TableGood H m' := by
  refine ⟨hwf, fun i hi hmark => ?_, fun hfin i hi hset => ?_⟩
  · rcases hkind i hi with h | h
    · exact h.2 hmark
    · exact hgood.no_mark i hi (h.symm.trans hmark)
  · have htables := H.tables_le_poolStart
    rw [ftbGet_congr ((hftb _ (by omega)).resolve_right (by omega))] at hset
    obtain ⟨hlt, hhead⟩ := hgood.ftb_head hfin i hi hset
    exact ⟨hlt, ((hkind i hlt).resolve_left fun h => h.1 hhead).trans hhead⟩

theorem blocksFor_eq (hn : nBytes + H.bytesPerBlock - 1 < 2 ^ H.sizeBits) :
    blocksFor H nBytes = (nBytes + H.bytesPerBlock - 1) / H.bytesPerBlock := by
  rw [blocksFor, Nat.mod_eq_of_lt hn]

theorem blocksFor_ne_zero (hn : nBytes + H.bytesPerBlock - 1 < 2 ^ H.sizeBits)
    (h0 : nBytes ≠ 0) : blocksFor H nBytes ≠ 0 := by
  rw [blocksFor_eq hn]
  exact Nat.ne_of_gt (Nat.div_pos (by omega) H.bytesPerBlock_pos)

/-- A chain that has too few blocks has too few bytes. -/
theorem mul_lt_of_lt_blocksFor
    (hn : nBytes + H.bytesPerBlock - 1 < 2 ^ H.sizeBits) (h : n < blocksFor H nBytes) :
    n * H.bytesPerBlock < nBytes := by
  have hpos := H.bytesPerBlock_pos
  rw [blocksFor_eq hn] at h
  have hmul := (Nat.le_div_iff_mul_le hpos).mp (Nat.succ_le_of_lt h)
  rw [Nat.succ_mul] at hmul
  omega

/-- **Shrinking** a chain in place. -/
theorem reallocShrink_spec (keep : ℕ → Prop) (hgood : TableGood H m)
    (hc : IsChain H.poolBlockLen (atbGetKind m) b n) (hk : 0 < k) (hkn : k ≤ n)
    (hbytes : nBytes ≤ k * H.bytesPerBlock) :
    ReallocEffect H keep m b n nBytes (some b) (clearLoop (n - k) (b + k) m) := by
  have hle := hc.le
  have hpool := H.allocTableByteLen_le
  have hN := H.poolBlockLen_eq
  have hsame : ∀ a, H.allocTableByteLen ≤ a → clearLoop (n - k) (b + k) m a = m a :=
    fun a ha => clearLoop_bytes (by omega)
  have hkind : ∀ j < H.poolBlockLen, atbGetKind (clearLoop (n - k) (b + k) m) j =
      if b + k ≤ j ∧ j < b + n then .free else atbGetKind m j := by
    intro j hj
    rw [clearLoop_kind]
    exact if_congr (by omega) rfl rfl
  obtain ⟨hwf, hchain, hothers⟩ := hc.trim hgood.wellFormed hkn hkind
  have hgood' : TableGood H (clearLoop (n - k) (b + k) m) := by
    refine hgood.of_kind hwf (fun j hj => ?_) fun a ha => .inl (hsame a ha)
    rw [hkind j hj]
    split
    · rw [hc.tails j (by omega) (by omega)]
      exact .inl (by decide)
    · exact .inr rfl
  refine ⟨.of_bytes hgood' (fun h n' hkeep hc' => hothers h n' hkeep.2 hc') fun a ha =>
    hsame a (by omega), fun h => absurd h (Option.some_ne_none b), ?_⟩
  rintro out ⟨⟩
  exact ⟨k, hchain hk, hbytes, fun h _ hkeep _ => hkeep.2, fun i _ =>
    hsame _ (by have := (GcHeap.blockAddr_le hle).1; omega)⟩

/-- **Lengthening** a chain in place, when what is cleared lies in the new blocks. -/
theorem reallocGrow_spec (keep : ℕ → Prop) (hgood : TableGood H m)
    (hc : IsChain H.poolBlockLen (atbGetKind m) b n) (hnk : n < k) (hle : b + k ≤ H.poolBlockLen)
    (hfree : ∀ i, b + n ≤ i → i < b + k → atbGetKind m i = .free)
    (hbytes : nBytes ≤ k * H.bytesPerBlock)
    (hm' : ∀ a, ¬(H.blockAddr b + n * H.bytesPerBlock ≤ a ∧
      a < H.blockAddr b + k * H.bytesPerBlock) → m' a = tailLoop (k - n) (b + n) m a) :
    ReallocEffect H keep m b n nBytes (some b) m' := by
  have hpool := H.allocTableByteLen_le
  have haddr := (GcHeap.blockAddr_le hle).1
  have hN := H.poolBlockLen_eq
  obtain ⟨hkindT, hbytesT⟩ := @tailLoop_spec m (b + n) (k - n) fun i hi hlt =>
    hfree i hi (by omega)
  have hsame : ∀ a, H.allocTableByteLen ≤ a → ¬(H.blockAddr b + n * H.bytesPerBlock ≤ a ∧
      a < H.blockAddr b + k * H.bytesPerBlock) → m' a = m a := fun a ha hna =>
    (hm' a hna).trans (hbytesT a (by omega))
  have hkind : ∀ j < H.poolBlockLen, atbGetKind m' j =
      if b + n ≤ j ∧ j < b + k then .tail else atbGetKind m j := by
    intro j hj
    rw [atbGetKind_congr (hm' (j / 4) (by omega)), hkindT]
    exact if_congr (by omega) rfl rfl
  obtain ⟨hwf, hchain, hothers⟩ := hc.grow hgood.wellFormed hnk hle hfree hkind
  have hgood' : TableGood H m' := by
    refine hgood.of_kind hwf (fun j hj => ?_) fun a ha => ?_
    · rw [hkind j hj]
      split
      · rw [hfree j (by omega) (by omega)]
        exact .inl (by decide)
      · exact .inr rfl
    · by_cases hin : H.poolStart ≤ a
      · exact .inr hin
      · exact .inl (hsame a ha (by omega))
  refine ⟨⟨hgood', fun h n' hkeep hc' => ?_⟩, fun h => absurd h (Option.some_ne_none b), ?_⟩
  · have hc'' := hothers h n' hkeep.2 hc'
    have haddr' := (GcHeap.blockAddr_le hc'.le).1
    refine ⟨hc'', fun i hi => hsame _ (by omega) ?_⟩
    rcases hc''.disjoint hchain hkeep.2 with hlt | hlt
    · have := @GcHeap.blockAddr_add_le H _ _ _ hlt
      omega
    · have := @GcHeap.blockAddr_add_le H _ _ _ hlt
      omega
  · rintro out ⟨⟩
    exact ⟨k, hchain, hbytes, fun h _ hkeep _ => hkeep.2, fun i hi =>
      hsame _ (by omega) (by omega)⟩

theorem memcpy_preserves {out : ℕ} (hgood : TableGood H m)
    (hout : IsChain H.poolBlockLen (atbGetKind m) out k) (src : ℕ)
    (hle : n ≤ k * H.bytesPerBlock) :
    Preserves H (· ≠ out) m (memcpy m (H.blockAddr out) src n) ∧
      IsChain H.poolBlockLen (atbGetKind (memcpy m (H.blockAddr out) src n)) out k := by
  have htables := H.tables_le_poolStart
  have haddr := (GcHeap.blockAddr_le hout.le).1
  have hkind := @atbGetKind_agree H m (memcpy m (H.blockAddr out) src n) fun a ha =>
    memcpy_of_not_mem (by omega)
  refine ⟨⟨hgood.congr fun a ha => memcpy_of_not_mem (by omega), fun h n' hne hc =>
    ⟨isChain_congr hc hkind, fun i hi => memcpy_of_not_mem ?_⟩⟩, isChain_congr hout hkind⟩
  rcases hc.disjoint hout hne with hlt | hlt
  · have := @GcHeap.blockAddr_add_le H _ _ _ hlt
    omega
  · have := @GcHeap.blockAddr_add_le H _ _ _ hlt
    omega

/-- The walk of `gc_free` after a chain has been copied to a new place. -/
theorem WalkSafe.moved {out : ℕ} (hsafe : WalkSafe H m b [H.poolStart, H.blockAddr b])
    (heff : AllocEffect H keep m nBytes (some out) m₁) (hkeep : keep b)
    (hc : IsChain H.poolBlockLen (atbGetKind m) b n)
    (hc' : IsChain H.poolBlockLen (atbGetKind m') b n)
    (hm' : m' = memcpy m₁ (H.blockAddr out) (H.blockAddr b) (n * H.bytesPerBlock)) :
    WalkSafe H m' b [H.poolStart] := by
  have hpos := Nat.mul_pos hc.pos H.bytesPerBlock_pos
  by_cases hfin : H.enableFinaliser = true
  · exact .inl hfin
  obtain ⟨k, hout, -, -, hbytes⟩ := heff.placed out rfl
  have haddr := (GcHeap.blockAddr_le hout.le).1
  have hF : H.finaliserTableByteLen = 0 := by rw [GcHeap.finaliserTableByteLen, if_neg hfin]
  have hN := H.poolBlockLen_eq
  have hpool := H.allocTableByteLen_le
  rcases hsafe.resolve_left hfin with ⟨i, hi, hbi, hk⟩ | ⟨i, hi, hNi, hk⟩ | hfirsts
  · have hend : b + n < H.poolBlockLen := by
      have := hc.le_of_lt hk hbi
      omega
    exact .inr (.inl ⟨b + n, hend, by have := hc.pos; omega, hc'.ends hend⟩)
  · refine .inr (.inr (.inl ⟨i, hi, hNi, ?_⟩))
    rwa [hm', atbGetKind_congr (memcpy_of_not_mem (by omega)),
      atbGetKind_congr (hbytes (i / 4) (by omega) (by omega))]
  · refine .inr (.inr (.inr fun a ha => ?_))
    rw [List.mem_singleton] at ha
    subst ha
    have hfour : ∀ a, 4 * a / 4 = a := fun a => by omega
    -- the first byte of the pool is the first byte of the chain, or has stayed
    by_cases hzero : H.blockAddr out = H.poolStart
    · have hbyte : m' (4 * H.poolStart / 4) = m (4 * H.blockAddr b / 4) := by
        have := (heff.preserves.chains b n hkeep hc).2 0 hpos
        rw [hfour, hfour, hm', ← hzero, memcpy_of_mem (Nat.le_refl _) (by omega), Nat.sub_self]
        exact this
      have hfirst := hfirsts (H.blockAddr b) (by simp)
      rw [atbGetKind, blockShift, Nat.mul_mod_right] at hfirst ⊢
      rwa [hbyte]
    · have hbyte : m' (4 * H.poolStart / 4) = m (4 * H.poolStart / 4) := by
        rw [hfour, hm', memcpy_of_not_mem (by omega), hbytes _ (by omega) (by omega)]
      rw [atbGetKind_congr hbyte]
      exact hfirsts H.poolStart (by simp)

variable {marks : ℕ → Bool}

/-- **Moving** a chain: allocate, copy, free. -/
theorem gcReallocMove_spec
    (hgood : TableGood H s.mem) (hc : IsChain H.poolBlockLen (atbGetKind s.mem) b n)
    (hmark : marks b = true) (hbytes : nBytes < 2 ^ H.sizeBits)
    (hlong : n * H.bytesPerBlock < nBytes)
    (hsafe : WalkSafe H s.mem b [H.poolStart, H.blockAddr b]) :
    ∃ r s', gcReallocMove H marks s b n nBytes = some (r, s') ∧
      ReallocEffect H (marks · = true) s.mem b n nBytes r s'.mem := by
  rw [gcReallocMove]
  have heff := gcAlloc_spec hgood marks hbytes (H.enableFinaliser && ftbGet H s.mem b)
  generalize gcAlloc H marks s nBytes (H.enableFinaliser && ftbGet H s.mem b) = res at heff
  obtain ⟨r, s₁⟩ := res
  dsimp only at heff
  cases r with
  | none =>
    refine ⟨none, s₁, rfl, heff.preserves.mono fun h hk => hk.1, fun _ _ =>
      heff.preserves.mono fun h hk => ?_, fun out hout => nomatch hout⟩
    rwa [hk]
  | some out =>
    dsimp only
    obtain ⟨k, hout, hk, hne, -⟩ := heff.placed out rfl
    obtain ⟨hc₁, hbytes₁⟩ := heff.preserves.chains b n hmark hc
    have hbo : b ≠ out := hne b n hmark hc
    generalize hm₂ : memcpy s₁.mem (H.blockAddr out) (H.blockAddr b) (n * H.bytesPerBlock) = m₂
    obtain ⟨hpres₂, hout₂⟩ := memcpy_preserves heff.good hout (H.blockAddr b)
      (show n * H.bytesPerBlock ≤ k * H.bytesPerBlock by omega)
    rw [hm₂] at hpres₂ hout₂
    obtain ⟨hc₂, -⟩ := hpres₂.chains b n hbo hc₁
    obtain ⟨s₃, hfree, hpres₃⟩ := @gcFree_spec H b { s₁ with mem := m₂ } n hpres₂.good hc₂
      (hsafe.moved heff hmark hc hc₂ hm₂.symm)
    refine ⟨some out, s₃, by rw [hfree]; rfl, ⟨hpres₃.good, fun h n' hkeep hc' => ?_⟩,
      fun h => absurd h (Option.some_ne_none out), ?_⟩
    · obtain ⟨hch₁, hbh₁⟩ := heff.preserves.chains h n' hkeep.1 hc'
      obtain ⟨hch₂, hbh₂⟩ := hpres₂.chains h n' (hne h n' hkeep.1 hc') hch₁
      obtain ⟨hch₃, hbh₃⟩ := hpres₃.chains h n' hkeep.2 hch₂
      exact ⟨hch₃, fun i hi => (hbh₃ i hi).trans ((hbh₂ i hi).trans (hbh₁ i hi))⟩
    · rintro out' ⟨⟩
      obtain ⟨hout₃, hbytes₃⟩ := hpres₃.chains out k (Ne.symm hbo) hout₂
      refine ⟨k, hout₃, hk, fun h k' hkeep hc' => hne h k' hkeep.1 hc', fun i hi => ?_⟩
      have hcopy : m₂ (H.blockAddr out + i) = s₁.mem (H.blockAddr b + i) := by
        rw [← hm₂, memcpy_of_mem (by omega) (by omega), Nat.add_sub_cancel_left]
      exact (hbytes₃ i (by omega)).trans (hcopy.trans (hbytes₁ i (by omega)))

/-- The memory after a chain of `n` blocks at `block` has been lengthened to `k` blocks. -/
def reallocGrown (H : GcHeap) (m : Memory) (block n k nBytes : ℕ) : Memory :=
  if H.conservativeClear then
    memset (tailLoop (k - n) (block + n) m) (H.blockAddr block + n * H.bytesPerBlock) 0#8
      ((k - n) * H.bytesPerBlock)
  else
    memset (tailLoop (k - n) (block + n) m) (H.blockAddr block + nBytes) 0#8
      (k * H.bytesPerBlock - nBytes)

/-- **The branches of `gc_realloc`** for a chain of `n` blocks, when the collector is unlocked. -/
theorem gcRealloc_cases (marks : ℕ → Bool) (allowMove : Bool)
    (hwf : WellFormed H.poolBlockLen (atbGetKind s.mem))
    (hc : IsChain H.poolBlockLen (atbGetKind s.mem) b n) (h0 : nBytes ≠ 0)
    (hlock : ¬s.lockDepth > 0) :
    (blocksFor H nBytes = n ∧ gcRealloc H marks s b nBytes allowMove = some (some b, s)) ∨
    (blocksFor H nBytes < n ∧
      ∃ s', gcRealloc H marks s b nBytes allowMove = some (some b, s') ∧
        s'.mem = clearLoop (n - blocksFor H nBytes) (b + blocksFor H nBytes) s.mem) ∨
    (n < blocksFor H nBytes ∧ b + blocksFor H nBytes ≤ H.poolBlockLen ∧
      (∀ i, b + n ≤ i → i < b + blocksFor H nBytes → atbGetKind s.mem i = .free) ∧
      ∃ s', gcRealloc H marks s b nBytes allowMove = some (some b, s') ∧
        s'.mem = reallocGrown H s.mem b n (blocksFor H nBytes) nBytes) ∨
    (n < blocksFor H nBytes ∧ allowMove = true ∧
      gcRealloc H marks s b nBytes allowMove = gcReallocMove H marks s b n nBytes) ∨
    (n < blocksFor H nBytes ∧ gcRealloc H marks s b nBytes allowMove = some (none, s)) := by
  obtain ⟨f, hscan, hf, hfree⟩ := @reallocScan_spec s.mem b _ n (blocksFor H nBytes) hwf hc
  rw [gcRealloc, if_neg h0, if_neg hlock]
  dsimp only
  rw [hscan]
  dsimp only
  by_cases heq : blocksFor H nBytes = n
  · exact .inl ⟨heq, if_pos heq⟩
  rw [if_neg heq]
  by_cases hshrink : blocksFor H nBytes < n
  · exact .inr (.inl ⟨hshrink, _, if_pos hshrink, rfl⟩)
  rw [if_neg hshrink]
  have hlt : n < blocksFor H nBytes := by omega
  by_cases hgrow : blocksFor H nBytes ≤ n + f
  · exact .inr (.inr (.inl ⟨hlt, by omega, fun i hi hlt => hfree i hi (by omega), _,
      if_pos hgrow, rfl⟩))
  rw [if_neg hgrow]
  by_cases hmove : allowMove = true
  · exact .inr (.inr (.inr (.inl ⟨hlt, hmove, if_pos hmove⟩)))
  · exact .inr (.inr (.inr (.inr ⟨hlt, if_neg hmove⟩)))

/-- What is cleared when a chain is lengthened lies in its new blocks. -/
theorem reallocGrown_of_not_mem
    (hn : n * H.bytesPerBlock < nBytes) (hk : nBytes ≤ k * H.bytesPerBlock)
    (ha : ¬(H.blockAddr b + n * H.bytesPerBlock ≤ a ∧ a < H.blockAddr b + k * H.bytesPerBlock)) :
    reallocGrown H m b n k nBytes a = tailLoop (k - n) (b + n) m a := by
  rw [reallocGrown]
  split
  · refine memset_of_not_mem ?_
    rw [Nat.sub_mul]
    omega
  · exact memset_of_not_mem (by omega)

/-- **`gc_realloc`** returns, and keeps or moves the chain with its contents. -/
theorem gcRealloc_spec (allowMove : Bool)
    (hgood : TableGood H s.mem) (hc : IsChain H.poolBlockLen (atbGetKind s.mem) b n)
    (hmark : marks b = true) (hbytes : nBytes + H.bytesPerBlock - 1 < 2 ^ H.sizeBits)
    (hsafe : nBytes = 0 ∨ allowMove = true → WalkSafe H s.mem b [H.poolStart, H.blockAddr b]) :
    ∃ r s', gcRealloc H marks s b nBytes allowMove = some (r, s') ∧
      (nBytes = 0 → r = none) ∧ ReallocEffect H (marks · = true) s.mem b n nBytes r s'.mem := by
  have hpos := H.bytesPerBlock_pos
  have hsize : nBytes < 2 ^ H.sizeBits := by omega
  have hunchanged : ReallocEffect H (marks · = true) s.mem b n nBytes none s.mem :=
    ⟨.refl hgood _, fun _ _ => .refl hgood _, fun out hout => nomatch hout⟩
  by_cases h0 : nBytes = 0
  · obtain ⟨s', hfree, hpres⟩ := gcFree_spec hgood hc (hsafe (.inl h0)).first
    rw [gcRealloc, if_pos h0, hfree]
    exact ⟨none, s', rfl, fun _ => rfl, hpres.mono fun h hk => hk.2, fun _ hne => absurd h0 hne,
      fun out hout => nomatch hout⟩
  by_cases hlock : s.lockDepth > 0
  · exact ⟨none, s, by rw [gcRealloc, if_neg h0, if_pos hlock], fun _ => rfl, hunchanged⟩
  have hlong := le_blocksFor hsize (blocksFor_ne_zero hbytes h0)
  rcases gcRealloc_cases marks allowMove hgood.wellFormed hc h0 hlock with ⟨heq, hret⟩ |
    ⟨hlt, s', hret, hmem⟩ | ⟨hlt, hle, hfree, s', hret, hmem⟩ | ⟨hlt, hmove, hret⟩ | ⟨-, hret⟩
  · refine ⟨some b, s, hret, fun h => absurd h h0, .refl hgood _, fun _ _ => .refl hgood _, ?_⟩
    rintro out ⟨⟩
    exact ⟨n, hc, heq ▸ hlong, fun h _ hk _ => hk.2, fun i _ => rfl⟩
  · refine ⟨some b, s', hret, fun h => absurd h h0, ?_⟩
    rw [hmem]
    exact reallocShrink_spec _ hgood hc (Nat.pos_of_ne_zero (blocksFor_ne_zero hbytes h0))
      (by omega) hlong
  · refine ⟨some b, s', hret, fun h => absurd h h0,
      reallocGrow_spec _ hgood hc hlt hle hfree hlong fun a ha => ?_⟩
    rw [hmem]
    exact reallocGrown_of_not_mem (mul_lt_of_lt_blocksFor hbytes hlt) hlong ha
  · obtain ⟨r, s', hmoved, heff⟩ := gcReallocMove_spec hgood hc hmark hsize
      (mul_lt_of_lt_blocksFor hbytes hlt) (hsafe (.inr hmove))
    exact ⟨r, s', hret.trans hmoved, fun h => absurd h h0, heff⟩
  · exact ⟨none, s, hret, fun _ => rfl, hunchanged⟩

end Pycopy
