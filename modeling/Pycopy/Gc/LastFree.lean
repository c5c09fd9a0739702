import Pycopy.Gc.Run

/-!
# Where the search of `gc_alloc` starts

`gc_alloc` of `py/gc.c` starts its search for free blocks at the table byte
`gc_last_free_atb_index`. An allocation of one block raises the index to the byte after the block;
`gc_free` and a `gc_realloc` that shrinks lower it to the byte of the first block that they free;
a collection sets it to 0. Nothing else frees blocks, so that no free block is left behind.

The histories here are wider than the runs of `Pycopy.Gc.Run`: any block number may be freed or
resized, with any size, and the program may write anywhere in the pool.

## Main results

* `gc_alloc_null_only_if_full`: along every history no block before the index is free, and
  `gc_alloc` returns `NULL` only when there is no run of free blocks that is long enough.
-/

open BitMemory BlockTable

namespace Pycopy

/-! ### Definitions -/

/-- The systems that are reached from `gc_init`, when the program writes only into the pool. -/
inductive GcHistory (H : GcHeap) : GcSys → Prop
  | init (m : Memory) : GcHistory H ⟨gcInit H m, []⟩
  | step {sys sys' : GcSys} {op : GcOp} {r : Option ℕ} (hrun : GcHistory H sys)
      (hwrite : ∀ a x, op = .write a x → H.poolStart ≤ a)
      (hstep : gcStep H sys op = some (r, sys')) : GcHistory H sys'

/-- **No block before the index is free**, and the index is one of the table or just behind it. -/
structure LastFreeGood (H : GcHeap) (s : GcState) : Prop where
  le : s.lastFreeAtbIndex ≤ H.allocTableByteLen
  not_free : ∀ b < 4 * s.lastFreeAtbIndex, atbGetKind s.mem b ≠ .free

/-- There is no run of `n` free blocks. -/
def NoFreeRun (H : GcHeap) (m : Memory) (n : ℕ) : Prop :=
  ∀ b, b + n ≤ H.poolBlockLen → ∃ i, b ≤ i ∧ i < b + n ∧ atbGetKind m i ≠ .free

variable {H : GcHeap} {m m' : Memory} {s s' : GcState} {b i : ℕ}

/-! ### Entries that do not become free -/

theorem atbGetKind_eq_free_iff :
    atbGetKind m b = .free ↔ bit m (2 * b) = false ∧ bit m (2 * b + 1) = false := by
  refine ⟨bits_of_atbGetKind_free, fun h => ?_⟩
  rw [atbGetKind_eq_bits, h.1, h.2]
  rfl

/-- Setting bits frees no block. -/
theorem atbGetKind_free_of_orByte {a : ℕ} {mask : BitVec 8}
    (h : atbGetKind (orByte m a mask) i = .free) : atbGetKind m i = .free := by
  rw [atbGetKind_eq_free_iff, bit_orByte, bit_orByte, Bool.or_eq_false_iff,
    Bool.or_eq_false_iff] at h
  exact atbGetKind_eq_free_iff.mpr ⟨h.1.1, h.2.1⟩

theorem atbGetKind_freeToHead_self_ne : atbGetKind (atbFreeToHead m b) b ≠ .free := by
  intro h
  rw [atbGetKind_eq_free_iff, bit_atbFreeToHead, decide_eq_true rfl, Bool.or_true] at h
  cases h.1

variable {k : ℕ}

theorem atbGetKind_tailLoop_ne_free (h : atbGetKind m i ≠ .free) :
    atbGetKind (tailLoop k b m) i ≠ .free := by
  induction k generalizing b m with
  | zero => exact h
  | succ k ih => exact ih fun hfree => h (atbGetKind_free_of_orByte hfree)

/-- The walk of `gc_free` frees no block before the one where it starts. -/
theorem atbGetKind_freeLoop_of_lt {fuel : ℕ} (h : freeLoop fuel b m = some m') (hi : i < b) :
    atbGetKind m' i = atbGetKind m i := by
  induction fuel generalizing b m with
  | zero => cases h
  | succ fuel ih =>
    have hclear : atbGetKind (atbAnyToFree m b) i = atbGetKind m i := by
      rw [atbGetKind_anyToFree, if_neg (by omega)]
    rw [freeLoop] at h
    split at h
    · exact (ih h (by omega)).trans hclear
    · cases h
      exact hclear

/-- The table is not changed by what happens behind it. -/
theorem atbGetKind_of_pool (hm : ∀ a < H.poolStart, m' a = m a) (hi : i < H.poolBlockLen) :
    atbGetKind m' i = atbGetKind m i := by
  rw [GcHeap.poolBlockLen] at hi
  have := H.allocTableByteLen_le
  exact atbGetKind_congr (hm _ (by omega))

theorem GcHeap.poolStart_le_blockAddr (H : GcHeap) (b : ℕ) : H.poolStart ≤ H.blockAddr b :=
  Nat.le_add_right _ _

variable {n : ℕ}

theorem memset_of_lt_pool {a c : ℕ} {v : BitVec 8} (ha : a < H.poolStart)
    (hc : H.poolStart ≤ c) : memset m c v n a = m a :=
  memset_of_not_mem (by omega)

/-! ### The search -/

/-- A search that finds nothing has seen no run that is long enough. -/
theorem findRun_eq_none {nFree : ℕ} (hn : nFree < n) (h : findRun m n k b nFree = none) (c : ℕ)
    (hc : b ≤ c + nFree) (hend : c + n ≤ b + k) :
    ∃ i, c ≤ i ∧ i < c + n ∧ atbGetKind m i ≠ .free := by
  induction k generalizing b nFree with
  | zero => omega
  | succ k ih =>
    rw [findRun] at h
    split at h
    · split at h
      · cases h
      · exact ih (by omega) h (by omega) (by omega)
    · rename_i hb
      by_cases hcb : c ≤ b
      -- the run would contain the block that is in use
      · exact ⟨b, hcb, by omega, hb⟩
      · exact ih (by omega) h (by omega) (by omega)

/-- A search for one block passes over no free block. -/
theorem findRun_one {e f : ℕ} (h : findRun m 1 k b 0 = some (e, f)) (hi : b ≤ i) (hlt : i < e) :
    atbGetKind m i ≠ .free := by
  induction k generalizing b with
  | zero => cases h
  | succ k ih =>
    rw [findRun] at h
    split at h
    · rw [if_pos (by omega)] at h
      cases h
      omega
    · rename_i hb
      rcases Nat.lt_or_eq_of_le hi with hi' | rfl
      · exact ih h hi'
      · exact hb

/-- **The search is complete**: if it finds nothing, then there is nothing. -/
theorem gcAllocSearch_eq_none (hgood : LastFreeGood H s) (hn : 0 < n)
    (h : gcAllocSearch H s n = none) : NoFreeRun H s.mem n := by
  intro b hb
  rw [GcHeap.poolBlockLen] at hb
  have hle := hgood.le
  by_cases hlt : b < 4 * s.lastFreeAtbIndex
  · exact ⟨b, Nat.le_refl b, by omega, hgood.not_free b hlt⟩
  · exact findRun_eq_none hn h b (by omega) (by omega)

/-! ### One call -/

theorem gcInit_lastFreeGood (H : GcHeap) (m : Memory) : LastFreeGood H (gcInit H m) :=
  ⟨Nat.zero_le _, fun _ hb => absurd hb (Nat.not_lt_zero _)⟩

theorem gcCollectMarks_lastFreeGood (H : GcHeap) (marks : ℕ → Bool) (s : GcState) :
    LastFreeGood H (gcCollectMarks H marks s) :=
  ⟨Nat.zero_le _, fun _ hb => absurd hb (Nat.not_lt_zero _)⟩

/-- A call that does not raise the index and frees no block before it. -/
theorem LastFreeGood.of_kind (hgood : LastFreeGood H s)
    (hle : s'.lastFreeAtbIndex ≤ s.lastFreeAtbIndex)
    (hkind : ∀ i < H.poolBlockLen, i < 4 * s'.lastFreeAtbIndex →
      atbGetKind s.mem i ≠ .free → atbGetKind s'.mem i ≠ .free) : LastFreeGood H s' where
  le := hle.trans hgood.le
  not_free i hi := by
    have hbound := hgood.le
    exact hkind i (by rw [GcHeap.poolBlockLen]; omega) hi (hgood.not_free i (by omega))

/-- A call that changes only the pool. -/
theorem LastFreeGood.of_pool (hgood : LastFreeGood H s)
    (hindex : s'.lastFreeAtbIndex = s.lastFreeAtbIndex)
    (hm : ∀ a < H.poolStart, s'.mem a = s.mem a) : LastFreeGood H s' :=
  hgood.of_kind (Nat.le_of_eq hindex) fun i hi _ hk => by rwa [atbGetKind_of_pool hm hi]

variable {nBytes nBlocks : ℕ}

/-- Taking a run of blocks frees nothing, and its first block is in use. -/
theorem gcAllocFound_ne_free {e f : ℕ} {fin : Bool} (hi : i < H.poolBlockLen)
    (h : atbGetKind s.mem i ≠ .free ∨ i = e + 1 - f) :
    atbGetKind (gcAllocFound H s nBytes nBlocks fin e f).2.mem i ≠ .free := by
  rw [gcAllocFound]
  dsimp only
  have hpool := H.poolStart_le_blockAddr (e + 1 - f)
  generalize hm₁ : tailLoop (e - (e + 1 - f)) (e + 1 - f + 1)
    (atbFreeToHead s.mem (e + 1 - f)) = m₁
  have htable : atbGetKind m₁ i ≠ .free := by
    rw [← hm₁]
    refine atbGetKind_tailLoop_ne_free ?_
    rcases h with h | rfl
    · exact fun hfree => h (atbGetKind_free_of_orByte hfree)
    · exact atbGetKind_freeToHead_self_ne
  generalize hm₂ : (if H.conservativeClear = true then memset m₁ (H.blockAddr (e + 1 - f)) 0#8
      ((e - (e + 1 - f) + 1) * H.bytesPerBlock)
    else memset m₁ (H.blockAddr (e + 1 - f) + nBytes) 0#8
      ((e - (e + 1 - f) + 1) * H.bytesPerBlock - nBytes)) = m₂
  have hcleared : ∀ a < H.poolStart, m₂ a = m₁ a := fun a ha => by
    rw [← hm₂]
    split
    · exact memset_of_lt_pool ha hpool
    · exact memset_of_lt_pool ha (by omega)
  split
  · rw [atbGetKind_ftbSet hi, atbGetKind_of_pool
      (fun a ha => (memset_of_lt_pool ha hpool).trans (hcleared a ha)) hi]
    exact htable
  · rwa [atbGetKind_of_pool hcleared hi]

theorem gcAllocTry_lastFreeGood (hgood : LastFreeGood H s) {fin : Bool}
    (h0 : blocksFor H nBytes ≠ 0) (h : gcAllocTry H s nBytes fin = some (b, s')) :
    LastFreeGood H s' := by
  rw [gcAllocTry, Option.map_eq_some_iff] at h
  obtain ⟨⟨e, f⟩, hsearch, hfound⟩ := h
  dsimp only at hfound
  have hs' : s' = (gcAllocFound H s nBytes (blocksFor H nBytes) fin e f).2 := by rw [hfound]
  obtain ⟨hf, c, he, hle, -⟩ := gcAllocSearch_spec (Nat.pos_of_ne_zero h0) hsearch
  have hindex : s'.lastFreeAtbIndex = if f = 1 then (e + 1) / 4 else s.lastFreeAtbIndex := by
    rw [hs']
    rfl
  by_cases hone : f = 1
  -- the block was the first free one from the index on
  · rw [if_pos hone] at hindex
    rw [← hf, hone] at hsearch hle he
    rw [GcHeap.poolBlockLen] at hle
    refine ⟨by omega, fun i hi => ?_⟩
    rw [hs']
    refine gcAllocFound_ne_free (by rw [GcHeap.poolBlockLen]; omega) ?_
    by_cases hie : i = e
    · exact .inr (by omega)
    · refine .inl ?_
      by_cases hbefore : i < 4 * s.lastFreeAtbIndex
      · exact hgood.not_free i hbefore
      · exact findRun_one hsearch (by omega) (by omega)
  · rw [if_neg hone] at hindex
    refine hgood.of_kind (Nat.le_of_eq hindex) fun i hi _ hk => ?_
    rw [hs']
    exact gcAllocFound_ne_free hi (.inl hk)

/-- The collection that `gc_alloc` makes before it gives up. -/
def gcAllocCollected (H : GcHeap) (marks : ℕ → Bool) (s : GcState) : GcState :=
  if s.autoCollectEnabled then gcCollectMarks H marks s else s

/-- **`gc_alloc`** keeps the index right, and it fails only without a run of free blocks. -/
theorem gcAlloc_lastFree (hgood : LastFreeGood H s) (marks : ℕ → Bool) (nBytes : ℕ) (fin : Bool) :
    LastFreeGood H (gcAlloc H marks s nBytes fin).2 ∧
      (blocksFor H nBytes ≠ 0 → s.lockDepth = 0 → (gcAlloc H marks s nBytes fin).1 = none →
        (gcAlloc H marks s nBytes fin).2 = gcAllocCollected H marks s ∧
        NoFreeRun H (gcAlloc H marks s nBytes fin).2.mem (blocksFor H nBytes)) := by
  have hfailed : ∀ {s : GcState}, LastFreeGood H s → blocksFor H nBytes ≠ 0 →
      gcAllocTry H s nBytes fin = none → NoFreeRun H s.mem (blocksFor H nBytes) :=
    fun hgood h0 htry => gcAllocSearch_eq_none hgood (Nat.pos_of_ne_zero h0)
      (Option.map_eq_none_iff.mp htry)
  rw [gcAlloc]
  split
  · rename_i h0
    exact ⟨hgood, fun hne => absurd h0 hne⟩
  rename_i h0
  split
  · rename_i hlock
    exact ⟨hgood, fun _ hunlocked => absurd hunlocked (Nat.ne_of_gt hlock)⟩
  dsimp only
  generalize hreached : (H.allocThreshold && s.autoCollectEnabled &&
    decide (s.allocAmount ≥ s.allocThreshold)) = reached
  cases reached with
  | true =>
    have hauto : s.autoCollectEnabled = true := by
      rw [Bool.and_eq_true, Bool.and_eq_true] at hreached
      exact hreached.1.2
    have hdone : gcAllocCollected H marks s = gcCollectMarks H marks s := if_pos hauto
    have hgood₁ := gcCollectMarks_lastFreeGood H marks s
    rw [if_pos rfl, Bool.or_true, if_pos rfl]
    split
    · rename_i htry
      exact ⟨gcAllocTry_lastFreeGood hgood₁ h0 htry, by rintro _ _ ⟨⟩⟩
    · rename_i htry
      exact ⟨hgood₁, fun _ _ _ => ⟨hdone.symm, hfailed hgood₁ h0 htry⟩⟩
  | false =>
    rw [if_neg Bool.false_ne_true, Bool.or_false]
    split
    · rename_i htry
      exact ⟨gcAllocTry_lastFreeGood hgood h0 htry, by rintro _ _ ⟨⟩⟩
    rename_i htry
    split
    · rename_i hauto
      have hdone : gcAllocCollected H marks s = s := if_neg (by
        rwa [Bool.not_eq_true', ← Bool.not_eq_true] at hauto)
      exact ⟨hgood, fun _ _ _ => ⟨hdone.symm, hfailed hgood h0 htry⟩⟩
    rename_i hauto
    have hdone : gcAllocCollected H marks s = gcCollectMarks H marks s := if_pos (by
      rwa [Bool.not_eq_true', Bool.not_eq_false] at hauto)
    have hgood₁ := gcCollectMarks_lastFreeGood H marks s
    split
    · rename_i htry
      exact ⟨gcAllocTry_lastFreeGood hgood₁ h0 htry, by rintro _ _ ⟨⟩⟩
    · rename_i htry
      exact ⟨hgood₁, fun _ _ _ => ⟨hdone.symm, hfailed hgood₁ h0 htry⟩⟩

/-- The index, lowered to the byte of block `b`. -/
theorem lowered_le (b index : ℕ) : (if b / 4 < index then b / 4 else index) ≤ index ∧
      4 * (if b / 4 < index then b / 4 else index) ≤ b := by
  split <;> omega

theorem gcFree_lastFreeGood (hgood : LastFreeGood H s) (h : gcFree H s b = some s') :
    LastFreeGood H s' := by
  rw [gcFree] at h
  split at h
  · cases h
    exact hgood
  rw [Option.map_eq_some_iff] at h
  obtain ⟨m', hloop, rfl⟩ := h
  have hlow := lowered_le b s.lastFreeAtbIndex
  refine hgood.of_kind hlow.1 fun i hi hlt hk => ?_
  dsimp only at hlt ⊢
  rw [atbGetKind_freeLoop_of_lt hloop (by omega)]
  split
  · rwa [atbGetKind_ftbClear hi]
  · exact hk

variable {marks : ℕ → Bool} {r : Option ℕ}

theorem gcReallocMove_lastFreeGood (hgood : LastFreeGood H s)
    (h : gcReallocMove H marks s b nBlocks nBytes = some (r, s')) : LastFreeGood H s' := by
  rw [gcReallocMove] at h
  have halloc :=
    (gcAlloc_lastFree hgood marks nBytes (H.enableFinaliser && ftbGet H s.mem b)).1
  generalize gcAlloc H marks s nBytes (H.enableFinaliser && ftbGet H s.mem b) = res at h halloc
  obtain ⟨r₁, s₁⟩ := res
  cases r₁ with
  | none =>
    cases h
    exact halloc
  | some out =>
    obtain ⟨s₂, hfree, heq⟩ := Option.map_eq_some_iff.mp h
    cases heq
    have hout := H.poolStart_le_blockAddr out
    have hcopied : LastFreeGood H { s₁ with
        mem := memcpy s₁.mem (H.blockAddr out) (H.blockAddr b) (nBlocks * H.bytesPerBlock) } :=
      halloc.of_pool rfl fun a ha => memcpy_of_not_mem (by omega)
    exact gcFree_lastFreeGood hcopied hfree

theorem gcRealloc_lastFreeGood (hgood : LastFreeGood H s) {allowMove : Bool}
    (h : gcRealloc H marks s b nBytes allowMove = some (r, s')) : LastFreeGood H s' := by
  rw [gcRealloc] at h
  split at h
  · obtain ⟨s₁, hfree, heq⟩ := Option.map_eq_some_iff.mp h
    cases heq
    exact gcFree_lastFreeGood hgood hfree
  split at h
  · cases h
    exact hgood
  generalize reallocScan s.mem (blocksFor H nBytes) (H.poolBlockLen - (b + 1)) (b + 1) 1 0 = scan
    at h
  obtain ⟨nBlocks, nFree⟩ := scan
  dsimp only at h
  have hpool := H.poolStart_le_blockAddr b
  split at h
  · cases h
    exact hgood
  split at h
  -- the chain is shortened
  · cases h
    have hlow := lowered_le (b + blocksFor H nBytes) s.lastFreeAtbIndex
    refine hgood.of_kind hlow.1 fun i hi hlt hk => ?_
    dsimp only at hlt ⊢
    rwa [clearLoop_kind, if_neg (by omega)]
  split at h
  -- the chain is lengthened in place
  · cases h
    refine hgood.of_kind (Nat.le_refl _) fun i hi _ hk => ?_
    dsimp only
    split
    · rw [atbGetKind_of_pool (fun a ha => memset_of_lt_pool ha (by omega)) hi]
      exact atbGetKind_tailLoop_ne_free hk
    · rw [atbGetKind_of_pool (fun a ha => memset_of_lt_pool ha (by omega)) hi]
      exact atbGetKind_tailLoop_ne_free hk
  split at h
  · exact gcReallocMove_lastFreeGood hgood h
  · cases h
    exact hgood

/-! ### Histories -/

/-- **One step** leaves no free block before the index. -/
theorem LastFreeGood.step {sys sys' : GcSys} {op : GcOp} {r : Option ℕ}
    (hgood : LastFreeGood H sys.state) (hwrite : ∀ a x, op = .write a x → H.poolStart ≤ a)
    (hstep : gcStep H sys op = some (r, sys')) : LastFreeGood H sys'.state := by
  cases op with
  | alloc marks nBytes fin =>
    have halloc := (gcAlloc_lastFree hgood marks nBytes fin).1
    rw [gcStep] at hstep
    split at hstep
    all_goals
      rename_i heq
      rw [heq] at halloc
      cases hstep
      exact halloc
  | free block =>
    obtain ⟨s', hfree, heq⟩ := Option.map_eq_some_iff.mp hstep
    cases heq
    exact gcFree_lastFreeGood hgood hfree
  | realloc marks block nBytes move =>
    obtain ⟨⟨r', s'⟩, hrealloc, heq⟩ := Option.map_eq_some_iff.mp hstep
    have hgood' := gcRealloc_lastFreeGood hgood hrealloc
    cases r' <;> cases heq <;> exact hgood'
  | collect marks =>
    cases hstep
    exact gcCollectMarks_lastFreeGood H marks sys.state
  | write a x =>
    cases hstep
    refine hgood.of_pool rfl fun c hc => Function.update_of_ne ?_ _ _
    have := hwrite a x rfl
    omega
  | settings lockDepth autoCollect threshold =>
    cases hstep
    exact hgood.of_pool rfl fun a _ => rfl

theorem GcHistory.lastFreeGood {sys : GcSys} (hrun : GcHistory H sys) :
    LastFreeGood H sys.state := by
  induction hrun with
  | init m => exact gcInit_lastFreeGood H m
  | step _ hwrite hstep ih => exact ih.step hwrite hstep

/-- **`gc_alloc` misses no free memory**: along every history no block in a table byte before
`gc_last_free_atb_index` is free, and an allocation of at least one block with the collector
unlocked returns `NULL` only if the heap, after the collection when automatic collection is
enabled, has no run of free blocks of this length. -/
theorem gc_alloc_null_only_if_full {sys : GcSys} (hrun : GcHistory H sys) :
    (∀ b < 4 * sys.state.lastFreeAtbIndex,
      b < H.poolBlockLen ∧ atbGetKind sys.state.mem b ≠ .free) ∧
    ∀ marks nBytes fin s', blocksFor H nBytes ≥ 1 → sys.state.lockDepth = 0 →
      gcAlloc H marks sys.state nBytes fin = (none, s') →
        s' = gcAllocCollected H marks sys.state ∧ NoFreeRun H s'.mem (blocksFor H nBytes) := by
  have hgood := hrun.lastFreeGood
  refine ⟨fun b hb => ⟨?_, hgood.not_free b hb⟩, fun marks nBytes fin s' hn hlock halloc => ?_⟩
  · have := hgood.le
    rw [GcHeap.poolBlockLen]
    omega
  · have hspec := (gcAlloc_lastFree hgood marks nBytes fin).2
    rw [halloc] at hspec
    exact hspec (Nat.ne_of_gt hn) hlock rfl

/-- The heap of four blocks after a chain of one block and one of two blocks. -/
def gcSysThreeUsed : GcSys :=
  [GcOp.alloc (fun _ => true) 16 false, .alloc (fun _ => true) 32 false].foldl
    (GcSys.next gcHeapNoGap) ⟨gcInit gcHeapNoGap fun _ => 0#8, []⟩

theorem GcHistory.next {sys : GcSys} (hrun : GcHistory H sys) (op : GcOp)
    (hwrite : ∀ a x, op = .write a x → H.poolStart ≤ a)
    (hstep : (gcStep H sys op).isSome = true) : GcHistory H (sys.next H op) := by
  obtain ⟨⟨r, sys'⟩, hret⟩ := Option.isSome_iff_exists.mp hstep
  rw [GcSys.next, hret]
  exact hrun.step hwrite hret

/-- With one of four blocks left, an allocation of two blocks fails. -/
theorem gc_alloc_null_three_used :
    (gcAlloc gcHeapNoGap (fun _ => true) gcSysThreeUsed.state 32 false).1 = none ∧
      NoFreeRun gcHeapNoGap
        (gcAlloc gcHeapNoGap (fun _ => true) gcSysThreeUsed.state 32 false).2.mem 2 := by
  have hone : GcHistory gcHeapNoGap _ := GcHistory.next (.init fun _ => 0#8)
    (.alloc (fun _ => true) 16 false) (fun _ _ h => nomatch h) (by decide +kernel)
  have hrun : GcHistory gcHeapNoGap gcSysThreeUsed := hone.next
    (.alloc (fun _ => true) 32 false) (fun _ _ h => nomatch h) (by decide +kernel)
  have hnull : (gcAlloc gcHeapNoGap (fun _ => true) gcSysThreeUsed.state 32 false).1 = none := by
    decide +kernel
  refine ⟨hnull, ((gc_alloc_null_only_if_full hrun).2 (fun _ => true) 32 false _ (by decide)
    (by decide +kernel) (Prod.ext hnull rfl)).2⟩

end Pycopy
