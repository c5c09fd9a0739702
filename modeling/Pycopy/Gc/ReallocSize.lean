import Pycopy.Gc.Run

/-!
# The size that is given to `gc_realloc`

`gc_realloc` of `py/gc.c` rounds the requested size up to blocks in `size_t`. For the largest
sizes the sum wraps around and the number of blocks is 0. Every chain is longer than that, so
`gc_realloc` takes the branch that shortens the chain, frees all of its blocks with the head, and
returns the pointer to them. `gc_alloc` has a test for 0 blocks; `gc_realloc` has none.

## Main results

* `gc_realloc_size_iff`: `gc_realloc` keeps its promise if and only if the size is 0 and the
  collector is not locked, or the size is not 0 and either the collector is locked or the size does
  not wrap around. -/

open BitMemory BlockTable

namespace Pycopy

/-! ### Definitions -/

/-- What the caller of `gc_realloc` for a chain of `n` blocks at `b` counts on. With `NULL` the
chain and its bytes are unchanged, or, for size 0, it has been freed; a pointer that is returned
points to a chain that is long enough. -/
def ReallocPromise (H : GcHeap) (m : Memory) (b n nBytes : ℕ) : Option ℕ → Memory → Prop
  | none, m' =>
    (nBytes = 0 ∧ ∀ i, b ≤ i → i < b + n → atbGetKind m' i = .free) ∨
      (nBytes ≠ 0 ∧ IsChain H.poolBlockLen (atbGetKind m') b n ∧
        SameBytes H m m' b b (n * H.bytesPerBlock))
  | some out, m' =>
    ∃ n', IsChain H.poolBlockLen (atbGetKind m') out n' ∧ nBytes ≤ n' * H.bytesPerBlock

/-- **The sizes for which `gc_realloc` is right**: 0, when the collector is not locked and so the
chain is freed, and otherwise those that do not wrap around, or any with a locked collector. -/
def ReallocSizeOk (H : GcHeap) (s : GcState) (nBytes : ℕ) : Prop :=
  if nBytes = 0 then s.lockDepth = 0
  else 0 < s.lockDepth ∨ nBytes + H.bytesPerBlock - 1 < 2 ^ H.sizeBits

variable {H : GcHeap} {m m' : Memory} {s s' : GcState} {b n nBytes : ℕ} {marks : ℕ → Bool}

/-! ### Freeing, wherever the walk ends -/

/-- The entries that the walk of `gc_free` clears, when it ends. -/
theorem freeLoop_eq_some {fuel : ℕ} (h : freeLoop fuel b m = some m') :
    ∃ k, 0 < k ∧ m' = clearLoop k b m ∧ (∀ i, b < i → i < b + k → atbGetKind m i = .tail) ∧
      atbGetKind m (b + k) ≠ .tail := by
  induction fuel generalizing b m with
  | zero => cases h
  | succ fuel ih =>
    have hother : ∀ i, i ≠ b → atbGetKind (atbAnyToFree m b) i = atbGetKind m i := fun i hi => by
      rw [atbGetKind_anyToFree, if_neg hi]
    rw [freeLoop, hother (b + 1) (by omega)] at h
    split at h
    · rename_i htail
      obtain ⟨k, hk, hm', htails, hend⟩ := ih h
      refine ⟨k + 1, Nat.succ_pos k, hm', fun i hi hlt => ?_, ?_⟩
      · rcases Nat.lt_or_eq_of_le (Nat.succ_le_of_lt hi) with hi' | rfl
        · rw [← hother i (by omega)]
          exact htails i hi' (by omega)
        · exact htail
      · rwa [hother _ (by omega), show b + 1 + k = b + (k + 1) by omega] at hend
    · rename_i htail
      cases h
      exact ⟨1, Nat.one_pos, rfl, fun i hi hlt => by omega, htail⟩

/-- `gc_free` frees the blocks of the chain and no others. -/
theorem gcFree_kind (hc : IsChain H.poolBlockLen (atbGetKind s.mem) b n)
    (hlock : ¬s.lockDepth > 0) (h : gcFree H s b = some s') :
    ∀ i < H.poolBlockLen, atbGetKind s'.mem i =
      if b + 0 ≤ i ∧ i < b + n then .free else atbGetKind s.mem i := by
  rw [gcFree, if_neg hlock, Option.map_eq_some_iff] at h
  obtain ⟨m', hloop, rfl⟩ := h
  have hpos := hc.pos
  have hkind : ∀ i < H.poolBlockLen, atbGetKind (if H.enableFinaliser = true then
      ftbClear H s.mem b else s.mem) i = atbGetKind s.mem i := fun i hi => by
    split
    · exact atbGetKind_ftbClear hi
    · rfl
  obtain ⟨k, hk, rfl, htails, hend⟩ := freeLoop_eq_some hloop
  have hle : n ≤ k := by
    by_contra hlt
    have hb := hc.le
    exact hend ((hkind _ (by omega)).trans (hc.tails _ (by omega) (by omega)))
  intro i hi
  dsimp only
  rw [clearLoop_kind, hkind i hi]
  by_cases hin : b ≤ i ∧ i < b + n
  · rw [if_pos (by omega), if_pos (by omega)]
  · rw [if_neg (c := b + 0 ≤ i ∧ i < b + n) (by omega)]
    by_cases hwalk : b ≤ i ∧ i < b + k
    -- the walk has gone on after the chain, which the chain's end excludes inside the table
    · have htail := htails (b + n) (by omega) (by omega)
      rw [hkind _ (by omega)] at htail
      exact absurd htail (hc.ends (by omega))
    · rw [if_neg hwalk]

/-! ### The branches -/

variable {r : Option ℕ}

/-- A chain that is moved ends up long enough. -/
theorem gcReallocMove_promise (hgood : TableGood H s.mem)
    (hc : IsChain H.poolBlockLen (atbGetKind s.mem) b n) (hmark : marks b = true)
    (hsize : nBytes < 2 ^ H.sizeBits) (hlong : n * H.bytesPerBlock < nBytes)
    (h : gcReallocMove H marks s b n nBytes = some (r, s')) :
    ReallocPromise H s.mem b n nBytes r s'.mem := by
  rw [gcReallocMove] at h
  have heff := gcAlloc_spec hgood marks hsize (H.enableFinaliser && ftbGet H s.mem b)
  generalize gcAlloc H marks s nBytes (H.enableFinaliser && ftbGet H s.mem b) = res at h heff
  obtain ⟨r₁, s₁⟩ := res
  dsimp only at heff
  obtain ⟨hc₁, hbytes₁⟩ := heff.preserves.chains b n hmark hc
  cases r₁ with
  | none =>
    cases h
    exact .inr ⟨by omega, hc₁, hbytes₁⟩
  | some out =>
    obtain ⟨k, hout, hk, hne, -⟩ := heff.placed out rfl
    have hbo : b ≠ out := hne b n hmark hc
    obtain ⟨s₂, hfree, heq⟩ := Option.map_eq_some_iff.mp h
    cases heq
    obtain ⟨hpres, hout₂⟩ := memcpy_preserves heff.good hout (H.blockAddr b)
      (show n * H.bytesPerBlock ≤ k * H.bytesPerBlock by omega)
    generalize memcpy s₁.mem (H.blockAddr out) (H.blockAddr b) (n * H.bytesPerBlock) = m₂
      at hfree hpres hout₂
    obtain ⟨hc₂, -⟩ := hpres.chains b n hbo hc₁
    by_cases hlock₁ : s₁.lockDepth > 0
    · rw [gcFree, if_pos hlock₁] at hfree
      cases hfree
      exact ⟨k, hout₂, hk⟩
    · obtain ⟨-, -, hothers⟩ := hc₂.trim hpres.good.wellFormed (Nat.zero_le n)
        (@gcFree_kind H { s₁ with mem := m₂ } _ b n hc₂ hlock₁ hfree)
      exact ⟨k, hothers out k (Ne.symm hbo) hout₂, hk⟩

theorem ReallocEffect.promise {keep : ℕ → Prop} (h0 : nBytes ≠ 0)
    (hc : IsChain H.poolBlockLen (atbGetKind m) b n)
    (heff : ReallocEffect H keep m b n nBytes r m') : ReallocPromise H m b n nBytes r m' := by
  cases r with
  | none => exact .inr ⟨h0, (heff.failed rfl h0).chains b n rfl hc⟩
  | some out =>
    obtain ⟨n', hout, hle, -⟩ := heff.resized out rfl
    exact ⟨n', hout, hle⟩

/-- A locked collector changes nothing. -/
theorem gcRealloc_of_locked (hlock : s.lockDepth > 0) (allowMove : Bool) :
    gcRealloc H marks s b nBytes allowMove = some (none, s) := by
  rw [gcRealloc, gcFree, if_pos hlock, if_pos hlock]
  split <;> rfl

/-- The promise is kept for these sizes. -/
theorem gcRealloc_promise (hgood : TableGood H s.mem)
    (hc : IsChain H.poolBlockLen (atbGetKind s.mem) b n) (hmark : marks b = true)
    (hsize : nBytes < 2 ^ H.sizeBits) {allowMove : Bool}
    (hcond : ReallocSizeOk H s nBytes)
    (h : gcRealloc H marks s b nBytes allowMove = some (r, s')) :
    ReallocPromise H s.mem b n nBytes r s'.mem := by
  rw [ReallocSizeOk] at hcond
  split_ifs at hcond with h0
  · rw [gcRealloc, if_pos h0] at h
    obtain ⟨s₁, hfree, heq⟩ := Option.map_eq_some_iff.mp h
    cases heq
    have hle := hc.le
    refine .inl ⟨h0, fun i hi hlt => ?_⟩
    rw [gcFree_kind hc (by omega) hfree i (by omega), if_pos ⟨hi, hlt⟩]
  by_cases hlock : s.lockDepth > 0
  · rw [gcRealloc_of_locked hlock] at h
    cases h
    exact .inr ⟨h0, hc, fun _ _ => rfl⟩
  have hbytes := hcond.resolve_left hlock
  have hnew := blocksFor_ne_zero hbytes h0
  have hlong := le_blocksFor hsize hnew
  rcases gcRealloc_cases marks allowMove hgood.wellFormed hc h0 hlock with ⟨heq, hret⟩ |
    ⟨hlt, s₁, hret, hmem⟩ | ⟨hlt, hle, hfree, s₁, hret, hmem⟩ | ⟨hlt, -, hret⟩ | ⟨-, hret⟩
  all_goals rw [hret] at h
  · cases h
    exact ⟨n, hc, heq ▸ hlong⟩
  · cases h
    rw [hmem]
    exact (reallocShrink_spec (fun _ => True) hgood hc (Nat.pos_of_ne_zero hnew) (by omega)
      hlong).promise h0 hc
  · cases h
    refine (reallocGrow_spec (fun _ => True) hgood hc hlt hle hfree hlong fun a ha => ?_).promise
      h0 hc
    rw [hmem]
    exact reallocGrown_of_not_mem (mul_lt_of_lt_blocksFor hbytes hlt) hlong ha
  · exact gcReallocMove_promise hgood hc hmark hsize (mul_lt_of_lt_blocksFor hbytes hlt) h
  · cases h
    exact .inr ⟨h0, hc, fun _ _ => rfl⟩

/-- A size that wraps around: all blocks are freed, and the first of them is returned. -/
theorem gcRealloc_wrapped (marks : ℕ → Bool) (allowMove : Bool)
    (hwf : WellFormed H.poolBlockLen (atbGetKind s.mem))
    (hc : IsChain H.poolBlockLen (atbGetKind s.mem) b n) (hsize : nBytes < 2 ^ H.sizeBits)
    (hlock : ¬s.lockDepth > 0) (h0 : nBytes ≠ 0)
    (hwrap : 2 ^ H.sizeBits ≤ nBytes + H.bytesPerBlock - 1) :
    ∃ s', gcRealloc H marks s b nBytes allowMove = some (some b, s') ∧
      ∀ i, b ≤ i → i < b + n → atbGetKind s'.mem i = .free := by
  have hzero := blocksFor_eq_zero hsize hwrap
  have hpos := hc.pos
  rcases gcRealloc_cases marks allowMove hwf hc h0 hlock with ⟨heq, -⟩ | ⟨-, s', hret, hmem⟩ |
    ⟨hlt, -⟩ | ⟨hlt, -⟩ | ⟨hlt, -⟩
  · omega
  · refine ⟨s', hret, fun i hi hlt => ?_⟩
    rw [hmem, hzero, clearLoop_kind, if_pos (by omega)]
  all_goals omega

/-- **The sizes for which `gc_realloc` is right.** For a chain in use that collections reach, the
call returns when no walk of `gc_free` leaves the tables, and what it returns is as promised, if
and only if the size is 0 and the collector is not locked, or it is not 0 and the collector is
locked or the size does not wrap around when it is rounded up to blocks. -/
theorem gc_realloc_size_iff (hgood : TableGood H s.mem)
    (hc : IsChain H.poolBlockLen (atbGetKind s.mem) b n) (hmark : marks b = true)
    (hsize : nBytes < 2 ^ H.sizeBits) (allowMove : Bool) :
    ((WalkSafe H s.mem b [H.poolStart, H.blockAddr b] →
        (gcRealloc H marks s b nBytes allowMove).isSome = true) ∧
      ∀ r s', gcRealloc H marks s b nBytes allowMove = some (r, s') →
        ReallocPromise H s.mem b n nBytes r s'.mem) ↔ ReallocSizeOk H s nBytes := by
  have hpos := hc.pos
  constructor
  · rintro ⟨-, hpromise⟩
    by_contra hcond
    rw [ReallocSizeOk] at hcond
    split_ifs at hcond with h0
    -- the block is not freed by a locked collector
    · have hkept := hpromise none s (gcRealloc_of_locked (Nat.pos_of_ne_zero hcond) allowMove)
      obtain ⟨-, hfree⟩ := hkept.resolve_right fun h => h.1 h0
      exact hc.ne_free (Nat.le_refl b) (by omega) (hfree b (Nat.le_refl b) (by omega))
    obtain ⟨hlock, hwrap⟩ := not_or.mp hcond
    obtain ⟨s', hret, hfree⟩ := gcRealloc_wrapped marks allowMove hgood.wellFormed hc hsize hlock h0
      (Nat.not_lt.mp hwrap)
    obtain ⟨n', hc', -⟩ := hpromise _ s' hret
    exact hc'.ne_free (Nat.le_refl b) (by have := hc'.pos; omega)
      (hfree b (Nat.le_refl b) (by omega))
  · intro hcond
    refine ⟨fun hsafe => ?_, fun r s' h => gcRealloc_promise hgood hc hmark hsize hcond h⟩
    by_cases hbytes : nBytes + H.bytesPerBlock - 1 < 2 ^ H.sizeBits
    · obtain ⟨r, s', hret, -⟩ := gcRealloc_spec allowMove hgood hc hmark hbytes fun _ => hsafe
      rw [hret]
      rfl
    by_cases h0 : nBytes = 0
    · obtain ⟨s', hfree, -⟩ := gcFree_spec hgood hc hsafe.first
      rw [gcRealloc, if_pos h0, hfree]
      rfl
    · rw [ReallocSizeOk, if_neg h0] at hcond
      rw [gcRealloc_of_locked (hcond.resolve_right hbytes)]
      rfl

/-- The heap of four blocks with a chain of one block. -/
def gcSysOneChain : GcSys :=
  GcSys.next gcHeapNoGap ⟨gcInit gcHeapNoGap fun _ => 0#8, []⟩ (.alloc (fun _ => true) 16 false)

theorem gcSysOneChain_good : TableGood gcHeapNoGap gcSysOneChain.state.mem ∧
    IsChain gcHeapNoGap.poolBlockLen (atbGetKind gcSysOneChain.state.mem) 0 1 := by
  have hrun := (@GcRun.init gcHeapNoGap (fun sys op => op.Safe gcHeapNoGap sys) fun _ => 0#8).next
    (.alloc (fun _ => true) 16 false) ⟨by decide, fun _ _ => rfl⟩ trivial (by decide +kernel)
  exact ⟨hrun.inv.good, by decide, by decide +kernel, by decide +kernel,
    fun i hi hlt => by omega, fun _ => by decide +kernel⟩

/-- The chain of one block is resized to three blocks. -/
theorem gc_realloc_size_three_blocks :
    ∃ s', gcRealloc gcHeapNoGap (fun _ => true) gcSysOneChain.state 0 48 true = some (some 0, s') ∧
      ∃ n', IsChain gcHeapNoGap.poolBlockLen (atbGetKind s'.mem) 0 n' ∧
        48 ≤ n' * gcHeapNoGap.bytesPerBlock := by
  obtain ⟨hgood, hc⟩ := gcSysOneChain_good
  have hret : (gcRealloc gcHeapNoGap (fun _ => true) gcSysOneChain.state 0 48 true).map Prod.fst =
      some (some 0) := by decide +kernel
  obtain ⟨⟨r, s'⟩, hsome, rfl⟩ := Option.map_eq_some_iff.mp hret
  exact ⟨s', hsome, ((gc_realloc_size_iff hgood hc rfl (by decide) true).mpr
    (by rw [ReallocSizeOk, if_neg (by decide)]; exact .inr (by decide))).2 _ s' hsome⟩

/-- **A block that is freed and returned**: for the size `0xfffffff1` the chain of one block is
freed, and the pointer to it is returned. -/
theorem gc_realloc_frees_and_returns :
    IsChain gcHeapNoGap.poolBlockLen (atbGetKind gcSysOneChain.state.mem) 0 1 ∧
    (gcRealloc gcHeapNoGap (fun _ => true) gcSysOneChain.state 0 0xfffffff1 true).map
      (fun p => (p.1, atbGetKind p.2.mem 0)) = some (some 0, .free) :=
  ⟨gcSysOneChain_good.2, by decide +kernel⟩

end Pycopy
