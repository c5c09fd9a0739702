import Pycopy.Gc.Run

/-!
# Walks that run over the end of the table

`gc_mark_subtree`, `gc_nbytes` and `gc_free` walk along the tails of a chain, and stop at the first
entry that is not a tail. For a chain that reaches the last block this entry is behind the
allocation table. With `MICROPY_ENABLE_FINALISER` it is made of the first two flags of the
finaliser table: it reads as a tail when block 1 has a finaliser and block 0 has none.

## Main results

* `gc_walks_exact_iff`: in a heap state that can be reached, all walks are exact if and only if the
  last block is free or the first two flags do not look like a tail.
-/

open BitMemory BlockTable

namespace Pycopy

/-- `gc_nbytes` -/
def gcNbytes (H : GcHeap) (m : Memory) (ptr : ℕ) : Option ℕ :=
  if verifyPtr H ptr = true ∧ atbGetKind m (blockFromPtr H ptr) = .head then
    (chainBlocks H m (blockFromPtr H ptr)).map (· * H.bytesPerBlock)
  else some 0

/-- The entry after the table reads as a tail, and the last block is in use. -/
def TailAfterTable (H : GcHeap) (m : Memory) : Prop :=
  0 < H.poolBlockLen ∧ atbGetKind m (H.poolBlockLen - 1) ≠ .free ∧
    ftbGet H m 0 = false ∧ ftbGet H m 1 = true

/-- All walks stop where their chain ends. In a collection, with some heads marked, the words that
`gc_mark_subtree` scans are in the chain and so in the pool; `gc_nbytes` gives the size of the
chain; `gc_free` frees the blocks of the chain and clears no flag but that of its head. -/
structure WalksExact (H : GcHeap) (s : GcState) : Prop where
  mark : ∀ m, Marked H s.mem m → ∀ h n, IsChain H.poolBlockLen (atbGetKind m) h n →
    chainBlocks H m h = some n ∧ ∀ k < n * H.bytesPerBlock / H.ptrBytes,
      H.blockAddr h + k * H.ptrBytes + H.ptrBytes ≤ H.totalByteLen
  nbytes : ∀ h n, IsChain H.poolBlockLen (atbGetKind s.mem) h n →
    gcNbytes H s.mem (H.start + H.blockAddr h) = some (n * H.bytesPerBlock)
  free : ∀ h n, IsChain H.poolBlockLen (atbGetKind s.mem) h n → s.lockDepth = 0 →
    ∃ s', gcFree H s h = some s' ∧ s'.mem = clearLoop n h (ftbClear H s.mem h) ∧
      ∀ b < H.poolBlockLen, b ≠ h → ftbGet H s'.mem b = ftbGet H s.mem b

variable {H : GcHeap} {m : Memory} {s : GcState} {h n : ℕ}

theorem atbGetKind_poolBlockLen_eq_tail_iff :
    atbGetKind m H.poolBlockLen = .tail ↔ ftbGet H m 0 = false ∧ ftbGet H m 1 = true := by
  have hpast := atbGetKind_past_end H m 0
  rw [Nat.add_zero, Nat.mul_zero, Nat.zero_add] at hpast
  rw [hpast]
  cases ftbGet H m 0 <;> cases ftbGet H m 1 <;> decide

/-- Clearing table entries leaves the finaliser flags alone. -/
theorem ftbGet_clearLoop (hle : h + n ≤ H.poolBlockLen) (b : ℕ) :
    ftbGet H (clearLoop n h m) b = ftbGet H m b := by
  rw [GcHeap.poolBlockLen] at hle
  exact ftbGet_congr (clearLoop_bytes (by omega))

/-- A chain that reaches the last block is followed by no tail. -/
theorem end_ne_tail (hsafe : ¬TailAfterTable H m) (hc : IsChain H.poolBlockLen (atbGetKind m) h n)
    (hlast : h + n = H.poolBlockLen) : atbGetKind m (h + n) ≠ .tail := by
  have hpos := hc.pos
  rw [hlast]
  intro htail
  exact hsafe ⟨by omega, hc.ne_free (by omega) (by omega),
    atbGetKind_poolBlockLen_eq_tail_iff.mp htail⟩

/-- Nor does the clearing of the flag of its head make one: the head would be block 0, and block 1
a head after it. -/
theorem end_ne_tail_ftbClear (hfin : H.enableFinaliser = true) (hgood : TableGood H m)
    (hsafe : ¬TailAfterTable H m) (hc : IsChain H.poolBlockLen (atbGetKind m) h n) :
    atbGetKind (ftbClear H m h) (h + n) ≠ .tail := by
  have hpos := hc.pos
  have hle := hc.le
  rcases Nat.lt_or_eq_of_le hle with hlt | hlast
  · rw [atbGetKind_ftbClear hlt]
    exact hc.ends hlt
  rw [hlast]
  intro htail
  obtain ⟨h0, h1⟩ := atbGetKind_poolBlockLen_eq_tail_iff.mp htail
  rw [ftbGet_ftbClear, Bool.and_eq_true, Bool.not_eq_true', decide_eq_false_iff_not] at h1
  have hF : H.finaliserTableByteLen = (H.allocTableByteLen * 4 + 8 - 1) / 8 := by
    rw [GcHeap.finaliserTableByteLen, if_pos hfin]
  have hN := H.poolBlockLen_eq
  obtain ⟨-, hhead⟩ := hgood.ftb_head hfin 1 (by omega) h1.1
  by_cases hzero : h = 0
  · rw [hc.tails 1 (by omega) (by omega)] at hhead
    cases hhead
  · rw [ftbGet_ftbClear, decide_eq_false (Ne.symm hzero), Bool.not_false, Bool.and_true] at h0
    exact hsafe ⟨by omega, hc.ne_free (by omega) (by omega), h0, h1.1⟩

theorem TailAfterTable.of_marked {m₀ : Memory} (hm : Marked H m₀ m) (h : TailAfterTable H m) :
    TailAfterTable H m₀ := by
  obtain ⟨hpos, hlast, h0, h1⟩ := h
  have hftb : ∀ b, ftbGet H m b = ftbGet H m₀ b := fun b => ftbGet_congr (hm.bytes _ (by omega))
  refine ⟨hpos, ?_, (hftb 0).symm.trans h0, (hftb 1).symm.trans h1⟩
  rcases hm.kinds _ (show H.poolBlockLen - 1 < H.poolBlockLen by omega) with heq | ⟨hhead, -⟩
  · rwa [← heq]
  · rw [hhead]
    decide

/-- The words of a chain are in the pool. -/
theorem scanned_le (hc : IsChain H.poolBlockLen (atbGetKind m) h n) {k : ℕ}
    (hk : k < n * H.bytesPerBlock / H.ptrBytes) :
    H.blockAddr h + k * H.ptrBytes + H.ptrBytes ≤ H.totalByteLen := by
  have hend := (GcHeap.blockAddr_le hc.le).2
  have hwords := (Nat.mul_le_mul_right H.ptrBytes (Nat.succ_le_of_lt hk)).trans
    (Nat.div_mul_le_self (n * H.bytesPerBlock) H.ptrBytes)
  rw [Nat.succ_mul] at hwords
  omega

/-- **The walks are exact** when no tail seems to follow the table. -/
theorem walksExact_of (hfin : H.enableFinaliser = true) (hgood : TableGood H s.mem)
    (hsafe : ¬TailAfterTable H s.mem) : WalksExact H s where
  mark m hm h n hc :=
    ⟨chainBlocks_eq hc (end_ne_tail (fun h => hsafe (h.of_marked hm)) hc), fun k hk =>
      scanned_le hc hk⟩
  nbytes h n hc := by
    have hlt : h < H.poolBlockLen := by have := hc.le; have := hc.pos; omega
    obtain ⟨hptr, hblock⟩ := (@verifyPtr_iff H h _).mpr ⟨hlt, rfl⟩
    have hhead := hc.starts.resolve_right (hgood.no_mark h hlt)
    rw [gcNbytes, hblock, if_pos ⟨hptr, hhead⟩, chainBlocks_eq hc (end_ne_tail hsafe hc),
      Option.map_some]
  free h n hc hlock := by
    have hle := hc.le
    have hend := end_ne_tail_ftbClear hfin hgood hsafe hc
    have htails : ∀ i, h < i → i < h + n → atbGetKind (ftbClear H s.mem h) i = .tail :=
      fun i hi hlt => (atbGetKind_ftbClear (by omega)).trans (hc.tails i hi hlt)
    have hfuel : h + n ≤ 4 * H.totalByteLen - h + h := by
      have := H.poolBlockLen_le
      omega
    rw [gcFree, if_neg (by omega), if_pos hfin,
      freeLoop_spec (by have := hc.pos; omega) htails hend hfuel]
    refine ⟨_, rfl, by rw [Nat.add_sub_cancel_left], fun b _ hb => ?_⟩
    dsimp only
    rw [Nat.add_sub_cancel_left, ftbGet_clearLoop hle, ftbGet_ftbClear, decide_eq_false hb,
      Bool.not_false, Bool.and_true]

/-- What the walk counts is followed by an entry that is no tail. -/
theorem countBlocks_end {fuel i : ℕ} (hcount : countBlocks m h fuel i = some n) :
    atbGetKind m (h + n) ≠ .tail := by
  induction fuel generalizing i with
  | zero => cases hcount
  | succ fuel ih =>
    rw [countBlocks] at hcount
    split at hcount
    · exact ih hcount
    · rename_i hend
      cases hcount
      exact hend

/-- Heaps with finalisers meet the invariant along all runs. -/
theorem GcRun.inv_of_finaliser (hfin : H.enableFinaliser = true) {sys : GcSys}
    (hrun : GcRun H (fun _ _ => True) sys) : GcInv H sys := by
  refine GcRun.inv ?_
  induction hrun with
  | init m => exact .init m
  | @step sys sys' op r _ hallowed _ hstep ih =>
    refine ih.step hallowed ?_ hstep
    cases op with
    | free block => exact .inl hfin
    | realloc marks block nBytes move => exact fun _ => .inl hfin
    | alloc marks nBytes fin => trivial
    | collect marks => trivial
    | write a x => trivial
    | settings lockDepth autoCollect threshold => trivial

/-- **Exactly when the walks are exact**, in every state that can be reached with finalisers. -/
theorem gc_walks_exact_iff (hfin : H.enableFinaliser = true) {sys : GcSys}
    (hrun : GcRun H (fun _ _ => True) sys) :
    WalksExact H sys.state ↔ ¬TailAfterTable H sys.state.mem := by
  have hgood := (hrun.inv_of_finaliser hfin).good
  refine ⟨fun hexact ⟨hpos, hlast, h0, h1⟩ => ?_, walksExact_of hfin hgood⟩
  -- the chain of the last block is counted too long
  obtain ⟨h, n, hc, hle, hlt⟩ := hgood.wellFormed.exists_isChain
    (show H.poolBlockLen - 1 < H.poolBlockLen by omega) hlast
  have hend := countBlocks_end (hexact.mark sys.state.mem (.refl H _) h n hc).1
  have hN : h + n = H.poolBlockLen := by have := hc.le; omega
  rw [hN] at hend
  exact hend (atbGetKind_poolBlockLen_eq_tail_iff.mpr ⟨h0, h1⟩)

/-- A heap of four blocks with a finaliser table. -/
def gcHeapFinaliser : GcHeap where
  toGcConfig := gcConfig32 true
  start := 12
  stop := 80
  start_le := by decide

/-- A block without a finaliser, a block with or without one, and a chain of the last two blocks. -/
def gcSysFinaliser (fin : Bool) : GcSys :=
  [GcOp.alloc (fun _ => true) 16 false, .alloc (fun _ => true) 16 fin,
    .alloc (fun _ => true) 32 false].foldl (GcSys.next gcHeapFinaliser)
    ⟨gcInit gcHeapFinaliser fun _ => 0#8, []⟩

/-- The three allocations are a run, with a finaliser of block 1 or without. -/
theorem gcSysFinaliser_run (fin : Bool) :
    GcRun gcHeapFinaliser (fun _ _ => True) (gcSysFinaliser fin) := by
  have hone := (@GcRun.init gcHeapFinaliser (fun _ _ => True) fun _ => 0#8).next
    (.alloc (fun _ => true) 16 false) ⟨by decide, fun _ _ => rfl⟩ trivial (by decide +kernel)
  have htwo := hone.next (.alloc (fun _ => true) 16 fin) ⟨by decide, fun _ _ => rfl⟩ trivial
    (by cases fin <;> decide +kernel)
  exact htwo.next (.alloc (fun _ => true) 32 false) ⟨by decide, fun _ _ => rfl⟩ trivial
    (by cases fin <;> decide +kernel)

/-- Without a finaliser of block 1 the chain of the last two blocks is walked as it should. -/
theorem gc_walks_exact_iff_last_block :
    (gcSysFinaliser false).live = [(2, 32), (1, 16), (0, 16)] ∧
      atbGetKind (gcSysFinaliser false).state.mem 3 = .tail ∧
      WalksExact gcHeapFinaliser (gcSysFinaliser false).state :=
  ⟨by decide +kernel, by decide +kernel, (gc_walks_exact_iff rfl (gcSysFinaliser_run false)).mpr
    fun h => absurd h.2.2.2 (by decide +kernel)⟩

/-- **A walk that runs over the end**: the chain of two blocks at block 2 is given the size of
three, and freeing it clears the finaliser flag of block 1. -/
theorem gc_nbytes_runs_over : GcRun gcHeapFinaliser (fun _ _ => True) (gcSysFinaliser true) ∧
    (gcSysFinaliser true).live = [(2, 32), (1, 16), (0, 16)] ∧
    IsChain gcHeapFinaliser.poolBlockLen (atbGetKind (gcSysFinaliser true).state.mem) 2 2 ∧
    gcNbytes gcHeapFinaliser (gcSysFinaliser true).state.mem
      (gcHeapFinaliser.start + gcHeapFinaliser.blockAddr 2) = some 48 ∧
    ftbGet gcHeapFinaliser (gcSysFinaliser true).state.mem 1 = true ∧
    (gcFree gcHeapFinaliser (gcSysFinaliser true).state 2).map
      (fun s => ftbGet gcHeapFinaliser s.mem 1) = some false := by
  refine ⟨gcSysFinaliser_run true, by decide +kernel, ⟨by decide +kernel, by decide, by decide, ?_,
    fun h => absurd h (by decide)⟩, by decide +kernel, by decide +kernel, by decide +kernel⟩
  intro i hi hlt
  obtain rfl : i = 3 := by omega
  decide +kernel

end Pycopy
