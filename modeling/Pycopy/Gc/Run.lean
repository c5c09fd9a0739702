import Pycopy.Gc.Alloc

/-!
# Runs of the heap

Sequences of `gc_alloc`, `gc_free`, `gc_realloc` and collections on a heap that `gc_init` has set
up, with the program writing into the memory it was given in between. A system is the state of the
heap with a list of the chains in use, each with the number of bytes that was requested for it.

A run can go wrong where a chain that reaches the last block is freed. Without a finaliser table
and without a gap between the table and the pool, the entry that the walk of `gc_free` reads after
the last block is the first byte of the pool. When `gc_realloc` has just moved the chain to the
first block and its first byte looks like a tail, `gc_free` of the old place clears two bits of
the byte.

## Main results

* `gc_run_correct`: in every run in which no walk of `gc_free` gets into the pool, the tables stay
  well formed, and the chains in use are disjoint, long enough and keep their contents.
-/

open BitMemory BlockTable

namespace Pycopy

/-! ### Definitions -/

/-- What can happen to a heap. `settings` stands for `gc_lock`, `gc_unlock`, `gc.enable`,
`gc.disable` and `gc.threshold`. -/
inductive GcOp
  | alloc (marks : ℕ → Bool) (nBytes : ℕ) (hasFinaliser : Bool)
  | free (block : ℕ)
  | realloc (marks : ℕ → Bool) (block nBytes : ℕ) (allowMove : Bool)
  | collect (marks : ℕ → Bool)
  | write (addr : ℕ) (x : BitVec 8)
  | settings (lockDepth : ℕ) (autoCollect : Bool) (threshold : ℕ)

/-- The heap, and the chains in use with the bytes requested for them. -/
structure GcSys where
  state : GcState
  live : List (ℕ × ℕ)

namespace GcSys

def IsLive (sys : GcSys) (b : ℕ) : Prop := ∃ k, (b, k) ∈ sys.live

/-- The chains in use other than the one at `b`. -/
def without (sys : GcSys) (b : ℕ) : List (ℕ × ℕ) := sys.live.filter fun p => p.1 ≠ b

end GcSys

/-- One step, with the block that is returned. -/
def gcStep (H : GcHeap) (sys : GcSys) : GcOp → Option (Option ℕ × GcSys)
  | .alloc marks nBytes hasFinaliser =>
    match gcAlloc H marks sys.state nBytes hasFinaliser with
    | (some out, s) => some (some out, ⟨s, (out, nBytes) :: sys.live⟩)
    | (none, s) => some (none, ⟨s, sys.live⟩)
  | .free block => (gcFree H sys.state block).map fun s => (none, ⟨s, sys.without block⟩)
  | .realloc marks block nBytes allowMove =>
    (gcRealloc H marks sys.state block nBytes allowMove).map fun
      | (some out, s) => (some out, ⟨s, (out, nBytes) :: sys.without block⟩)
      | (none, s) => (none, ⟨s, if nBytes = 0 then sys.without block else sys.live⟩)
  | .collect marks => some (none, ⟨gcCollectMarks H marks sys.state, sys.live⟩)
  | .write addr x =>
    some (none, ⟨{ sys.state with mem := Function.update sys.state.mem addr x }, sys.live⟩)
  | .settings lockDepth autoCollect threshold =>
    let s :=
      { sys.state with
        lockDepth := lockDepth
        autoCollectEnabled := autoCollect
        allocThreshold := threshold }
    some (none, ⟨s, sys.live⟩)

/-- What a program may do: it frees and resizes chains in use, collections reach all of these, it
writes only into the bytes it has requested, and sizes are in range. -/
def GcOp.Allowed (H : GcHeap) (sys : GcSys) : GcOp → Prop
  | .alloc marks nBytes _ => nBytes < 2 ^ H.sizeBits ∧ ∀ p ∈ sys.live, marks p.1 = true
  | .free block => sys.IsLive block
  | .realloc marks block nBytes _ => sys.IsLive block ∧
      nBytes + H.bytesPerBlock - 1 < 2 ^ H.sizeBits ∧ ∀ p ∈ sys.live, marks p.1 = true
  | .collect marks => ∀ p ∈ sys.live, marks p.1 = true
  | .write addr _ => ∃ p ∈ sys.live, H.blockAddr p.1 ≤ addr ∧ addr < H.blockAddr p.1 + p.2
  | .settings _ _ _ => True

/-- The step frees no chain after which the walk of `gc_free` gets into the pool. -/
def GcOp.Safe (H : GcHeap) (sys : GcSys) : GcOp → Prop
  | .free block => WalkSafe H sys.state.mem block [H.poolStart]
  | .realloc _ block nBytes allowMove => nBytes = 0 ∨ allowMove = true →
      WalkSafe H sys.state.mem block [H.poolStart, H.blockAddr block]
  | _ => True

/-- The systems that are reached from `gc_init` by steps that meet `guard`. -/
inductive GcRun (H : GcHeap) (guard : GcSys → GcOp → Prop) : GcSys → Prop
  | init (m : Memory) : GcRun H guard ⟨gcInit H m, []⟩
  | step {sys sys' : GcSys} {op : GcOp} {r : Option ℕ} (hrun : GcRun H guard sys)
      (hallowed : op.Allowed H sys) (hguard : guard sys op)
      (hstep : gcStep H sys op = some (r, sys')) : GcRun H guard sys'

/-- The chain in use that a step frees or resizes. -/
def GcOp.target : GcOp → Option ℕ
  | .free block => some block
  | .realloc _ block _ _ => some block
  | _ => none

/-- The bytes of the chain at `b`, which has `n` blocks, are those of the chain at `out`. -/
def SameBytes (H : GcHeap) (m m' : Memory) (b out n : ℕ) : Prop :=
  ∀ i < n, m' (H.blockAddr out + i) = m (H.blockAddr b + i)

/-- What a step does. Chains in use that it is not about stay, with their contents unless it is a
write; an allocated chain is in use afterwards; a resized chain is in use afterwards and starts
with the same bytes; a chain that could not be resized is unchanged. -/
structure StepEffect (H : GcHeap) (sys : GcSys) (op : GcOp) (r : Option ℕ) (sys' : GcSys) :
    Prop where
  others : ∀ p ∈ sys.live, op.target ≠ some p.1 → p ∈ sys'.live ∧
    ∀ n, IsChain H.poolBlockLen (atbGetKind sys.state.mem) p.1 n →
      IsChain H.poolBlockLen (atbGetKind sys'.state.mem) p.1 n ∧
      ((∀ a x, op ≠ .write a x) →
        SameBytes H sys.state.mem sys'.state.mem p.1 p.1 (n * H.bytesPerBlock))
  allocated : ∀ marks nBytes fin, op = .alloc marks nBytes fin →
    ∀ out, r = some out → (out, nBytes) ∈ sys'.live
  resized : ∀ marks b nBytes move, op = .realloc marks b nBytes move →
    ∀ n, IsChain H.poolBlockLen (atbGetKind sys.state.mem) b n →
      (∀ out, r = some out → (out, nBytes) ∈ sys'.live ∧
        SameBytes H sys.state.mem sys'.state.mem b out (min (n * H.bytesPerBlock) nBytes)) ∧
      (r = none → nBytes ≠ 0 → sys'.live = sys.live ∧
        IsChain H.poolBlockLen (atbGetKind sys'.state.mem) b n ∧
        SameBytes H sys.state.mem sys'.state.mem b b (n * H.bytesPerBlock))

/-- The invariant of runs. -/
structure GcInv (H : GcHeap) (sys : GcSys) : Prop where
  good : TableGood H sys.state.mem
  chains : ∀ p ∈ sys.live, ∃ n, IsChain H.poolBlockLen (atbGetKind sys.state.mem) p.1 n ∧
    p.2 ≤ n * H.bytesPerBlock
  nodup : (sys.live.map Prod.fst).Nodup

variable {H : GcHeap} {sys sys' : GcSys}

/-! ### One step -/

variable {b : ℕ}

theorem GcSys.mem_without {p : ℕ × ℕ} : p ∈ sys.without b ↔ p ∈ sys.live ∧ p.1 ≠ b := by
  rw [GcSys.without, List.mem_filter, decide_eq_true_eq]

theorem GcInv.nodup_without (hinv : GcInv H sys) (b : ℕ) : ((sys.without b).map Prod.fst).Nodup :=
  (List.filter_sublist.map Prod.fst).nodup hinv.nodup

variable {keep : ℕ → Prop} {s' : GcState}

/-- The invariant for some of the chains, after a step that preserves them. -/
theorem GcInv.of_preserves {live' : List (ℕ × ℕ)}
    (hinv : GcInv H sys) (hpres : Preserves H keep sys.state.mem s'.mem)
    (hlive : ∀ p ∈ live', p ∈ sys.live ∧ keep p.1) (hnodup : (live'.map Prod.fst).Nodup) :
    GcInv H ⟨s', live'⟩ where
  good := hpres.good
  chains p hp := by
    obtain ⟨hmem, hkeep⟩ := hlive p hp
    obtain ⟨n, hc, hle⟩ := hinv.chains p hmem
    exact ⟨n, (hpres.chains p.1 n hkeep hc).1, hle⟩
  nodup := hnodup

theorem GcInv.cons {s' : GcState} {live' : List (ℕ × ℕ)} (hinv : GcInv H ⟨s', live'⟩)
    {out n nBytes : ℕ} (hc : IsChain H.poolBlockLen (atbGetKind s'.mem) out n)
    (hle : nBytes ≤ n * H.bytesPerBlock) (hnew : ∀ p ∈ live', p.1 ≠ out) :
    GcInv H ⟨s', (out, nBytes) :: live'⟩ where
  good := hinv.good
  chains p hp := by
    rcases List.mem_cons.mp hp with rfl | hp
    · exact ⟨n, hc, hle⟩
    · exact hinv.chains p hp
  nodup := by
    refine List.nodup_cons.mpr ⟨fun hmem => ?_, hinv.nodup⟩
    obtain ⟨p, hp, heq⟩ := List.mem_map.mp hmem
    exact hnew p hp heq

variable {marks : ℕ → Bool}

theorem step_alloc (hinv : GcInv H sys) {nBytes : ℕ} {fin : Bool}
    (hn : nBytes < 2 ^ H.sizeBits) (hmarks : ∀ p ∈ sys.live, marks p.1 = true) :
    ∃ r sys', gcStep H sys (.alloc marks nBytes fin) = some (r, sys') ∧ GcInv H sys' ∧
      StepEffect H sys (.alloc marks nBytes fin) r sys' := by
  have heff := gcAlloc_spec hinv.good marks hn fin
  rw [gcStep]
  generalize gcAlloc H marks sys.state nBytes fin = res at heff
  obtain ⟨r, s'⟩ := res
  have hinv' : GcInv H ⟨s', sys.live⟩ := hinv.of_preserves heff.preserves
    (fun p hp => ⟨hp, hmarks p hp⟩) hinv.nodup
  have hothers : ∀ p ∈ sys.live, ∀ n,
      IsChain H.poolBlockLen (atbGetKind sys.state.mem) p.1 n →
      IsChain H.poolBlockLen (atbGetKind s'.mem) p.1 n ∧
        SameBytes H sys.state.mem s'.mem p.1 p.1 (n * H.bytesPerBlock) :=
    fun p hp n hc => heff.preserves.chains p.1 n (hmarks p hp) hc
  cases r with
  | none =>
    refine ⟨none, _, rfl, hinv', fun p hp _ => ⟨hp, fun n hc => ?_⟩,
      fun _ _ _ _ out hout => (nomatch hout), fun _ _ _ _ h => (nomatch h)⟩
    exact (hothers p hp n hc).imp_right fun h _ => h
  | some out =>
    obtain ⟨n, hout, hle, hne, -⟩ := heff.placed out rfl
    refine ⟨some out, _, rfl, hinv'.cons hout hle fun p hp => ?_,
      fun p hp _ => ⟨List.mem_cons_of_mem _ hp, fun n hc => ?_⟩, ?_,
      fun _ _ _ _ h => (nomatch h)⟩
    · obtain ⟨k, hc, -⟩ := hinv.chains p hp
      exact hne p.1 k (hmarks p hp) hc
    · exact (hothers p hp n hc).imp_right fun h _ => h
    · rintro _ _ _ ⟨⟩ _ ⟨⟩
      exact List.mem_cons_self

theorem step_free (hinv : GcInv H sys) (hlive : sys.IsLive b)
    (hsafe : WalkSafe H sys.state.mem b [H.poolStart]) :
    ∃ r sys', gcStep H sys (.free b) = some (r, sys') ∧ GcInv H sys' ∧
      StepEffect H sys (.free b) r sys' := by
  obtain ⟨k, hk⟩ := hlive
  obtain ⟨n, hc, -⟩ := hinv.chains (b, k) hk
  obtain ⟨s', hfree, hpres⟩ := gcFree_spec hinv.good hc hsafe
  rw [gcStep, hfree]
  refine ⟨none, _, rfl, hinv.of_preserves hpres (fun p hp => GcSys.mem_without.mp hp)
    (hinv.nodup_without b), fun p hp htarget => ?_, fun _ _ _ h => (nomatch h),
    fun _ _ _ _ h => (nomatch h)⟩
  have hne : p.1 ≠ b := fun h => htarget (congrArg some h.symm)
  exact ⟨GcSys.mem_without.mpr ⟨hp, hne⟩, fun n hc =>
    (hpres.chains p.1 n hne hc).imp_right fun h _ => h⟩

theorem step_realloc (hinv : GcInv H sys) {nBytes : ℕ} {move : Bool}
    (hlive : sys.IsLive b) (hn : nBytes + H.bytesPerBlock - 1 < 2 ^ H.sizeBits)
    (hmarks : ∀ p ∈ sys.live, marks p.1 = true)
    (hsafe : nBytes = 0 ∨ move = true →
      WalkSafe H sys.state.mem b [H.poolStart, H.blockAddr b]) :
    ∃ r sys', gcStep H sys (.realloc marks b nBytes move) = some (r, sys') ∧ GcInv H sys' ∧
      StepEffect H sys (.realloc marks b nBytes move) r sys' := by
  obtain ⟨k, hk⟩ := hlive
  obtain ⟨n, hc, -⟩ := hinv.chains (b, k) hk
  obtain ⟨r, s', hret, hzero, heff⟩ := gcRealloc_spec move hinv.good hc (hmarks _ hk) hn hsafe
  have hkeep : ∀ p ∈ sys.without b, p ∈ sys.live ∧ marks p.1 = true ∧ p.1 ≠ b := fun p hp => by
    obtain ⟨hmem, hne⟩ := GcSys.mem_without.mp hp
    exact ⟨hmem, hmarks p hmem, hne⟩
  have hinv' : GcInv H ⟨s', sys.without b⟩ :=
    hinv.of_preserves heff.others hkeep (hinv.nodup_without b)
  have hothers : ∀ p ∈ sys.live, (GcOp.realloc marks b nBytes move).target ≠ some p.1 →
      p ∈ sys.without b ∧ ∀ n, IsChain H.poolBlockLen (atbGetKind sys.state.mem) p.1 n →
        IsChain H.poolBlockLen (atbGetKind s'.mem) p.1 n ∧
          SameBytes H sys.state.mem s'.mem p.1 p.1 (n * H.bytesPerBlock) := by
    intro p hp htarget
    have hne : p.1 ≠ b := fun h => htarget (congrArg some h.symm)
    exact ⟨GcSys.mem_without.mpr ⟨hp, hne⟩, fun n hc =>
      heff.others.chains p.1 n ⟨hmarks p hp, hne⟩ hc⟩
  rw [gcStep, hret]
  cases r with
  | some out =>
    obtain ⟨n', hout, hle, hne, hsame⟩ := heff.resized out rfl
    refine ⟨some out, _, rfl, hinv'.cons hout hle fun p hp => ?_, fun p hp htarget => ?_,
      fun _ _ _ h => (nomatch h), ?_⟩
    · obtain ⟨hmem, hkeep⟩ := hkeep p hp
      obtain ⟨k', hc', -⟩ := hinv.chains p hmem
      exact hne p.1 k' hkeep hc'
    · obtain ⟨hmem, hchains⟩ := hothers p hp htarget
      exact ⟨List.mem_cons_of_mem _ hmem, fun n hc => (hchains n hc).imp_right fun h _ => h⟩
    · rintro _ _ _ _ ⟨⟩ n₁ hc₁
      refine ⟨?_, fun h => absurd h (Option.some_ne_none out)⟩
      rintro _ ⟨⟩
      rw [← hc.unique hc₁]
      exact ⟨List.mem_cons_self, hsame⟩
  | none =>
    dsimp only [Option.map_some]
    by_cases h0 : nBytes = 0
    · rw [if_pos h0]
      refine ⟨none, _, rfl, hinv', fun p hp htarget => ?_, fun _ _ _ h => (nomatch h), ?_⟩
      · exact (hothers p hp htarget).imp_right fun h n hc => (h n hc).imp_right fun h _ => h
      · rintro _ _ _ _ ⟨⟩ n₁ hc₁
        exact ⟨fun out hout => (nomatch hout), fun _ hne => absurd h0 hne⟩
    · rw [if_neg h0]
      have hsame := heff.failed rfl h0
      have hall : ∀ p ∈ sys.live, ∀ n, IsChain H.poolBlockLen (atbGetKind sys.state.mem) p.1 n →
          IsChain H.poolBlockLen (atbGetKind s'.mem) p.1 n ∧
            SameBytes H sys.state.mem s'.mem p.1 p.1 (n * H.bytesPerBlock) := by
        intro p hp n hc
        by_cases hpb : p.1 = b
        · exact hsame.chains p.1 n hpb hc
        · exact heff.others.chains p.1 n ⟨hmarks p hp, hpb⟩ hc
      refine ⟨none, _, rfl, ⟨heff.others.good, fun p hp => ?_, hinv.nodup⟩,
        fun p hp _ => ⟨hp, fun n hc => (hall p hp n hc).imp_right fun h _ => h⟩,
        fun _ _ _ h => (nomatch h), ?_⟩
      · obtain ⟨n, hc, hle⟩ := hinv.chains p hp
        exact ⟨n, (hall p hp n hc).1, hle⟩
      · rintro _ _ _ _ ⟨⟩ n₁ hc₁
        exact ⟨fun out hout => (nomatch hout), fun _ _ => ⟨rfl, hall (b, k) hk n₁ hc₁⟩⟩

/-- A collection, or another step that leaves the list of chains alone. -/
theorem step_of_preserves (hinv : GcInv H sys) {op : GcOp}
    (hstep : gcStep H sys op = some (none, ⟨s', sys.live⟩))
    (hpres : Preserves H keep sys.state.mem s'.mem) (hkeep : ∀ p ∈ sys.live, keep p.1)
    (hop : ∀ marks b nBytes move, op ≠ .realloc marks b nBytes move) :
    ∃ r sys', gcStep H sys op = some (r, sys') ∧ GcInv H sys' ∧ StepEffect H sys op r sys' :=
  ⟨none, _, hstep, hinv.of_preserves hpres (fun p hp => ⟨hp, hkeep p hp⟩) hinv.nodup,
    fun p hp _ => ⟨hp, fun n hc =>
      (hpres.chains p.1 n (hkeep p hp) hc).imp_right fun h _ => h⟩,
    fun _ _ _ _ _ hout => (nomatch hout), fun _ _ _ _ h => absurd h (hop _ _ _ _)⟩

theorem step_write (hinv : GcInv H sys) {a : ℕ} {x : BitVec 8}
    (ha : ∃ p ∈ sys.live, H.blockAddr p.1 ≤ a ∧ a < H.blockAddr p.1 + p.2) :
    ∃ r sys', gcStep H sys (.write a x) = some (r, sys') ∧ GcInv H sys' ∧
      StepEffect H sys (.write a x) r sys' := by
  obtain ⟨p, hp, hle, -⟩ := ha
  obtain ⟨n, hc, -⟩ := hinv.chains p hp
  have htables := H.tables_le_poolStart
  have haddr := (GcHeap.blockAddr_le hc.le).1
  have hsame : ∀ c < H.poolStart, Function.update sys.state.mem a x c = sys.state.mem c :=
    fun c hc => Function.update_of_ne (by omega) _ _
  have hkind := @atbGetKind_agree H sys.state.mem (Function.update sys.state.mem a x)
    fun c hc => hsame c (by omega)
  refine ⟨none, _, rfl, ⟨hinv.good.congr fun c hc => hsame c (by omega), fun q hq => ?_,
    hinv.nodup⟩, fun q hq _ => ⟨hq, fun n hc => ⟨isChain_congr hc hkind, fun h => ?_⟩⟩,
    fun _ _ _ h => (nomatch h), fun _ _ _ _ h => (nomatch h)⟩
  · obtain ⟨n, hc, hle⟩ := hinv.chains q hq
    exact ⟨n, isChain_congr hc hkind, hle⟩
  · exact absurd rfl (h a x)

/-- **Every step** that is allowed and safe returns and keeps the invariant. -/
theorem gcStep_spec (hinv : GcInv H sys) {op : GcOp} (hallowed : op.Allowed H sys)
    (hsafe : op.Safe H sys) :
    ∃ r sys', gcStep H sys op = some (r, sys') ∧ GcInv H sys' ∧ StepEffect H sys op r sys' := by
  cases op with
  | alloc marks nBytes fin => exact step_alloc hinv hallowed.1 hallowed.2
  | free b => exact step_free hinv hallowed hsafe
  | realloc marks b nBytes move =>
    exact step_realloc hinv hallowed.1 hallowed.2.1 hallowed.2.2 hsafe
  | collect marks =>
    exact step_of_preserves hinv rfl (gcCollectMarks_spec hinv.good marks).preserves hallowed
      fun _ _ _ _ h => nomatch h
  | write a x => exact step_write hinv hallowed
  | settings lockDepth autoCollect threshold =>
    exact step_of_preserves hinv rfl (.refl hinv.good fun _ => True) (fun _ _ => trivial)
      fun _ _ _ _ h => nomatch h

/-! ### Runs -/

/-- The invariant holds along every safe run. -/
theorem GcRun.inv (hrun : GcRun H (fun sys op => op.Safe H sys) sys) : GcInv H sys := by
  induction hrun with
  | init m =>
    exact ⟨gcInit_tableGood H m, fun p hp => absurd hp List.not_mem_nil, List.nodup_nil⟩
  | step _ hallowed hguard hstep ih =>
    obtain ⟨r, sys', hstep', hinv, -⟩ := gcStep_spec ih hallowed hguard
    rw [hstep] at hstep'
    cases hstep'
    exact hinv

/-- **The heap along a run**: when no walk of `gc_free` gets into the pool, the allocation table
stays well formed and without marks, the chains in use are long enough and disjoint, and every
further step returns, keeps the chains that it is not about, and `gc_realloc` keeps the bytes. -/
theorem gc_run_correct (hrun : GcRun H (fun sys op => op.Safe H sys) sys) :
    WellFormed H.poolBlockLen (atbGetKind sys.state.mem) ∧
    (∀ b < H.poolBlockLen, atbGetKind sys.state.mem b ≠ .mark) ∧
    (∀ p ∈ sys.live, ∃ n, IsChain H.poolBlockLen (atbGetKind sys.state.mem) p.1 n ∧
      p.2 ≤ n * H.bytesPerBlock) ∧
    sys.live.Pairwise (fun p q => ∀ n n',
      IsChain H.poolBlockLen (atbGetKind sys.state.mem) p.1 n →
      IsChain H.poolBlockLen (atbGetKind sys.state.mem) q.1 n' →
        p.1 + n ≤ q.1 ∨ q.1 + n' ≤ p.1) ∧
    ∀ op : GcOp, op.Allowed H sys → op.Safe H sys →
      ∃ r sys', gcStep H sys op = some (r, sys') ∧ StepEffect H sys op r sys' := by
  have hinv := hrun.inv
  refine ⟨hinv.good.wellFormed, hinv.good.no_mark, hinv.chains, ?_, fun op hallowed hsafe => ?_⟩
  · refine (List.pairwise_map.mp hinv.nodup).imp fun hne n n' hc hc' => ?_
    exact hc.disjoint hc' hne
  · obtain ⟨r, sys', hstep, -, heff⟩ := gcStep_spec hinv hallowed hsafe
    exact ⟨r, sys', hstep, heff⟩

/-- The system after a step that returns. -/
def GcSys.next (H : GcHeap) (sys : GcSys) (op : GcOp) : GcSys :=
  ((gcStep H sys op).getD (none, sys)).2

theorem GcRun.next {guard : GcSys → GcOp → Prop} (hrun : GcRun H guard sys) (op : GcOp)
    (hallowed : op.Allowed H sys) (hguard : guard sys op)
    (hstep : (gcStep H sys op).isSome = true) : GcRun H guard (sys.next H op) := by
  obtain ⟨⟨r, sys'⟩, hret⟩ := Option.isSome_iff_exists.mp hstep
  rw [GcSys.next, hret]
  exact hrun.step hallowed hguard hret

/-- A heap of 65 bytes: one byte of table, no gap, and a pool of four blocks of 16 bytes. -/
def gcHeapNoGap : GcHeap where
  toGcConfig := gcConfig32 false
  start := 15
  stop := 80
  start_le := by decide

/-- Chains of two blocks and of one on the heap without a gap. The second one is freed, and then the
first one grows. -/
theorem gc_run_correct_one_chain : ∃ sys : GcSys, sys.live = [(0, 40)] ∧
      WellFormed gcHeapNoGap.poolBlockLen (atbGetKind sys.state.mem) := by
  have htwo := ((@GcRun.init gcHeapNoGap (fun sys op => op.Safe gcHeapNoGap sys) fun _ => 0#8).next
    (.alloc (fun _ => true) 20 false) ⟨by decide, fun _ _ => rfl⟩ trivial (by decide +kernel)).next
    (.alloc (fun _ => true) 16 false) ⟨by decide, fun _ _ => rfl⟩ trivial (by decide +kernel)
  have hfreed := htwo.next (.free 2) ⟨16, by decide +kernel⟩
    (show WalkSafe gcHeapNoGap _ 2 [gcHeapNoGap.poolStart] by decide +kernel) (by decide +kernel)
  have hgrown := hfreed.next (.realloc (fun _ => true) 0 40 true)
    ⟨⟨20, by decide +kernel⟩, by decide, fun _ _ => rfl⟩
    (fun _ => show WalkSafe gcHeapNoGap _ 0 [gcHeapNoGap.poolStart, gcHeapNoGap.blockAddr 0] by
      decide +kernel) (by decide +kernel)
  exact ⟨_, by decide +kernel, (gc_run_correct hgrown).1⟩

/-! ### A chain that is moved to the first block -/

/-- Four chains of one block, the last with first byte 2, and then the first two freed. -/
def gcSysBeforeMove : GcSys :=
  [GcOp.alloc (fun _ => true) 16 false, .alloc (fun _ => true) 16 false,
    .alloc (fun _ => true) 16 false, .alloc (fun _ => true) 16 false,
    .write (gcHeapNoGap.blockAddr 3) 2#8, .free 0, .free 1].foldl (GcSys.next gcHeapNoGap)
    ⟨gcInit gcHeapNoGap fun _ => 0#8, []⟩

theorem gcSysBeforeMove_run : GcRun gcHeapNoGap (fun _ _ => True) gcSysBeforeMove := by
  have hone : ∀ sys, GcRun gcHeapNoGap (fun _ _ => True) sys →
      (gcStep gcHeapNoGap sys (.alloc (fun _ => true) 16 false)).isSome = true →
      GcRun gcHeapNoGap (fun _ _ => True)
        (sys.next gcHeapNoGap (.alloc (fun _ => true) 16 false)) :=
    fun sys hrun hstep => hrun.next _ ⟨by decide, fun _ _ => rfl⟩ trivial hstep
  have hfour := hone _ (hone _ (hone _ (hone _ (.init fun _ => 0#8) (by decide +kernel))
    (by decide +kernel)) (by decide +kernel)) (by decide +kernel)
  have hwritten := hfour.next (.write (gcHeapNoGap.blockAddr 3) 2#8)
    ⟨(3, 16), by decide +kernel, by decide, by decide⟩ trivial (by decide +kernel)
  have hfreed := hwritten.next (.free 0) ⟨16, by decide +kernel⟩ trivial (by decide +kernel)
  exact hfreed.next (.free 1) ⟨16, by decide +kernel⟩ trivial (by decide +kernel)

/-- **A byte is lost**: `gc_realloc` moves the last chain to the first block, and the `gc_free` of
its old place reads the first byte of the new place as a tail and clears it. -/
theorem gc_realloc_loses_byte : GcRun gcHeapNoGap (fun _ _ => True) gcSysBeforeMove ∧
    (3, 16) ∈ gcSysBeforeMove.live ∧
    (GcOp.realloc (fun _ => true) 3 32 true).Allowed gcHeapNoGap gcSysBeforeMove ∧
    gcSysBeforeMove.state.mem (gcHeapNoGap.blockAddr 3) = 2#8 ∧
    (gcStep gcHeapNoGap gcSysBeforeMove (.realloc (fun _ => true) 3 32 true)).map
      (fun p => (p.1, p.2.state.mem (gcHeapNoGap.blockAddr 0))) = some (some 0, 0#8) := by
  refine ⟨gcSysBeforeMove_run, by decide +kernel, ⟨⟨16, by decide +kernel⟩, by decide,
    fun _ _ => rfl⟩, by decide +kernel, by decide +kernel⟩

end Pycopy
