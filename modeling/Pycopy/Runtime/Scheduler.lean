import Pycopy.Lib.Machine
import Pycopy.Lib.RingBuffer
import Mathlib.Data.List.Infix
import Mathlib.Tactic.Positivity
import Mathlib.Tactic.Ring

/-!
# The Scheduler

`py/scheduler.c`: callbacks that interrupts leave for the virtual machine, in a ring buffer, and an
exception that they leave to be raised there. One signed counter says whether something is pending,
and how often the scheduler is locked. Interrupts, threads and the virtual machine get at it in any
order, each in atomic sections.

The counter has 16 bits. As long as no more than 32768 locks are held at once, the scheduler does
what it should after every sequence of atomic sections.

## Main results

* `sched_run_good`: what holds at the end of every run.
-/

open RingBuffer

namespace Pycopy

/-! ### The source -/

/-- `MICROPY_SCHEDULER_DEPTH`: a power of two that fits 8 bits -/
structure SchedConfig where
  log : ℕ
  log_le : log ≤ 7

def SchedConfig.depth (cfg : SchedConfig) : ℕ := 2 ^ cfg.log

/-- `IDX_MASK` -/
def SchedConfig.idxMask (cfg : SchedConfig) (i : ℕ) : ℕ := i &&& (cfg.depth - 1)

/-- `MP_SCHED_IDLE` -/
def schedIdle : ℤ := 1

/-- `MP_SCHED_LOCKED` -/
def schedLocked : ℤ := -1

/-- `MP_SCHED_PENDING` -/
def schedPending : ℤ := 0

/-- A value that is stored in an `int16_t` -/
def int16 (v : ℤ) : ℤ := v.bmod (2 ^ 16)

variable {α : Type}

/-- The state of the scheduler. The only exception that it is given is that of the keyboard. -/
structure SchedState (α : Type) where
  schedState : ℤ
  pendingException : Bool
  schedIdx : ℕ
  schedLen : ℕ
  schedQueue : ℕ → α

variable (cfg : SchedConfig)

/-- The state after `mp_init`. The queue is not initialised. -/
def schedInit (queue : ℕ → α) : SchedState α where
  schedState := schedIdle
  pendingException := false
  schedIdx := 0
  schedLen := 0
  schedQueue := queue

/-- `mp_keyboard_interrupt` -/
def keyboardInterrupt (s : SchedState α) : SchedState α :=
  { s with
    pendingException := true
    schedState := if s.schedState = schedIdle then schedPending else s.schedState }

/-- `mp_sched_schedule` -/
def schedSchedule (s : SchedState α) (item : α) : SchedState α × Bool :=
  if s.schedLen ≠ cfg.depth then
    ({ s with
       schedState := if s.schedState = schedIdle then schedPending else s.schedState
       schedLen := s.schedLen + 1
       schedQueue := Function.update s.schedQueue (cfg.idxMask (s.schedIdx + s.schedLen)) item },
     true)
  else (s, false)

/-- `mp_sched_lock` -/
def schedLock (s : SchedState α) : SchedState α :=
  { s with schedState := if s.schedState < 0 then int16 (s.schedState - 1) else schedLocked }

/-- `mp_sched_unlock` -/
def schedUnlock (s : SchedState α) : SchedState α :=
  let state := int16 (s.schedState + 1)
  { s with
    schedState :=
      if state = 0 then
        if s.pendingException ∨ s.schedLen ≠ 0 then schedPending else schedIdle
      else state }

/-- How the atomic section of `mp_handle_pending` ends: there is nothing to do, the exception is
raised, or the scheduler is locked and a callback is called, if there is one. -/
inductive Handled (α : Type)
  | pass
  | raise
  | tail (item : Option α)
  deriving DecidableEq, Repr

/-- `mp_handle_pending_tail` up to the end of the atomic section. What follows is the call, and then
`mp_sched_unlock`. -/
def handlePendingTail (s : SchedState α) : SchedState α × Handled α :=
  if s.schedLen ≠ 0 then
    ({ s with
       schedState := schedLocked
       schedIdx := cfg.idxMask (s.schedIdx + 1)
       schedLen := s.schedLen - 1 },
     .tail (some (s.schedQueue s.schedIdx)))
  else ({ s with schedState := schedLocked }, .tail none)

/-- The atomic section of `mp_handle_pending`. The test of the state in front of it is the same as
the one inside. -/
def handlePending (raiseExc : Bool) (s : SchedState α) : SchedState α × Handled α :=
  if s.schedState = schedPending then
    if s.pendingException then
      let s :=
        { s with
          pendingException := false
          schedState := if s.schedLen = 0 then schedIdle else s.schedState }
      if raiseExc then (s, .raise) else handlePendingTail cfg s
    else handlePendingTail cfg s
  else (s, .pass)

/-- The variant of `mp_handle_pending` in the loop of `mp_execute_bytecode` -/
def vmPendingCheck (s : SchedState α) : SchedState α × Handled α :=
  if s.schedState = schedPending then
    if s.pendingException then
      ({ s with
         pendingException := false
         schedState := if s.schedLen = 0 then schedIdle else s.schedState }, .raise)
    else handlePendingTail cfg s
  else (s, .pass)

theorem vmPendingCheck_eq (s : SchedState α) : vmPendingCheck cfg s = handlePending cfg true s := by
  simp only [vmPendingCheck, handlePending, if_true]

/-! ### Interleavings -/

/-- The scheduler with the locks that are held, and the calls of `mp_handle_pending_tail` that have
not come to their `mp_sched_unlock` -/
structure SchedSys (α : Type) where
  sched : SchedState α
  locks : ℕ
  tails : ℕ

/-- The atomic sections -/
inductive SchedOp (α : Type)
  | schedule (item : α)
  | lock
  | unlock
  | interrupt
  | handle (raiseExc : Bool)
  | vmCheck
  | tailUnlock

/-- What is seen of an atomic section -/
inductive SchedEvent (α : Type)
  | accepted (item : α)
  | refused (item : α)
  | locked
  | unlocked
  | interrupted
  | passed
  | raised
  | entered (item : Option α)
  | left
  deriving DecidableEq, Repr

/-- A call of `mp_handle_pending`, or the variant of it -/
def SchedSys.handled (s : SchedSys α) : SchedState α × Handled α → SchedSys α × SchedEvent α
  | (sched, .pass) => ({ s with sched := sched }, .passed)
  | (sched, .raise) => ({ s with sched := sched }, .raised)
  | (sched, .tail item) => ({ s with sched := sched, tails := s.tails + 1 }, .entered item)

/-- One atomic section. A lock is only released by who holds it. -/
def schedStep (s : SchedSys α) : SchedOp α → Option (SchedSys α × SchedEvent α)
  | .schedule item =>
    let (sched, ret) := schedSchedule cfg s.sched item
    some ({ s with sched := sched }, if ret then .accepted item else .refused item)
  | .lock => some ({ s with sched := schedLock s.sched, locks := s.locks + 1 }, .locked)
  | .unlock =>
    if s.locks = 0 then none
    else some ({ s with sched := schedUnlock s.sched, locks := s.locks - 1 }, .unlocked)
  | .interrupt => some ({ s with sched := keyboardInterrupt s.sched }, .interrupted)
  | .handle raiseExc => some (s.handled (handlePending cfg raiseExc s.sched))
  | .vmCheck => some (s.handled (vmPendingCheck cfg s.sched))
  | .tailUnlock =>
    if s.tails = 0 then none
    else some ({ s with sched := schedUnlock s.sched, tails := s.tails - 1 }, .left)

/-- The runs from the state after `mp_init` -/
def schedRun (queue : ℕ → α) (ops : List (SchedOp α)) : Option (SchedSys α × List (SchedEvent α)) :=
  Machine.run (schedStep cfg) { sched := schedInit queue, locks := 0, tails := 0 } ops

/-! ### What is seen of a run -/

/-- The callbacks that were accepted, in order -/
def acceptedItems (tr : List (SchedEvent α)) : List α :=
  tr.filterMap fun
    | .accepted item => some item
    | _ => none

/-- The callbacks that were called, in order -/
def calledItems (tr : List (SchedEvent α)) : List α :=
  tr.filterMap fun
    | .entered item => item
    | _ => none

/-- The locks that are held: those of `mp_sched_lock`, and one for every callback that runs -/
def heldLocks (tr : List (SchedEvent α)) : ℤ :=
  tr.foldl (fun n ev =>
    match ev with
    | .locked | .entered _ => n + 1
    | .unlocked | .left => n - 1
    | _ => n) 0

/-- There was an interrupt whose exception has not been taken since. -/
def interruptPending (tr : List (SchedEvent α)) : Bool :=
  tr.foldl (fun b ev =>
    match ev with
    | .interrupted => true
    | .raised | .entered _ => false
    | _ => b) false

/-- The callbacks in the queue -/
def SchedState.queue (s : SchedState α) : List α :=
  Ring.contents cfg.depth ⟨s.schedIdx, s.schedLen, s.schedQueue⟩

/-- What is right after a run: the accepted callbacks are called once and in order, and those that
are not called yet are in the queue; a callback is refused only if the queue is full; a callback is
called and an exception is raised only if no lock is held, and an exception is raised only once; the
state says whether a lock is held, and otherwise whether something is pending, and then
`mp_handle_pending` calls the first callback or raises the exception. -/
structure SchedGood (s : SchedSys α) (tr : List (SchedEvent α)) : Prop where
  fifo : acceptedItems tr = calledItems tr ++ s.sched.queue cfg
  refused : ∀ tr₁ item tr₂, tr = tr₁ ++ .refused item :: tr₂ →
    (acceptedItems tr₁).length = (calledItems tr₁).length + cfg.depth
  entered : ∀ tr₁ item tr₂, tr = tr₁ ++ .entered item :: tr₂ → heldLocks tr₁ = 0
  raised : ∀ tr₁ tr₂, tr = tr₁ ++ .raised :: tr₂ →
    heldLocks tr₁ = 0 ∧ interruptPending tr₁ = true
  locked : s.sched.schedState < 0 ↔ 0 < heldLocks tr
  pending : ¬s.sched.schedState < 0 →
    (s.sched.schedState = schedPending ↔
      s.sched.queue cfg ≠ [] ∨ s.sched.pendingException = true) ∧
    (s.sched.schedState = schedPending ∨ s.sched.schedState = schedIdle)
  progress : ¬s.sched.schedState < 0 → ∀ item rest, s.sched.queue cfg = item :: rest →
    ∀ raiseExc, (handlePending cfg raiseExc s.sched).2 =
      if raiseExc ∧ s.sched.pendingException then .raise else .tail (some item)

/-! ### The counter -/

theorem int16_eq {v : ℤ} (h₁ : -32768 ≤ v) (h₂ : v < 32768) : int16 v = v :=
  Int.bmod_eq_of_le (by omega) (by omega)

/-- The counter when `d` locks are held -/
def SchedState.Level (s : SchedState α) (d : ℕ) : Prop :=
  s.schedState =
    if d = 0 then if s.pendingException ∨ s.schedLen ≠ 0 then schedPending else schedIdle
    else -(d : ℤ)

section Level

variable {cfg} {s : SchedState α} {d : ℕ}

theorem SchedState.Level.unlocked (h : s.Level 0) :
    s.schedState = if s.pendingException ∨ s.schedLen ≠ 0 then schedPending else schedIdle := by
  rwa [SchedState.Level, if_pos rfl] at h

theorem SchedState.Level.locked (h : s.Level d) (hd : d ≠ 0) : s.schedState = -(d : ℤ) := by
  rwa [SchedState.Level, if_neg hd] at h

/-- The state is pending only if no lock is held. -/
theorem SchedState.Level.eq_zero (h : s.Level d) (hs : s.schedState = schedPending) : d = 0 := by
  by_contra hd
  rw [h.locked hd, schedPending] at hs
  omega

/-- An interrupt changes the state from idle to pending. -/
theorem SchedState.Level.wake (h : s.Level d) {s' : SchedState α}
    (hs : s'.schedState = if s.schedState = schedIdle then schedPending else s.schedState)
    (hbusy : s'.pendingException ∨ s'.schedLen ≠ 0) : s'.Level d := by
  rw [SchedState.Level, hs]
  by_cases hd : d = 0
  · subst hd
    rw [if_pos rfl, if_pos hbusy, h.unlocked]
    split <;> simp [schedPending, schedIdle]
  · rw [if_neg hd, h.locked hd, if_neg]
    rw [schedIdle]
    omega

theorem SchedState.Level.lock (h : s.Level d) (hd : d < 32768) : (schedLock s).Level (d + 1) := by
  rw [SchedState.Level, if_neg (Nat.succ_ne_zero d), schedLock]
  by_cases h0 : d = 0
  · subst h0
    have hs : ¬s.schedState < 0 := by
      rw [h.unlocked]
      split <;> simp [schedPending, schedIdle]
    rw [if_neg hs]
    rfl
  · have hs := h.locked h0
    rw [if_pos (by omega), int16_eq (by omega) (by omega), hs]
    push_cast
    ring

theorem SchedState.Level.unlock (h : s.Level (d + 1)) (hd : d ≤ 32768) :
    (schedUnlock s).Level d := by
  have hs := h.locked (Nat.succ_ne_zero d)
  push_cast at hs
  have hnext : int16 (s.schedState + 1) = -(d : ℤ) := by
    rw [hs, int16_eq (by omega) (by omega)]
    ring
  rw [SchedState.Level, schedUnlock, hnext]
  dsimp only
  by_cases h0 : d = 0
  · subst h0
    rfl
  · rw [if_neg h0, if_neg (by omega)]

end Level

/-! ### The queue -/

section Queue

variable {cfg}

/-- The places of the queue are in the array. -/
structure SchedState.InArray (cfg : SchedConfig) (s : SchedState α) : Prop where
  idx : s.schedIdx < cfg.depth
  len : s.schedLen ≤ cfg.depth

theorem SchedConfig.depth_pos : 0 < cfg.depth := Nat.two_pow_pos _

theorem SchedConfig.idxMask_eq (i : ℕ) : cfg.idxMask i = i % cfg.depth :=
  Nat.and_two_pow_sub_one_eq_mod i cfg.log

variable {s : SchedState α}

theorem SchedState.length_queue : (s.queue cfg).length = s.schedLen := Ring.length_contents _

theorem SchedState.queue_eq_nil_iff : s.queue cfg = [] ↔ s.schedLen = 0 := by
  rw [← List.length_eq_zero_iff, SchedState.length_queue]

@[simp] theorem queue_schedLock : (schedLock s).queue cfg = s.queue cfg := rfl

@[simp] theorem queue_schedUnlock : (schedUnlock s).queue cfg = s.queue cfg := rfl

@[simp] theorem queue_keyboardInterrupt : (keyboardInterrupt s).queue cfg = s.queue cfg := rfl

@[simp] theorem pendingException_schedLock :
    (schedLock s).pendingException = s.pendingException := rfl

@[simp] theorem pendingException_schedUnlock :
    (schedUnlock s).pendingException = s.pendingException := rfl

theorem queue_schedSchedule (h : s.schedLen < cfg.depth) (item : α) :
    (schedSchedule cfg s item).1.queue cfg = s.queue cfg ++ [item] := by
  rw [schedSchedule, if_pos (Nat.ne_of_lt h), SchedState.queue]
  dsimp only
  rw [SchedConfig.idxMask_eq]
  exact Ring.contents_push (r := ⟨s.schedIdx, s.schedLen, s.schedQueue⟩) h item

/-- `mp_handle_pending_tail` takes the first callback out of the queue. -/
theorem handlePendingTail_spec (h : s.InArray cfg) :
    ∃ s' item, handlePendingTail cfg s = (s', .tail item) ∧ item = (s.queue cfg).head? ∧
      s.queue cfg = item.toList ++ s'.queue cfg ∧ s'.schedState = schedLocked ∧
      s'.pendingException = s.pendingException ∧ s'.InArray cfg := by
  rw [handlePendingTail]
  by_cases hlen : s.schedLen = 0
  · rw [if_neg (not_not.mpr hlen)]
    refine ⟨_, none, rfl, ?_, rfl, rfl, rfl, h.idx, h.len⟩
    rw [SchedState.queue_eq_nil_iff.mpr hlen]
    rfl
  · rw [if_pos hlen]
    have hpop := @Ring.contents_pop α cfg.depth ⟨s.schedIdx, s.schedLen, s.schedQueue⟩
      (Nat.pos_of_ne_zero hlen)
    dsimp only at hpop
    rw [Nat.mod_eq_of_lt h.idx] at hpop
    refine ⟨_, _, rfl, ?_, ?_, rfl, rfl, ?_, ?_⟩
    · rw [SchedState.queue, hpop]
      rfl
    · rw [SchedState.queue, hpop, SchedState.queue]
      dsimp only [Ring.pop]
      rw [SchedConfig.idxMask_eq]
      rfl
    · rw [SchedConfig.idxMask_eq]
      exact Nat.mod_lt _ SchedConfig.depth_pos
    · exact Nat.le_trans (Nat.sub_le _ _) h.len

/-- **What `mp_handle_pending` can do**: nothing, raise the exception, or call the first callback.
The last two are only done when no lock is held. -/
theorem handlePending_cases (raiseExc : Bool) {d : ℕ} (hd : s.Level d) (h : s.InArray cfg) :
    (handlePending cfg raiseExc s = (s, .pass) ∧ s.schedState ≠ schedPending) ∨
    (∃ s', handlePending cfg raiseExc s = (s', .raise) ∧ raiseExc = true ∧ d = 0 ∧
      s.pendingException = true ∧ s'.pendingException = false ∧ s'.Level 0 ∧ s'.InArray cfg ∧
      s'.queue cfg = s.queue cfg) ∨
    ∃ s' item, handlePending cfg raiseExc s = (s', .tail item) ∧ d = 0 ∧
      (raiseExc && s.pendingException) = false ∧ item = (s.queue cfg).head? ∧
      s'.pendingException = false ∧ s'.Level 1 ∧ s'.InArray cfg ∧
      s.queue cfg = item.toList ++ s'.queue cfg := by
  by_cases hp : s.schedState = schedPending
  case neg => exact .inl ⟨by rw [handlePending, if_neg hp], hp⟩
  right
  obtain rfl := hd.eq_zero hp
  rw [handlePending, if_pos hp]
  cases hexc : s.pendingException with
  | false =>
    right
    obtain ⟨s', item, heq, hitem, hqueue, hstate, hexc', harr⟩ := handlePendingTail_spec h
    rw [if_neg Bool.false_ne_true, heq]
    exact ⟨s', item, rfl, rfl, Bool.and_false _, hitem, hexc'.trans hexc, hstate, harr, hqueue⟩
  | true =>
    rw [if_pos rfl]
    cases raiseExc with
    | true =>
      left
      refine ⟨_, rfl, rfl, rfl, rfl, rfl, ?_, ⟨h.idx, h.len⟩, rfl⟩
      rw [SchedState.Level, if_pos rfl, hp]
      by_cases hlen : s.schedLen = 0 <;> simp [hlen]
    | false =>
      right
      obtain ⟨s', item, heq, hitem, hqueue, hstate, hexc', harr⟩ :=
        @handlePendingTail_spec α cfg
          { s with
            pendingException := false
            schedState := if s.schedLen = 0 then schedIdle else s.schedState } ⟨h.idx, h.len⟩
      exact ⟨s', item, heq, rfl, rfl, hitem, hexc', hstate, harr, hqueue⟩

end Queue

/-! ### One atomic section -/

/-- What holds after every run -/
structure SchedInv (s : SchedSys α) (tr : List (SchedEvent α)) : Prop where
  inArray : s.sched.InArray cfg
  held : heldLocks tr = (s.locks + s.tails : ℕ)
  level : s.sched.Level (s.locks + s.tails)
  exc : s.sched.pendingException = interruptPending tr
  fifo : acceptedItems tr = calledItems tr ++ s.sched.queue cfg

/-- What an event says about all that was seen before it -/
def EventOk (tr : List (SchedEvent α)) : SchedEvent α → Prop
  | .refused _ => (acceptedItems tr).length = (calledItems tr).length + cfg.depth
  | .entered _ => heldLocks tr = 0
  | .raised => heldLocks tr = 0 ∧ interruptPending tr = true
  | _ => True

section Step

variable {cfg} {s s' : SchedSys α} {tr : List (SchedEvent α)} {ev : SchedEvent α}

@[simp] theorem acceptedItems_concat : acceptedItems (tr ++ [ev]) =
      acceptedItems tr ++ (match ev with | .accepted item => [item] | _ => []) := by
  rw [acceptedItems, List.filterMap_append]
  cases ev <;> rfl

@[simp] theorem calledItems_concat : calledItems (tr ++ [ev]) =
      calledItems tr ++ (match ev with | .entered item => item.toList | _ => []) := by
  rw [calledItems, List.filterMap_append]
  cases ev with
  | entered item => cases item <;> rfl
  | _ => rfl

@[simp] theorem heldLocks_concat : heldLocks (tr ++ [ev]) =
      match ev with
      | .locked | .entered _ => heldLocks tr + 1
      | .unlocked | .left => heldLocks tr - 1
      | _ => heldLocks tr := by
  rw [heldLocks, List.foldl_append]
  rfl

@[simp] theorem interruptPending_concat : interruptPending (tr ++ [ev]) =
      match ev with
      | .interrupted => true
      | .raised | .entered _ => false
      | _ => interruptPending tr := by
  rw [interruptPending, List.foldl_append]
  rfl

/-- A call of `mp_handle_pending` keeps the invariant. -/
theorem SchedInv.handle (h : SchedInv cfg s tr) (raiseExc : Bool)
    (heq : s.handled (handlePending cfg raiseExc s.sched) = (s', ev)) :
    SchedInv cfg s' (tr ++ [ev]) ∧ EventOk cfg tr ev := by
  obtain ⟨harr, hheld, hlevel, hexc, hfifo⟩ := h
  rcases handlePending_cases raiseExc hlevel harr with
    ⟨hp, -⟩ | ⟨t, hr, -, hd, hexc₀, hexc', hlevel', harr', hqueue⟩ |
    ⟨t, item, ht, hd, -, -, hexc', hlevel', harr', hqueue⟩
  · rw [hp] at heq
    cases heq
    exact ⟨⟨harr, by simpa using hheld, hlevel, by simpa using hexc, by simpa using hfifo⟩, trivial⟩
  · rw [hr] at heq
    cases heq
    rw [hd] at hheld
    refine ⟨⟨harr', by simpa [hd] using hheld, by rwa [hd], by simpa using hexc', ?_⟩, hheld, ?_⟩
    · simpa [hqueue] using hfifo
    · rwa [← hexc]
  · rw [ht] at heq
    cases heq
    rw [hd] at hheld
    refine ⟨⟨harr', ?_, ?_, by simpa using hexc', ?_⟩, hheld⟩
    · simp only [heldLocks_concat, hheld]
      omega
    · dsimp only
      rwa [← Nat.add_assoc, hd]
    · simpa [hqueue] using hfifo

theorem SchedInv.unlock (h : SchedInv cfg s tr) (hev : ev = .unlocked ∨ ev = .left)
    (hsched : s'.sched = schedUnlock s.sched) (hlocks : s'.locks + s'.tails + 1 = s.locks + s.tails)
    (hheld' : heldLocks (tr ++ [ev]) ≤ 32768) : SchedInv cfg s' (tr ++ [ev]) := by
  obtain ⟨harr, hheld, hlevel, hexc, hfifo⟩ := h
  have hnext : heldLocks (tr ++ [ev]) = (s'.locks + s'.tails : ℕ) := by
    rcases hev with rfl | rfl <;> simp only [heldLocks_concat, hheld] <;> omega
  rw [← hlocks] at hlevel
  refine ⟨?_, hnext, ?_, ?_, ?_⟩
  · rw [hsched]
    exact ⟨harr.idx, harr.len⟩
  · rw [hsched]
    exact hlevel.unlock (by omega)
  · rw [hsched]
    rcases hev with rfl | rfl <;> simpa using hexc
  · rw [hsched]
    rcases hev with rfl | rfl <;> simpa using hfifo

/-- **An atomic section keeps the invariant**, as long as there are not too many locks. -/
theorem SchedInv.step (h : SchedInv cfg s tr) {op : SchedOp α}
    (hstep : schedStep cfg s op = some (s', ev)) (hheld' : heldLocks (tr ++ [ev]) ≤ 32768) :
    SchedInv cfg s' (tr ++ [ev]) ∧ EventOk cfg tr ev := by
  have ⟨harr, hheld, hlevel, hexc, hfifo⟩ := h
  cases op with
  | schedule item =>
    by_cases hfull : s.sched.schedLen = cfg.depth
    · have hret : schedSchedule cfg s.sched item = (s.sched, false) := by
        rw [schedSchedule, if_neg (not_not.mpr hfull)]
      simp only [schedStep, hret] at hstep
      cases hstep
      refine ⟨⟨harr, by simpa using hheld, hlevel, by simpa using hexc, by simpa using hfifo⟩, ?_⟩
      rw [if_neg Bool.false_ne_true, EventOk, hfifo, List.length_append, SchedState.length_queue,
        hfull]
    · have hlt : s.sched.schedLen < cfg.depth := lt_of_le_of_ne harr.len hfull
      have hqueue := queue_schedSchedule hlt item
      simp only [schedSchedule, if_pos hfull] at hqueue
      simp only [schedStep, schedSchedule, if_pos hfull, if_true] at hstep
      cases hstep
      refine ⟨⟨⟨harr.idx, hlt⟩, by simpa using hheld, ?_, by simpa using hexc, ?_⟩, trivial⟩
      · exact hlevel.wake rfl (.inr (Nat.succ_ne_zero _))
      · simp only [hqueue, acceptedItems_concat, calledItems_concat, hfifo, List.append_assoc,
          List.append_nil]
  | lock =>
    cases hstep
    simp only [heldLocks_concat, hheld] at hheld'
    refine ⟨⟨⟨harr.idx, harr.len⟩, ?_, ?_, by simpa using hexc, by simpa using hfifo⟩, trivial⟩
    · simp only [heldLocks_concat, hheld]
      omega
    · dsimp only
      rw [Nat.add_right_comm]
      exact hlevel.lock (by omega)
  | unlock =>
    rw [schedStep] at hstep
    split at hstep
    · cases hstep
    · next hlocks =>
        cases hstep
        exact ⟨h.unlock (.inl rfl) rfl (by dsimp only; omega) hheld', trivial⟩
  | interrupt =>
    cases hstep
    refine ⟨⟨⟨harr.idx, harr.len⟩, by simpa using hheld, ?_, ?_, by simpa using hfifo⟩, trivial⟩
    · exact hlevel.wake rfl (.inl rfl)
    · rw [interruptPending_concat]
      rfl
  | handle raiseExc => exact h.handle raiseExc (Option.some.inj hstep)
  | vmCheck =>
    rw [schedStep, vmPendingCheck_eq] at hstep
    exact h.handle true (Option.some.inj hstep)
  | tailUnlock =>
    rw [schedStep] at hstep
    split at hstep
    · cases hstep
    · next htails =>
        cases hstep
        exact ⟨h.unlock (.inr rfl) rfl (by dsimp only; omega) hheld', trivial⟩

end Step

/-! ### Runs -/

section Run

variable {cfg} {s : SchedSys α} {tr : List (SchedEvent α)}

theorem schedInv_init (queue : ℕ → α) :
    SchedInv cfg { sched := schedInit queue, locks := 0, tails := 0 } [] where
  inArray := ⟨SchedConfig.depth_pos, Nat.zero_le _⟩
  held := rfl
  level := by simp [SchedState.Level, schedInit]
  exc := rfl
  fifo := rfl

/-- The invariant and the history of a state give all that should hold of it. -/
theorem SchedInv.good (h : SchedInv cfg s tr) (hall : Machine.Always (EventOk cfg) tr) :
    SchedGood cfg s tr := by
  have ⟨harr, hheld, hlevel, hexc, hfifo⟩ := h
  have hneg : s.sched.schedState < 0 ↔ s.locks + s.tails ≠ 0 := by
    constructor
    · intro hlt hd
      rw [hd] at hlevel
      have := hlevel.unlocked
      split at this <;> rw [this] at hlt <;> exact absurd hlt (by decide)
    · intro hd
      rw [hlevel.locked hd]
      omega
  have hunlocked (hs : ¬s.sched.schedState < 0) : s.sched.Level 0 := by
    rwa [← not_not.mp (mt hneg.mpr hs)]
  refine ⟨hfifo, fun tr₁ item tr₂ he => hall _ _ _ he, fun tr₁ item tr₂ he => hall _ _ _ he,
    fun tr₁ tr₂ he => hall _ _ _ he, ?_, ?_, ?_⟩
  · rw [hneg, hheld]
    omega
  · intro hs
    have hstate := (hunlocked hs).unlocked
    rw [ne_eq, SchedState.queue_eq_nil_iff, or_comm]
    split at hstate
    · next hbusy => exact ⟨iff_of_true hstate hbusy, .inl hstate⟩
    · next hbusy =>
        refine ⟨iff_of_false ?_ hbusy, .inr hstate⟩
        rw [hstate]
        decide
  · intro hs item rest hqueue raiseExc
    have hlen : s.sched.schedLen ≠ 0 := by
      rw [ne_eq, ← @SchedState.queue_eq_nil_iff α cfg, hqueue]
      exact List.cons_ne_nil _ _
    have hpending : s.sched.schedState = schedPending := by
      rw [(hunlocked hs).unlocked, if_pos (.inr hlen)]
    rcases handlePending_cases raiseExc hlevel harr with
      ⟨-, hp⟩ | ⟨t, hr, rfl, -, hexc₀, -⟩ | ⟨t, item', ht, -, hor, hitem, -⟩
    · exact absurd hpending hp
    · rw [hr, if_pos ⟨rfl, hexc₀⟩]
    · rw [ht, if_neg (by simpa using hor), hitem, hqueue]
      rfl

/-- **The scheduler is right after every run** in which no more than 32768 locks are held at
once. -/
theorem sched_run_good (queue : ℕ → α) {ops : List (SchedOp α)}
    (hrun : schedRun cfg queue ops = some (s, tr))
    (hlocks : ∀ tr₁, tr₁ <+: tr → heldLocks tr₁ ≤ 32768) : SchedGood cfg s tr := by
  have hinv := Machine.run_invariant
    (fun s tr => (∀ tr₁, tr₁ <+: tr → heldLocks tr₁ ≤ 32768) →
      SchedInv cfg s tr ∧ Machine.Always (EventOk cfg) tr)
    (fun s tr op s' ev h hstep hb => by
      obtain ⟨hinv, hall⟩ := h fun tr₁ htr => hb tr₁ (htr.trans (List.prefix_append _ _))
      obtain ⟨hinv', hev⟩ := hinv.step hstep (hb _ (List.prefix_refl _))
      exact ⟨hinv', hall.concat hev⟩)
    (fun _ => ⟨schedInv_init queue, Machine.always_nil _⟩) hrun
  obtain ⟨hinv, hall⟩ := hinv hlocks
  exact hinv.good hall

/-- An interrupt and two callbacks, one of them while the other is called -/
theorem sched_run_two_callbacks : ∃ s tr, schedRun ⟨2, by decide⟩ (fun _ => 0)
        [.schedule 7, .interrupt, .vmCheck, .handle true, .schedule 8, .tailUnlock, .lock, .unlock,
          .vmCheck] = some (s, tr) ∧
      tr = [.accepted 7, .interrupted, .raised, .entered (some 7), .accepted 8, .left, .locked,
        .unlocked, .entered (some 8)] ∧
      SchedGood ⟨2, by decide⟩ s tr := by
  have hmap : (schedRun ⟨2, by decide⟩ (fun _ => 0)
      [.schedule 7, .interrupt, .vmCheck, .handle true, .schedule 8, .tailUnlock, .lock, .unlock,
        .vmCheck]).map Prod.snd =
      some [.accepted 7, .interrupted, .raised, .entered (some 7), .accepted 8, .left, .locked,
        .unlocked, .entered (some 8)] := by decide
  obtain ⟨⟨s, tr⟩, hrun, rfl⟩ := Option.map_eq_some_iff.mp hmap
  refine ⟨s, _, hrun, rfl, sched_run_good _ hrun ?_⟩
  simp only [← List.mem_inits]
  decide

end Run

/-! ### Too many locks -/

/-- The scheduler with `n` locks and nothing to do -/
def lockedSys (queue : ℕ → α) (n : ℕ) : SchedSys α where
  sched := { schedInit queue with schedState := if n = 0 then schedIdle else -(n : ℤ) }
  locks := n
  tails := 0

theorem schedStep_lock (queue : ℕ → α) {n : ℕ} (h : n < 32768) :
    schedStep cfg (lockedSys queue n) .lock = some (lockedSys queue (n + 1), .locked) := by
  have hlevel : (lockedSys queue n).sched.Level n := by
    rw [SchedState.Level, lockedSys]
    simp [schedInit]
  have hstate := (hlevel.lock h).locked (Nat.succ_ne_zero n)
  simp only [schedLock] at hstate
  simp only [schedStep, schedLock, hstate]
  rfl

theorem run_locks (queue : ℕ → α) (k : ℕ) {n : ℕ} (h : n + k ≤ 32768) :
    Machine.run (schedStep cfg) (lockedSys queue n) (List.replicate k .lock) =
      some (lockedSys queue (n + k), List.replicate k .locked) := by
  induction k generalizing n with
  | zero => rfl
  | succ k ih =>
    refine Machine.run_cons_eq_some.mpr ⟨_, _, _, schedStep_lock cfg queue (by omega), ?_, rfl⟩
    rw [ih (by omega), Nat.add_right_comm, Nat.add_assoc]

theorem heldLocks_replicate (k : ℕ) :
    heldLocks (List.replicate k (.locked : SchedEvent α)) = k := by
  induction k with
  | zero => rfl
  | succ k ih =>
    rw [List.replicate_succ', heldLocks_concat, ih]
    push_cast
    rfl

/-- With 32770 nested locks the counter has overflowed: when one of them is released, a callback is
called although the others are still held. -/
theorem sched_lock_overflows : ∃ s tr, schedRun ⟨2, by decide⟩ (fun _ => 0)
        (List.replicate 32768 .lock ++ [.lock, .lock, .unlock, .schedule 7, .vmCheck]) =
          some (s, tr ++ [.entered (some 7)]) ∧
      heldLocks tr = 32769 := by
  have htail : (Machine.run (schedStep ⟨2, by decide⟩) (lockedSys (fun _ => 0) (0 + 32768))
      [.lock, .lock, .unlock, .schedule 7, .vmCheck]).map Prod.snd =
        some [.locked, .locked, .unlocked, .accepted 7, .entered (some 7)] := by decide
  obtain ⟨⟨s, tr⟩, hrun, rfl⟩ := Option.map_eq_some_iff.mp htail
  refine ⟨s, List.replicate 32768 SchedEvent.locked ++ [SchedEvent.locked] ++ [SchedEvent.locked] ++
    [SchedEvent.unlocked] ++ [SchedEvent.accepted 7], ?_, ?_⟩
  · have h := Machine.run_append (run_locks _ (fun _ => 0) 32768 (Nat.le_refl _)) hrun
    simp only [List.append_assoc, List.cons_append, List.nil_append]
    exact h
  · simp only [heldLocks_concat, heldLocks_replicate]
    rfl

end Pycopy
