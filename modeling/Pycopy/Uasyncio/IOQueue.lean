import Pycopy.Lib.Machine
import Mathlib.Data.List.AList
import Mathlib.Data.Fintype.Basic

/-!
# The Queue of Tasks that Wait for Streams

`uasyncio` keeps one entry for every stream that tasks wait for, with a task that waits to read and
a task that waits to write, and registers the stream with a poller for the directions that are
needed. The two tasks share the entry and the registration.

A task keeps its place until it is woken by an event or removed, with one exception: `remove`
deletes the whole entry of a stream, also if another task waits for the stream in the other
direction. That task is then never woken again.

The poller is the map of streams to event masks that `register`, `modify` and `unregister` define.

## Main results

* `io_queue_keeps_iff`: registrations are kept if and only if no task is removed from a stream that
  another task waits for.
-/

namespace Pycopy

/-! ### The queue -/

/-- The index of a task in an entry: 0 for reading and 1 for writing -/
inductive IODir
  | read
  | write
  deriving DecidableEq, Repr

instance : Fintype IODir := ⟨{.read, .write}, fun d => by cases d <;> decide⟩

/-- `select.POLLIN` -/
def pollin : BitVec 16 := 1

/-- `select.POLLOUT` -/
def pollout : BitVec 16 := 4

def IODir.mask : IODir → BitVec 16
  | .read => pollin
  | .write => pollout

def IODir.other : IODir → IODir
  | .read => .write
  | .write => .read

/-- An event other than that of the other direction: the direction itself, or an error -/
def IODir.Hit (d : IODir) (ev : BitVec 16) : Prop := ev &&& ~~~d.other.mask ≠ 0

instance (d : IODir) (ev : BitVec 16) : Decidable (d.Hit ev) := inferInstanceAs (Decidable (_ ≠ _))

/-- `[task_waiting_read, task_waiting_write, stream]` -/
structure IOEntry (T : Type) where
  reader : Option T
  writer : Option T
  deriving DecidableEq, Repr

namespace IOEntry

variable {T : Type}

def slot (e : IOEntry T) : IODir → Option T
  | .read => e.reader
  | .write => e.writer

def set (e : IOEntry T) (v : Option T) : IODir → IOEntry T
  | .read => { e with reader := v }
  | .write => { e with writer := v }

def empty : IOEntry T := ⟨none, none⟩

end IOEntry

variable {S T : Type} [DecidableEq S]

/-- `IOQueue`, with the tasks that were pushed on the task queue, and whether the data of a task is
a link to this queue -/
structure IOQueue (S T : Type) where
  map : AList fun _ : S => IOEntry T
  poller : S → Option (BitVec 16)
  pushed : List T
  linked : T → Bool

def IOQueue.new : IOQueue S T := ⟨∅, fun _ => none, [], fun _ => false⟩

/-- `poller.modify`. A stream that is not registered is an error. -/
def pollerModify (q : IOQueue S T) (s : S) (mask : BitVec 16) : Option (IOQueue S T) :=
  if q.poller s = none then none
  else some { q with poller := Function.update q.poller s (some mask) }

section Calls

variable [DecidableEq T]

/-- `_enqueue`, by the task `t` -/
def ioEnqueue (q : IOQueue S T) (t : T) (s : S) (d : IODir) : Option (IOQueue S T) :=
  match q.map.lookup s with
  | none =>
    some { q with
      map := q.map.insert s (IOEntry.empty.set (some t) d)
      poller := Function.update q.poller s (some d.mask)
      linked := Function.update q.linked t true }
  | some sm =>
    if sm.slot d = none ∧ sm.slot d.other ≠ none then
      pollerModify
        { q with
          map := q.map.insert s (sm.set (some t) d)
          linked := Function.update q.linked t true }
        s (pollin ||| pollout)
    else none

/-- `_dequeue` -/
def ioDequeue (q : IOQueue S T) (s : S) : Option (IOQueue S T) :=
  if s ∈ q.map ∧ q.poller s ≠ none then
    some { q with
      map := q.map.erase s
      poller := Function.update q.poller s none }
  else none

/-- The task is one of the two of the entry. -/
def IOEntry.Has (sm : IOEntry T) (t : T) : Prop := sm.reader = some t ∨ sm.writer = some t

instance (sm : IOEntry T) (t : T) : Decidable (sm.Has t) := inferInstanceAs (Decidable (_ ∨ _))

/-- The loop of `remove`. A round without a stream to delete is the last one. -/
def ioRemoveLoop (t : T) : ℕ → IOQueue S T → Option (IOQueue S T)
  | 0, q => some q
  | fuel + 1, q =>
    match q.map.entries.find? fun e => e.2.Has t with
    | none => some q
    | some e => (ioDequeue q e.1).bind (ioRemoveLoop t fuel)

/-- `remove` -/
def ioRemove (q : IOQueue S T) (t : T) : Option (IOQueue S T) :=
  ioRemoveLoop t q.map.entries.length q

/-- The tasks of an entry that an event wakes -/
def IOEntry.woken (sm : IOEntry T) (ev : BitVec 16) : List T :=
  (if IODir.read.Hit ev then sm.reader.toList else []) ++
    if IODir.write.Hit ev then sm.writer.toList else []

/-- What is left of an entry after an event -/
def IOEntry.after (sm : IOEntry T) (ev : BitVec 16) : IOEntry T where
  reader := if IODir.read.Hit ev then none else sm.reader
  writer := if IODir.write.Hit ev then none else sm.writer

/-- The body of the loop of `wait_io_event` -/
def handleEvent (q : IOQueue S T) (s : S) (ev : BitVec 16) : Option (IOQueue S T) :=
  match q.map.lookup s with
  | none => none
  | some sm =>
    let q :=
      { q with
        map := q.map.insert s (sm.after ev)
        pushed := q.pushed ++ sm.woken ev
        linked := fun t => q.linked t && t ∉ sm.woken ev }
    if (sm.after ev).reader = none ∧ (sm.after ev).writer = none then ioDequeue q s
    else if (sm.after ev).reader = none then pollerModify q s pollout
    else pollerModify q s pollin

/-- `wait_io_event`, with what `ipoll` returns -/
def waitIoEvent (q : IOQueue S T) : List (S × BitVec 16) → Option (IOQueue S T)
  | [] => some q
  | (s, ev) :: evs => (handleEvent q s ev).bind (waitIoEvent · evs)

/-! ### Calls -/

/-- A call of a method of the queue -/
inductive IOCall (S T : Type)
  | queue (t : T) (s : S) (d : IODir)
  | remove (t : T)
  | waitIoEvent (evs : List (S × BitVec 16))

/-- What `ipoll` can return: registered streams, each with an event -/
def Reported (q : IOQueue S T) (evs : List (S × BitVec 16)) : Prop :=
  (evs.map Prod.fst).Nodup ∧ ∀ p ∈ evs, q.poller p.1 ≠ none ∧ p.2 ≠ 0

instance (q : IOQueue S T) (evs : List (S × BitVec 16)) : Decidable (Reported q evs) :=
  inferInstanceAs (Decidable (_ ∧ _))

/-- A call. There is no result if an assertion fails, which is a second task for a direction of a
stream. -/
def ioCall (q : IOQueue S T) : IOCall S T → Option (IOQueue S T)
  | .queue t s d => ioEnqueue q t s d
  | .remove t => ioRemove q t
  | .waitIoEvent evs => if Reported q evs then waitIoEvent q evs else none

/-- A step, with the queue before and after the call -/
def ioStep (q : IOQueue S T) (c : IOCall S T) :
    Option (IOQueue S T × IOQueue S T × IOCall S T × IOQueue S T) :=
  (ioCall q c).map fun q' => (q', q, c, q')

/-- The task waits for the stream. -/
def IOQueue.Waits (q : IOQueue S T) (s : S) (d : IODir) (t : T) : Prop :=
  (q.map.lookup s).bind (·.slot d) = some t

instance (q : IOQueue S T) (s : S) (d : IODir) (t : T) : Decidable (q.Waits s d t) :=
  inferInstanceAs (Decidable (_ = _))

/-- The poller asks the stream for the direction. -/
def IOQueue.Polls (q : IOQueue S T) (s : S) (d : IODir) : Prop :=
  ∃ mask, q.poller s = some mask ∧ mask &&& d.mask ≠ 0

/-- There is an event for the direction of the stream. -/
def IOCall.Wakes (c : IOCall S T) (s : S) (d : IODir) : Prop :=
  ∃ evs ev, c = .waitIoEvent evs ∧ (s, ev) ∈ evs ∧ d.Hit ev

/-- A task that waits goes on to wait, or it is woken by an event, or removed. The streams of all
tasks that wait are polled. -/
structure IOKept (q : IOQueue S T) (c : IOCall S T) (q' : IOQueue S T) : Prop where
  keeps : ∀ s d t, q.Waits s d t →
    q'.Waits s d t ∨ c.Wakes s d ∧ t ∈ q'.pushed.drop q.pushed.length ∨ c = .remove t
  polls : ∀ s d t, q'.Waits s d t → q'.Polls s d

/-- No other task waits for the streams that the task is removed from. -/
def RemovesAlone (q : IOQueue S T) : IOCall S T → Prop
  | .remove t => ∀ s d d' t', q.Waits s d t → q.Waits s d' t' → t' = t
  | .queue .. | .waitIoEvent _ => True

instance [Fintype S] [Fintype T] (q : IOQueue S T) : (c : IOCall S T) → Decidable (RemovesAlone q c)
  | .remove t =>
    inferInstanceAs (Decidable (∀ s d d' t', q.Waits s d t → q.Waits s d' t' → t' = t))
  | .queue .. | .waitIoEvent _ => isTrue trivial

end Calls

/-! ### The invariant -/

/-- The mask that an entry needs -/
def IOEntry.mask (sm : IOEntry T) : BitVec 16 :=
  (if sm.reader = none then 0 else pollin) ||| if sm.writer = none then 0 else pollout

/-- The poller has a mask for every entry, and no entry is empty. -/
structure IOQueue.Inv (q : IOQueue S T) : Prop where
  poller : ∀ s, q.poller s = (q.map.lookup s).map IOEntry.mask
  nonempty : ∀ s sm, q.map.lookup s = some sm → sm ≠ .empty

section Steps

variable {q q' : IOQueue S T} {s : S} {t : T} {d : IODir} {ev : BitVec 16} {sm : IOEntry T}

theorem IOQueue.inv_new : (IOQueue.new : IOQueue S T).Inv where
  poller s := by simp [IOQueue.new]
  nonempty s sm h := by simp [IOQueue.new] at h

theorem IOEntry.eq_empty (hr : sm.reader = none) (hw : sm.writer = none) : sm = .empty := by
  obtain ⟨reader, writer⟩ := sm
  rw [show reader = none from hr, show writer = none from hw, IOEntry.empty]

theorem IOEntry.mask_polls (h : sm.slot d = some t) : sm.mask &&& d.mask ≠ 0 := by
  cases d with
  | read =>
    have hr : sm.reader = some t := h
    simp only [IOEntry.mask, hr, reduceCtorEq, if_false]
    split <;> decide
  | write =>
    have hw : sm.writer = some t := h
    simp only [IOEntry.mask, hw, reduceCtorEq, if_false]
    split <;> decide

theorem IOQueue.waits_iff : q.Waits s d t ↔ ∃ sm, q.map.lookup s = some sm ∧ sm.slot d = some t :=
  Option.bind_eq_some_iff

/-- The poller asks for all that tasks wait for. -/
theorem IOQueue.Inv.polls (h : q.Inv) (hw : q.Waits s d t) : q.Polls s d := by
  obtain ⟨sm, hsm, hslot⟩ := IOQueue.waits_iff.mp hw
  exact ⟨sm.mask, by rw [h.poller, hsm]; rfl, IOEntry.mask_polls hslot⟩

theorem IOQueue.Inv.registered (h : q.Inv) (hs : q.map.lookup s = some sm) :
    q.poller s = some sm.mask := by
  rw [h.poller, hs]
  rfl

/-- One entry is changed together with its mask. -/
theorem IOQueue.Inv.change (h : q.Inv) (hmap : ∀ s', s' ≠ s → q'.map.lookup s' = q.map.lookup s')
    (hpoller : ∀ s', s' ≠ s → q'.poller s' = q.poller s')
    (hmask : q'.poller s = (q'.map.lookup s).map IOEntry.mask)
    (hsm : ∀ sm, q'.map.lookup s = some sm → sm ≠ .empty) : q'.Inv := by
  constructor
  · intro s'
    by_cases hs : s' = s
    · rw [hs, hmask]
    · rw [hmap s' hs, hpoller s' hs, h.poller]
  · intro s' sm' hsm'
    by_cases hs : s' = s
    · exact hsm sm' (hs ▸ hsm')
    · rw [hmap s' hs] at hsm'
      exact h.nonempty s' sm' hsm'

theorem IOEntry.slot_set {d' : IODir} :
    (sm.set (some t) d).slot d' = if d' = d then some t else sm.slot d' := by
  cases d <;> cases d' <;> rfl

/-- A task that is not woken keeps its place. -/
theorem slot_after (hslot : sm.slot d = some t) (hno : ¬d.Hit ev) :
    (sm.after ev).slot d = some t := by
  cases d with
  | read => exact (if_neg hno).trans hslot
  | write => exact (if_neg hno).trans hslot

theorem mem_woken (hslot : sm.slot d = some t) (hhit : d.Hit ev) : t ∈ sm.woken ev := by
  cases d with
  | read =>
    have hr : sm.reader = some t := hslot
    simp [IOEntry.woken, hhit, hr]
  | write =>
    have hw : sm.writer = some t := hslot
    simp [IOEntry.woken, hhit, hw]

/-- An event gives no task a place. -/
theorem slot_of_after (hslot : (sm.after ev).slot d = some t) : sm.slot d = some t := by
  cases d with
  | read =>
    have hr : (if IODir.read.Hit ev then none else sm.reader) = some t := hslot
    split at hr
    · cases hr
    · exact hr
  | write =>
    have hw : (if IODir.write.Hit ev then none else sm.writer) = some t := hslot
    split at hw
    · cases hw
    · exact hw

theorem IOEntry.has_iff : sm.Has t ↔ ∃ d, sm.slot d = some t := by
  constructor
  · rintro (hr | hw)
    · exact ⟨.read, hr⟩
    · exact ⟨.write, hw⟩
  · rintro ⟨d, hslot⟩
    cases d with
    | read => exact .inl hslot
    | write => exact .inr hslot

/-- An event is for at least one of the two directions. -/
theorem hit_or_hit (hev : ev ≠ 0) : IODir.read.Hit ev ∨ IODir.write.Hit ev := by
  by_contra hno
  simp only [IODir.Hit, not_or, not_not] at hno
  apply hev
  have hall : ~~~IODir.read.other.mask ||| ~~~IODir.write.other.mask = BitVec.allOnes 16 := by
    decide
  calc ev
      = ev &&& (~~~IODir.read.other.mask ||| ~~~IODir.write.other.mask) := by
        rw [hall, BitVec.and_allOnes]
    _ = 0 := by
        rw [BitVec.and_or_distrib_left, hno.1, hno.2]
        rfl

/-- The entry after an event has at most one task, and the mask that is set for it. -/
theorem mask_after (hev : ev ≠ 0) (hne : sm.after ev ≠ .empty) :
    (sm.after ev).mask = if (sm.after ev).reader = none then pollout else pollin := by
  rcases hit_or_hit hev with hread | hwrite
  · have hr : (sm.after ev).reader = none := if_pos hread
    have hw : (sm.after ev).writer ≠ none := fun hw => hne (IOEntry.eq_empty hr hw)
    simp [IOEntry.mask, hr, hw]
  · have hw : (sm.after ev).writer = none := if_pos hwrite
    have hr : (sm.after ev).reader ≠ none := fun hr => hne (IOEntry.eq_empty hr hw)
    simp [IOEntry.mask, hr, hw]

/-! ### What a call does -/

variable [DecidableEq T]

/-- **A task starts to wait.** Its place was free, and the other place is as before. -/
theorem ioEnqueue_spec (h : q.Inv) (hc : ioEnqueue q t s d = some q') :
    q'.Inv ∧ (∀ s', s' ≠ s → q'.map.lookup s' = q.map.lookup s') ∧
      ((q.map.lookup s).getD .empty).slot d = none ∧
      q'.map.lookup s = some (((q.map.lookup s).getD .empty).set (some t) d) := by
  -- the new entry of the stream, and its mask
  have hset : ∀ sm mask, q'.map = q.map.insert s sm → sm ≠ .empty → sm.mask = mask →
      q'.poller = Function.update q.poller s (some mask) →
      q'.Inv ∧ ∀ s', s' ≠ s → q'.map.lookup s' = q.map.lookup s' := by
    intro sm mask hmap hne hmask hpoller
    have hlookup : q'.map.lookup s = some sm := by rw [hmap, AList.lookup_insert]
    have hother : ∀ s', s' ≠ s → q'.map.lookup s' = q.map.lookup s' := by
      intro s' hs
      rw [hmap, AList.lookup_insert_ne hs]
    refine ⟨h.change hother (fun s' hs => ?_) ?_ fun sm' hsm' => ?_, hother⟩
    · rw [hpoller, Function.update_of_ne hs]
    · rw [hpoller, Function.update_self, hlookup, ← hmask]
      rfl
    · rw [hlookup, Option.some.injEq] at hsm'
      exact hsm' ▸ hne
  have hne : ∀ sm : IOEntry T, sm.set (some t) d ≠ .empty := by
    intro sm
    cases d <;> simp [IOEntry.empty, IOEntry.set]
  rw [ioEnqueue] at hc
  split at hc
  · next hnone =>
      obtain rfl := Option.some.inj hc
      have hmask : (IOEntry.empty.set (some t) d).mask = d.mask := by
        cases d <;> simp [IOEntry.mask, IOEntry.set, IOEntry.empty, IODir.mask]
      obtain ⟨hinv, hother⟩ := hset _ _ rfl (hne _) hmask rfl
      rw [hnone]
      exact ⟨hinv, hother, by cases d <;> rfl, AList.lookup_insert _⟩
  · next sm hsm =>
      split at hc
      · next hslots =>
          have hmask : (sm.set (some t) d).mask = pollin ||| pollout := by
            cases d with
            | read =>
              have hw : sm.writer ≠ none := hslots.2
              simp [IOEntry.mask, IOEntry.set, hw]
            | write =>
              have hr : sm.reader ≠ none := hslots.2
              simp [IOEntry.mask, IOEntry.set, hr]
          rw [pollerModify, if_neg (by rw [h.registered hsm]; simp)] at hc
          obtain rfl := Option.some.inj hc
          obtain ⟨hinv, hother⟩ := hset _ _ rfl (hne sm) hmask rfl
          rw [hsm]
          exact ⟨hinv, hother, hslots.1, AList.lookup_insert _⟩
      · cases hc

/-- Who waits after a task has started to wait -/
theorem ioEnqueue_waits (h : q.Inv) (hc : ioEnqueue q t s d = some q') (s' : S) (d' : IODir)
    (t' : T) : q'.Waits s' d' t' ↔ q.Waits s' d' t' ∨ s' = s ∧ d' = d ∧ t' = t := by
  obtain ⟨-, hother, hfree, hself⟩ := ioEnqueue_spec h hc
  have hgetD : ∀ d, (q.map.lookup s).bind (·.slot d) = ((q.map.lookup s).getD .empty).slot d := by
    intro d
    cases q.map.lookup s with
    | none => cases d <;> rfl
    | some sm => rfl
  by_cases hs : s' = s
  · subst hs
    rw [IOQueue.Waits, IOQueue.Waits, hself, hgetD, Option.bind_some, IOEntry.slot_set]
    by_cases hd : d' = d
    · subst hd
      simp [hfree, eq_comm]
    · simp [hd]
  · simp [IOQueue.Waits, hother s' hs, hs]

/-- A task can start to wait where no other task does. -/
theorem ioEnqueue_ne_none (h : q.Inv) (hfree : ∀ t', ¬q.Waits s d t') (t : T) :
    ioEnqueue q t s d ≠ none := by
  rw [ioEnqueue]
  split
  · simp
  · next sm hsm =>
      have hslot : sm.slot d = none := by
        cases hsl : sm.slot d with
        | none => rfl
        | some t' => exact absurd (IOQueue.waits_iff.mpr ⟨sm, hsm, hsl⟩) (hfree t')
      have hother : sm.slot d.other ≠ none := by
        intro hother
        apply h.nonempty s sm hsm
        cases d with
        | read => exact IOEntry.eq_empty hslot hother
        | write => exact IOEntry.eq_empty hother hslot
      rw [if_pos ⟨hslot, hother⟩, pollerModify, if_neg (by rw [h.registered hsm]; simp)]
      simp

/-- **An event** at a stream that tasks wait for -/
theorem handleEvent_spec (h : q.Inv) (hs : q.map.lookup s = some sm) (hev : ev ≠ 0) :
    ∃ q', handleEvent q s ev = some q' ∧ q'.Inv ∧ q'.pushed = q.pushed ++ sm.woken ev ∧
      (∀ s', s' ≠ s → q'.map.lookup s' = q.map.lookup s') ∧
      q'.map.lookup s = if sm.after ev = .empty then none else some (sm.after ev) := by
  have hreg := h.registered hs
  rw [handleEvent, hs]
  dsimp only
  by_cases hempty : sm.after ev = .empty
  · have hnone : (sm.after ev).reader = none ∧ (sm.after ev).writer = none := by
      rw [hempty]
      exact ⟨rfl, rfl⟩
    have hmem : s ∈ q.map.insert s (sm.after ev) := by simp
    have hother : ∀ s', s' ≠ s →
        ((q.map.insert s (sm.after ev)).erase s).lookup s' = q.map.lookup s' := by
      intro s' hs'
      rw [AList.lookup_erase_ne hs', AList.lookup_insert_ne hs']
    rw [if_pos hnone, ioDequeue, if_pos ⟨hmem, by rw [hreg]; simp⟩]
    refine ⟨_, rfl, h.change hother (fun s' hs' => Function.update_of_ne hs' _ _) ?_ ?_, rfl,
      hother, ?_⟩
    · rw [AList.lookup_erase]
      exact Function.update_self _ _ _
    · intro sm' hsm'
      rw [AList.lookup_erase] at hsm'
      cases hsm'
    · rw [AList.lookup_erase, if_pos hempty]
  · have hsome : ¬((sm.after ev).reader = none ∧ (sm.after ev).writer = none) := fun hnone =>
      hempty (IOEntry.eq_empty hnone.1 hnone.2)
    have hmask := mask_after hev hempty
    have hother : ∀ s', s' ≠ s →
        (q.map.insert s (sm.after ev)).lookup s' = q.map.lookup s' := fun s' hs' =>
      AList.lookup_insert_ne hs'
    -- both branches set the mask of the entry that is left
    have hset : ∀ mask, (sm.after ev).mask = mask → IOQueue.Inv
        { map := q.map.insert s (sm.after ev)
          poller := Function.update q.poller s (some mask)
          pushed := q.pushed ++ sm.woken ev
          linked := fun t => q.linked t && t ∉ sm.woken ev } := by
      intro mask hm
      refine h.change hother (fun s' hs' => Function.update_of_ne hs' _ _) ?_ ?_
      · rw [AList.lookup_insert, ← hm]
        exact Function.update_self _ _ _
      · intro sm' hsm'
        rw [AList.lookup_insert, Option.some.injEq] at hsm'
        exact hsm' ▸ hempty
    rw [if_neg hsome]
    split
    · next hr =>
        rw [pollerModify, if_neg (by rw [hreg]; simp)]
        rw [if_pos hr] at hmask
        exact ⟨_, rfl, hset _ hmask, rfl, hother, AList.lookup_insert _⟩
    · next hr =>
        rw [pollerModify, if_neg (by rw [hreg]; simp)]
        rw [if_neg hr] at hmask
        exact ⟨_, rfl, hset _ hmask, rfl, hother, AList.lookup_insert _⟩

/-- **All events of a call** -/
theorem waitIoEvent_spec (h : q.Inv) {evs : List (S × BitVec 16)} (hrep : Reported q evs) :
    ∃ q', waitIoEvent q evs = some q' ∧ q'.Inv ∧ q.pushed <+: q'.pushed ∧
      (∀ s d t, q.Waits s d t → q'.Waits s d t ∨
        (∃ ev, (s, ev) ∈ evs ∧ d.Hit ev) ∧ t ∈ q'.pushed.drop q.pushed.length) ∧
      ∀ s d t, q'.Waits s d t → q.Waits s d t := by
  induction evs generalizing q with
  | nil => exact ⟨q, rfl, h, List.prefix_rfl, fun s d t hw => .inl hw, fun s d t hw => hw⟩
  | cons p evs ih =>
    obtain ⟨s, ev⟩ := p
    obtain ⟨hnodup, hall⟩ := hrep
    rw [List.map_cons, List.nodup_cons] at hnodup
    obtain ⟨hsreg, hev⟩ := hall _ List.mem_cons_self
    obtain ⟨sm, hsm⟩ : ∃ sm, q.map.lookup s = some sm := by
      rw [h.poller] at hsreg
      exact Option.ne_none_iff_exists'.mp (by simpa using hsreg)
    obtain ⟨q₁, hq₁, hinv₁, hpushed₁, hother, hself⟩ := handleEvent_spec h hsm hev
    have hrep₁ : Reported q₁ evs := by
      refine ⟨hnodup.2, fun p hp => ?_⟩
      have hps : p.1 ≠ s := by
        rintro rfl
        exact hnodup.1 (List.mem_map.mpr ⟨p, hp, rfl⟩)
      obtain ⟨hpreg, hpev⟩ := hall p (List.mem_cons_of_mem _ hp)
      rw [hinv₁.poller, hother _ hps, ← h.poller]
      exact ⟨hpreg, hpev⟩
    obtain ⟨q', hq', hinv', ⟨later, hpushed'⟩, hkeep, hold⟩ := ih hinv₁ hrep₁
    rw [hpushed₁, List.append_assoc] at hpushed'
    have hold₁ : ∀ s' d t, q₁.Waits s' d t → q.Waits s' d t := by
      intro s' d t hw
      obtain ⟨sm', hsm', hslot⟩ := IOQueue.waits_iff.mp hw
      by_cases hs : s' = s
      · subst hs
        rw [hself] at hsm'
        split at hsm'
        · cases hsm'
        · obtain rfl := Option.some.inj hsm'
          exact IOQueue.waits_iff.mpr ⟨sm, hsm, slot_of_after hslot⟩
      · exact IOQueue.waits_iff.mpr ⟨sm', (hother _ hs).symm.trans hsm', hslot⟩
    refine ⟨q', by rw [waitIoEvent, hq₁]; exact hq', hinv', ⟨_, hpushed'⟩, fun s' d t hw => ?_,
      fun s' d t hw => hold₁ s' d t (hold s' d t hw)⟩
    have hdrop : q'.pushed.drop q.pushed.length = sm.woken ev ++ later := by
      rw [← hpushed', List.drop_left]
    have hdrop₁ : q'.pushed.drop q₁.pushed.length = later := by
      rw [← hpushed', ← List.append_assoc, ← hpushed₁, List.drop_left]
    -- the task is still there after the first event, or it was woken by it
    have hfirst : q₁.Waits s' d t ∨ s' = s ∧ d.Hit ev ∧ t ∈ sm.woken ev := by
      obtain ⟨sm', hsm', hslot⟩ := IOQueue.waits_iff.mp hw
      by_cases hs : s' = s
      · subst hs
        obtain rfl : sm = sm' := Option.some.inj (hsm.symm.trans hsm')
        by_cases hhit : d.Hit ev
        · exact .inr ⟨rfl, hhit, mem_woken hslot hhit⟩
        · have hafter := slot_after hslot hhit
          have hne : sm.after ev ≠ .empty := by
            intro hempty
            rw [hempty] at hafter
            cases d <;> cases hafter
          exact .inl (IOQueue.waits_iff.mpr ⟨_, hself.trans (if_neg hne), hafter⟩)
      · exact .inl (IOQueue.waits_iff.mpr ⟨sm', (hother _ hs).trans hsm', hslot⟩)
    rw [hdrop]
    rcases hfirst with hw₁ | ⟨rfl, hhit, hmem⟩
    · rcases hkeep s' d t hw₁ with hw' | ⟨⟨ev', hev', hhit⟩, hmem⟩
      · exact .inl hw'
      · rw [hdrop₁] at hmem
        exact .inr ⟨⟨ev', List.mem_cons_of_mem _ hev', hhit⟩, List.mem_append_right _ hmem⟩
    · exact .inr ⟨⟨ev, List.mem_cons_self, hhit⟩, List.mem_append_left _ hmem⟩

/-- The entries with the task are deleted, one in each round. -/
theorem ioRemoveLoop_spec {fuel : ℕ} (h : q.Inv) (hfuel : q.map.entries.length ≤ fuel) :
    ∃ q', ioRemoveLoop t fuel q = some q' ∧ q'.Inv ∧ q'.pushed = q.pushed ∧
      ∀ s, q'.map.lookup s = (q.map.lookup s).filter fun sm => ¬sm.Has t := by
  induction fuel generalizing q with
  | zero =>
    have hnil : q.map.entries = [] := List.length_eq_zero_iff.mp (Nat.le_zero.mp hfuel)
    refine ⟨q, rfl, h, rfl, fun s => ?_⟩
    have hnone : q.map.lookup s = none := by rw [AList.lookup, hnil, List.dlookup_nil]
    rw [hnone]
    rfl
  | succ fuel ih =>
    rw [ioRemoveLoop]
    split
    · next hfind =>
        refine ⟨q, rfl, h, rfl, fun s => ?_⟩
        cases hsm : q.map.lookup s with
        | none => rfl
        | some sm =>
          have hmem := AList.mem_lookup_iff.mp hsm
          have hno : ¬sm.Has t := by simpa using List.find?_eq_none.mp hfind _ hmem
          simp [Option.filter, hno]
    · next e hfind =>
        obtain ⟨s₀, sm₀⟩ := e
        have hhas : sm₀.Has t := by simpa using List.find?_some hfind
        have hsm₀ : q.map.lookup s₀ = some sm₀ :=
          AList.mem_lookup_iff.mpr (List.mem_of_find?_eq_some hfind)
        have hmem : s₀ ∈ q.map := by
          rw [← AList.lookup_isSome, hsm₀]
          rfl
        have hlength : (q.map.erase s₀).entries.length ≤ fuel := by
          have hkeys : (q.map.erase s₀).keys.length = q.map.keys.length - 1 := by
            rw [AList.keys_erase, List.length_erase_of_mem hmem]
          simp only [AList.keys, List.keys, List.length_map] at hkeys
          omega
        have hother : ∀ s, s ≠ s₀ → (q.map.erase s₀).lookup s = q.map.lookup s := fun s hs =>
          AList.lookup_erase_ne hs
        have hinv : IOQueue.Inv { q with
            map := q.map.erase s₀
            poller := Function.update q.poller s₀ none } := by
          refine h.change hother (fun s hs => Function.update_of_ne hs _ _) ?_ ?_
          · rw [AList.lookup_erase]
            exact Function.update_self _ _ _
          · intro sm hsm
            rw [AList.lookup_erase] at hsm
            cases hsm
        obtain ⟨q', hq', hinv', hpushed, hlookup⟩ := ih hinv hlength
        refine ⟨q', ?_, hinv', hpushed, fun s => ?_⟩
        · rw [ioDequeue, if_pos ⟨hmem, by rw [h.registered hsm₀]; simp⟩]
          exact hq'
        · rw [hlookup]
          by_cases hs : s = s₀
          · subst hs
            rw [AList.lookup_erase, hsm₀]
            simp [Option.filter, hhas]
          · rw [hother s hs]

/-- **A task is removed**, with the entries of all streams that it waits for. -/
theorem ioRemove_spec (h : q.Inv) (t : T) :
    ∃ q', ioRemove q t = some q' ∧ q'.Inv ∧ q'.pushed = q.pushed ∧
      ∀ s, q'.map.lookup s = (q.map.lookup s).filter fun sm => ¬sm.Has t :=
  ioRemoveLoop_spec h (Nat.le_refl _)

/-! ### Runs -/

variable {c : IOCall S T}

theorem ioCall_inv (h : q.Inv) (hc : ioCall q c = some q') : q'.Inv := by
  cases c with
  | queue t s d => exact (ioEnqueue_spec h hc).1
  | remove t =>
    obtain ⟨q'', hq'', hinv, -⟩ := ioRemove_spec h t
    obtain rfl : q'' = q' := Option.some.inj (hq''.symm.trans hc)
    exact hinv
  | waitIoEvent evs =>
    rw [ioCall] at hc
    split at hc
    · next hrep =>
        obtain ⟨q'', hq'', hinv, -⟩ := waitIoEvent_spec h hrep
        obtain rfl : q'' = q' := Option.some.inj (hq''.symm.trans hc)
        exact hinv
    · cases hc

/-- **One call** -/
theorem ioKept_iff (h : q.Inv) (hc : ioCall q c = some q') : IOKept q c q' ↔ RemovesAlone q c := by
  have hinv := ioCall_inv h hc
  have hpolls : ∀ s d t, q'.Waits s d t → q'.Polls s d := fun s d t hw => hinv.polls hw
  cases c with
  | queue t s d =>
    refine iff_of_true ⟨fun s' d' t' hw => .inl ?_, hpolls⟩ trivial
    exact (ioEnqueue_waits h hc s' d' t').mpr (.inl hw)
  | remove t =>
    obtain ⟨q'', hq'', -, -, hlookup⟩ := ioRemove_spec h t
    obtain rfl : q'' = q' := Option.some.inj (hq''.symm.trans hc)
    constructor
    · intro hkept s d d' t' hw hw'
      obtain ⟨sm, hsm, hslot⟩ := IOQueue.waits_iff.mp hw
      have hgone : q''.map.lookup s = none := by
        rw [hlookup, hsm]
        simp [Option.filter, IOEntry.has_iff.mpr ⟨d, hslot⟩]
      rcases hkept.keeps s d' t' hw' with hw'' | ⟨⟨evs, ev, heq, _⟩, _⟩ | heq
      · rw [IOQueue.Waits, hgone] at hw''
        cases hw''
      · cases heq
      · cases heq
        rfl
    · intro halone
      refine ⟨fun s d t' hw => ?_, hpolls⟩
      by_cases ht : t' = t
      · exact .inr (.inr (ht ▸ rfl))
      · obtain ⟨sm, hsm, hslot⟩ := IOQueue.waits_iff.mp hw
        have hno : ¬sm.Has t := by
          intro hhas
          obtain ⟨d', hslot'⟩ := IOEntry.has_iff.mp hhas
          exact ht (halone s d' d t' (IOQueue.waits_iff.mpr ⟨sm, hsm, hslot'⟩) hw)
        refine .inl (IOQueue.waits_iff.mpr ⟨sm, ?_, hslot⟩)
        rw [hlookup, hsm]
        simp [Option.filter, hno]
  | waitIoEvent evs =>
    refine iff_of_true ⟨fun s d t hw => ?_, hpolls⟩ trivial
    rw [ioCall] at hc
    split at hc
    · next hrep =>
        obtain ⟨q'', hq'', -, -, hkeep, -⟩ := waitIoEvent_spec h hrep
        obtain rfl : q'' = q' := Option.some.inj (hq''.symm.trans hc)
        rcases hkeep s d t hw with hw' | ⟨⟨ev, hev, hhit⟩, hmem⟩
        · exact .inl hw'
        · exact .inr (.inl ⟨⟨evs, ev, rfl, hev, hhit⟩, hmem⟩)
    · cases hc

end Steps

variable [DecidableEq T]

/-- **Registrations.** In a run of calls every task keeps its registration until it is woken or
removed, and its stream is polled, if and only if no task is removed from a stream that another task
waits for. -/
theorem io_queue_keeps_iff (calls : List (IOCall S T)) (q : IOQueue S T)
    (trace : List (IOQueue S T × IOCall S T × IOQueue S T))
    (hrun : Machine.run ioStep IOQueue.new calls = some (q, trace)) :
    (∀ o ∈ trace, IOKept o.1 o.2.1 o.2.2) ↔ ∀ o ∈ trace, RemovesAlone o.1 o.2.1 := by
  have hinv : q.Inv ∧ ∀ o ∈ trace, IOKept o.1 o.2.1 o.2.2 ↔ RemovesAlone o.1 o.2.1 := by
    refine Machine.run_invariant
      (fun q trace => q.Inv ∧ ∀ o ∈ trace, IOKept o.1 o.2.1 o.2.2 ↔ RemovesAlone o.1 o.2.1)
      ?_ ⟨IOQueue.inv_new, fun o ho => absurd ho List.not_mem_nil⟩ hrun
    intro q trace c q' o hinv hstep
    rw [ioStep, Option.map_eq_some_iff] at hstep
    obtain ⟨q₁, hcall, heq⟩ := hstep
    obtain ⟨rfl, rfl⟩ := Prod.mk.inj heq
    refine ⟨ioCall_inv hinv.1 hcall, fun o ho => ?_⟩
    rcases List.mem_append.mp ho with ho | ho
    · exact hinv.2 o ho
    · obtain rfl := List.mem_singleton.mp ho
      exact ioKept_iff hinv.1 hcall
  exact forall₂_congr hinv.2

/-- Task 0 waits to read from stream 0 and task 1 to write to it. -/
def readerAndWriter : List (IOCall (Fin 1) (Fin 2)) := [.queue 0 0 .read, .queue 1 0 .write]

/-- The writer is woken before the reader is removed. -/
theorem io_queue_keeps_one_by_one : ∃ q trace, Machine.run ioStep IOQueue.new
        (readerAndWriter ++ [.waitIoEvent [(0, pollout)], .remove 0]) = some (q, trace) ∧
      q.pushed = [1] ∧ ∀ o ∈ trace, IOKept o.1 o.2.1 o.2.2 := by
  refine ⟨_, _, rfl, rfl, ?_⟩
  refine (io_queue_keeps_iff (readerAndWriter ++ [.waitIoEvent [(0, pollout)], .remove 0]) _ _
    rfl).mpr ?_
  simp only [List.forall_mem_cons]
  exact ⟨trivial, trivial, trivial, by decide, by simp⟩

/-- The writer is lost with the reader that is removed. -/
theorem io_queue_loses_writer :
    ∃ q trace, Machine.run ioStep IOQueue.new (readerAndWriter ++ [.remove 0]) = some (q, trace) ∧
      (∃ o ∈ trace, o.1.Waits 0 .write 1) ∧ q.pushed = [] ∧ ¬q.Waits 0 .write 1 ∧
        q.poller 0 = none := by
  exact ⟨_, _, rfl, by decide, rfl, by decide, rfl⟩

end Pycopy
