import Pycopy.Uasyncio.IOQueue
import Mathlib.Algebra.Order.Ring.Nat

/-!
# Buffered Output of a Stream

`Stream.write` adds to a buffer, and `Stream.drain` hands the buffer to the socket, in as many parts
as the socket takes. Before every part the task waits until the socket can be written.

`drain` looks at the buffer when it starts, and empties it when it is done. What other tasks write
in the meantime is lost, and a second task that starts to drain sends the same bytes again. So all
bytes are handed over once and in order, if no task writes or drains while another one is in
`drain`.

## Main results

* `stream_drain_exact`: after a call of `drain` all that was written has been handed over.
-/

namespace Pycopy

/-- The variables of a call of `drain`: a view of the buffer, and how much of it was handed over -/
structure Drain where
  mv : List UInt8
  off : ℕ
  deriving DecidableEq, Repr

/-- A stream with all its tasks. The bytes that were handed to the socket are in `handed`, and the
calls of `drain` that failed in an assertion in `raised`. -/
structure StreamSys (T : Type) where
  outBuf : List UInt8
  handed : List UInt8
  drains : T → Option Drain
  io : IOQueue Unit T
  raised : List T

/-- What happens next: a call of `write` or `drain`, an event at the socket, or a task goes on after
an event, and the socket takes some bytes or none. -/
inductive StreamOp (T : Type)
  | write (t : T) (buf : List UInt8)
  | drain (t : T)
  | event (ev : BitVec 16)
  | resume (t : T) (ret : Option ℕ)
  deriving DecidableEq, Repr

variable {T : Type} [DecidableEq T]

def StreamSys.new : StreamSys T := ⟨[], [], fun _ => none, .new, []⟩

/-- The head of the loop of `drain`. Another task that waits to write is an assertion that fails. -/
def drainLoop (s : StreamSys T) (t : T) (d : Drain) : StreamSys T :=
  if d.off < d.mv.length then
    match ioEnqueue s.io t () .write with
    | some io => { s with io := io, drains := Function.update s.drains t (some d) }
    | none => { s with drains := Function.update s.drains t none, raised := t :: s.raised }
  else { s with outBuf := [], drains := Function.update s.drains t none }

/-- `self.s.write(mv[off:])` and the rest of the loop -/
def drainResume (s : StreamSys T) (t : T) (d : Drain) : Option ℕ → Option (StreamSys T)
  | none => some (drainLoop s t d)
  | some n =>
    if n ≤ (d.mv.drop d.off).length then
      some (drainLoop { s with handed := s.handed ++ (d.mv.drop d.off).take n } t
        { d with off := d.off + n })
    else none

/-- One of the tasks goes on. A task in `drain` does nothing else. -/
def streamCall (s : StreamSys T) : StreamOp T → Option (StreamSys T)
  | .write t buf => if s.drains t = none then some { s with outBuf := s.outBuf ++ buf } else none
  | .drain t => if s.drains t = none then some (drainLoop s t ⟨s.outBuf, 0⟩) else none
  | .event ev => (ioCall s.io (.waitIoEvent [((), ev)])).map fun io => { s with io := io }
  | .resume t ret =>
    match s.drains t with
    | none => none
    | some d => if s.io.Waits () .write t then none else drainResume s t d ret

/-- A step, with the stream before and after it -/
def streamStep (s : StreamSys T) (op : StreamOp T) :
    Option (StreamSys T × StreamSys T × StreamOp T × StreamSys T) :=
  (streamCall s op).map fun s' => (s', s, op, s')

/-- No task is in `drain`. -/
def StreamSys.Idle (s : StreamSys T) : Prop := ∀ t, s.drains t = none

/-- A call of `write` or `drain` is made while no task is in `drain`. Nothing may be written
always. -/
def StreamOp.Alone (s : StreamSys T) : StreamOp T → Prop
  | .write _ buf => buf = [] ∨ s.Idle
  | .drain _ => s.Idle
  | .event _ | .resume .. => True

instance [Fintype T] (s : StreamSys T) : Decidable s.Idle := inferInstanceAs (Decidable (∀ _, _))

instance [Fintype T] (s : StreamSys T) : (op : StreamOp T) → Decidable (op.Alone s)
  | .write _ buf => inferInstanceAs (Decidable (buf = [] ∨ s.Idle))
  | .drain _ => inferInstanceAs (Decidable s.Idle)
  | .event _ | .resume .. => isTrue trivial

/-- A call of `drain` is over. -/
def StreamOp.Returns (s' : StreamSys T) : StreamOp T → Prop
  | .drain t | .resume t _ => s'.drains t = none
  | .write .. | .event _ => False

/-- All that was written -/
def buffersWritten (trace : List (StreamSys T × StreamOp T × StreamSys T)) : List UInt8 :=
  trace.flatMap fun o =>
    match o.2.1 with
    | .write _ buf => buf
    | .drain _ | .event _ | .resume .. => []

/-! ### One step -/

/-- No task is in `drain`, and what was not handed over is in the buffer. -/
structure AtRest (s : StreamSys T) (written : List UInt8) : Prop where
  idle : s.Idle
  free : ∀ t, ¬s.io.Waits () .write t
  bytes : s.handed ++ s.outBuf = written

/-- One task is in `drain`, and what was not handed over is in its view of the buffer. -/
structure Draining (s : StreamSys T) (written : List UInt8) (t : T) (d : Drain) : Prop where
  drain : s.drains t = some d
  only : ∀ t', t' ≠ t → s.drains t' = none
  waits : ∀ t', s.io.Waits () .write t' → t' = t
  view : d.mv = s.outBuf
  bytes : s.handed ++ d.mv.drop d.off = written

/-- What holds after any steps -/
structure DrainInv (s : StreamSys T) (written : List UInt8) : Prop where
  io : s.io.Inv
  raised : s.raised = []
  cases : AtRest s written ∨ ∃ t d, Draining s written t d

section Steps

variable {s s' : StreamSys T} {written : List UInt8} {t : T} {d : Drain}

/-- The head of the loop, if no other task is in `drain` -/
theorem drainLoop_spec (hio : s.io.Inv) (hraised : s.raised = [])
    (honly : ∀ t', t' ≠ t → s.drains t' = none) (hfree : ∀ t', ¬s.io.Waits () .write t')
    (hview : d.mv = s.outBuf) (hbytes : s.handed ++ d.mv.drop d.off = written) :
    DrainInv (drainLoop s t d) written ∧
      ((drainLoop s t d).drains t = none → AtRest (drainLoop s t d) written ∧
        (drainLoop s t d).outBuf = []) := by
  rw [drainLoop]
  split
  · next hlt =>
      split
      · next io hio' =>
          have hwaits := ioEnqueue_waits hio hio'
          refine ⟨⟨(ioEnqueue_spec hio hio').1, hraised, .inr ⟨t, d, ?_⟩⟩, ?_⟩
          · refine ⟨Function.update_self _ _ _, fun t' ht => ?_, fun t' hw => ?_, hview, hbytes⟩
            · exact (Function.update_of_ne ht _ _).trans (honly t' ht)
            · rcases (hwaits () .write t').mp hw with hw | ⟨-, -, ht⟩
              · exact absurd hw (hfree t')
              · exact ht
          · dsimp only
            rw [Function.update_self]
            exact fun h => nomatch h
      · next hnone => exact absurd hnone (ioEnqueue_ne_none hio hfree t)
  · next hge =>
      have hidle : ∀ t', Function.update s.drains t none t' = none := by
        intro t'
        by_cases ht : t' = t
        · rw [ht, Function.update_self]
        · rw [Function.update_of_ne ht, honly t' ht]
      have hbytes' : s.handed ++ [] = written := by
        rw [← hbytes, List.drop_eq_nil_of_le (Nat.le_of_not_lt hge)]
      have hrest : AtRest { s with outBuf := [], drains := Function.update s.drains t none }
          written := ⟨hidle, hfree, hbytes'⟩
      exact ⟨⟨hio, hraised, .inl hrest⟩, fun _ => ⟨hrest, rfl⟩⟩

theorem DrainInv.event {ev : BitVec 16} {io : IOQueue Unit T} (h : DrainInv s written)
    (hcall : ioCall s.io (.waitIoEvent [((), ev)]) = some io) :
    DrainInv { s with io := io } written := by
  have hinv := ioCall_inv h.io hcall
  rw [ioCall] at hcall
  split at hcall
  · next hrep =>
      obtain ⟨q, hq, -, -, -, hold⟩ := waitIoEvent_spec h.io hrep
      obtain rfl : q = io := Option.some.inj (hq.symm.trans hcall)
      refine ⟨hinv, h.raised, ?_⟩
      rcases h.cases with hrest | ⟨t, d, hd⟩
      · exact .inl ⟨hrest.idle, fun t hw => hrest.free t (hold _ _ _ hw), hrest.bytes⟩
      · exact .inr ⟨t, d, hd.drain, hd.only, fun t' hw => hd.waits t' (hold _ _ _ hw), hd.view,
          hd.bytes⟩
  · cases hcall

/-- **A task goes on in `drain`.** -/
theorem Draining.resume (h : DrainInv s written) (hd : Draining s written t d)
    (hnot : ¬s.io.Waits () .write t) {ret : Option ℕ} (hr : drainResume s t d ret = some s') :
    DrainInv s' written ∧ (s'.drains t = none → AtRest s' written ∧ s'.outBuf = []) := by
  have hfree : ∀ t', ¬s.io.Waits () .write t' := by
    intro t' hw
    have ht := hd.waits t' hw
    exact hnot (ht ▸ hw)
  cases ret with
  | none =>
    obtain rfl := Option.some.inj hr
    exact drainLoop_spec h.io h.raised hd.only hfree hd.view hd.bytes
  | some n =>
    rw [drainResume] at hr
    split at hr
    · obtain rfl := Option.some.inj hr
      refine drainLoop_spec h.io h.raised hd.only hfree hd.view ?_
      dsimp only
      rw [← List.drop_drop, List.append_assoc, List.take_append_drop, hd.bytes]
    · cases hr

omit [DecidableEq T] in
theorem DrainInv.atRest (h : DrainInv s written) (hidle : s.Idle) : AtRest s written := by
  rcases h.cases with hrest | ⟨t, d, hd⟩
  · exact hrest
  · have hdrain := hd.drain
    rw [hidle t] at hdrain
    cases hdrain

/-- **One step**, with a call that is made alone -/
theorem DrainInv.step (h : DrainInv s written) {op : StreamOp T} (halone : op.Alone s)
    (hcall : streamCall s op = some s') :
    DrainInv s' (written ++ buffersWritten [(s, op, s')]) ∧
      (op.Returns s' → AtRest s' (written ++ buffersWritten [(s, op, s')]) ∧ s'.outBuf = []) := by
  cases op with
  | write t buf =>
    have hbuf : buffersWritten [(s, .write t buf, s')] = buf := by simp [buffersWritten]
    rw [hbuf]
    rw [streamCall] at hcall
    split at hcall
    · obtain rfl := Option.some.inj hcall
      refine ⟨?_, fun hret => hret.elim⟩
      rcases halone with rfl | hidle
      · rw [List.append_nil, List.append_nil]
        exact h
      · have hrest := h.atRest hidle
        refine ⟨h.io, h.raised, .inl ⟨hidle, hrest.free, ?_⟩⟩
        dsimp only
        rw [← List.append_assoc, hrest.bytes]
    · cases hcall
  | drain t =>
    have hnone : buffersWritten [(s, .drain t, s')] = [] := rfl
    rw [hnone, List.append_nil]
    rw [streamCall] at hcall
    split at hcall
    · obtain rfl := Option.some.inj hcall
      have hrest := h.atRest halone
      exact drainLoop_spec h.io h.raised (fun t' _ => hrest.idle t') hrest.free rfl hrest.bytes
    · cases hcall
  | event ev =>
    have hnone : buffersWritten [(s, .event ev, s')] = [] := rfl
    rw [hnone, List.append_nil]
    rw [streamCall, Option.map_eq_some_iff] at hcall
    obtain ⟨io, hio, rfl⟩ := hcall
    exact ⟨h.event hio, fun hret => hret.elim⟩
  | resume t ret =>
    have hnone : buffersWritten [(s, .resume t ret, s')] = [] := rfl
    rw [hnone, List.append_nil]
    rw [streamCall] at hcall
    split at hcall
    · cases hcall
    · next d hdrain =>
        split at hcall
        · cases hcall
        · next hnot =>
            rcases h.cases with hrest | ⟨t₁, d₁, hd⟩
            · rw [hrest.idle t] at hdrain
              cases hdrain
            · obtain rfl : t = t₁ := by
                by_contra ht
                rw [hd.only t ht] at hdrain
                cases hdrain
              obtain rfl : d = d₁ := Option.some.inj (hdrain.symm.trans hd.drain)
              exact hd.resume h hnot hcall

end Steps

/-! ### Runs -/

/-- What holds after each step of a run -/
def DrainedSoFar (trace : List (StreamSys T × StreamOp T × StreamSys T)) : Prop :=
  Machine.Always (fun before o =>
    o.2.2.raised = [] ∧
    (o.2.2.Idle → o.2.2.handed ++ o.2.2.outBuf = buffersWritten (before ++ [o])) ∧
    (o.2.1.Returns o.2.2 → o.2.2.Idle ∧ o.2.2.handed = buffersWritten (before ++ [o]))) trace

/-- **All that is written is handed over once and in order.** If no task calls `write` or `drain`
while another one is in `drain`, no call of `drain` fails. When it returns, all that was written has
been handed to the socket, and while no task is in `drain`, what was not handed over is in the
buffer. -/
theorem stream_drain_exact (ops : List (StreamOp T)) (s : StreamSys T)
    (trace : List (StreamSys T × StreamOp T × StreamSys T))
    (hrun : Machine.run streamStep StreamSys.new ops = some (s, trace))
    (halone : ∀ o ∈ trace, o.2.1.Alone o.1) : DrainedSoFar trace := by
  have hinv : (∀ o ∈ trace, o.2.1.Alone o.1) →
      DrainInv s (buffersWritten trace) ∧ DrainedSoFar trace := by
    refine Machine.run_invariant_of_nil (fun s trace => (∀ o ∈ trace, o.2.1.Alone o.1) →
      DrainInv s (buffersWritten trace) ∧ DrainedSoFar trace) ?_ (fun _ => ?_) hrun
    · intro s trace op s' o hbefore hstep hall
      rw [streamStep, Option.map_eq_some_iff] at hstep
      obtain ⟨s₁, hcall, heq⟩ := hstep
      obtain ⟨rfl, rfl⟩ := Prod.mk.inj heq
      obtain ⟨hdrain, hso⟩ := hbefore fun o ho => hall o (List.mem_append_left _ ho)
      obtain ⟨hdrain', hreturns⟩ := hdrain.step (hall (s, op, s₁) (by simp)) hcall
      have hwritten : buffersWritten (trace ++ [(s, op, s₁)]) =
          buffersWritten trace ++ buffersWritten [(s, op, s₁)] := List.flatMap_append
      rw [hwritten]
      refine ⟨hdrain', hso.concat ⟨hdrain'.raised, fun hidle => ?_, fun hret => ?_⟩⟩
      · rw [hwritten]
        exact (hdrain'.atRest hidle).bytes
      · obtain ⟨hrest, hempty⟩ := hreturns hret
        have hbytes := hrest.bytes
        rw [hempty, List.append_nil] at hbytes
        exact ⟨hrest.idle, hbytes.trans hwritten.symm⟩
    · have hrest : AtRest (StreamSys.new : StreamSys T) [] :=
        ⟨fun _ => rfl, (fun _ hw => nomatch hw), rfl⟩
      exact ⟨⟨IOQueue.inv_new, rfl, .inl hrest⟩, Machine.always_nil _⟩
  exact (hinv halone).2

/-- A run with two tasks -/
def twoTasks (ops : List (StreamOp (Fin 2))) :
    Option (StreamSys (Fin 2) × List (StreamSys (Fin 2) × StreamOp (Fin 2) × StreamSys (Fin 2))) :=
  Machine.run streamStep StreamSys.new ops

/-- Two bytes are handed over one by one. -/
def partByPart {T : Type} (a b : T) : List (StreamOp T) :=
  [.write a [97], .write b [98], .drain a, .event pollout, .resume a (some 1), .event pollout,
    .resume a none, .event pollout, .resume a (some 1)]

theorem stream_drain_exact_two_bytes :
    ∃ s trace, twoTasks (partByPart 0 1) = some (s, trace) ∧ s.handed = [97, 98] ∧
      DrainedSoFar trace := by
  have heval : (twoTasks (partByPart 0 1)).any fun (s, trace) =>
      s.handed = [97, 98] ∧ ∀ o ∈ trace, o.2.1.Alone o.1 := by
    decide +kernel
  rcases hrun : twoTasks (partByPart 0 1) with _ | ⟨s, trace⟩
  · rw [hrun] at heval
    cases heval
  · rw [hrun] at heval
    obtain ⟨hhanded, halone⟩ := of_decide_eq_true heval
    exact ⟨s, trace, rfl, hhanded, stream_drain_exact (partByPart 0 1) s trace hrun halone⟩

/-- What task 1 writes while task 0 is in `drain` is lost. -/
theorem stream_drain_loses_byte :
    (twoTasks [.write 0 [97], .drain 0, .write 1 [98], .event pollout, .resume 0 (some 1),
        .drain 1]).any fun (s, trace) =>
      s.Idle ∧ s.raised = [] ∧ buffersWritten trace = [97, 98] ∧ s.handed = [97] := by
  decide +kernel

end Pycopy
