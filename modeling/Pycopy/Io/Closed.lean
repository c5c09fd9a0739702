import Pycopy.Io.ReadUtf8
import Pycopy.Io.Stringio

/-!
# In-Memory Files after Close

The methods of `StringIO` and `BytesIO` on an object that may be closed, in a build with
`MICROPY_CPYTHON_COMPAT`: closing frees the `vstr_t` and sets the pointer to it to NULL. The methods
are those of `py/stream.c` (`stream_read_generic`, `mp_stream_readline`, `mp_stream_write`,
`stream_seek`, `mp_stream_close`) over the calls of `py/objstringio.c`. A method changes the object
and returns or raises, or it has no result, if it goes through the NULL pointer.

The calls to read and to write and `getvalue` check that the object is open, but the seek of
`stringio_ioctl` does not, and it takes the length for a seek from the end. Nor does `mp_get_buffer`
of `py/obj.c`, which gives the memory of a `BytesIO` that is to be written, also to itself.

## Main results

* `stringio_closed_iff`: which sequences of methods never go through the NULL pointer.
-/

namespace Pycopy

/-! ### Definitions -/

/-- `mp_obj_stringio_t` with or without a `vstr_t`. After the object is closed, the position stays,
and whether there is a string that it was made from. -/
inductive StringioObj
  | opened (o : Stringio)
  | closed (pos : ℕ) (refObj : Bool)
  deriving DecidableEq

def StringioObj.pos : StringioObj → ℕ
  | .opened o => o.pos
  | .closed pos _ => pos

def StringioObj.setPos (pos : ℕ) : StringioObj → StringioObj
  | .opened o => .opened { o with pos := pos }
  | .closed _ refObj => .closed pos refObj

/-- `o->ref_obj != MP_OBJ_NULL`: the string that the object was made from and did not yet copy -/
def StringioObj.refObj : StringioObj → Bool
  | .opened o => o.buf = .fixed
  | .closed _ refObj => refObj

/-- What the methods raise -/
inductive StringioExc
  | valueError (msg : String)
  | osError (e : FileErrno)
  | memoryError
  | attributeError
  | typeError
  deriving DecidableEq

/-- A method that works on an object: it has no result if it goes through a NULL pointer. -/
abbrev StringioM := ExceptT StringioExc (StateT StringioObj Option)

/-- `o->vstr` as a pointer that is followed -/
def derefVstr : StringioM Stringio := do
  match ← get with
  | .opened o => pure o
  | .closed _ _ => fun _ => none

/-- `check_stringio_is_open` -/
def checkStringioIsOpen : StringioM Unit := do
  match ← get with
  | .opened _ => pure ()
  | .closed _ _ => throw (.valueError "I/O operation on closed file")

/-- `stringio_read` -/
def stringioReadCall (size : ℕ) : StringioM (List UInt8) := do
  checkStringioIsOpen
  let o ← derefVstr
  set (StringioObj.opened (stringioRead o size).2)
  pure (stringioRead o size).1

/-- `stringio_write`, and what `mp_stream_write` raises for its error -/
def stringioWriteCall (w : ℕ) (bs : List UInt8) (fresh : ℕ → UInt8) : StringioM ℕ := do
  checkStringioIsOpen
  let o ← derefVstr
  match stringioWrite w o bs fresh with
  | none => fun _ => none
  | some (r, o') =>
    set (StringioObj.opened o')
    match r with
    | .ok n => pure n
    | .error e => throw (.osError e)

/-- `stringio_getvalue` -/
def stringioGetvalue : StringioM (List UInt8) := do
  checkStringioIsOpen
  let o ← derefVstr
  pure (o.mem.take o.len)

/-- `mp_stream_close` with `MP_STREAM_CLOSE` of `stringio_ioctl`: `vstr_free` accepts NULL. -/
def mpStreamClose : StringioM Unit := do
  let obj ← get
  set (StringioObj.closed obj.pos obj.refObj)

/-- The place that a seek counts from -/
def seekRef (whence : BitVec 32) : StringioM ℕ := do
  if whence = 1 then pure (← get).pos
  else if whence = 2 then pure (← derefVstr).len
  else pure 0

/-- The rest of `MP_STREAM_SEEK` of `stringio_ioctl` -/
def seekFrom {w : ℕ} (whence : BitVec 32) (offset : BitVec w) (ref : ℕ) : StringioM ℕ := fun obj =>
  let newPos := (ref + offset.toNat) % 2 ^ w
  if whence ≠ 0 ∧ offset.toInt < 0 then
    let newPos := if ref < newPos then 0 else newPos
    some (.ok newPos, obj.setPos newPos)
  else if newPos < ref then some (.error (.osError .einval), obj)
  else some (.ok newPos, obj.setPos newPos)

/-- `stream_seek` -/
def streamSeek {w : ℕ} (whence : BitVec 32) (offset : BitVec w) : StringioM ℕ :=
  if whence = 0 ∧ offset.toInt < 0 then throw (.osError .einval)
  else do seekFrom whence offset (← seekRef whence)

/-- The loop of `mp_stream_rw` for a read, with fuel -/
def streamReadLoop : ℕ → ℕ → List UInt8 → StringioM (List UInt8)
  | 0, _, done => pure done
  | fuel + 1, size, done => do
    if size = 0 then pure done
    else
      let bs ← stringioReadCall size
      if bs = [] then pure done else streamReadLoop fuel (size - bs.length) (done ++ bs)

/-- The loop of `mp_stream_read_utf8`, with fuel -/
def streamReadUtf8Loop : ℕ → List UInt8 → ℕ → ℕ → ℕ → StringioM (List UInt8)
  | 0, _, _, _, _ => fun _ => none
  | fuel + 1, vstr, sz, moreBytes, lastBufOffset => do
    if moreBytes = 0 then pure vstr
    else
      let bs ← streamReadLoop moreBytes moreBytes []
      let vstr := vstr ++ bs
      if bs.length = 0 then pure vstr
      else
        match countChars vstr (vstr.length + 1) lastBufOffset sz with
        | none => fun _ => none
        | some (sz, off, moreBytes) => streamReadUtf8Loop fuel vstr sz moreBytes off

/-- The loop of `mp_stream_readall`, with fuel -/
def streamReadallLoop : ℕ → ℕ → List UInt8 → StringioM (List UInt8)
  | 0, _, _ => fun _ => none
  | fuel + 1, currentRead, vstr => do
    let bs ← stringioReadCall currentRead
    if bs = [] then pure vstr
    else
      streamReadallLoop fuel (if bs.length < currentRead then currentRead - bs.length else 256)
        (vstr ++ bs)

/-- `stream_read_generic`: a size below -1 is too much memory. `StringIO` is a text stream. -/
def streamRead (text : Bool) (fuel : ℕ) (sz : ℤ) : StringioM (List UInt8) :=
  if sz = -1 then streamReadallLoop fuel 256 []
  else if sz < 0 then throw .memoryError
  else if text then streamReadUtf8Loop fuel [] sz.toNat sz.toNat 0
  else streamReadLoop sz.toNat sz.toNat []

/-- `utf8_get_size` -/
def utf8GetSize (lead : UInt8) : ℤ :=
  if lead < 0x80 then 1
  else if lead < 0xC0 then 1
  else if lead < 0xE0 then 2
  else if lead < 0xF0 then 3
  else 4

/-- The loop of `mp_stream_readline`, with fuel -/
def streamReadlineLoop (text : Bool) (eol : UInt8) : ℕ → ℤ → List UInt8 → StringioM (List UInt8)
  | 0, _, _ => fun _ => none
  | fuel + 1, maxSize, vstr => do
    if maxSize = 0 then pure vstr
    else
      let bs ← stringioReadCall 1
      match bs with
      | [] => pure vstr
      | c :: _ =>
        if c = eol then pure (vstr ++ [c])
        else
          let maxSize := if maxSize = -1 then -1 else maxSize - 1
          streamReadlineLoop text eol fuel
            (if maxSize ≠ -1 ∧ text then maxSize + utf8GetSize c - 1 else maxSize) (vstr ++ [c])

/-- `mp_stream_readline`: without a limit, it is -1. -/
def mpStreamReadline (text : Bool) (fuel : ℕ) (maxSize : ℤ) (eol : UInt8) :
    StringioM (List UInt8) :=
  if maxSize < -1 then throw .memoryError else streamReadlineLoop text eol fuel maxSize []

/-- `mp_stream_write`: `mp_stream_rw` makes no call for no bytes, and one call writes them all. -/
def mpStreamWrite (w : ℕ) (bs : List UInt8) (fresh : ℕ → UInt8) : StringioM ℕ :=
  if bs.length = 0 then pure 0 else stringioWriteCall w bs fresh

/-- What is written: an object whose buffer has some bytes, or that has none, the object itself, or
another `BytesIO` that is closed and was not made from a string -/
inductive WriteArg
  | buffer (bs : List UInt8)
  | noBuffer
  | self
  | closedBytesio
  deriving DecidableEq, Repr

/-- `mp_stream_write_method`, with `mp_get_buffer_raise` of the argument. Of the streams only a
`BytesIO` without `ref_obj` has a buffer: its memory from the position on. -/
def mpStreamWriteMethod (w : ℕ) (text : Bool) (arg : WriteArg) (fresh : ℕ → UInt8) :
    StringioM ℕ :=
  match arg with
  | .buffer bs => mpStreamWrite w bs fresh
  | .noBuffer => throw .typeError
  | .closedBytesio => fun _ => none
  | .self => do
    if text || (← get).refObj then throw .typeError
    else
      let o ← derefVstr
      -- behind the memory the length of the buffer wraps around, and so would the new position
      if o.alloc < o.pos then throw (.osError .efbig) else mpStreamWrite w (o.mem.drop o.pos) fresh

/-- The methods, a write with what new memory holds. The arguments of a seek are words. -/
inductive StringioMethod (w : ℕ)
  | read (sz : ℤ)
  | readline (maxSize : ℤ) (eol : UInt8)
  | write (arg : WriteArg) (fresh : ℕ → UInt8)
  | seek (whence offset : BitVec w)
  | tell
  | getvalue
  | close

/-- What a method returns -/
inductive StringioValue
  | none
  | num (n : ℕ)
  | bytes (bs : List UInt8)
  deriving DecidableEq

/-- More rounds than a loop over the object takes -/
def StringioObj.fuel : StringioObj → ℕ
  | .opened o => o.len + 2
  | .closed _ _ => 2

/-- A method is called. `stream_seek` keeps `whence` in an `int`, and there is no `tell` in the
table of the methods. -/
def StringioMethod.call {w : ℕ} (text : Bool) : StringioMethod w → StringioM StringioValue
  | .read sz => do
    let bs ← streamRead text (← get).fuel sz
    pure (.bytes bs)
  | .readline maxSize eol => do
    let bs ← mpStreamReadline text (← get).fuel maxSize eol
    pure (.bytes bs)
  | .write arg fresh => do
    let n ← mpStreamWriteMethod w text arg fresh
    pure (.num n)
  | .seek whence offset => do
    let n ← streamSeek (whence.signExtend 32) offset
    pure (.num n)
  | .tell => throw .attributeError
  | .getvalue => do
    let bs ← stringioGetvalue
    pure (.bytes bs)
  | .close => do
    mpStreamClose
    pure .none

/-- One method of a program that goes on after an exception -/
def stringioStep {w : ℕ} (text : Bool) (obj : StringioObj) (m : StringioMethod w) :
    Option (StringioObj × Except StringioExc StringioValue) :=
  (m.call text obj).map fun (r, obj') => (obj', r)

/-- The methods that go through the pointer of a closed object: a seek from the end, and a write of
a closed `BytesIO` that was not made from a string, which may be the object itself. -/
def StringioMethod.Derefs {w : ℕ} (text refObj : Bool) : StringioMethod w → Prop
  | .seek whence _ => whence.signExtend 32 = 2
  | .write .closedBytesio _ => True
  | .write .self _ => text = false ∧ refObj = false
  | _ => False

/-! ### Seeks -/

variable {w : ℕ}

/-- **On an open object** the seek is the one of a file. -/
theorem streamSeek_opened (o : Stringio) (whence : BitVec 32) (offset : BitVec w) :
    streamSeek whence offset (.opened o) =
      some ((stringioSeek o whence offset).1.mapError .osError,
        .opened (stringioSeek o whence offset).2) := by
  by_cases hset : whence = 0 ∧ offset.toInt < 0
  · rw [streamSeek, if_pos hset, stringioSeek, if_pos hset]
    rfl
  · have hfrom (ref : ℕ)
        (href : ref = if whence = 1 then o.pos else if whence = 2 then o.len else 0) :
        seekFrom whence offset ref (.opened o) =
          some ((stringioSeek o whence offset).1.mapError .osError,
          .opened (stringioSeek o whence offset).2) := by
      rw [seekFrom, stringioSeek, if_neg hset]
      simp only [← href]
      by_cases hback : whence ≠ 0 ∧ offset.toInt < 0
      · simp only [if_pos hback]
        rfl
      · simp only [if_neg hback]
        split_ifs <;> rfl
    have hseek (ref : ℕ) (h : seekRef whence (.opened o) = some (.ok ref, .opened o)) :
        streamSeek whence offset (.opened o) = seekFrom whence offset ref (.opened o) := by
      rw [streamSeek, if_neg hset]
      show (seekRef whence (.opened o)).bind _ = _
      rw [h]
      rfl
    by_cases hcur : whence = 1
    · rw [hseek o.pos (by rw [seekRef, if_pos hcur]; rfl), hfrom _ (by rw [if_pos hcur])]
    · by_cases hend : whence = 2
      · rw [hseek o.len (by rw [seekRef, if_neg hcur, if_pos hend]; rfl),
          hfrom _ (by rw [if_neg hcur, if_pos hend])]
      · rw [hseek 0 (by rw [seekRef, if_neg hcur, if_neg hend]; rfl),
          hfrom _ (by rw [if_neg hcur, if_neg hend])]

/-! ### Closed objects -/

/-- The method leaves a closed object closed, without following the pointer. -/
def KeepsClosed {α : Type} (refObj : Bool) (x : StringioM α) : Prop :=
  ∀ pos, ∃ r pos', x (.closed pos refObj) = some (r, .closed pos' refObj)

variable {refObj : Bool}

theorem KeepsClosed.pure {α : Type} (a : α) : KeepsClosed refObj (pure a : StringioM α) :=
  fun pos => ⟨.ok a, pos, rfl⟩

theorem KeepsClosed.throw {α : Type} (e : StringioExc) :
    KeepsClosed refObj (throw e : StringioM α) := fun pos => ⟨.error e, pos, rfl⟩

/-- One call after the other -/
theorem KeepsClosed.bind {α β : Type} {x : StringioM α} {f : α → StringioM β}
    (hx : KeepsClosed refObj x)
    (hf : ∀ a, KeepsClosed refObj (f a)) : KeepsClosed refObj (x >>= f) := by
  intro pos
  obtain ⟨r, pos₁, h₁⟩ := hx pos
  show ∃ r pos', (x (.closed pos refObj)).bind _ = some (r, StringioObj.closed pos' refObj)
  rw [h₁]
  cases r with
  | error e => exact ⟨.error e, pos₁, rfl⟩
  | ok a => exact hf a pos₁

/-- A read raises, whatever comes after it. -/
theorem KeepsClosed.readCall {α : Type} (size : ℕ) (f : List UInt8 → StringioM α) :
    KeepsClosed refObj (stringioReadCall size >>= f) :=
  fun pos => ⟨.error (.valueError "I/O operation on closed file"), pos, rfl⟩

theorem seekRef_closed {whence : BitVec 32} (h : whence ≠ 2) :
    KeepsClosed refObj (seekRef whence) := by
  intro pos
  by_cases hcur : whence = 1
  · exact ⟨.ok pos, pos, by rw [seekRef, if_pos hcur]; rfl⟩
  · exact ⟨.ok 0, pos, by rw [seekRef, if_neg hcur, if_neg h]; rfl⟩

theorem seekFrom_closed (whence : BitVec 32) (offset : BitVec w) (ref : ℕ) :
    KeepsClosed refObj (seekFrom whence offset ref) := by
  intro pos
  unfold seekFrom
  simp only
  split_ifs <;> exact ⟨_, _, rfl⟩

theorem streamSeek_closed {whence : BitVec 32} (h : whence ≠ 2) (offset : BitVec w) :
    KeepsClosed refObj (streamSeek whence offset) := by
  unfold streamSeek
  split_ifs with hset
  · exact KeepsClosed.throw _
  · exact (seekRef_closed h).bind fun ref => seekFrom_closed whence offset ref

theorem streamReadLoop_closed {size : ℕ} (hsize : size ≠ 0) {α : Type}
    (f : List UInt8 → StringioM α) :
    KeepsClosed refObj (streamReadLoop size size [] >>= f) := by
  obtain ⟨n, rfl⟩ := Nat.exists_eq_succ_of_ne_zero hsize
  exact fun pos => ⟨.error (.valueError "I/O operation on closed file"), pos, rfl⟩

theorem streamRead_closed (text : Bool) (fuel : ℕ) (sz : ℤ) :
    KeepsClosed refObj (streamRead text (fuel + 1) sz) := by
  unfold streamRead
  split_ifs with hall hneg htext
  · exact KeepsClosed.readCall 256 _
  · exact KeepsClosed.throw _
  · rw [streamReadUtf8Loop]
    split_ifs with hzero
    · exact KeepsClosed.pure _
    · exact streamReadLoop_closed hzero _
  · by_cases hzero : sz.toNat = 0
    · rw [hzero]
      exact KeepsClosed.pure []
    · rw [← bind_pure (streamReadLoop _ _ _)]
      exact streamReadLoop_closed hzero _

theorem mpStreamReadline_closed (text : Bool) (fuel : ℕ) (maxSize : ℤ) (eol : UInt8) :
    KeepsClosed refObj (mpStreamReadline text (fuel + 1) maxSize eol) := by
  unfold mpStreamReadline
  split_ifs with hneg
  · exact KeepsClosed.throw _
  · rw [streamReadlineLoop]
    by_cases hzero : maxSize = 0
    · rw [if_pos hzero]
      exact KeepsClosed.pure _
    · rw [if_neg hzero]
      exact KeepsClosed.readCall 1 _

theorem mpStreamWrite_closed (w : ℕ) (bs : List UInt8) (fresh : ℕ → UInt8) :
    KeepsClosed refObj (mpStreamWrite w bs fresh) := by
  unfold mpStreamWrite
  split_ifs with hzero
  · exact KeepsClosed.pure 0
  · exact fun pos => ⟨.error (.valueError "I/O operation on closed file"), pos, rfl⟩

/-- **Every other method** raises or returns. -/
theorem call_closed (text : Bool) {m : StringioMethod w} (h : ¬m.Derefs text refObj) :
    KeepsClosed refObj (m.call text) := by
  cases m with
  | read sz => exact fun pos => (streamRead_closed text 1 sz).bind (fun _ => .pure _) pos
  | readline maxSize eol =>
    exact fun pos => (mpStreamReadline_closed text 1 maxSize eol).bind (fun _ => .pure _) pos
  | write arg fresh =>
    refine KeepsClosed.bind ?_ fun _ => .pure _
    cases arg with
    | buffer bs => exact mpStreamWrite_closed w bs fresh
    | noBuffer => exact .throw _
    | closedBytesio => exact absurd trivial h
    | self =>
      intro pos
      refine ⟨.error .typeError, pos, ?_⟩
      cases text with
      | true => rfl
      | false =>
        cases refObj with
        | true => rfl
        | false => exact absurd ⟨rfl, rfl⟩ h
  | seek whence offset => exact (streamSeek_closed h offset).bind fun _ => .pure _
  | tell => exact .throw _
  | getvalue => exact fun pos => ⟨.error (.valueError "I/O operation on closed file"), pos, rfl⟩
  | close => exact fun pos => ⟨.ok .none, pos, rfl⟩

theorem call_derefs (text : Bool) {m : StringioMethod w} (h : m.Derefs text refObj) (pos : ℕ) :
    m.call text (.closed pos refObj) = none := by
  cases m with
  | seek whence offset =>
    have hend : whence.signExtend 32 = 2 := h
    rw [StringioMethod.call, hend]
    rfl
  | write arg fresh =>
    cases arg with
    | closedBytesio => rfl
    | self =>
      obtain ⟨rfl, rfl⟩ := h
      rfl
    | _ => exact False.elim h
  | _ => exact False.elim h

/-- The methods of a run on a closed object -/
theorem run_closed_iff (text : Bool) (pos : ℕ) (ms : List (StringioMethod w)) :
    (∃ obj rs, Machine.run (stringioStep text) (.closed pos refObj) ms = some (obj, rs)) ↔
      ∀ m ∈ ms, ¬m.Derefs text refObj := by
  induction ms generalizing pos with
  | nil => exact iff_of_true ⟨.closed pos refObj, [], rfl⟩ fun m hm => absurd hm List.not_mem_nil
  | cons m ms ih =>
    rw [List.forall_mem_cons]
    by_cases hend : m.Derefs text refObj
    · refine iff_of_false ?_ fun hall => hall.1 hend
      rintro ⟨obj, rs, hrun⟩
      obtain ⟨obj₁, r, rs₁, hstep, -⟩ := Machine.run_cons_eq_some.mp hrun
      rw [stringioStep, call_derefs text hend] at hstep
      cases hstep
    · obtain ⟨r, pos', heq⟩ := call_closed text hend pos
      have hstep : stringioStep text (.closed pos refObj) m = some (.closed pos' refObj, r) := by
        rw [stringioStep, heq]
        rfl
      rw [and_iff_right hend, ← ih pos']
      constructor
      · rintro ⟨obj, rs, hrun⟩
        obtain ⟨obj₁, r₁, rs₁, hstep₁, hrest, -⟩ := Machine.run_cons_eq_some.mp hrun
        rw [hstep] at hstep₁
        obtain ⟨rfl, -⟩ := Prod.mk.inj (Option.some.inj hstep₁)
        exact ⟨obj, rs₁, hrest⟩
      · rintro ⟨obj, rs, hrest⟩
        exact ⟨obj, r :: rs, Machine.run_cons_eq_some.mpr ⟨_, r, rs, hstep, hrest, rfl⟩⟩

/-- **After an object has been closed**, every method of a sequence raises or returns without going
through the NULL pointer, if and only if none of them is a seek from the end or a write of a closed
`BytesIO` that was not made from a string. -/
theorem stringio_closed_iff (text : Bool) (obj : StringioObj) (ms : List (StringioMethod w)) :
    ∃ obj', mpStreamClose obj = some (.ok (), obj') ∧
      ((∃ obj'' rs, Machine.run (stringioStep text) obj' ms = some (obj'', rs)) ↔
        ∀ m ∈ ms, ¬m.Derefs text obj.refObj) :=
  ⟨.closed obj.pos obj.refObj, rfl, run_closed_iff text obj.pos ms⟩

/-- An empty `BytesIO` is closed; `seek(0, 2)`, `seek(0, 2 ** 32 + 2)` and the write of the object
to itself go through the pointer, where reading raises. -/
theorem stringio_seek_end_closed :
    mpStreamClose (.opened (stringioNew 16 fun _ => 0)) = some (.ok (), .closed 0 false) ∧
      stringioStep false (.closed 0 false) (.read (w := 64) 1) =
        some (.closed 0 false, .error (.valueError "I/O operation on closed file")) ∧
      stringioStep false (.closed 0 false) (.seek 2 (0 : BitVec 64)) = none ∧
      stringioStep false (.closed 0 false) (.seek (2 ^ 32 + 2) (0 : BitVec 64)) = none ∧
      stringioStep false (.closed 0 false) (.write (w := 64) .self fun _ => 0) = none :=
  ⟨rfl, rfl, rfl, rfl, rfl⟩

end Pycopy
