import Pycopy.Lib.Stream
import Mathlib.Data.List.Flatten
import Mathlib.Tactic.Ring

/-!
# Websockets

`websocket_read` of `extmod/moduwebsocket.c`: the payload of websocket frames, from a stream that
may stop at any byte. The header of a frame is collected in a buffer of six bytes, and the payload
is read straight into the buffer of the caller and unmasked there.

The payload of a control frame is read into the buffer of the caller as well, and then it is
dropped. But this is done only at the end of the frame: if its payload does not come in one piece,
or does not fit the buffer, the first part of it is returned like data.

## Main results

* `websocket_reads_eq_iff`: which calls return the data of the frames.
-/

open Stream

namespace Pycopy

/-! ### The source -/

/-- `FRAME_OPCODE_MASK` -/
def frameOpcodeMask : UInt8 := 0x0f

/-- `FRAME_CONT` -/
def frameCont : UInt8 := 0

/-- `FRAME_TXT` -/
def frameTxt : UInt8 := 1

/-- `FRAME_CLOSE` -/
def frameClose : UInt8 := 8

/-- `BLOCKING_WRITE` -/
def blockingWrite : UInt8 := 0x80

inductive WsState
  | frameHeader
  | frameOpt
  | payload
  | control
  deriving DecidableEq, Repr

/-- `mp_obj_websocket_t` -/
structure Websocket where
  msgSz : ℕ
  mask : List UInt8
  state : WsState
  toRecv : ℕ
  maskPos : ℕ
  bufPos : ℕ
  buf : List UInt8
  opts : UInt8
  wsFlags : UInt8
  lastFlags : UInt8
  deriving DecidableEq, Repr

/-- A websocket with its socket: what is read from it, and what has been written to it -/
structure WsSys where
  ws : Websocket
  sock : Source UInt8
  sent : List UInt8
  deriving DecidableEq, Repr

/-- What `websocket_read` returns. At the end of the stream and after a close frame it is zero. -/
inductive WsRet
  | error
  | eof
  | closed
  | data (bs : List UInt8)
  | timeout
  deriving DecidableEq, Repr

/-- `websocket_make_new`. The other fields are those of the new block of memory. -/
def websocketMakeNew (o : Websocket) (blocking : Bool) : Websocket :=
  { o with
    state := .frameHeader
    toRecv := 2
    maskPos := 0
    bufPos := 0
    opts := if blocking then frameTxt ||| blockingWrite else frameTxt }

/-- The bytes that `websocket_write` writes to the socket -/
def websocketWrite (opts : UInt8) (buf : List UInt8) : List UInt8 :=
  let size := buf.length
  let header :=
    if size < 126 then [UInt8.ofNat size]
    else [126, UInt8.ofNat (size >>> 8), UInt8.ofNat (size &&& 0xff)]
  (0x80 ||| (opts &&& frameOpcodeMask)) :: header ++ buf

/-- The first part of a round: the rest of a header is read. The call returns if it is not all
there. -/
def wsFill (st : WsSys) : WsSys × Option WsRet :=
  if st.ws.toRecv ≠ 0 then
    match st.sock.read st.ws.toRecv with
    | (.error, sock) => ({ st with sock := sock }, some .error)
    | (.eof, sock) => ({ st with sock := sock }, some .eof)
    | (.bytes bs, sock) =>
      let toRecv := st.ws.toRecv - bs.length
      ({ st with
         ws :=
           { st.ws with
             buf := splice st.ws.buf st.ws.bufPos bs
             bufPos := st.ws.bufPos + bs.length
             toRecv := toRecv }
         sock := sock },
       if toRecv ≠ 0 then some .error else none)
  else (st, none)

/-- The state for the payload of a frame -/
def payloadState (flags : UInt8) : WsState :=
  if frameClose ≤ flags &&& frameOpcodeMask then .control else .payload

/-- `case FRAME_HEADER` -/
def wsHeader (ws : Websocket) : Websocket :=
  let b0 := ws.buf.getD 0 0
  let b1 := ws.buf.getD 1 0
  let sz := (b1 &&& 0x7f).toNat
  let toRecv := (if sz = 126 then 2 else 0) + (if b1 &&& 0x80 ≠ 0 then 4 else 0)
  { ws with
    lastFlags := b0
    wsFlags :=
      if b0 &&& frameOpcodeMask = frameCont then
        (ws.wsFlags &&& frameOpcodeMask) ||| (b0 &&& ~~~frameOpcodeMask)
      else b0
    mask := [0, 0, 0, 0]
    bufPos := 0
    toRecv := toRecv
    msgSz := sz
    state := if toRecv ≠ 0 then .frameOpt else payloadState b0 }

/-- `case FRAME_OPT` -/
def wsOpt (ws : Websocket) : Websocket :=
  { ws with
    msgSz :=
      if ws.bufPos &&& 3 = 2 then ((ws.buf.getD 0 0).toNat <<< 8) ||| (ws.buf.getD 1 0).toNat
      else ws.msgSz
    mask := if 4 ≤ ws.bufPos then (ws.buf.drop (ws.bufPos - 4)).take 4 else ws.mask
    bufPos := 0
    state := payloadState ws.lastFlags }

/-- The loop that unmasks the payload. The position is a byte. -/
def unmask (mask : List UInt8) : ℕ → List UInt8 → List UInt8
  | _, [] => []
  | maskPos, b :: bs =>
    (b ^^^ mask.getD (maskPos &&& 3) 0) :: unmask mask ((maskPos + 1) % 256) bs

/-- What is done at the end of a frame, from the label `no_payload` on. The last bytes of the
payload are in the buffer of the caller. -/
def wsFinish (st : WsSys) (out : List UInt8) : WsSys × Option WsRet :=
  let ws := { st.ws with state := .frameHeader, toRecv := 2, maskPos := 0, bufPos := 0 }
  if st.ws.state = .control then
    if st.ws.lastFlags &&& frameOpcodeMask = frameClose then
      ({ st with ws := ws, sent := st.sent ++ websocketWrite ws.opts [0x88, 0] }, some .closed)
    else ({ st with ws := ws }, none)
  else ({ st with ws := ws }, if out ≠ [] then some (.data out) else none)

/-- `case PAYLOAD` and `case CONTROL` -/
def wsPayload (size : ℕ) (st : WsSys) : WsSys × Option WsRet :=
  if st.ws.msgSz = 0 then wsFinish st []
  else
    match st.sock.read (min size st.ws.msgSz) with
    | (.error, sock) => ({ st with sock := sock }, some .error)
    | (.eof, sock) => ({ st with sock := sock }, some .eof)
    | (.bytes bs, sock) =>
      let out := unmask st.ws.mask st.ws.maskPos bs
      let ws : Websocket :=
        { st.ws with
          maskPos := (st.ws.maskPos + bs.length) % 256
          msgSz := st.ws.msgSz - bs.length }
      let st := { st with ws := ws, sock := sock }
      if ws.msgSz = 0 then wsFinish st out
      else (st, if out ≠ [] then some (.data out) else none)

/-- A round of the loop of `websocket_read`, with what it returns if it does -/
def wsIter (size : ℕ) (st : WsSys) : WsSys × Option WsRet :=
  match wsFill st with
  | (st, some ret) => (st, some ret)
  | (st, none) =>
    match st.ws.state with
    | .frameHeader => ({ st with ws := wsHeader st.ws }, none)
    | .frameOpt => ({ st with ws := wsOpt st.ws }, none)
    | .payload | .control => wsPayload size st

/-- The loop of `websocket_read`, with fuel -/
def wsLoop (size : ℕ) : ℕ → WsSys → WsSys × WsRet
  | 0, st => (st, .timeout)
  | fuel + 1, st =>
    match wsIter size st with
    | (st, some ret) => (st, ret)
    | (st, none) => wsLoop size fuel st

/-- `websocket_read`. In every second round there is a call of `read`. -/
def websocketRead (size : ℕ) (st : WsSys) : WsSys × WsRet :=
  wsLoop size (2 * st.sock.sched.length + 3) st

/-- Calls of `websocket_read` one after the other, until there is a close frame -/
def websocketReads : List ℕ → WsSys → WsSys × List WsRet
  | [], st => (st, [])
  | size :: sizes, st =>
    let (st, ret) := websocketRead size st
    if ret = .closed then (st, [ret])
    else
      let (st, rets) := websocketReads sizes st
      (st, ret :: rets)

/-- The bytes that some calls have returned -/
def received (rets : List WsRet) : List UInt8 :=
  rets.flatMap fun
    | .data bs => bs
    | _ => []

/-! ### Frames -/

/-- The payload under a mask of four bytes, from position `k` of it on -/
def applyMask (mask : List UInt8) : ℕ → List UInt8 → List UInt8
  | _, [] => []
  | k, b :: bs => (b ^^^ mask.getD (k % 4) 0) :: applyMask mask (k + 1) bs

/-- A frame. Its length is in the second byte, or in two further bytes. -/
structure Frame where
  flags : UInt8
  mask : Option (List UInt8)
  extended : Bool
  payload : List UInt8
  deriving DecidableEq, Repr

namespace Frame

/-- The length and the mask are as the header of the frame can say: the payload has less than 65536
bytes. -/
structure Sized (f : Frame) : Prop where
  mask : ∀ m ∈ f.mask, m.length = 4
  short : f.extended = false → f.payload.length ≤ 125
  len : f.payload.length < 65536

/-- An unfragmented frame -/
structure WellFormed (f : Frame) : Prop extends Sized f where
  fin : f.flags &&& 0x80 ≠ 0

/-- The second byte -/
def lenByte (masked : Bool) (n : ℕ) : UInt8 := UInt8.ofNat (n + if masked then 128 else 0)

/-- The length and the mask -/
def opt (f : Frame) : List UInt8 :=
  (if f.extended then [UInt8.ofNat (f.payload.length / 256), UInt8.ofNat (f.payload.length % 256)]
    else []) ++ f.mask.getD []

/-- The payload as it is sent -/
def body (f : Frame) : List UInt8 :=
  match f.mask with
  | some m => applyMask m 0 f.payload
  | none => f.payload

/-- The bytes of a frame -/
def encode (f : Frame) : List UInt8 :=
  f.flags :: lenByte f.mask.isSome (if f.extended then 126 else f.payload.length) ::
    (f.opt ++ f.body)

def IsControl (f : Frame) : Prop := frameClose ≤ f.flags &&& frameOpcodeMask

def IsClose (f : Frame) : Prop := f.flags &&& frameOpcodeMask = frameClose

instance (f : Frame) : Decidable f.IsControl := inferInstanceAs (Decidable (_ ≤ _))

instance (f : Frame) : Decidable f.IsClose := inferInstanceAs (Decidable (_ = _))

end Frame

/-- The payload of the data frames up to the first close frame -/
def dataUpToClose : List Frame → List UInt8
  | [] => []
  | f :: fs =>
    if f.IsClose then []
    else if f.IsControl then dataUpToClose fs
    else f.payload ++ dataUpToClose fs

/-! ### Masks -/

theorem unmask_eq {mask : List UInt8} {pos k : ℕ} (h : pos % 4 = k % 4) (bs : List UInt8) :
    unmask mask pos bs = applyMask mask k bs := by
  induction bs generalizing pos k with
  | nil => rfl
  | cons b bs ih =>
    have hand : pos &&& 3 = pos % 4 := Nat.and_two_pow_sub_one_eq_mod pos 2
    have hnext : (pos + 1) % 256 % 4 = (k + 1) % 4 := by omega
    rw [unmask, applyMask, hand, h, ih hnext]

@[simp] theorem length_applyMask (mask : List UInt8) (k : ℕ) (bs : List UInt8) :
    (applyMask mask k bs).length = bs.length := by
  induction bs generalizing k with
  | nil => rfl
  | cons b bs ih => rw [applyMask, List.length_cons, List.length_cons, ih]

theorem applyMask_append (mask : List UInt8) (k : ℕ) (bs cs : List UInt8) :
    applyMask mask k (bs ++ cs) = applyMask mask k bs ++ applyMask mask (k + bs.length) cs := by
  induction bs generalizing k with
  | nil => rfl
  | cons b bs ih =>
    rw [List.cons_append, applyMask, applyMask, ih, List.cons_append, List.length_cons,
      Nat.add_assoc, Nat.add_comm 1]

theorem applyMask_applyMask (mask : List UInt8) (k : ℕ) (bs : List UInt8) :
    applyMask mask k (applyMask mask k bs) = bs := by
  induction bs generalizing k with
  | nil => rfl
  | cons b bs ih => rw [applyMask, applyMask, ih, UInt8.xor_assoc, UInt8.xor_self, UInt8.xor_zero]

theorem applyMask_zero (k : ℕ) (bs : List UInt8) : applyMask [0, 0, 0, 0] k bs = bs := by
  induction bs generalizing k with
  | nil => rfl
  | cons b bs ih =>
    have hzero : ∀ i < 4, ([0, 0, 0, 0] : List UInt8).getD i 0 = 0 := by decide
    rw [applyMask, ih, hzero _ (Nat.mod_lt _ (by decide)), UInt8.xor_zero]

namespace Frame

/-- The mask that the receiver uses -/
def maskBytes (f : Frame) : List UInt8 := f.mask.getD [0, 0, 0, 0]

theorem body_eq (f : Frame) : f.body = applyMask f.maskBytes 0 f.payload := by
  rw [body, maskBytes]
  cases f.mask with
  | some m => rfl
  | none => exact (applyMask_zero 0 f.payload).symm

/-- What is left of the body is the rest of the payload under the mask. -/
theorem drop_body (f : Frame) (k : ℕ) :
    f.body.drop k = applyMask f.maskBytes k (f.payload.drop k) := by
  rw [body_eq]
  by_cases hk : k ≤ f.payload.length
  · conv_lhs => rw [← List.take_append_drop k f.payload, applyMask_append]
    rw [List.length_take, Nat.min_eq_left hk, Nat.zero_add]
    exact List.drop_left' (by rw [length_applyMask, List.length_take, Nat.min_eq_left hk])
  · rw [List.drop_eq_nil_of_le (by rw [length_applyMask]; omega),
      List.drop_eq_nil_of_le (by omega)]
    rfl

theorem lenByte_and (masked : Bool) {n : ℕ} (h : n < 128) :
    (lenByte masked n &&& 0x7f).toNat = n ∧ (lenByte masked n &&& 0x80 ≠ 0 ↔ masked = true) := by
  revert h
  revert n
  cases masked <;> decide

theorem length_opt {f : Frame} (hf : f.Sized) :
    f.opt.length = (if f.extended then 2 else 0) + (if f.mask.isSome then 4 else 0) := by
  rw [opt, List.length_append]
  cases hm : f.mask with
  | none => cases f.extended <;> rfl
  | some m =>
    have : m.length = 4 := hf.mask m hm
    cases f.extended <;> simp [this]

end Frame

/-! ### The place in the frames -/

/-- A place in the header of the first of some frames -/
structure AtHeader (ws : Websocket) (unread : List UInt8) (fs : List Frame) : Prop where
  state : ws.state = .frameHeader
  buf : ws.buf.length = 6
  pos : ws.bufPos + ws.toRecv = 2
  recv : 0 < ws.toRecv
  maskPos : ws.maskPos = 0
  data : ws.buf.take ws.bufPos ++ unread = fs.flatMap Frame.encode

/-- A place in the length and the mask of a frame -/
structure AtOpt (ws : Websocket) (unread : List UInt8) (f : Frame) (fs : List Frame) : Prop where
  state : ws.state = .frameOpt
  buf : ws.buf.length = 6
  pos : ws.bufPos + ws.toRecv = f.opt.length
  recv : 0 < ws.toRecv
  flags : ws.lastFlags = f.flags
  mask : ws.mask = [0, 0, 0, 0]
  maskPos : ws.maskPos = 0
  msgSz : f.extended = false → ws.msgSz = f.payload.length
  data : ws.buf.take ws.bufPos ++ unread = f.opt ++ (f.body ++ fs.flatMap Frame.encode)

/-- A place in the payload of a frame, behind `k` bytes of it -/
structure AtBody (ws : Websocket) (unread : List UInt8) (f : Frame) (fs : List Frame) (k : ℕ) :
    Prop where
  state : ws.state = payloadState f.flags
  buf : ws.buf.length = 6
  recv : ws.toRecv = 0
  flags : ws.lastFlags = f.flags
  mask : ws.mask = f.maskBytes
  maskPos : ws.maskPos % 4 = k % 4
  msgSz : ws.msgSz + k = f.payload.length
  data : unread = f.body.drop k ++ fs.flatMap Frame.encode

/-- A place in a sequence of frames: in the first two bytes of the next frame, in the rest of a
header, or behind `k` bytes of a payload -/
inductive WsPlace
  | header (fs : List Frame)
  | opt (f : Frame) (fs : List Frame)
  | body (f : Frame) (k : ℕ) (fs : List Frame)

namespace WsPlace

/-- The machine is at this place. -/
def Holds (ws : Websocket) (unread : List UInt8) : WsPlace → Prop
  | header fs => AtHeader ws unread fs
  | opt f fs => AtOpt ws unread f fs
  | body f k fs => AtBody ws unread f fs k

/-- All frames of which some of the header is to come are in `P`. -/
def All (P : Frame → Prop) : WsPlace → Prop
  | header fs => ∀ f ∈ fs, P f
  | opt f fs => P f ∧ ∀ f ∈ fs, P f
  | body _ _ fs => ∀ f ∈ fs, P f

/-- Nothing more can be done without reading. -/
def Waiting : WsPlace → Prop
  | body f k _ => k < f.payload.length
  | _ => True

/-- The data that is to be returned -/
def toReturn : WsPlace → List UInt8
  | header fs => dataUpToClose fs
  | opt f fs => dataUpToClose (f :: fs)
  | body f k fs => dataUpToClose ({ f with payload := f.payload.drop k } :: fs)

end WsPlace

/-- The machine is in a sequence of frames, at a place from which `exp` is still to be returned. -/
def WsAt (ws : Websocket) (unread exp : List UInt8) : Prop :=
  ∃ p : WsPlace, p.All Frame.WellFormed ∧ p.Holds ws unread ∧ exp = p.toReturn

/-- The payload of a control frame is read in one piece: the caller has room for it, and all of it
is there. -/
def Undivided (size : ℕ) (st : WsSys) : Prop :=
  st.ws.state = .control → st.ws.toRecv = 0 → ∀ bs sock,
    st.sock.read (min size st.ws.msgSz) = (.bytes bs, sock) → bs.length = st.ws.msgSz

/-- The rounds that are left before the call returns. There is no call of `read` for a frame without
payload. -/
def roundsLeft (st : WsSys) : ℕ :=
  2 * st.sock.sched.length + if st.ws.toRecv = 0 ∧ st.ws.msgSz = 0 then 1 else 0

/-- The flags after the first byte of a header: a continuation keeps the opcode of the frame before
it. -/
def nextFlags (wsFlags b0 : UInt8) : UInt8 :=
  if b0 &&& frameOpcodeMask = frameCont then
    (wsFlags &&& frameOpcodeMask) ||| (b0 &&& ~~~frameOpcodeMask)
  else b0

/-- What is returned at the end of a frame, when `out` is the rest of its payload -/
def Frame.finishRet (f : Frame) (out : List UInt8) : Option WsRet :=
  if f.IsControl then if f.IsClose then some .closed else none
  else if out ≠ [] then some (.data out) else none

/-- The ways a round can go, with the flags after it and the bytes that it sends: the stream gives
nothing, the first two bytes of a frame are complete, its header is complete, some of its payload is
read, or all that is left of it. -/
inductive WsMove (size : ℕ) (st : WsSys) :
    WsPlace → WsPlace → Option WsRet → UInt8 → List UInt8 → Prop
  | stuck {p : WsPlace} {ret : WsRet} (hret : ret = .error ∨ ret = .eof) (hwait : p.Waiting)
      (hu : Undivided size st) : WsMove size st p p (some ret) st.ws.wsFlags []
  | header {f : Frame} {fs : List Frame} {p : WsPlace} (hp : p = .opt f fs ∨ p = .body f 0 fs)
      (hu : Undivided size st) :
      WsMove size st (.header (f :: fs)) p none (nextFlags st.ws.wsFlags f.flags) []
  | opt {f : Frame} {fs : List Frame} (hu : Undivided size st) :
      WsMove size st (.opt f fs) (.body f 0 fs) none st.ws.wsFlags []
  | part {f : Frame} {fs : List Frame} {k n : ℕ} (hn : 0 < n) (hlt : k + n < f.payload.length)
      (hu : Undivided size st ↔ ¬f.IsControl) :
      WsMove size st (.body f k fs) (.body f (k + n) fs)
        (some (.data ((f.payload.drop k).take n))) st.ws.wsFlags []
  | finish {f : Frame} {fs : List Frame} {k : ℕ} (hu : Undivided size st) :
      WsMove size st (.body f k fs) (.header fs) (f.finishRet (f.payload.drop k)) st.ws.wsFlags
        (if f.IsClose then websocketWrite st.ws.opts [0x88, 0] else [])

/-- What is known after a round -/
structure WsRound (size : ℕ) (st st' : WsSys) (p p' : WsPlace) (ret : Option WsRet) : Prop where
  holds : p'.Holds st'.ws st'.sock.data
  opts : st'.ws.opts = st.ws.opts
  rounds : ret = none → roundsLeft st' < roundsLeft st
  fresh : ∀ fs, p' = .header fs → p ≠ p' → st'.ws.bufPos = 0
  move : ∃ reply, st'.sent = st.sent ++ reply ∧ WsMove size st p p' ret st'.ws.wsFlags reply

/-- What a round does at a place in the frames from which `exp` is to be returned: nothing that is
seen, the end of the connection, some data, or a part of a control frame. -/
inductive IterOk (size : ℕ) (st : WsSys) (exp : List UInt8) (st' : WsSys) : Option WsRet → Prop
  | next (hat : WsAt st'.ws st'.sock.data exp) (hu : Undivided size st)
      (hrounds : roundsLeft st' < roundsLeft st) : IterOk size st exp st' none
  | nothing {ret : WsRet} (hret : ret = .error ∨ ret = .eof) (hat : WsAt st'.ws st'.sock.data exp)
      (hu : Undivided size st) : IterOk size st exp st' (some ret)
  | closed (hexp : exp = []) (hu : Undivided size st) : IterOk size st exp st' (some .closed)
  | data {bs exp' : List UInt8} (hbs : bs ≠ []) (hexp : exp = bs ++ exp')
      (hat : WsAt st'.ws st'.sock.data exp') (hu : Undivided size st) :
      IterOk size st exp st' (some (.data bs))
  | leak {bs : List UInt8} (hbs : bs ≠ []) (hat : WsAt st'.ws st'.sock.data exp)
      (hu : ¬Undivided size st) : IterOk size st exp st' (some (.data bs))

variable {ws : Websocket} {st' : WsSys}

section Iter

variable {st : WsSys} {size : ℕ}

/-- The bytes of a header are collected one after the other. -/
theorem wsFill_spec (hrecv : 0 < st.ws.toRecv)
    (hbuf : st.ws.bufPos + st.ws.toRecv ≤ st.ws.buf.length) : ∃ buf pos toRecv sock ret,
      wsFill st = ({ st with ws := { st.ws with buf := buf, bufPos := pos, toRecv := toRecv },
                             sock := sock }, ret) ∧
      buf.length = st.ws.buf.length ∧ pos + toRecv = st.ws.bufPos + st.ws.toRecv ∧
      buf.take pos ++ sock.data = st.ws.buf.take st.ws.bufPos ++ st.sock.data ∧
      ((ret = none ∧ toRecv = 0 ∧ sock.sched.length < st.sock.sched.length) ∨
        ((ret = some .error ∨ ret = some .eof) ∧ 0 < toRecv)) := by
  rw [wsFill, if_pos (by omega)]
  obtain ⟨r, sock, hread⟩ : ∃ r sock, st.sock.read st.ws.toRecv = (r, sock) := ⟨_, _, rfl⟩
  have hcases := st.sock.read_cases hrecv
  rw [hread] at hcases
  rcases hcases with ⟨bs, rfl, hne, hle, hdata, hsched⟩ | ⟨rfl | rfl, hdata, -⟩
  · refine ⟨_, _, _, sock, _, by rw [hread], ?_, ?_, ?_, ?_⟩
    · exact length_splice (by omega)
    · omega
    · rw [take_splice (by omega), hdata, List.append_assoc]
    · by_cases h0 : st.ws.toRecv - bs.length = 0
      · exact .inl ⟨if_neg (not_not.mpr h0), h0, by dsimp only at hsched; omega⟩
      · exact .inr ⟨.inl (if_pos h0), by omega⟩
  · exact ⟨_, _, _, sock, _, by rw [hread], rfl, rfl, by rw [← hdata], .inr ⟨.inl rfl, hrecv⟩⟩
  · exact ⟨_, _, _, sock, _, by rw [hread], rfl, rfl, by rw [← hdata], .inr ⟨.inr rfl, hrecv⟩⟩

theorem take_two {buf : List UInt8} (h : 2 ≤ buf.length) :
    buf.take 2 = [buf.getD 0 0, buf.getD 1 0] := by
  match buf, h with
  | b0 :: b1 :: bs, _ => rfl

/-- What the first two bytes of a frame say -/
theorem wsHeader_eq {f : Frame} (hf : f.Sized) (hb0 : ws.buf.getD 0 0 = f.flags)
    (hb1 : ws.buf.getD 1 0 =
      Frame.lenByte f.mask.isSome (if f.extended then 126 else f.payload.length)) :
    wsHeader ws =
      { ws with
        lastFlags := f.flags
        wsFlags := nextFlags ws.wsFlags f.flags
        mask := [0, 0, 0, 0]
        bufPos := 0
        toRecv := f.opt.length
        msgSz := if f.extended then 126 else f.payload.length
        state := if f.opt.length ≠ 0 then .frameOpt else payloadState f.flags } := by
  have hn : (if f.extended then 126 else f.payload.length) < 128 := by
    split
    · decide
    · next hext => exact Nat.lt_of_le_of_lt (hf.short (by simpa using hext)) (by decide)
  have hext : (if f.extended then 126 else f.payload.length) = 126 ↔ f.extended = true := by
    cases he : f.extended with
    | true => simp
    | false =>
      have := hf.short he
      simp only [Bool.false_eq_true, if_false, iff_false]
      omega
  obtain ⟨hlen, hmasked⟩ := Frame.lenByte_and f.mask.isSome hn
  simp only [wsHeader, nextFlags, hb0, hb1, hlen, hmasked, hext, ← Frame.length_opt hf]

/-- After the first two bytes of a frame the machine is in the rest of it. -/
theorem wsHeader_at {ws : Websocket} {unread : List UInt8} {fs : List Frame}
    (hfs : ∀ f ∈ fs, f.Sized) (hbuf : ws.buf.length = 6) (hmask : ws.maskPos = 0)
    (hdata : ws.buf.take 2 ++ unread = fs.flatMap Frame.encode) :
    ∃ f fs', ∃ p : WsPlace, fs = f :: fs' ∧ (p = .opt f fs' ∨ p = .body f 0 fs') ∧
      p.Holds (wsHeader ws) unread ∧ (wsHeader ws).wsFlags = nextFlags ws.wsFlags f.flags := by
  rw [take_two (by omega)] at hdata
  cases fs with
  | nil => cases hdata
  | cons f fs =>
    have hf := hfs f List.mem_cons_self
    rw [List.flatMap_cons, Frame.encode] at hdata
    simp only [List.cons_append, List.nil_append, List.cons.injEq] at hdata
    obtain ⟨hb0, hb1, hunread⟩ := hdata
    have hws := wsHeader_eq hf hb0 hb1
    by_cases h0 : f.opt.length = 0
    · -- no length and no mask: the payload comes next
      have hnone : f.extended = false ∧ f.mask = none := by
        rw [Frame.length_opt hf] at h0
        cases he : f.extended <;> cases hm : f.mask <;> simp_all
      refine ⟨f, fs, .body f 0 fs, rfl, .inr rfl, ?_, by rw [hws]⟩
      rw [hws]
      refine ⟨if_neg (not_not.mpr h0), hbuf, h0, rfl, ?_, ?_, ?_, ?_⟩
      · rw [Frame.maskBytes, hnone.2]
        rfl
      · dsimp only
        rw [hmask]
      · dsimp only
        rw [hnone.1]
        rfl
      · rw [hunread, List.eq_nil_of_length_eq_zero h0]
        rfl
    · refine ⟨f, fs, .opt f fs, rfl, .inl rfl, ?_, by rw [hws]⟩
      rw [hws]
      refine ⟨if_pos h0, hbuf, Nat.zero_add _, Nat.pos_of_ne_zero h0, rfl, rfl, hmask, ?_, ?_⟩
      · intro he
        dsimp only
        rw [he]
        rfl
      · rw [hunread, List.append_assoc]
        rfl

/-- A length in two bytes -/
theorem shiftLeft_or_bytes {n : ℕ} (h : n < 65536) :
    ((UInt8.ofNat (n / 256)).toNat <<< 8) ||| (UInt8.ofNat (n % 256)).toNat = n := by
  rw [UInt8.toNat_ofNat_of_lt' (show n / 256 < 256 by omega),
    UInt8.toNat_ofNat_of_lt' (show n % 256 < 256 by omega),
    ← Nat.shiftLeft_add_eq_or_of_lt (show n % 256 < 2 ^ 8 by omega), Nat.shiftLeft_eq]
  omega

variable {unread : List UInt8}

/-- After the length and the mask of a frame the machine is in its payload. -/
theorem wsOpt_at {f : Frame} {fs : List Frame}
    (hf : f.Sized) (hbuf : ws.buf.length = 6) (hrecv : ws.toRecv = 0)
    (hpos : ws.bufPos = f.opt.length) (hflags : ws.lastFlags = f.flags)
    (hmask : ws.mask = [0, 0, 0, 0]) (hmaskPos : ws.maskPos = 0)
    (hmsg : f.extended = false → ws.msgSz = f.payload.length)
    (hdata : ws.buf.take ws.bufPos ++ unread = f.opt ++ (f.body ++ fs.flatMap Frame.encode)) :
    AtBody (wsOpt ws) unread f fs 0 := by
  have hlen := Frame.length_opt hf
  have hle : f.opt.length ≤ 6 := by
    rw [hlen]
    split <;> split <;> decide
  obtain ⟨hopt, hunread⟩ := List.append_inj hdata (by rw [List.length_take]; omega)
  have hsplit : ws.buf = f.opt ++ ws.buf.drop ws.bufPos := by
    rw [← hopt, List.take_append_drop]
  have hmsgSz : (wsOpt ws).msgSz = f.payload.length := by
    rw [wsOpt, hpos, hlen]
    cases he : f.extended with
    | false =>
      dsimp only
      rw [if_neg, hmsg he]
      cases f.mask.isSome <;> decide
    | true =>
      dsimp only
      rw [if_pos (by cases f.mask.isSome <;> decide), hsplit, Frame.opt, he]
      exact shiftLeft_or_bytes hf.len
  have hmask' : (wsOpt ws).mask = f.maskBytes := by
    rw [wsOpt, hpos, hlen, Frame.maskBytes]
    dsimp only
    cases hm : f.mask with
    | none =>
      rw [if_neg, hmask]
      · rfl
      · cases f.extended <;> decide
    | some m =>
      have h4 : m.length = 4 := hf.mask m hm
      rw [if_pos (by cases f.extended <;> simp), hsplit, Frame.opt, hm]
      cases f.extended <;> simp [h4]
  exact ⟨by rw [wsOpt, hflags], hbuf, hrecv, hflags, hmask', by rw [wsOpt, hmaskPos], hmsgSz,
    hunread⟩

theorem payloadState_eq_control {f : Frame} : payloadState f.flags = .control ↔ f.IsControl := by
  rw [payloadState, Frame.IsControl]
  split <;> simp_all

theorem Frame.IsClose.isControl {f : Frame} (h : f.IsClose) : f.IsControl := by
  rw [Frame.IsControl, h]
  decide

variable {f : Frame} {fs : List Frame} {k : ℕ}

theorem wsFinish_spec (h : AtBody st.ws st.sock.data f fs k) (hmsg : st.ws.msgSz = 0)
    (out : List UInt8) :
    ∃ st', wsFinish st out = (st', f.finishRet out) ∧ st'.sock = st.sock ∧
      AtHeader st'.ws st.sock.data fs ∧ st'.ws.bufPos = 0 ∧ st'.ws.opts = st.ws.opts ∧
      st'.ws.wsFlags = st.ws.wsFlags ∧
      st'.sent = st.sent ++ if f.IsClose then websocketWrite st.ws.opts [0x88, 0] else [] := by
  have hk : k = f.payload.length := by have := h.msgSz; omega
  have hdrop : f.body.drop k = [] := by
    rw [Frame.drop_body, hk, List.drop_length]
    rfl
  have hheader : AtHeader
      { st.ws with state := .frameHeader, toRecv := 2, maskPos := 0, bufPos := 0 }
      st.sock.data fs := by
    refine ⟨rfl, h.buf, rfl, Nat.two_pos, rfl, ?_⟩
    rw [h.data, hdrop]
    rfl
  rw [wsFinish, h.state, h.flags, Frame.finishRet]
  by_cases hc : f.IsControl
  · rw [if_pos (payloadState_eq_control.mpr hc), if_pos hc]
    by_cases hcl : f.IsClose
    · have hflags : f.flags &&& frameOpcodeMask = frameClose := hcl
      rw [if_pos hcl, if_pos hflags, if_pos hcl]
      exact ⟨_, rfl, rfl, hheader, rfl, rfl, rfl, rfl⟩
    · have hflags : ¬f.flags &&& frameOpcodeMask = frameClose := hcl
      rw [if_neg hcl, if_neg hflags, if_neg hcl, List.append_nil]
      exact ⟨_, rfl, rfl, hheader, rfl, rfl, rfl, rfl⟩
  · have hcl : ¬f.IsClose := mt Frame.IsClose.isControl hc
    rw [if_neg (mt payloadState_eq_control.mp hc), if_neg hc, if_neg hcl, List.append_nil]
    exact ⟨_, rfl, rfl, hheader, rfl, rfl, rfl, rfl⟩

theorem AtBody.read (h : AtBody st.ws st.sock.data f fs k) {bs : List UInt8} {sock : Source UInt8}
    (hdata : st.sock.data = bs ++ sock.data) (hle : bs.length ≤ st.ws.msgSz) :
    unmask st.ws.mask st.ws.maskPos bs = (f.payload.drop k).take bs.length ∧
      AtBody { st.ws with
        maskPos := (st.ws.maskPos + bs.length) % 256
        msgSz := st.ws.msgSz - bs.length } sock.data f fs (k + bs.length) := by
  have hmsg := h.msgSz
  have hpos := h.maskPos
  have hbody := Frame.drop_body f k
  have hlen : (f.payload.drop k).length = st.ws.msgSz := by
    rw [List.length_drop]
    omega
  have hunread := h.data.symm.trans hdata
  have htake : bs = (f.body.drop k).take bs.length := by
    have := congrArg (List.take bs.length) hunread
    rwa [List.take_left, List.take_append_of_le_length (by rw [hbody, length_applyMask]; omega),
      eq_comm] at this
  have hrest : sock.data = f.body.drop (k + bs.length) ++ fs.flatMap Frame.encode := by
    have := congrArg (List.drop bs.length) hunread
    rwa [List.drop_left, List.drop_append_of_le_length (by rw [hbody, length_applyMask]; omega),
      List.drop_drop, eq_comm] at this
  refine ⟨?_, h.state, h.buf, h.recv, h.flags, h.mask, ?_, ?_, hrest⟩
  · rw [unmask_eq hpos, h.mask]
    have hmasked : bs = applyMask f.maskBytes k ((f.payload.drop k).take bs.length) := by
      conv_lhs => rw [htake, hbody, ← List.take_append_drop bs.length (f.payload.drop k),
        applyMask_append]
      exact List.take_left' (by rw [length_applyMask, List.length_take, hlen]; omega)
    conv_lhs => rw [hmasked, applyMask_applyMask]
  · dsimp only
    omega
  · dsimp only
    omega

theorem dataUpToClose_of_control {f : Frame} (hc : f.IsControl) (xs ys : List UInt8) :
    dataUpToClose ({ f with payload := xs } :: fs) =
      dataUpToClose ({ f with payload := ys } :: fs) := by
  have hx : ({ f with payload := xs } : Frame).IsControl := hc
  have hy : ({ f with payload := ys } : Frame).IsControl := hc
  rw [dataUpToClose, dataUpToClose, if_pos hx, if_pos hy]
  rfl

theorem dataUpToClose_of_data {f : Frame} (hc : ¬f.IsControl) (xs : List UInt8) :
    dataUpToClose ({ f with payload := xs } :: fs) = xs ++ dataUpToClose fs := by
  have hx : ¬({ f with payload := xs } : Frame).IsControl := hc
  rw [dataUpToClose, if_neg (mt Frame.IsClose.isControl hx), if_neg hx]

/-- The end of a frame as a round: what is in the buffer of the caller is the rest of the
payload. -/
theorem wsFinish_round {st₁ : WsSys} {m : ℕ} (h : AtBody st₁.ws st₁.sock.data f fs m)
    (hmsg : st₁.ws.msgSz = 0) (hsame : st₁.ws.opts = st.ws.opts ∧ st₁.ws.wsFlags = st.ws.wsFlags ∧
      st₁.sent = st.sent) (hu : Undivided size st)
    (hrounds : 2 * st₁.sock.sched.length < roundsLeft st) :
    WsRound size st (wsFinish st₁ (f.payload.drop k)).1 (.body f k fs) (.header fs)
      (wsFinish st₁ (f.payload.drop k)).2 := by
  obtain ⟨st', heq, hsock, hheader, hpos, hopts, hflags, hsent⟩ :=
    wsFinish_spec h hmsg (f.payload.drop k)
  obtain ⟨hopts₁, hflags₁, hsent₁⟩ := hsame
  rw [heq]
  dsimp only
  refine ⟨?_, hopts.trans hopts₁, fun _ => ?_, fun _ _ _ => hpos, _, hsent₁ ▸ hsent, ?_⟩
  · rw [hsock]
    exact hheader
  · rw [roundsLeft, hsock, if_neg fun h => absurd h.1 (Nat.ne_of_gt hheader.recv)]
    exact hrounds
  · rw [hflags, hflags₁, hopts₁]
    exact .finish hu

/-- **A round in the payload of a frame** -/
theorem wsPayload_round (hsize : 0 < size) (h : AtBody st.ws st.sock.data f fs k) :
    ∃ p', WsRound size st (wsPayload size st).1 (.body f k fs) p' (wsPayload size st).2 := by
  have hmsg := h.msgSz
  rw [wsPayload]
  by_cases h0 : st.ws.msgSz = 0
  · have hnil : f.payload.drop k = [] := List.drop_eq_nil_of_le (by omega)
    have hu : Undivided size st := by
      intro _ _ bs sock hread
      have := Source.length_le_of_read hread
      omega
    rw [if_pos h0, ← hnil]
    refine ⟨_, wsFinish_round h h0 ⟨rfl, rfl, rfl⟩ hu ?_⟩
    rw [roundsLeft, if_pos ⟨h.recv, h0⟩]
    omega
  · rw [if_neg h0]
    have hrounds : roundsLeft st = 2 * st.sock.sched.length := by
      rw [roundsLeft, if_neg fun hr => h0 hr.2]
      rfl
    obtain ⟨r, sock, hread⟩ : ∃ r sock, st.sock.read (min size st.ws.msgSz) = (r, sock) :=
      ⟨_, _, rfl⟩
    have hcases := st.sock.read_cases (n := min size st.ws.msgSz) (by omega)
    rw [hread] at hcases ⊢
    dsimp only at hcases
    rcases hcases with ⟨bs, rfl, hne, hle, hdata, hsched⟩ | ⟨hret, hdata, -⟩
    · obtain ⟨hout, hbody⟩ := h.read hdata (by omega)
      have hpos : 0 < bs.length := List.length_pos_iff.mpr hne
      dsimp only
      by_cases hend : st.ws.msgSz - bs.length = 0
      · -- the last bytes of the payload
        rw [if_pos hend, hout, List.take_of_length_le (by rw [List.length_drop]; omega)]
        refine ⟨_, wsFinish_round (m := k + bs.length) ?_ hend ⟨rfl, rfl, rfl⟩ ?_
          (by dsimp only; omega)⟩
        · exact hbody
        intro _ _ bs' sock' hread'
        rw [hread] at hread'
        cases hread'
        omega
      · have hne' : (f.payload.drop k).take bs.length ≠ [] := by
          rw [← List.length_pos_iff, List.length_take, List.length_drop]
          omega
        rw [if_neg hend, hout, if_pos hne']
        refine ⟨.body f (k + bs.length) fs, hbody, rfl, fun h => (nomatch h),
          fun _ h => (nomatch h), [], (List.append_nil _).symm, .part hpos (by omega)
            ⟨fun hu hc => hend ?_, fun hc hstate => ?_⟩⟩
        · -- a part of a control frame is returned
          have := hu (h.state.trans (payloadState_eq_control.mpr hc)) h.recv bs sock hread
          omega
        · exact absurd (payloadState_eq_control.mp (h.state.symm.trans hstate)) hc
    · have hu : Undivided size st := by
        intro _ _ bs sock' hread'
        rw [hread] at hread'
        rcases hret with rfl | rfl <;> cases hread'
      have hat : AtBody st.ws sock.data f fs k := by rwa [hdata]
      have hwait : (WsPlace.body f k fs).Waiting := show k < f.payload.length by omega
      rcases hret with rfl | rfl
      · exact ⟨.body f k fs, hat, rfl, fun h => (nomatch h), fun _ _ hne => absurd rfl hne, [],
          (List.append_nil _).symm, .stuck (.inl rfl) hwait hu⟩
      · exact ⟨.body f k fs, hat, rfl, fun h => (nomatch h), fun _ _ hne => absurd rfl hne, [],
          (List.append_nil _).symm, .stuck (.inr rfl) hwait hu⟩

theorem undivided_of_recv (h : 0 < st.ws.toRecv) : Undivided size st :=
  fun _ h0 => absurd h0 (Nat.ne_of_gt h)

/-- A round in which a header is read -/
theorem roundsLeft_lt (h : 0 < st.ws.toRecv)
    (hsched : st'.sock.sched.length < st.sock.sched.length) : roundsLeft st' < roundsLeft st := by
  rw [roundsLeft, roundsLeft, if_neg fun hr : st.ws.toRecv = 0 ∧ _ => absurd hr.1 (Nat.ne_of_gt h)]
  split <;> omega

variable {p : WsPlace}

/-- A round in which the socket has nothing to give -/
theorem WsRound.of_stuck {p : WsPlace} {ret : WsRet} (hret : ret = .error ∨ ret = .eof)
    (hat : p.Holds st'.ws st'.sock.data) (hopts : st'.ws.opts = st.ws.opts)
    (hflags : st'.ws.wsFlags = st.ws.wsFlags) (hsent : st'.sent = st.sent) (hwait : p.Waiting)
    (hu : Undivided size st) : WsRound size st st' p p (some ret) := by
  refine ⟨hat, hopts, fun h => (nomatch h), fun _ _ hne => absurd rfl hne, [], ?_, ?_⟩
  · rw [hsent, List.append_nil]
  · rw [hflags]
    exact .stuck hret hwait hu

/-- **A round of the loop** at a place in a sequence of frames -/
theorem wsIter_round (hsize : 0 < size) (hp : p.All Frame.Sized) (h : p.Holds st.ws st.sock.data) :
    ∃ p', WsRound size st (wsIter size st).1 p p' (wsIter size st).2 := by
  cases p with
  | header fs =>
    have h : AtHeader st.ws st.sock.data fs := h
    obtain ⟨buf, pos, toRecv, sock, ret, hfill, hbuf, hpos, hdata, hret⟩ :=
      wsFill_spec h.recv (by rw [h.pos, h.buf]; decide)
    have hu : Undivided size st := undivided_of_recv h.recv
    rw [h.buf] at hbuf
    rw [h.pos] at hpos
    rw [h.data] at hdata
    rw [wsIter, hfill]
    rcases hret with ⟨rfl, rfl, hsched⟩ | ⟨hret, hrecv⟩
    · -- the two bytes are complete
      obtain rfl : pos = 2 := hpos
      dsimp only
      rw [h.state]
      obtain ⟨f, fs', p', rfl, hp', hat, hflags⟩ := @wsHeader_at
        { st.ws with buf := buf, bufPos := 2, toRecv := 0 } _ _ hp hbuf h.maskPos hdata
      have hmove : WsMove size st (.header (f :: fs')) p' none
          (nextFlags st.ws.wsFlags f.flags) [] := .header hp' hu
      rw [← hflags] at hmove
      refine ⟨p', hat, rfl, fun _ => roundsLeft_lt h.recv hsched, fun _ heq => ?_, [],
        (List.append_nil _).symm, hmove⟩
      rcases hp' with rfl | rfl <;> cases heq
    · have hat : (WsPlace.header fs).Holds
          { st.ws with buf := buf, bufPos := pos, toRecv := toRecv } sock.data :=
        ⟨h.state, hbuf, hpos, hrecv, h.maskPos, hdata⟩
      rcases hret with rfl | rfl
      · exact ⟨_, .of_stuck (.inl rfl) hat rfl rfl rfl trivial hu⟩
      · exact ⟨_, .of_stuck (.inr rfl) hat rfl rfl rfl trivial hu⟩
  | opt f fs =>
    have h : AtOpt st.ws st.sock.data f fs := h
    have hlen : f.opt.length ≤ 6 := by
      rw [Frame.length_opt hp.1]
      split <;> split <;> decide
    obtain ⟨buf, pos, toRecv, sock, ret, hfill, hbuf, hpos, hdata, hret⟩ :=
      wsFill_spec h.recv (by rw [h.pos, h.buf]; exact hlen)
    have hu : Undivided size st := undivided_of_recv h.recv
    rw [h.buf] at hbuf
    rw [h.pos] at hpos
    rw [h.data] at hdata
    rw [wsIter, hfill]
    rcases hret with ⟨rfl, rfl, hsched⟩ | ⟨hret, hrecv⟩
    · -- the length and the mask are complete
      dsimp only
      rw [h.state]
      have hat : (WsPlace.body f 0 fs).Holds (wsOpt
          { st.ws with buf := buf, bufPos := pos, toRecv := 0 }) sock.data :=
        wsOpt_at hp.1 hbuf rfl hpos h.flags h.mask h.maskPos h.msgSz hdata
      exact ⟨_, hat, rfl, fun _ => roundsLeft_lt h.recv hsched, fun _ heq => (nomatch heq), [],
        (List.append_nil _).symm, .opt hu⟩
    · have hat : (WsPlace.opt f fs).Holds
          { st.ws with buf := buf, bufPos := pos, toRecv := toRecv } sock.data :=
        ⟨h.state, hbuf, hpos, hrecv, h.flags, h.mask, h.maskPos, h.msgSz, hdata⟩
      rcases hret with rfl | rfl
      · exact ⟨_, .of_stuck (.inl rfl) hat rfl rfl rfl trivial hu⟩
      · exact ⟨_, .of_stuck (.inr rfl) hat rfl rfl rfl trivial hu⟩
  | body f k fs =>
    have h : AtBody st.ws st.sock.data f fs k := h
    have hfill : wsFill st = (st, none) := by rw [wsFill, if_neg (not_not.mpr h.recv)]
    have hiter : wsIter size st = wsPayload size st := by
      have hstate : st.ws.state = .control ∨ st.ws.state = .payload := by
        rw [h.state, payloadState]
        split
        · exact .inl rfl
        · exact .inr rfl
      rw [wsIter, hfill]
      dsimp only
      rcases hstate with hs | hs <;> rw [hs]
    rw [hiter]
    exact wsPayload_round hsize h

variable {P : Frame → Prop} {p' : WsPlace} {ret : Option WsRet} {flags : UInt8} {reply : List UInt8}

/-- The frames that are to come are those that were to come before. -/
theorem WsMove.all (h : WsMove size st p p' ret flags reply) (hp : p.All P) : p'.All P := by
  cases h with
  | stuck => exact hp
  | @header f fs p' hp' =>
    have hf : P f := hp f List.mem_cons_self
    have hfs : ∀ g ∈ fs, P g := fun g hg => hp g (List.mem_cons_of_mem f hg)
    rcases hp' with rfl | rfl
    · exact ⟨hf, hfs⟩
    · exact hfs
  | opt => exact hp.2
  | part => exact hp
  | finish => exact hp

theorem WsPlace.All.imp {Q : Frame → Prop} (himp : ∀ f, P f → Q f) (h : p.All P) : p.All Q := by
  cases p with
  | header fs => exact fun f hf => himp f (h f hf)
  | opt f fs => exact ⟨himp f h.1, fun g hg => himp g (h.2 g hg)⟩
  | body f k fs => exact fun f hf => himp f (h f hf)

/-- The data to be returned from the place after a round -/
theorem WsMove.iterOk (h : WsMove size st p p' ret flags reply)
    (hat : WsAt st'.ws st'.sock.data p'.toReturn)
    (hrounds : ret = none → roundsLeft st' < roundsLeft st) :
    IterOk size st p.toReturn st' ret := by
  cases h with
  | stuck hret hwait hu => exact .nothing hret hat hu
  | header hp' hu =>
    refine .next ?_ hu (hrounds rfl)
    rcases hp' with rfl | rfl
    · exact hat
    · exact hat
  | opt hu => exact .next hat hu (hrounds rfl)
  | @part f fs k n hn hlt hu =>
    have hne : (f.payload.drop k).take n ≠ [] := by
      rw [← List.length_pos_iff, List.length_take, List.length_drop]
      omega
    by_cases hc : f.IsControl
    · rw [WsPlace.toReturn, dataUpToClose_of_control hc _ (f.payload.drop (k + n))]
      exact .leak hne hat fun h => hu.mp h hc
    · refine .data hne ?_ hat (hu.mpr hc)
      rw [WsPlace.toReturn, WsPlace.toReturn, dataUpToClose_of_data hc, dataUpToClose_of_data hc,
        ← List.append_assoc, ← List.drop_drop, List.take_append_drop]
  | @finish f fs k hu =>
    rw [Frame.finishRet] at hrounds ⊢
    rw [WsPlace.toReturn]
    by_cases hc : f.IsControl
    · have hc' : ({ f with payload := f.payload.drop k } : Frame).IsControl := hc
      rw [if_pos hc] at hrounds ⊢
      by_cases hcl : f.IsClose
      · have hcl' : ({ f with payload := f.payload.drop k } : Frame).IsClose := hcl
        rw [if_pos hcl, dataUpToClose, if_pos hcl']
        exact .closed rfl hu
      · have hcl' : ¬({ f with payload := f.payload.drop k } : Frame).IsClose := hcl
        rw [if_neg hcl] at hrounds ⊢
        rw [dataUpToClose, if_neg hcl', if_pos hc']
        exact .next hat hu (hrounds rfl)
    · rw [if_neg hc] at hrounds ⊢
      rw [dataUpToClose_of_data hc]
      by_cases hout : f.payload.drop k = []
      · rw [if_neg (not_not.mpr hout)] at hrounds ⊢
        rw [hout]
        exact .next hat hu (hrounds rfl)
      · rw [if_pos hout]
        exact .data hout rfl hat hu

/-- **A round of the loop**, at a place from which `exp` is to be returned -/
theorem wsIter_spec (hsize : 0 < size) {exp : List UInt8} (h : WsAt st.ws st.sock.data exp) :
    IterOk size st exp (wsIter size st).1 (wsIter size st).2 := by
  obtain ⟨p, hall, hat, rfl⟩ := h
  obtain ⟨p', hround⟩ := wsIter_round hsize (hall.imp fun _ hf => hf.toSized) hat
  obtain ⟨reply, -, hmove⟩ := hround.move
  exact hmove.iterOk ⟨p', hmove.all hall, hround.holds, rfl⟩ hround.rounds

end Iter

/-! ### Calls -/

/-- In all rounds of a call the payload of a control frame is read in one piece. -/
def LoopUndivided (size : ℕ) : ℕ → WsSys → Prop
  | 0, _ => True
  | fuel + 1, st =>
    Undivided size st ∧
      match wsIter size st with
      | (st, none) => LoopUndivided size fuel st
      | (_, some _) => True

/-- The payload of control frames is always read in one piece. -/
def ReadsUndivided : List ℕ → WsSys → Prop
  | [], _ => True
  | size :: sizes, st =>
    LoopUndivided size (2 * st.sock.sched.length + 3) st ∧
      ((websocketRead size st).2 ≠ .closed → ReadsUndivided sizes (websocketRead size st).1)

/-- What a call does at a place in the frames -/
inductive ReadOk (undivided : Prop) (exp : List UInt8) (st' : WsSys) : WsRet → Prop
  | nothing {ret : WsRet} (hret : ret = .error ∨ ret = .eof) (hat : WsAt st'.ws st'.sock.data exp)
      (hu : undivided) : ReadOk undivided exp st' ret
  | closed (hexp : exp = []) (hu : undivided) : ReadOk undivided exp st' .closed
  | data {bs exp' : List UInt8} (hexp : exp = bs ++ exp') (hat : WsAt st'.ws st'.sock.data exp')
      (hu : undivided) : ReadOk undivided exp st' (.data bs)
  | leak {bs : List UInt8} (hbs : bs ≠ []) (hat : WsAt st'.ws st'.sock.data exp)
      (hu : ¬undivided) : ReadOk undivided exp st' (.data bs)

section Calls

variable {st : WsSys} {size : ℕ} {exp : List UInt8}

theorem wsLoop_spec (hsize : 0 < size) (fuel : ℕ) (h : WsAt st.ws st.sock.data exp)
    (hfuel : roundsLeft st < fuel) :
    ReadOk (LoopUndivided size fuel st) exp (wsLoop size fuel st).1 (wsLoop size fuel st).2 := by
  induction fuel generalizing st with
  | zero => exact absurd hfuel (Nat.not_lt_zero _)
  | succ fuel ih =>
    have hiter := wsIter_spec hsize h
    rw [wsLoop, LoopUndivided]
    generalize wsIter size st = p at hiter
    obtain ⟨st', ret⟩ := p
    cases hiter with
    | next hat hu hrounds =>
      have hlt : roundsLeft st' < roundsLeft st := hrounds
      dsimp only
      rw [and_iff_right hu]
      exact ih hat (by omega)
    | nothing hret hat hu => exact .nothing hret hat ⟨hu, trivial⟩
    | closed hexp hu => exact .closed hexp ⟨hu, trivial⟩
    | data hbs hexp hat hu => exact .data hexp hat ⟨hu, trivial⟩
    | leak hbs hat hu => exact .leak hbs hat fun h => hu h.1

/-- **A call of `websocket_read`** -/
theorem websocketRead_spec (hsize : 0 < size) (h : WsAt st.ws st.sock.data exp) :
    ReadOk (LoopUndivided size (2 * st.sock.sched.length + 3) st) exp (websocketRead size st).1
      (websocketRead size st).2 := by
  refine wsLoop_spec hsize _ h ?_
  rw [roundsLeft]
  split <;> omega

/-- When all has been read, nothing is left to be returned. -/
theorem WsAt.eq_nil (h : WsAt ws [] exp) : exp = [] := by
  obtain ⟨p, -, h, rfl⟩ := h
  cases p with
  | header fs =>
    have hlen := congrArg List.length h.data
    have hpos := h.pos
    have hrecv := h.recv
    rw [List.append_nil, List.length_take, h.buf] at hlen
    cases fs with
    | nil => rfl
    | cons f fs =>
      simp only [List.flatMap_cons, List.length_append, Frame.encode, List.length_cons] at hlen
      omega
  | opt f fs =>
    have hlen := congrArg List.length h.data
    have hpos := h.pos
    have hrecv := h.recv
    rw [List.append_nil, List.length_take, List.length_append] at hlen
    omega
  | body f k fs =>
    obtain ⟨hbody, hfs'⟩ := List.append_eq_nil_iff.mp h.data.symm
    rw [Frame.drop_body, ← List.length_eq_zero_iff, length_applyMask,
      List.length_eq_zero_iff] at hbody
    cases fs with
    | nil =>
      rw [WsPlace.toReturn, hbody, dataUpToClose]
      split
      · rfl
      · split <;> rfl
    | cons g fs =>
      rw [List.flatMap_cons, Frame.encode] at hfs'
      cases hfs'

/-- Some calls have returned the first part of what was expected if no control frame was divided,
and otherwise more bytes than that. -/
structure Returned (undivided : Prop) (exp out exp' : List UInt8) : Prop where
  eq : undivided → exp = out ++ exp'
  lt : ¬undivided → exp.length < out.length + exp'.length

variable {undivided : Prop}

theorem Returned.le {out exp' : List UInt8} (h : Returned undivided exp out exp') :
    exp.length ≤ out.length + exp'.length := by
  by_cases hu : undivided
  · rw [h.eq hu, List.length_append]
  · exact Nat.le_of_lt (h.lt hu)

theorem Returned.trans {u u' : Prop} {out exp₁ out' exp' : List UInt8}
    (h : Returned u exp out exp₁) (h' : Returned u' exp₁ out' exp') :
    Returned (u ∧ u') exp (out ++ out') exp' := by
  have hle := h'.le
  constructor
  · rintro ⟨hu, hu'⟩
    rw [h.eq hu, h'.eq hu', List.append_assoc]
  · intro hn
    rw [List.length_append]
    by_cases hu : u
    · have hlt := h'.lt fun hu' => hn ⟨hu, hu'⟩
      rw [h.eq hu, List.length_append]
      omega
    · have hlt := h.lt hu
      omega

/-- A call that does not find a close frame -/
theorem ReadOk.returned {ret : WsRet} (h : ReadOk undivided exp st' ret) (hne : ret ≠ .closed) :
    ret ≠ .timeout ∧ ∃ exp', Returned undivided exp (received [ret]) exp' ∧
      WsAt st'.ws st'.sock.data exp' := by
  cases h with
  | nothing hret hat hu =>
    refine ⟨by rcases hret with rfl | rfl <;> simp, exp, ⟨fun _ => ?_, fun hn => absurd hu hn⟩, hat⟩
    rcases hret with rfl | rfl <;> rfl
  | closed hexp hu => exact absurd rfl hne
  | @data bs exp' hexp hat hu =>
    refine ⟨by simp, exp', ⟨fun _ => ?_, fun hn => absurd hu hn⟩, hat⟩
    simpa [received] using hexp
  | @leak bs hbs hat hu =>
    refine ⟨by simp, exp, ⟨fun hu' => absurd hu' hu, fun _ => ?_⟩, hat⟩
    have := List.length_pos_iff.mpr hbs
    simp only [received, List.flatMap_cons, List.flatMap_nil, List.append_nil]
    omega

/-- **Calls of `websocket_read`** -/
theorem websocketReads_spec {sizes : List ℕ} (hsizes : ∀ n ∈ sizes, 0 < n)
    (h : WsAt st.ws st.sock.data exp) :
    ∃ exp', Returned (ReadsUndivided sizes st) exp (received (websocketReads sizes st).2) exp' ∧
      ((websocketReads sizes st).1.sock.data = [] ∨ .closed ∈ (websocketReads sizes st).2 →
        exp' = []) ∧
      .timeout ∉ (websocketReads sizes st).2 := by
  induction sizes generalizing st exp with
  | nil =>
    refine ⟨exp, ⟨fun _ => rfl, fun hu => absurd trivial hu⟩, ?_, List.not_mem_nil⟩
    rintro (hdata | hclosed)
    · rw [websocketReads] at hdata
      rw [hdata] at h
      exact h.eq_nil
    · cases hclosed
  | cons size sizes ih =>
    have hread := websocketRead_spec (hsizes size List.mem_cons_self) h
    rw [websocketReads, ReadsUndivided]
    generalize websocketRead size st = p at hread
    obtain ⟨st', ret⟩ := p
    dsimp only at hread ⊢
    by_cases hc : ret = .closed
    · subst hc
      rw [if_pos rfl]
      cases hread with
      | nothing hret _ _ => simp at hret
      | closed hexp hu =>
        refine ⟨[], ⟨fun _ => hexp, fun hn => absurd ⟨hu, fun h => absurd rfl h⟩ hn⟩,
          fun _ => rfl, by simp⟩
    · rw [if_neg hc]
      obtain ⟨htime, exp₁, hret, hat⟩ := hread.returned hc
      obtain ⟨exp', hout, hend, htimes⟩ :=
        ih (fun n hn => hsizes n (List.mem_cons_of_mem size hn)) hat
      refine ⟨exp', ?_, ?_, ?_⟩
      · have := hret.trans hout
        rw [forall_prop_of_true hc]
        simpa only [received, List.flatMap_cons, List.flatMap_nil, List.append_nil] using this
      · rintro (hdata | hclosed)
        · exact hend (.inl hdata)
        · rcases List.mem_cons.mp hclosed with heq | hmem
          · exact absurd heq.symm hc
          · exact hend (.inr hmem)
      · intro hmem
        rcases List.mem_cons.mp hmem with heq | hmem
        · exact htime heq.symm
        · exact htimes hmem

/-- **`websocket_read` returns the payload of the data frames, in order and nothing else, exactly if
the payload of each control frame is read in one piece.** Every call returns. -/
theorem websocket_reads_eq_iff {fs : List Frame} (hfs : ∀ f ∈ fs, f.WellFormed) {o : Websocket}
    (ho : o.buf.length = 6) (blocking : Bool) (sched : List Delivery) {sizes : List ℕ}
    (hsizes : ∀ n ∈ sizes, 0 < n) :
    let st : WsSys := ⟨websocketMakeNew o blocking, ⟨fs.flatMap Frame.encode, sched⟩, []⟩
    (ReadsUndivided sizes st → received (websocketReads sizes st).2 <+: dataUpToClose fs) ∧
      ((websocketReads sizes st).1.sock.data = [] ∨ .closed ∈ (websocketReads sizes st).2 →
        (received (websocketReads sizes st).2 = dataUpToClose fs ↔ ReadsUndivided sizes st)) ∧
      .timeout ∉ (websocketReads sizes st).2 := by
  intro st
  have hat : WsAt st.ws st.sock.data (dataUpToClose fs) :=
    ⟨.header fs, hfs, ⟨rfl, ho, rfl, Nat.two_pos, rfl, rfl⟩, rfl⟩
  obtain ⟨exp', hout, hend, htime⟩ := websocketReads_spec hsizes hat
  refine ⟨fun hu => ⟨exp', (hout.eq hu).symm⟩, fun hdone => ?_, htime⟩
  obtain rfl := hend hdone
  constructor
  · intro heq
    by_contra hu
    have := hout.lt hu
    rw [heq] at this
    exact absurd this (Nat.lt_irrefl _)
  · intro hu
    have := hout.eq hu
    rw [List.append_nil] at this
    exact this.symm

/-- A ping with a payload of two bytes, and a masked text -/
def pingAndText : List Frame :=
  [⟨0x89, none, false, [1, 2]⟩, ⟨0x81, some [7, 8, 9, 10], false, [0x48, 0x69]⟩]

theorem pingAndText_wellFormed : ∀ f ∈ pingAndText, f.WellFormed := by
  intro f hf
  simp only [pingAndText, List.mem_cons, List.not_mem_nil, or_false] at hf
  rcases hf with rfl | rfl
  · exact ⟨⟨by simp, by decide, by decide⟩, by decide⟩
  · exact ⟨⟨by simp, by decide, by decide⟩, by decide⟩

/-- A websocket for it, on a socket that delivers up to eight bytes at once -/
def pingAndTextSys : WsSys :=
  ⟨websocketMakeNew ⟨0, [], .control, 0, 0, 0, [0, 0, 0, 0, 0, 0], 0, 0, 0⟩ false,
    ⟨pingAndText.flatMap Frame.encode,
      [.upTo 7, .upTo 7, .error, .upTo 7, .upTo 7, .upTo 7, .upTo 7, .upTo 7]⟩, []⟩

/-- Calls with room for eight bytes: the ping is dropped. -/
theorem websocket_reads_ping_whole :
    (∀ f ∈ pingAndText, f.WellFormed) ∧ (∀ n ∈ [8, 8], 0 < n) ∧
      ReadsUndivided [8, 8] pingAndTextSys ∧
      received (websocketReads [8, 8] pingAndTextSys).2 = dataUpToClose pingAndText := by
  have hsizes : ∀ n ∈ [8, 8], 0 < n := by decide
  have h := websocket_reads_eq_iff pingAndText_wellFormed
    (o := ⟨0, [], .control, 0, 0, 0, [0, 0, 0, 0, 0, 0], 0, 0, 0⟩) rfl false
    [.upTo 7, .upTo 7, .error, .upTo 7, .upTo 7, .upTo 7, .upTo 7, .upTo 7] hsizes
  have heq : received (websocketReads [8, 8] pingAndTextSys).2 = dataUpToClose pingAndText := by
    decide
  exact ⟨pingAndText_wellFormed, hsizes, (h.2.1 (.inl (by decide))).mp heq, heq⟩

/-- Calls with room for one byte: the first byte of the ping is returned. -/
theorem websocket_reads_ping_divided : dataUpToClose pingAndText = [0x48, 0x69] ∧
      received (websocketReads [1, 1, 1, 1] pingAndTextSys).2 = [1, 0x48, 0x69] := by
  decide

end Calls

end Pycopy
