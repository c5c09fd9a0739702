import Pycopy.Extmod.Websocket

/-!
# Reading and writing on a websocket

`websocket_read`, `websocket_write` and `websocket_ioctl` of `extmod/moduwebsocket.c` in any order
on one websocket: what the peer gets to see, and which type of data `MP_STREAM_GET_DATA_OPTS`
reports.

A close frame is answered with the two bytes of a close frame. They are handed to `websocket_write`,
which puts them into a data frame, so that the peer sees a message and no close frame.

`MP_STREAM_GET_DATA_OPTS` reports the opcode of the last frame that is no continuation. The header
of a control frame is stored there as well, although it does not belong to the message. A
continuation after a control frame is then reported with the opcode of the control frame.

## Main results

* `websocket_sent_iff`: what is sent is right if and only if no close frame has been received.
* `websocket_data_opts_iff`: the type that is reported for some data is that of its message if and
  only if there has been no control frame since the message was started.
-/

open Stream

namespace Pycopy

/-! ### The source -/

/-- `FRAME_BIN` -/
def frameBin : UInt8 := 2

/-- `case MP_STREAM_GET_DATA_OPTS` of `websocket_ioctl` -/
def getDataOpts (ws : Websocket) : UInt8 := ws.wsFlags &&& frameOpcodeMask

/-- `case MP_STREAM_SET_DATA_OPTS` of `websocket_ioctl` -/
def setDataOpts (ws : Websocket) (arg : UInt8) : Websocket :=
  { ws with opts := (ws.opts &&& ~~~frameOpcodeMask) ||| (arg &&& frameOpcodeMask) }

/-- A call on a websocket -/
inductive WsOp
  | read (size : ℕ)
  | write (buf : List UInt8)
  | setDataOpts (arg : UInt8)
  deriving DecidableEq, Repr

/-- What the peer is to see after a call: a message, or the answer to a close frame -/
inductive Reply
  | message (opcode : UInt8) (buf : List UInt8)
  | close
  deriving DecidableEq, Repr

/-- A call, with the replies that it calls for: a message is of the type that was selected last. -/
def wsStep (type : UInt8) (st : WsSys) : WsOp → WsSys × List Reply
  | .read size =>
    let (st, ret) := websocketRead size st
    (st, if ret = .closed then [.close] else [])
  | .write buf =>
    ({ st with sent := st.sent ++ websocketWrite st.ws.opts buf }, [.message type buf])
  | .setDataOpts arg => ({ st with ws := setDataOpts st.ws arg }, [])

/-- The type that is selected after a call -/
def WsOp.selected (type : UInt8) : WsOp → UInt8
  | .setDataOpts arg => arg
  | .read _ | .write _ => type

/-- Calls one after the other, with the type that is selected before them -/
def wsRun : UInt8 → WsSys → List WsOp → WsSys × List Reply
  | _, st, [] => (st, [])
  | type, st, op :: ops =>
    let (st, replies) := wsStep type st op
    let (st, more) := wsRun (op.selected type) st ops
    (st, replies ++ more)

/-- Sizes are not zero, messages are shorter than 65536 bytes, and the type of the data is text or
binary. -/
def WsOp.Legal : WsOp → Prop
  | .read size => 0 < size
  | .write buf => buf.length < 65536
  | .setDataOpts arg => arg = frameTxt ∨ arg = frameBin

/-! ### The peer -/

/-- The length of a payload, from the second byte of a frame and the bytes after it. Lengths of
eight bytes are not understood. -/
def parseSize (b1 : UInt8) (rest : List UInt8) : Option (ℕ × List UInt8) :=
  if (b1 &&& 0x7f).toNat = 127 then none
  else if (b1 &&& 0x7f).toNat = 126 then
    match rest with
    | hi :: lo :: rest => some (hi.toNat * 256 + lo.toNat, rest)
    | _ => none
  else some ((b1 &&& 0x7f).toNat, rest)

/-- A payload of `n` bytes, and the bytes after it -/
def parseBody (masked : Bool) (n : ℕ) (rest : List UInt8) : Option (List UInt8 × List UInt8) :=
  if masked then
    if 4 + n ≤ rest.length then
      some (applyMask (rest.take 4) 0 ((rest.drop 4).take n), rest.drop (4 + n))
    else none
  else if n ≤ rest.length then some (rest.take n, rest.drop n)
  else none

/-- The flags and the payload of the first frame of some bytes, and the bytes after it -/
def parseFrame : List UInt8 → Option ((UInt8 × List UInt8) × List UInt8)
  | flags :: b1 :: rest =>
    (parseSize b1 rest).bind fun (n, rest) =>
      (parseBody (decide (b1 &&& 0x80 ≠ 0)) n rest).map fun (payload, rest) =>
        ((flags, payload), rest)
  | _ => none

/-- The frames that some bytes consist of -/
def parseFrames : ℕ → List UInt8 → Option (List (UInt8 × List UInt8))
  | _, [] => some []
  | 0, _ :: _ => none
  | fuel + 1, b :: bytes =>
    (parseFrame (b :: bytes)).bind fun (g, rest) => (parseFrames fuel rest).map (g :: ·)

/-- A frame is what the peer is to see. -/
def Reply.Is : Reply → UInt8 × List UInt8 → Prop
  | .message opcode buf, g => g = (0x80 ||| opcode, buf)
  | .close, g => g.1 = 0x88

/-- The bytes that have been sent are complete frames, one for each reply. -/
def SentRight (sent : List UInt8) (replies : List Reply) : Prop :=
  ∃ gs, parseFrames sent.length sent = some gs ∧ List.Forall₂ Reply.Is replies gs

/-- What the peer really sees: the answer to a close frame is a message as well. -/
inductive Reply.Sent : Reply → UInt8 × List UInt8 → Prop
  | message (opcode : UInt8) (buf : List UInt8) : Sent (.message opcode buf) (0x80 ||| opcode, buf)
  | close {opcode : UInt8} (h : opcode = frameTxt ∨ opcode = frameBin) :
      Sent .close (0x80 ||| opcode, [0x88, 0])

/-! ### Calls as sequences of rounds -/

/-- The rounds of a call, from a place in the frames to another one -/
inductive CallMoves (size : ℕ) : WsSys → WsPlace → WsSys → WsPlace → WsRet → Prop
  | last {st st' : WsSys} {p p' : WsPlace} {ret : WsRet}
      (h : WsRound size st st' p p' (some ret)) : CallMoves size st p st' p' ret
  | next {st st₁ st' : WsSys} {p p₁ p' : WsPlace} {ret : WsRet}
      (h : WsRound size st st₁ p p₁ none) (hrest : CallMoves size st₁ p₁ st' p' ret) :
      CallMoves size st p st' p' ret

theorem wsLoop_moves {size : ℕ} (hsize : 0 < size) (fuel : ℕ) {st : WsSys} {p : WsPlace}
    (hp : p.All Frame.Sized) (hat : p.Holds st.ws st.sock.data) (hfuel : roundsLeft st < fuel) :
    ∃ p', p'.All Frame.Sized ∧
      CallMoves size st p (wsLoop size fuel st).1 p' (wsLoop size fuel st).2 := by
  induction fuel generalizing st p with
  | zero => exact absurd hfuel (Nat.not_lt_zero _)
  | succ fuel ih =>
    obtain ⟨p₁, hround⟩ := wsIter_round hsize hp hat
    rw [wsLoop]
    generalize wsIter size st = res at hround
    obtain ⟨st₁, ret⟩ := res
    obtain ⟨reply, -, hmove⟩ := hround.move
    cases ret with
    | some ret => exact ⟨p₁, hmove.all hp, .last hround⟩
    | none =>
      have hlt := hround.rounds rfl
      obtain ⟨p', hp', hmoves⟩ := ih (hmove.all hp) hround.holds (by omega)
      exact ⟨p', hp', .next hround hmoves⟩

/-- **A call** at a place in a sequence of frames is a sequence of rounds. -/
theorem websocketRead_moves {size : ℕ} (hsize : 0 < size) {st : WsSys} {p : WsPlace}
    (hp : p.All Frame.Sized) (hat : p.Holds st.ws st.sock.data) :
    ∃ p', p'.All Frame.Sized ∧
      CallMoves size st p (websocketRead size st).1 p' (websocketRead size st).2 := by
  refine wsLoop_moves hsize _ hp hat ?_
  rw [roundsLeft]
  split <;> omega

theorem CallMoves.holds {size : ℕ} {st st' : WsSys} {p p' : WsPlace} {ret : WsRet}
    (h : CallMoves size st p st' p' ret) :
    p'.Holds st'.ws st'.sock.data ∧ st'.ws.opts = st.ws.opts := by
  induction h with
  | last h => exact ⟨h.holds, h.opts⟩
  | next h _ ih => exact ⟨ih.1, ih.2.trans h.opts⟩

/-! ### The frames that have been received -/

namespace WsPlace

/-- The frames that have not ended -/
def unfinished : WsPlace → List Frame
  | header fs => fs
  | opt f fs => f :: fs
  | body f _ fs => f :: fs

/-- The frames that have not begun -/
def later : WsPlace → List Frame
  | header fs => fs
  | opt _ fs => fs
  | body _ _ fs => fs

/-- The frame in which the place is -/
def current : WsPlace → Option Frame
  | header _ => none
  | opt f _ => some f
  | body f _ _ => some f

end WsPlace

/-- Some frames have been received completely, and no more. -/
def Received (fs : List Frame) (unread : List UInt8) (done : List Frame) : Prop :=
  ∃ rest, fs = done ++ rest ∧ unread <:+ rest.flatMap Frame.encode ∧
    ∀ f fs', rest = f :: fs' → (fs'.flatMap Frame.encode).length < unread.length

theorem Frame.two_le_length_encode (f : Frame) : 2 ≤ f.encode.length := by
  rw [Frame.encode, List.length_cons, List.length_cons]
  omega

/-- The frames that have not ended are not all read. -/
theorem WsPlace.Holds.received {p : WsPlace} {ws : Websocket} {unread : List UInt8}
    (h : p.Holds ws unread) (hwait : p.Waiting) (done : List Frame) :
    Received (done ++ p.unfinished) unread done := by
  refine ⟨p.unfinished, rfl, ?_⟩
  cases p with
  | header fs =>
    have h : AtHeader ws unread fs := h
    refine ⟨⟨_, h.data⟩, fun f fs' heq => ?_⟩
    have hlen := congrArg List.length h.data
    have hpos := h.pos
    have hrecv := h.recv
    have htwo := f.two_le_length_encode
    rw [show fs = f :: fs' from heq, List.flatMap_cons, List.length_append, List.length_append,
      List.length_take, h.buf] at hlen
    omega
  | opt f fs =>
    have h : AtOpt ws unread f fs := h
    refine ⟨?_, ?_⟩
    · refine ⟨f.flags :: Frame.lenByte f.mask.isSome (if f.extended then 126 else
        f.payload.length) :: ws.buf.take ws.bufPos, ?_⟩
      rw [List.cons_append, List.cons_append, h.data, WsPlace.unfinished, List.flatMap_cons,
        Frame.encode, List.cons_append, List.cons_append, List.append_assoc]
    · rintro g fs' ⟨⟩
      have hlen := congrArg List.length h.data
      have hpos := h.pos
      have hrecv := h.recv
      simp only [List.length_append, List.length_take, h.buf] at hlen
      omega
  | body f k fs =>
    have h : AtBody ws unread f fs k := h
    have hlt : k < f.payload.length := hwait
    refine ⟨?_, ?_⟩
    · rw [h.data, WsPlace.unfinished, List.flatMap_cons, Frame.encode]
      refine ⟨f.flags :: Frame.lenByte f.mask.isSome (if f.extended then 126 else
        f.payload.length) :: (f.opt ++ f.body.take k), ?_⟩
      simp only [List.cons_append, List.append_assoc]
      rw [← List.append_assoc (f.body.take k), List.take_append_drop]
    · rintro g fs' ⟨⟩
      rw [h.data, List.length_append, Frame.drop_body, length_applyMask, List.length_drop]
      omega

/-- What a call does to the frames that have not ended, and what it sends -/
structure CallSends (st st' : WsSys) (p p' : WsPlace) (ret : WsRet) (done : List Frame) : Prop where
  waiting : p'.Waiting
  frames : p.unfinished = done ++ p'.unfinished
  closes : done.countP (fun f => decide f.IsClose) = if ret = .closed then 1 else 0
  sent : st'.sent = st.sent ++ if ret = .closed then websocketWrite st.ws.opts [0x88, 0] else []

theorem Frame.finishRet_eq_closed {f : Frame} {out : List UInt8} :
    f.finishRet out = some .closed ↔ f.IsClose := by
  rw [Frame.finishRet]
  by_cases hc : f.IsControl
  · rw [if_pos hc]
    by_cases hcl : f.IsClose
    · rw [if_pos hcl]
      exact iff_of_true rfl hcl
    · rw [if_neg hcl]
      exact iff_of_false (by rintro ⟨⟩) hcl
  · rw [if_neg hc]
    refine iff_of_false (fun h => ?_) (mt Frame.IsClose.isControl hc)
    split at h <;> cases h

theorem WsRound.sends {size : ℕ} {st st' : WsSys} {p p' : WsPlace} {ret : WsRet}
    (h : WsRound size st st' p p' (some ret)) :
    ∃ done, CallSends st st' p p' ret done := by
  obtain ⟨reply, hsent, hmove⟩ := h.move
  generalize hr : some ret = r at hmove
  generalize st'.ws.wsFlags = flags at hmove
  cases hmove with
  | @stuck _ ret' hret hwait hu =>
    cases hr
    have hne : ret ≠ .closed := by rcases hret with rfl | rfl <;> decide
    exact ⟨[], hwait, rfl, (if_neg hne).symm, by rw [hsent, if_neg hne]⟩
  | header => cases hr
  | opt => cases hr
  | part hn hlt hu =>
    cases hr
    exact ⟨[], hlt, rfl, rfl, hsent⟩
  | @finish f fs k hu =>
    have hiff : ret = .closed ↔ f.IsClose := by
      rw [← Frame.finishRet_eq_closed, ← hr, Option.some_inj]
    refine ⟨[f], trivial, rfl, ?_, ?_⟩
    · rw [List.countP_singleton]
      exact if_congr (by rw [decide_eq_true_eq, hiff]) rfl rfl
    · rw [hsent]
      congr 1
      exact if_congr hiff.symm rfl rfl

/-- A round after which the call goes on -/
theorem WsRound.goesOn {size : ℕ} {st st' : WsSys} {p p' : WsPlace}
    (h : WsRound size st st' p p' none) :
    st'.sent = st.sent ∧ ∃ done, p.unfinished = done ++ p'.unfinished ∧
      done.countP (fun f => decide f.IsClose) = 0 := by
  obtain ⟨reply, hsent, hmove⟩ := h.move
  generalize hr : (none : Option WsRet) = r at hmove
  generalize st'.ws.wsFlags = flags at hmove
  cases hmove with
  | stuck => cases hr
  | header hp' hu =>
    refine ⟨hsent.trans (List.append_nil _), [], ?_, rfl⟩
    rcases hp' with rfl | rfl <;> rfl
  | opt hu => exact ⟨hsent.trans (List.append_nil _), [], rfl, rfl⟩
  | part => cases hr
  | @finish f fs k hu =>
    have hcl : ¬f.IsClose := fun hcl => by
      rw [← @Frame.finishRet_eq_closed f (f.payload.drop k), ← hr] at hcl
      cases hcl
    rw [if_neg hcl, List.append_nil] at hsent
    refine ⟨hsent, [f], rfl, ?_⟩
    rw [List.countP_singleton, if_neg (by rwa [decide_eq_true_eq])]

theorem CallMoves.sends {size : ℕ} {st st' : WsSys} {p p' : WsPlace} {ret : WsRet}
    (h : CallMoves size st p st' p' ret) : ∃ done, CallSends st st' p p' ret done := by
  induction h with
  | last h => exact h.sends
  | next h _ ih =>
    obtain ⟨hsent, done, hframes, hcount⟩ := h.goesOn
    obtain ⟨done', hrest⟩ := ih
    refine ⟨done ++ done', hrest.waiting, ?_, ?_, ?_⟩
    · rw [hframes, hrest.frames, List.append_assoc]
    · rw [List.countP_append, hcount, hrest.closes, Nat.zero_add]
    · rw [hrest.sent, hsent, h.opts]

/-! ### What is sent -/

theorem parseBody_append (buf rest : List UInt8) :
    parseBody false buf.length (buf ++ rest) = some (buf, rest) := by
  rw [parseBody, if_neg Bool.false_ne_true, if_pos (by rw [List.length_append]; omega),
    List.take_left, List.drop_left]

/-- A payload without a mask -/
theorem parseFrame_of_size {b1 : UInt8} {buf rest more : List UInt8}
    (hsize : parseSize b1 more = some (buf.length, buf ++ rest)) (hmask : ¬b1 &&& 0x80 ≠ 0)
    (flags : UInt8) : parseFrame (flags :: b1 :: more) = some ((flags, buf), rest) := by
  rw [parseFrame, hsize, Option.bind_some, decide_eq_false hmask]
  dsimp only
  rw [parseBody_append]
  rfl

/-- The peer understands what `websocket_write` writes. -/
theorem parseFrame_websocketWrite {buf : List UInt8} (hlen : buf.length < 65536) (opts : UInt8)
    (rest : List UInt8) :
    parseFrame (websocketWrite opts buf ++ rest) =
      some ((0x80 ||| (opts &&& frameOpcodeMask), buf), rest) := by
  by_cases hshort : buf.length < 126
  · obtain ⟨hn, hmask⟩ := Frame.lenByte_and false (show buf.length < 128 by omega)
    have hbytes : websocketWrite opts buf ++ rest = (0x80 ||| (opts &&& frameOpcodeMask)) ::
        Frame.lenByte false buf.length :: (buf ++ rest) := by
      rw [websocketWrite, if_pos hshort]
      rfl
    rw [hbytes]
    refine parseFrame_of_size ?_ (fun h => nomatch hmask.mp h) _
    rw [parseSize.eq_def, hn, if_neg (by omega), if_neg (by omega)]
  · have hsize : (UInt8.ofNat (buf.length >>> 8)).toNat * 256 +
        (UInt8.ofNat (buf.length &&& 0xff)).toNat = buf.length := by
      have hand : buf.length &&& 0xff = buf.length % 256 :=
        Nat.and_two_pow_sub_one_eq_mod buf.length 8
      rw [Nat.shiftRight_eq_div_pow, hand,
        UInt8.toNat_ofNat_of_lt' (show buf.length / 2 ^ 8 < 256 by omega),
        UInt8.toNat_ofNat_of_lt' (show buf.length % 256 < 256 by omega)]
      omega
    have hbytes : websocketWrite opts buf ++ rest = (0x80 ||| (opts &&& frameOpcodeMask)) :: 126 ::
        UInt8.ofNat (buf.length >>> 8) :: UInt8.ofNat (buf.length &&& 0xff) :: (buf ++ rest) := by
      rw [websocketWrite, if_neg hshort]
      rfl
    rw [hbytes]
    refine parseFrame_of_size ?_ (by decide) _
    rw [parseSize, if_neg (by decide), if_pos (by decide)]
    exact congrArg (fun n => some (n, buf ++ rest)) hsize

theorem websocketWrite_ne_nil (opts : UInt8) (buf : List UInt8) :
    ∃ b bytes, websocketWrite opts buf = b :: bytes := ⟨_, _, rfl⟩

/-- The peer splits a sequence of frames. -/
theorem parseFrames_append {buf : List UInt8} (hlen : buf.length < 65536) (opts : UInt8)
    {fuel : ℕ} {rest : List UInt8} {gs : List (UInt8 × List UInt8)}
    (h : parseFrames fuel rest = some gs) :
    parseFrames (fuel + 1) (websocketWrite opts buf ++ rest) =
      some ((0x80 ||| (opts &&& frameOpcodeMask), buf) :: gs) := by
  obtain ⟨b, bytes, heq⟩ := websocketWrite_ne_nil opts buf
  have hparse := parseFrame_websocketWrite hlen opts rest
  rw [heq, List.cons_append] at hparse ⊢
  rw [parseFrames, hparse, Option.bind_some]
  exact congrArg (Option.map _) h

/-- With more fuel than bytes the fuel does not matter. -/
theorem parseFrames_mono {fuel fuel' : ℕ} {bytes : List UInt8} {gs : List (UInt8 × List UInt8)}
    (h : parseFrames fuel bytes = some gs) (hle : fuel ≤ fuel') :
    parseFrames fuel' bytes = some gs := by
  induction fuel generalizing fuel' bytes gs with
  | zero =>
    cases bytes with
    | nil => simpa only [parseFrames] using h
    | cons b bytes => cases h
  | succ fuel ih =>
    cases bytes with
    | nil => simpa only [parseFrames] using h
    | cons b bytes =>
      obtain ⟨fuel', rfl⟩ : ∃ n, fuel' = n + 1 := ⟨fuel' - 1, by omega⟩
      rw [parseFrames] at h ⊢
      obtain ⟨⟨g, rest⟩, hparse, hrest⟩ := Option.bind_eq_some_iff.mp h
      obtain ⟨gs', hgs', rfl⟩ := Option.map_eq_some_iff.mp hrest
      rw [hparse, Option.bind_some]
      exact congrArg (Option.map _) (ih hgs' (by omega))

/-- The data options hold the type that is selected, which is text or binary. -/
structure DataOpts (type : UInt8) (ws : Websocket) : Prop where
  opts : ws.opts &&& frameOpcodeMask = type
  legal : type = frameTxt ∨ type = frameBin

/-- The bits of `m` are from one byte, and the others from another. -/
theorem or_and_mask (a b m : UInt8) : ((a &&& m) ||| (b &&& ~~~m)) &&& m = a &&& m := by
  rw [← UInt8.toBitVec_inj]
  simp only [UInt8.toBitVec_and, UInt8.toBitVec_or, UInt8.toBitVec_not]
  ext i hi
  simp only [BitVec.getElem_and, BitVec.getElem_or, BitVec.getElem_not]
  cases m.toBitVec[i] <;> simp

theorem setDataOpts_opts (ws : Websocket) (arg : UInt8) :
    (setDataOpts ws arg).opts &&& frameOpcodeMask = arg &&& frameOpcodeMask := by
  rw [setDataOpts, UInt8.or_comm]
  exact or_and_mask _ _ _

theorem WsPlace.Holds.setDataOpts {p : WsPlace} {ws : Websocket} {unread : List UInt8}
    (h : p.Holds ws unread) (arg : UInt8) : p.Holds (setDataOpts ws arg) unread := by
  cases p with
  | header fs => exact { h with }
  | opt f fs => exact { h with }
  | body f k fs => exact { h with }

/-- The state of a run, at a place in the frames -/
structure RunAt (type : UInt8) (st : WsSys) (p : WsPlace) : Prop where
  all : p.All Frame.Sized
  holds : p.Holds st.ws st.sock.data
  waiting : p.Waiting
  opts : DataOpts type st.ws

/-- What some calls do: frames are received, and each reply is sent as one frame. -/
structure RunSends (st st' : WsSys) (p p' : WsPlace) (replies : List Reply) (done : List Frame) :
    Prop where
  frames : p.unfinished = done ++ p'.unfinished
  closes : replies.count .close = done.countP fun f => decide f.IsClose
  sent : ∃ bytes gs fuel, st'.sent = st.sent ++ bytes ∧ fuel ≤ bytes.length ∧
    parseFrames fuel bytes = some gs ∧ List.Forall₂ Reply.Sent replies gs

/-- A frame is sent, and then what other calls send. -/
theorem RunSends.cons {st st₁ st' : WsSys} {p p₁ p' : WsPlace} {replies : List Reply}
    {done done₁ : List Frame} (h : RunSends st₁ st' p₁ p' replies done)
    (hframes : p.unfinished = done₁ ++ p₁.unfinished) {reply : Reply}
    (hcloses : [reply].count .close = done₁.countP fun f => decide f.IsClose) {opts : UInt8}
    {buf : List UInt8} (hlen : buf.length < 65536)
    (hsent : st₁.sent = st.sent ++ websocketWrite opts buf)
    (hreply : reply.Sent (0x80 ||| (opts &&& frameOpcodeMask), buf)) :
    RunSends st st' p p' (reply :: replies) (done₁ ++ done) := by
  obtain ⟨bytes, gs, fuel, hsent', hfuel, hparse, hgs⟩ := h.sent
  obtain ⟨b, tail, heq⟩ := websocketWrite_ne_nil opts buf
  refine ⟨by rw [hframes, h.frames, List.append_assoc], ?_, websocketWrite opts buf ++ bytes, _,
    fuel + 1, by rw [hsent', hsent, List.append_assoc], ?_, parseFrames_append hlen opts hparse,
    .cons hreply hgs⟩
  · rw [← List.singleton_append, List.count_append, List.countP_append, hcloses, h.closes]
  · rw [List.length_append, heq, List.length_cons]
    omega

/-- Nothing is sent, and then what other calls send. -/
theorem RunSends.quiet {st st₁ st' : WsSys} {p p₁ p' : WsPlace} {replies : List Reply}
    {done done₁ : List Frame} (h : RunSends st₁ st' p₁ p' replies done)
    (hframes : p.unfinished = done₁ ++ p₁.unfinished)
    (hcloses : done₁.countP (fun f => decide f.IsClose) = 0) (hsent : st₁.sent = st.sent) :
    RunSends st st' p p' replies (done₁ ++ done) where
  frames := by rw [hframes, h.frames, List.append_assoc]
  closes := by rw [List.countP_append, hcloses, h.closes, Nat.zero_add]
  sent := by
    obtain ⟨bytes, gs, fuel, hsent', hrest⟩ := h.sent
    exact ⟨bytes, gs, fuel, hsent'.trans (by rw [hsent]), hrest⟩

/-- **Calls** receive frames and send replies. -/
theorem wsRun_sends {ops : List WsOp} (hops : ∀ op ∈ ops, op.Legal) {type : UInt8} {st : WsSys}
    {p : WsPlace} (hst : RunAt type st p) :
    ∃ type' p' done, RunAt type' (wsRun type st ops).1 p' ∧
      RunSends st (wsRun type st ops).1 p p' (wsRun type st ops).2 done := by
  induction ops generalizing type st p with
  | nil => exact ⟨type, p, [], hst, rfl, rfl, [], [], 0, (List.append_nil _).symm, Nat.le_refl 0,
    rfl, .nil⟩
  | cons op ops ih =>
    have hlegal := hops op List.mem_cons_self
    have ih := @ih fun op hop => hops op (List.mem_cons_of_mem _ hop)
    cases op with
    | read size =>
      obtain ⟨p₁, hall₁, hmoves⟩ := websocketRead_moves hlegal hst.all hst.holds
      obtain ⟨hholds₁, hopts₁⟩ := hmoves.holds
      obtain ⟨done₁, hsends⟩ := hmoves.sends
      rw [wsRun, wsStep]
      generalize websocketRead size st = res at hmoves hholds₁ hopts₁ hsends
      obtain ⟨st₁, ret⟩ := res
      dsimp only at hholds₁ hopts₁ hsends ⊢
      obtain ⟨type', p', done, hst', hrun⟩ := @ih type st₁ _
        ⟨hall₁, hholds₁, hsends.waiting, by rw [hopts₁]; exact hst.opts.opts, hst.opts.legal⟩
      have hsent := hsends.sent
      have hcloses := hsends.closes
      refine ⟨type', p', done₁ ++ done, hst', ?_⟩
      by_cases hret : ret = .closed
      · rw [if_pos hret] at hsent hcloses ⊢
        exact hrun.cons hsends.frames hcloses.symm (by decide) hsent
          (.close (hst.opts.opts ▸ hst.opts.legal))
      · rw [if_neg hret] at hsent hcloses ⊢
        exact hrun.quiet hsends.frames hcloses (hsent.trans (List.append_nil _))
    | write buf =>
      obtain ⟨type', p', done, hst', hrun⟩ := @ih type
        { st with sent := st.sent ++ websocketWrite st.ws.opts buf } _
        ⟨hst.all, hst.holds, hst.waiting, hst.opts⟩
      have hreply : (Reply.message type buf).Sent
          (0x80 ||| (st.ws.opts &&& frameOpcodeMask), buf) :=
        hst.opts.opts ▸ .message _ _
      exact ⟨type', p', [] ++ done, hst', hrun.cons (p := p) rfl rfl hlegal rfl hreply⟩
    | setDataOpts arg =>
      have hopts : DataOpts arg (setDataOpts st.ws arg) := by
        refine ⟨?_, hlegal⟩
        rw [setDataOpts_opts]
        rcases hlegal with rfl | rfl <;> rfl
      obtain ⟨type', p', done, hst', hrun⟩ := @ih arg { st with ws := setDataOpts st.ws arg } _
        ⟨hst.all, hst.holds.setDataOpts arg, hst.waiting, hopts⟩
      exact ⟨type', p', [] ++ done, hst', hrun.quiet (p := p) rfl rfl rfl⟩

theorem websocketMakeNew_dataOpts (o : Websocket) (blocking : Bool) :
    DataOpts frameTxt (websocketMakeNew o blocking) := by
  have htxt : ∀ b : Bool, (if b = true then frameTxt ||| blockingWrite else frameTxt) &&&
      frameOpcodeMask = frameTxt := by decide
  exact ⟨htxt blocking, .inl rfl⟩

/-- A new websocket is at the start of the frames. -/
theorem runAt_new {fs : List Frame} (hfs : ∀ f ∈ fs, f.Sized) {o : Websocket}
    (ho : o.buf.length = 6) (blocking : Bool) (sched : List Delivery) :
    RunAt frameTxt ⟨websocketMakeNew o blocking, ⟨fs.flatMap Frame.encode, sched⟩, []⟩
      (.header fs) :=
  ⟨hfs, ⟨rfl, ho, rfl, Nat.two_pos, rfl, rfl⟩, trivial, websocketMakeNew_dataOpts o blocking⟩

/-- Messages are sent as they are to be seen, and answers to close frames are not. -/
theorem forall₂_is_iff {replies : List Reply} {gs : List (UInt8 × List UInt8)}
    (h : List.Forall₂ Reply.Sent replies gs) :
    List.Forall₂ Reply.Is replies gs ↔ replies.count .close = 0 := by
  induction h with
  | nil => exact iff_of_true .nil rfl
  | @cons reply g replies gs hsent _ ih =>
    rw [List.forall₂_cons, ih, List.count_cons]
    cases hsent with
    | message opcode buf =>
      exact ⟨fun h => h.2, fun h => ⟨rfl, h⟩⟩
    | close hopcode =>
      refine iff_of_false (fun h => ?_) (Nat.succ_ne_zero _)
      have h88 := h.1
      rw [Reply.Is] at h88
      rcases hopcode with rfl | rfl <;> exact absurd h88 (by decide)

/-- **What a websocket sends.** Text is selected at first. After any calls of `websocket_read`,
`websocket_write` and `MP_STREAM_SET_DATA_OPTS`, some frames have been received completely, and
there is one close to be answered for each close frame among them. The bytes that have been sent are
the frames of the messages and one close frame for each of these, if and only if there is none. -/
theorem websocket_sent_iff {fs : List Frame} (hfs : ∀ f ∈ fs, f.Sized) {o : Websocket}
    (ho : o.buf.length = 6) (blocking : Bool) (sched : List Delivery) {ops : List WsOp}
    (hops : ∀ op ∈ ops, op.Legal) :
    let run :=
      wsRun frameTxt ⟨websocketMakeNew o blocking, ⟨fs.flatMap Frame.encode, sched⟩, []⟩ ops
    ∃ done, Received fs run.1.sock.data done ∧
      run.2.count .close = done.countP (fun f => decide f.IsClose) ∧
      (SentRight run.1.sent run.2 ↔ ∀ f ∈ done, ¬f.IsClose) := by
  intro run
  obtain ⟨_, p', done, hst', hrun⟩ := wsRun_sends hops (runAt_new hfs ho blocking sched)
  have hframes : fs = done ++ p'.unfinished := hrun.frames
  obtain ⟨bytes, gs, fuel, hsent, hfuel, hparse, hgs⟩ := hrun.sent
  have hparse' := parseFrames_mono hparse hfuel
  rw [List.nil_append] at hsent
  refine ⟨done, ?_, hrun.closes, ?_⟩
  · rw [hframes]
    exact hst'.holds.received hst'.waiting done
  · have hnone : run.2.count .close = 0 ↔ ∀ f ∈ done, ¬f.IsClose := by
      rw [hrun.closes, List.countP_eq_zero]
      simp only [decide_eq_true_eq]
    rw [← hnone, ← forall₂_is_iff hgs, SentRight, hsent]
    constructor
    · rintro ⟨gs', hgs', hright⟩
      rw [hparse'] at hgs'
      cases hgs'
      exact hright
    · exact fun hright => ⟨gs, hparse', hright⟩

/-- A text and a close frame of the peer -/
def textAndClose : List Frame :=
  [⟨0x81, some [7, 8, 9, 10], false, [0x48, 0x69]⟩, ⟨0x88, none, false, []⟩]

/-- A websocket for it -/
def textAndCloseSys : WsSys :=
  ⟨websocketMakeNew ⟨0, [], .control, 0, 0, 0, [0, 0, 0, 0, 0, 0], 0, 0, 0⟩ false,
    ⟨textAndClose.flatMap Frame.encode, List.replicate 5 (.upTo 7)⟩, []⟩

theorem textAndClose_sized : ∀ f ∈ textAndClose, f.Sized := by
  intro f hf
  simp only [textAndClose, List.mem_cons, List.not_mem_nil, or_false] at hf
  rcases hf with rfl | rfl
  · exact ⟨by simp, by decide, by decide⟩
  · exact ⟨by simp, by decide, by decide⟩

/-- A binary message is sent after the text has been read, and it is seen as it should be. -/
theorem websocket_sent_message : ∃ done, Received textAndClose
        (wsRun frameTxt textAndCloseSys [.read 8, .setDataOpts 2, .write [1, 2, 3]]).1.sock.data
          done ∧
      (SentRight (wsRun frameTxt textAndCloseSys [.read 8, .setDataOpts 2, .write [1, 2, 3]]).1.sent
        [.message 2 [1, 2, 3]] ↔ ∀ f ∈ done, ¬f.IsClose) := by
  obtain ⟨done, hdone, -, hiff⟩ := @websocket_sent_iff _ textAndClose_sized
    ⟨0, [], .control, 0, 0, 0, [0, 0, 0, 0, 0, 0], 0, 0, 0⟩ rfl false
    (List.replicate 5 (.upTo 7)) [.read 8, .setDataOpts 2, .write [1, 2, 3]] (by
      intro op hop
      simp only [List.mem_cons, List.not_mem_nil, or_false] at hop
      rcases hop with rfl | rfl | rfl
      · exact Nat.succ_pos 7
      · exact .inr rfl
      · show 3 < 65536
        decide)
  exact ⟨done, hdone, hiff⟩

/-- **A close frame is answered with a message**: the peer sees the text `88 00` in hexadecimal. -/
theorem websocket_close_answered_with_text :
    (wsRun frameTxt textAndCloseSys [.read 8, .read 8]).2 = [.close] ∧
      parseFrames 4 (wsRun frameTxt textAndCloseSys [.read 8, .read 8]).1.sent =
        some [(0x81, [0x88, 0])] ∧
      ¬SentRight (wsRun frameTxt textAndCloseSys [.read 8, .read 8]).1.sent [.close] := by
  have hsent : (wsRun frameTxt textAndCloseSys [.read 8, .read 8]).1.sent = [0x81, 2, 0x88, 0] := by
    decide
  refine ⟨by decide, by decide, ?_⟩
  rintro ⟨gs, hgs, hright⟩
  rw [hsent, show parseFrames _ _ = some [(0x81, [0x88, 0])] from rfl] at hgs
  cases hgs
  have h88 := (List.forall₂_cons.mp hright).1
  rw [Reply.Is] at h88
  exact absurd h88 (by decide)

/-! ### The type of the data -/

namespace Frame

def opcode (f : Frame) : UInt8 := f.flags &&& frameOpcodeMask

/-- The frame starts a message. -/
def IsStart (f : Frame) : Prop := f.opcode = frameTxt ∨ f.opcode = frameBin

instance (f : Frame) : Decidable f.IsStart := inferInstanceAs (Decidable (_ ∨ _))

def IsFinal (f : Frame) : Prop := f.flags &&& 0x80 ≠ 0

instance (f : Frame) : Decidable f.IsFinal := inferInstanceAs (Decidable (_ ≠ _))

end Frame

/-- A sequence of frames is one of messages, possibly in several frames, with control frames between
and inside of them. `inside` says that a message has been started and not finished. -/
def Messages : Bool → List Frame → Prop
  | _, [] => True
  | inside, f :: fs =>
    if f.IsControl then f.IsFinal ∧ Messages inside fs
    else if f.opcode = frameCont then inside = true ∧ Messages (!decide f.IsFinal) fs
    else f.IsStart ∧ inside = false ∧ Messages (!decide f.IsFinal) fs

instance decidableMessages : ∀ (inside : Bool) (fs : List Frame), Decidable (Messages inside fs)
  | _, [] => isTrue trivial
  | inside, f :: fs =>
    have := decidableMessages inside fs
    have := decidableMessages (!decide f.IsFinal) fs
    inferInstanceAs (Decidable
      (if f.IsControl then f.IsFinal ∧ Messages inside fs
        else if f.opcode = frameCont then inside = true ∧ Messages (!decide f.IsFinal) fs
        else f.IsStart ∧ inside = false ∧ Messages (!decide f.IsFinal) fs))

/-- The frame that starts the message to which the last of some frames belongs -/
def messageStart (fs : List Frame) : Option Frame := (fs.filter fun f => decide f.IsStart).getLast?

/-- After the start of the message there are only continuations. -/
def Uninterrupted (fs : List Frame) : Prop :=
  ∃ before s conts, fs = before ++ s :: conts ∧ s.IsStart ∧ ∀ g ∈ conts, g.opcode = frameCont

/-- The last element of a list that is in `P` -/
theorem exists_last {α : Type} {P : α → Prop} {l : List α} (h : ∃ x ∈ l, P x) :
    ∃ before x after, l = before ++ x :: after ∧ P x ∧ ∀ y ∈ after, ¬P y := by
  induction l with
  | nil => simp at h
  | cons y l ih =>
    by_cases hl : ∃ x ∈ l, P x
    · obtain ⟨before, x, after, rfl, hx, hafter⟩ := ih hl
      exact ⟨y :: before, x, after, rfl, hx, hafter⟩
    · obtain ⟨x, hx, hPx⟩ := h
      rcases List.mem_cons.mp hx with rfl | hx
      · exact ⟨[], x, l, rfl, hPx, fun z hz hPz => hl ⟨z, hz, hPz⟩⟩
      · exact absurd ⟨x, hx, hPx⟩ hl

theorem Frame.IsStart.not_cont {f : Frame} (h : f.IsStart) : f.opcode ≠ frameCont := by
  rcases h with h | h <;> rw [h] <;> decide

/-- A data frame belongs to a message. -/
theorem Messages.exists_start {inside : Bool} {before after : List Frame} {f : Frame}
    (h : Messages inside (before ++ f :: after)) (hf : ¬f.IsControl) :
    inside = true ∨ ∃ s ∈ before ++ [f], s.IsStart := by
  induction before generalizing inside with
  | nil =>
    rw [List.nil_append, Messages, if_neg hf] at h
    split at h
    · exact .inl h.1
    · exact .inr ⟨f, List.mem_singleton_self f, h.1⟩
  | cons g before ih =>
    rw [List.cons_append, Messages] at h
    split at h
    · exact (ih h.2).imp_right fun ⟨s, hs, hstart⟩ => ⟨s, List.mem_cons_of_mem g hs, hstart⟩
    · split at h
      · exact .inl h.1
      · exact .inr ⟨g, List.mem_cons_self, h.1⟩

/-- The start of a message is not a continuation, and later frames are no starts. -/
theorem messageStart_eq_of_conts {before conts : List Frame} {s : Frame} (hs : s.IsStart)
    (hconts : ∀ g ∈ conts, g.opcode = frameCont) :
    messageStart (before ++ s :: conts) = some s := by
  have hnone : conts.filter (fun f => decide f.IsStart) = [] := by
    rw [List.filter_eq_nil_iff]
    intro g hg hstart
    exact (of_decide_eq_true hstart).not_cont (hconts g hg)
  rw [messageStart, List.filter_append, List.filter_cons_of_pos (by rwa [decide_eq_true_eq]), hnone,
    List.getLast?_append]
  rfl

theorem exists_messageStart {fs : List Frame} (h : ∃ s ∈ fs, s.IsStart) :
    ∃ s, messageStart fs = some s ∧ s.IsStart := by
  have hne : fs.filter (fun f => decide f.IsStart) ≠ [] := by
    obtain ⟨s, hs, hstart⟩ := h
    exact List.ne_nil_of_mem (List.mem_filter.mpr ⟨hs, decide_eq_true hstart⟩)
  refine ⟨_, List.getLast?_eq_some_getLast hne, ?_⟩
  exact of_decide_eq_true (List.mem_filter.mp (List.getLast_mem hne)).2

/-- The frames whose headers have been read are `seen`, and the flags are those of the last frame
that is no continuation. -/
structure Seen (fs seen : List Frame) (p : WsPlace) (flags : UInt8) : Prop where
  frames : fs = seen ++ p.later
  current : ∀ f, p.current = some f → ∃ before, seen = before ++ [f]
  flags : ∀ before s conts, seen = before ++ s :: conts → s.opcode ≠ frameCont →
    (∀ g ∈ conts, g.opcode = frameCont) → flags &&& frameOpcodeMask = s.opcode

theorem Seen.header {fs seen later : List Frame} {f : Frame} {flags : UInt8} {p : WsPlace}
    (h : Seen fs seen (.header (f :: later)) flags) (hlater : p.later = later)
    (hcurrent : p.current = some f) : Seen fs (seen ++ [f]) p (nextFlags flags f.flags) := by
  refine ⟨?_, fun g hg => ⟨seen, by rw [hcurrent] at hg; cases hg; rfl⟩,
    fun before s conts heq hs hconts => ?_⟩
  · rw [h.frames, hlater, List.append_assoc]
    rfl
  · rw [nextFlags]
    rcases List.eq_nil_or_concat conts with rfl | ⟨conts, g, rfl⟩
    -- the further frame is the one that counts
    · obtain rfl : f = s := (List.cons.inj (List.append_inj' heq rfl).2).1
      have hne : ¬f.flags &&& frameOpcodeMask = frameCont := hs
      rw [if_neg hne]
      rfl
    · rw [List.concat_eq_append, ← List.cons_append, ← List.append_assoc] at heq
      obtain ⟨hseen, hfg⟩ := List.append_inj' heq rfl
      obtain rfl : f = g := (List.cons.inj hfg).1
      have hcont : f.flags &&& frameOpcodeMask = frameCont := hconts f (by simp)
      rw [if_pos hcont, or_and_mask]
      exact h.flags before s conts hseen hs fun g hg => hconts g (by simp [hg])

/-- Data of a frame has been returned: the frame, and the place of the data in it. -/
structure DataOf (fs seen : List Frame) (unread bs : List UInt8) (before : List Frame) (f : Frame)
    (after : List Frame) (k : ℕ) : Prop where
  frames : fs = before ++ f :: after
  seen : seen = before ++ [f]
  data : bs = (f.payload.drop k).take bs.length
  ne_nil : bs ≠ []
  unread : unread = f.body.drop (k + bs.length) ++ after.flatMap Frame.encode

/-- A round keeps track of the frames that are seen. -/
theorem WsRound.seen {size : ℕ} {st st' : WsSys} {p p' : WsPlace} {ret : Option WsRet}
    (h : WsRound size st st' p p' ret) {fs seen : List Frame}
    (hseen : Seen fs seen p st.ws.wsFlags) :
    ∃ seen', Seen fs seen' p' st'.ws.wsFlags ∧ ∀ bs, ret = some (.data bs) →
      ∃ before f after k, DataOf fs seen' st'.sock.data bs before f after k := by
  have hholds := h.holds
  have hfresh := h.fresh
  obtain ⟨reply, -, hmove⟩ := h.move
  generalize st'.ws.wsFlags = flags at hmove
  cases hmove with
  | stuck hret hwait hu =>
    refine ⟨seen, hseen, fun bs heq => ?_⟩
    rcases hret with rfl | rfl <;> cases heq
  | @header f later p' hp' hu =>
    refine ⟨seen ++ [f], hseen.header ?_ ?_, fun bs heq => nomatch heq⟩
    · rcases hp' with rfl | rfl <;> rfl
    · rcases hp' with rfl | rfl <;> rfl
  | opt hu => exact ⟨seen, ⟨hseen.frames, hseen.current, hseen.flags⟩, fun bs heq => nomatch heq⟩
  | @part f later k n hn hlt hu =>
    obtain ⟨before, rfl⟩ := hseen.current f rfl
    refine ⟨_, ⟨hseen.frames, hseen.current, hseen.flags⟩, ?_⟩
    rintro bs ⟨⟩
    have hlen : ((f.payload.drop k).take n).length = n := by
      rw [List.length_take, List.length_drop]
      omega
    have hat : AtBody st'.ws st'.sock.data f later (k + n) := hholds
    refine ⟨before, f, later, k, ?_, rfl, by rw [hlen], ?_, by rw [hlen]; exact hat.data⟩
    · rw [hseen.frames, List.append_assoc]
      rfl
    · rw [← List.length_pos_iff, hlen]
      exact hn
  | @finish f later k hu =>
    obtain ⟨before, rfl⟩ := hseen.current f rfl
    refine ⟨_, ⟨hseen.frames, fun g hg => (nomatch hg), hseen.flags⟩, fun bs heq => ?_⟩
    rw [Frame.finishRet] at heq
    split at heq
    · split at heq <;> cases heq
    split at heq
    · rename_i hne
      cases heq
      have hat : AtHeader st'.ws st'.sock.data later := hholds
      have hunread := hat.data
      rw [hfresh later rfl (by simp), List.take_zero, List.nil_append] at hunread
      refine ⟨before, f, later, k, ?_, rfl, by rw [List.take_length], hne, ?_⟩
      · rw [hseen.frames, List.append_assoc]
        rfl
      · rw [hunread, Frame.drop_body, List.length_drop, ← List.drop_drop, List.drop_eq_nil_of_le
          (by rw [List.length_drop])]
        rfl
    · cases heq

/-- A call keeps track of the frames that are seen. -/
theorem CallMoves.seen {size : ℕ} {st st' : WsSys} {p p' : WsPlace} {ret : WsRet}
    (h : CallMoves size st p st' p' ret) {fs seen : List Frame}
    (hseen : Seen fs seen p st.ws.wsFlags) :
    ∃ seen', Seen fs seen' p' st'.ws.wsFlags ∧ ∀ bs, ret = .data bs →
      ∃ before f after k, DataOf fs seen' st'.sock.data bs before f after k := by
  induction h generalizing seen with
  | last h =>
    obtain ⟨seen', hseen', hdata⟩ := h.seen hseen
    exact ⟨seen', hseen', fun bs heq => hdata bs (by rw [heq])⟩
  | next h _ ih =>
    obtain ⟨seen₁, hseen₁, -⟩ := h.seen hseen
    exact ih hseen₁

/-- Calls keep track of the frames that are seen. -/
theorem wsRun_seen {ops : List WsOp} (hops : ∀ op ∈ ops, op.Legal) {type : UInt8} {st : WsSys}
    {p : WsPlace} (hp : p.All Frame.Sized) (hat : p.Holds st.ws st.sock.data) {fs seen : List Frame}
    (hseen : Seen fs seen p st.ws.wsFlags) :
    ∃ p' seen', p'.All Frame.Sized ∧
      p'.Holds (wsRun type st ops).1.ws (wsRun type st ops).1.sock.data ∧
      Seen fs seen' p' (wsRun type st ops).1.ws.wsFlags := by
  induction ops generalizing type st p seen with
  | nil => exact ⟨p, seen, hp, hat, hseen⟩
  | cons op ops ih =>
    have ih := @ih fun op hop => hops op (List.mem_cons_of_mem _ hop)
    cases op with
    | read size =>
      obtain ⟨p₁, hp₁, hmoves⟩ := websocketRead_moves (hops _ List.mem_cons_self) hp hat
      obtain ⟨seen₁, hseen₁, -⟩ := hmoves.seen hseen
      exact ih hp₁ hmoves.holds.1 hseen₁
    | write buf =>
      exact @ih type { st with sent := st.sent ++ websocketWrite st.ws.opts buf } _ hp hat _ hseen
    | setDataOpts arg =>
      exact @ih arg { st with ws := setDataOpts st.ws arg } _ hp (hat.setDataOpts arg) _ hseen

/-- The flags after data of a message -/
theorem Seen.opcode_eq_iff {fs seen : List Frame} {p : WsPlace} {flags : UInt8}
    (h : Seen fs seen p flags) {s : Frame} (hs : messageStart seen = some s) (hstart : s.IsStart) :
    flags &&& frameOpcodeMask = s.opcode ↔ Uninterrupted seen := by
  constructor
  · intro heq
    have hmem : s ∈ seen := (List.mem_filter.mp (List.mem_of_getLast? hs)).1
    obtain ⟨before, g, conts, hsplit, hg, hconts⟩ :=
      exists_last (P := fun f => f.opcode ≠ frameCont) ⟨s, hmem, hstart.not_cont⟩
    have hconts' : ∀ f ∈ conts, f.opcode = frameCont := fun f hf => not_not.mp (hconts f hf)
    have hgs : g.opcode = s.opcode := (h.flags before g conts hsplit hg hconts').symm.trans heq
    exact ⟨before, g, conts, hsplit, by rwa [Frame.IsStart, hgs], hconts'⟩
  · rintro ⟨before, g, conts, rfl, hg, hconts⟩
    rw [messageStart_eq_of_conts hg hconts] at hs
    cases hs
    exact h.flags before _ conts rfl hg.not_cont hconts

/-- **The type that is reported for some data.** After any calls on a websocket that receives
messages and control frames, suppose that `websocket_read` returns some bytes. They are a part of
the payload of a frame. If it is a data frame, then `MP_STREAM_GET_DATA_OPTS` reports the opcode of
the frame that started its message, if and only if there are only continuations between the two. -/
theorem websocket_data_opts_iff {fs : List Frame} (hfs : ∀ f ∈ fs, f.Sized)
    (hmessages : Messages false fs) {o : Websocket} (ho : o.buf.length = 6) (blocking : Bool)
    (sched : List Delivery) {ops : List WsOp} (hops : ∀ op ∈ ops, op.Legal) {size : ℕ}
    (hsize : 0 < size) {bs : List UInt8} :
    let st :=
      (wsRun frameTxt ⟨websocketMakeNew o blocking, ⟨fs.flatMap Frame.encode, sched⟩, []⟩ ops).1
    (websocketRead size st).2 = .data bs →
      ∃ before f after k, fs = before ++ f :: after ∧
        bs = (f.payload.drop k).take bs.length ∧ bs ≠ [] ∧
        (websocketRead size st).1.sock.data =
          f.body.drop (k + bs.length) ++ after.flatMap Frame.encode ∧
        (¬f.IsControl → ∃ s, messageStart (before ++ [f]) = some s ∧ s.IsStart ∧
          (getDataOpts (websocketRead size st).1.ws = s.opcode ↔
            Uninterrupted (before ++ [f]))) := by
  intro st hret
  have hnew := runAt_new hfs ho blocking sched
  have hseen : Seen fs [] (.header fs) (websocketMakeNew o blocking).wsFlags :=
    ⟨rfl, fun f hf => (nomatch hf), fun before s conts heq => by simp at heq⟩
  obtain ⟨p, seen, hp, hat, hseen⟩ := wsRun_seen hops hnew.all hnew.holds hseen
  obtain ⟨p', -, hmoves⟩ := websocketRead_moves hsize hp hat
  obtain ⟨seen', hseen', hdata⟩ := hmoves.seen hseen
  obtain ⟨before, f, after, k, hof⟩ := hdata bs hret
  refine ⟨before, f, after, k, hof.frames, hof.data, hof.ne_nil, hof.unread, fun hf => ?_⟩
  rw [hof.frames] at hmessages
  have hstarts := (hmessages.exists_start hf).resolve_left Bool.false_ne_true
  obtain ⟨s, hs, hstart⟩ := exists_messageStart hstarts
  rw [hof.seen] at hseen'
  exact ⟨s, hs, hstart, hseen'.opcode_eq_iff hs hstart⟩

/-- A text in two frames, with a ping between them -/
def pingInsideText : List Frame :=
  [⟨0x01, none, false, [0x48]⟩, ⟨0x89, none, false, []⟩, ⟨0x80, none, false, [0x69]⟩]

/-- A websocket for it -/
def pingInsideTextSys : WsSys :=
  ⟨websocketMakeNew ⟨0, [], .control, 0, 0, 0, [0, 0, 0, 0, 0, 0], 0, 0, 0⟩ false,
    ⟨pingInsideText.flatMap Frame.encode, List.replicate 5 (.upTo 7)⟩, []⟩

theorem pingInsideText_sized : ∀ f ∈ pingInsideText, f.Sized := by
  intro f hf
  simp only [pingInsideText, List.mem_cons, List.not_mem_nil, or_false] at hf
  rcases hf with rfl | rfl | rfl
  all_goals exact ⟨by simp, by decide, by decide⟩

theorem pingInsideText_messages : Messages false pingInsideText := by decide

/-- The first part of the text is reported as text. -/
theorem websocket_data_opts_text : ∃ before f after k, pingInsideText = before ++ f :: after ∧
      [0x48] = (f.payload.drop k).take 1 ∧
      (¬f.IsControl → ∃ s, messageStart (before ++ [f]) = some s ∧
        (getDataOpts (websocketRead 8 pingInsideTextSys).1.ws = s.opcode ↔
          Uninterrupted (before ++ [f]))) := by
  obtain ⟨before, f, after, k, hframes, hbs, -, -, hopts⟩ := @websocket_data_opts_iff _
    pingInsideText_sized pingInsideText_messages
    ⟨0, [], .control, 0, 0, 0, [0, 0, 0, 0, 0, 0], 0, 0, 0⟩ rfl false
    (List.replicate 5 (.upTo 7)) [] (fun op hop => absurd hop List.not_mem_nil)
    8 (by decide) [0x48] (by decide)
  refine ⟨before, f, after, k, hframes, hbs, fun hf => ?_⟩
  obtain ⟨s, hs, -, hiff⟩ := hopts hf
  exact ⟨s, hs, hiff⟩

/-- **A text that is reported as a ping**: the opcode that is reported for the second part of the
text is 9. -/
theorem websocket_data_opts_ping : Messages false pingInsideText ∧
      (wsRun frameTxt pingInsideTextSys [.read 8]).1.sock.data = [0x89, 0, 0x80, 1, 0x69] ∧
      (websocketRead 8 (wsRun frameTxt pingInsideTextSys [.read 8]).1).2 = .data [0x69] ∧
      (messageStart pingInsideText).map Frame.opcode = some frameTxt ∧
      getDataOpts (websocketRead 8 (wsRun frameTxt pingInsideTextSys [.read 8]).1).1.ws = 9 :=
  ⟨pingInsideText_messages, by decide, by decide, by decide, by decide⟩

end Pycopy
