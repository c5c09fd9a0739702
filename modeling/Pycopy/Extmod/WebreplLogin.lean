import Pycopy.Extmod.Webrepl
import Pycopy.Lib.Machine
import Mathlib.Data.List.Infix
import Mathlib.Data.List.TakeWhile

/-!
# The Password of WebREPL

Until the password has been entered, webrepl should return nothing, open nothing and forward
nothing. The bytes that are typed are collected in the header, at most ten of them, and compared
with the password as zero-terminated strings at the end of a line.

The count of the bytes is not reset at the end of a line, and a line may contain a zero. So the lock
is opened not only by a line that is the password: it is opened at the end of a line if the first
ten bytes of all lines up to there, up to a zero, are the password.

## Main results

* `webrepl_locked_iff`: which bytes leave the lock closed.
-/

open Stream

namespace Pycopy

/-! ### Lines -/

/-- Carriage return and line feed end a line. -/
def IsTerm (c : UInt8) : Prop := c = 13 ∨ c = 10

instance (c : UInt8) : Decidable (IsTerm c) := inferInstanceAs (Decidable (_ ∨ _))

/-- The lines that have been ended, after the start `line` of the first of them -/
def linesFrom : List UInt8 → List UInt8 → List (List UInt8)
  | _, [] => []
  | line, c :: cs => if IsTerm c then line :: linesFrom [] cs else linesFrom (line ++ [c]) cs

/-- The bytes that are typed, without the ends of lines -/
def typedBytes (bs : List UInt8) : List UInt8 := bs.filter fun c => !decide (IsTerm c)

/-- The lock is opened after some bytes: a line is ended, and the first ten bytes that were typed
are the password, both as zero-terminated strings. -/
def Accepts (passwd bs : List UInt8) : Prop :=
  (∃ c ∈ bs.getLast?, IsTerm c) ∧ cstr ((typedBytes bs).take 10) = cstr passwd

instance (passwd bs : List UInt8) : Decidable (Accepts passwd bs) :=
  inferInstanceAs (Decidable (_ ∧ _))

/-! ### Calls -/

/-- Calls of the functions of a webrepl object -/
inductive WebreplOp
  | read
  | write (buf : List UInt8)

/-- A call, and what is returned to its caller -/
def webreplStep (env : WebreplEnv) (s : WebreplSys) : WebreplOp → Option (WebreplSys × WebreplRet)
  | .read => some (webreplRead env s)
  | .write buf => some ((webreplWrite s buf).1, .again)

/-- What is sent before the password has been entered -/
def WebreplEvent.IsPrompt : WebreplEvent → Prop
  | .sendStr _ => True
  | _ => False

/-- The lock is closed: no data has been returned, no file has been opened or written, and nothing
has been forwarded. -/
structure Locked (s : WebreplSys) (rets : List WebreplRet) : Prop where
  state : s.repl.state = .passwd
  log : ∀ e ∈ s.log, e.IsPrompt
  rets : ∀ b, .data b ∉ rets

/-! ### The typed bytes -/

section Typed

variable {bs : List UInt8} {c : UInt8}

theorem typedBytes_concat :
    typedBytes (bs ++ [c]) = if IsTerm c then typedBytes bs else typedBytes bs ++ [c] := by
  rw [typedBytes, List.filter_append]
  split
  · next h => simp [h, typedBytes]
  · next h => simp [h, typedBytes]

theorem accepts_concat {passwd : List UInt8} :
    Accepts passwd (bs ++ [c]) ↔ IsTerm c ∧ cstr ((typedBytes bs).take 10) = cstr passwd := by
  rw [Accepts, List.getLast?_concat, typedBytes_concat]
  constructor
  · rintro ⟨⟨x, hx, hc⟩, h⟩
    obtain rfl := Option.mem_some_iff.mp hx
    rw [if_pos hc] at h
    exact ⟨hc, h⟩
  · rintro ⟨hc, h⟩
    rw [if_pos hc]
    exact ⟨⟨c, rfl, hc⟩, h⟩

/-- A zero ends a string. -/
theorem cstr_append_zero (xs ys : List UInt8) : cstr (xs ++ 0 :: ys) = cstr xs := by
  induction xs with
  | nil => rfl
  | cons x xs ih =>
    rw [List.cons_append, cstr, List.takeWhile_cons, cstr, List.takeWhile_cons]
    split
    · rw [← cstr, ih, cstr]
    · rfl

end Typed

/-! ### One byte -/

/-- What holds before the password has been entered, after some bytes -/
structure LoginInv (passwd : List UInt8) (s : WebreplSys) (bs : List UInt8) : Prop where
  state : s.repl.state = .passwd
  closed : ∀ q, q <+: bs → ¬Accepts passwd q
  hdr : s.repl.hdr.length = webreplFileSize
  count : s.repl.dataToRecv = ((typedBytes bs).take 10).length
  fname : (s.repl.hdr.drop fnameOffset).take s.repl.dataToRecv = (typedBytes bs).take 10
  log : ∀ e ∈ s.log, e.IsPrompt

/-- The password has been entered. -/
structure LoggedIn (passwd : List UInt8) (s : WebreplSys) (bs : List UInt8) : Prop where
  state : s.repl.state = .normal
  opened : ∃ q, q <+: bs ∧ Accepts passwd q

section Byte

variable {env : WebreplEnv} {passwd : List UInt8} {s : WebreplSys} {bs : List UInt8}

theorem LoginInv.count_le (h : LoginInv passwd s bs) : s.repl.dataToRecv ≤ 10 := by
  rw [h.count, List.length_take]
  exact Nat.min_le_left _ _

/-- The name in the header after a byte has been stored behind the bytes that were typed -/
theorem LoginInv.drop_splice (h : LoginInv passwd s bs) (c : UInt8) :
    (splice s.repl.hdr (fnameOffset + s.repl.dataToRecv) [c]).drop fnameOffset =
      (typedBytes bs).take 10 ++ c :: (s.repl.hdr.drop fnameOffset).drop
        (s.repl.dataToRecv + 1) := by
  have hle : fnameOffset ≤ s.repl.hdr.length := by
    rw [h.hdr]
    decide
  rw [Stream.drop_splice hle, splice, h.fname, List.append_assoc]
  rfl

theorem LoginInv.length_splice (h : LoginInv passwd s bs) (c : UInt8) :
    (splice s.repl.hdr (fnameOffset + s.repl.dataToRecv) [c]).length = webreplFileSize := by
  have := h.count_le
  rw [Stream.length_splice, h.hdr]
  rw [h.hdr, List.length_singleton, fnameOffset, webreplFileSize]
  omega

/-- **One byte before the password has been entered**: the lock stays closed, or it is opened by the
bytes up to here. No data is returned. -/
theorem LoginInv.byte (henv : env.passwd = cstr passwd) (h : LoginInv passwd s bs) (c : UInt8) :
    (LoginInv passwd (passwdByte env s c).1 (bs ++ [c]) ∨
      LoggedIn passwd (passwdByte env s c).1 (bs ++ [c])) ∧
    (passwdByte env s c).1.sock = s.sock ∧ ∀ b, (passwdByte env s c).2 ≠ .data b := by
  have hle := h.count_le
  rw [passwdByte]
  by_cases hc : IsTerm c
  · have hname : hdrFname (splice s.repl.hdr (fnameOffset + s.repl.dataToRecv) [0]) =
        cstr ((typedBytes bs).take 10) := by
      rw [hdrFname, h.drop_splice, cstr_append_zero]
    have hc' : c = 13 ∨ c = 10 := hc
    rw [if_pos hc']
    dsimp only
    rw [hname, henv]
    by_cases heq : cstr ((typedBytes bs).take 10) = cstr passwd
    · rw [if_neg (not_not.mpr heq)]
      exact ⟨.inr ⟨rfl, _, List.prefix_refl _, accepts_concat.mpr ⟨hc, heq⟩⟩, rfl, by simp⟩
    · rw [if_pos heq]
      refine ⟨.inl ⟨h.state, ?_, h.length_splice 0, ?_, ?_, ?_⟩, rfl, by simp⟩
      · intro q hq
        rcases List.prefix_concat_iff.mp hq with rfl | hq
        · exact fun ha => heq (accepts_concat.mp ha).2
        · exact h.closed q hq
      · rw [typedBytes_concat, if_pos hc]
        exact h.count
      · rw [typedBytes_concat, if_pos hc, h.drop_splice]
        exact List.take_left' h.count.symm
      · intro e he
        rcases List.mem_append.mp he with he | he
        · exact h.log e he
        · rw [List.mem_singleton.mp he]
          trivial
  · have hc' : ¬(c = 13 ∨ c = 10) := hc
    rw [if_neg hc']
    have hclosed : ∀ q, q <+: bs ++ [c] → ¬Accepts passwd q := by
      intro q hq
      rcases List.prefix_concat_iff.mp hq with rfl | hq
      · exact fun ha => hc (accepts_concat.mp ha).1
      · exact h.closed q hq
    have hcount := h.count
    rw [List.length_take] at hcount
    by_cases hlt : s.repl.dataToRecv < 10
    · have htyped : (typedBytes (bs ++ [c])).take 10 = (typedBytes bs).take 10 ++ [c] := by
        rw [typedBytes_concat, if_neg hc,
          List.take_of_length_le (by rw [List.length_append]; simp; omega),
          List.take_of_length_le (by omega)]
      rw [if_pos hlt]
      refine ⟨.inl ⟨h.state, hclosed, h.length_splice c, ?_, ?_, h.log⟩, rfl, by simp⟩
      · rw [htyped, List.length_append, ← h.count]
        rfl
      · rw [htyped, h.drop_splice, List.append_cons]
        refine List.take_left' ?_
        rw [List.length_append, ← h.count]
        rfl
    · have htyped : (typedBytes (bs ++ [c])).take 10 = (typedBytes bs).take 10 := by
        rw [typedBytes_concat, if_neg hc, List.take_append_of_le_length (by omega)]
      rw [if_neg hlt]
      refine ⟨.inl ⟨h.state, hclosed, h.hdr, ?_, ?_, h.log⟩, rfl, by simp⟩
      · rw [htyped]
        exact h.count
      · rw [htyped]
        exact h.fname

/-! ### Calls -/

/-- One of the two holds, with what has been returned while the lock was closed. -/
def LoginOk (passwd : List UInt8) (s : WebreplSys) (bs : List UInt8) (rets : List WebreplRet) :
    Prop :=
  (LoginInv passwd s bs ∧ ∀ b, .data b ∉ rets) ∨ LoggedIn passwd s bs

theorem LoggedIn.advance {s' : WebreplSys} (h : LoggedIn passwd s bs) (hadv : Advances s s') :
    ∃ cs, s.sock.data = cs ++ s'.sock.data ∧ LoggedIn passwd s' (bs ++ cs.map SockByte.byte) := by
  obtain ⟨hstate, cs, hcs⟩ := hadv
  obtain ⟨q, hq, hacc⟩ := h.opened
  exact ⟨cs, hcs, hstate.trans h.state, q, hq.trans (List.prefix_append _ _), hacc⟩

/-- The invariants do not depend on the schedule of the socket. -/
theorem LoginOk.withSock {rets : List WebreplRet} (h : LoginOk passwd s bs rets)
    (sock : Source SockByte) : LoginOk passwd { s with sock := sock } bs rets := by
  rcases h with ⟨⟨h1, h2, h3, h4, h5, h6⟩, hret⟩ | ⟨h1, h2⟩
  · exact .inl ⟨⟨h1, h2, h3, h4, h5, h6⟩, hret⟩
  · exact .inr ⟨h1, h2⟩

variable {ret : WebreplRet}

theorem LoginOk.concat {rets : List WebreplRet} (h : LoginOk passwd s bs rets)
    (hret : ∀ b, ret ≠ .data b) : LoginOk passwd s bs (rets ++ [ret]) := by
  refine h.imp_left fun ⟨hinv, hrets⟩ => ⟨hinv, fun b hb => ?_⟩
  rcases List.mem_append.mp hb with hb | hb
  · exact hrets b hb
  · exact hret b (List.mem_singleton.mp hb).symm

theorem LoginOk.readOnce (henv : env.passwd = cstr passwd) {rets : List WebreplRet}
    (h : LoginOk passwd s bs rets) :
    ∃ cs, s.sock.data = cs ++ (webreplReadOnce env s).1.sock.data ∧
      LoginOk passwd (webreplReadOnce env s).1 (bs ++ cs.map SockByte.byte)
        (rets ++ [(webreplReadOnce env s).2]) := by
  obtain ⟨r, sock, hread⟩ : ∃ r sock, s.sock.read 1 = (r, sock) := ⟨_, _, rfl⟩
  have hcases := s.sock.read_cases Nat.one_pos
  rw [webreplReadOnce]
  rw [hread] at hcases ⊢
  have h' := h.withSock sock
  rcases hcases with ⟨cs, rfl, hne, hle, hdata, -⟩ | ⟨rfl | rfl, hdata, -⟩
  · obtain ⟨b, rfl⟩ : ∃ b, cs = [b] :=
      List.length_eq_one_iff.mp (Nat.le_antisymm hle (List.length_pos_iff.mpr hne))
    dsimp only at hdata ⊢
    rcases h' with ⟨hinv, hrets⟩ | hlog
    · have hbyte : handleByte env { s with sock := sock } b =
          passwdByte env { s with sock := sock } b.byte := by
        rw [handleByte, if_pos hinv.state]
      obtain ⟨hnext, hsock, hret⟩ := hinv.byte henv b.byte
      rw [hbyte]
      refine ⟨[b], by rw [hsock, hdata], ?_⟩
      have hok : LoginOk passwd (passwdByte env { s with sock := sock } b.byte).1
          (bs ++ [b].map SockByte.byte) rets := hnext.imp_left fun hinv' => ⟨hinv', hrets⟩
      exact hok.concat hret
    · -- the byte itself has been read with the password entered
      have hlog' : LoggedIn passwd { s with sock := sock } (bs ++ [b.byte]) := by
        obtain ⟨q, hq, hacc⟩ := hlog.opened
        exact ⟨hlog.state, q, hq.trans (List.prefix_append _ _), hacc⟩
      obtain ⟨cs, hcs, hlog''⟩ := hlog'.advance (@handleByte_advances env _ hlog.state b)
      refine ⟨b :: cs, ?_, .inr ?_⟩
      · rw [hdata]
        exact congrArg (b :: ·) hcs
      · rwa [List.map_cons, List.append_cons]
  · refine ⟨[], hdata.symm, ?_⟩
    rw [List.map_nil, List.append_nil]
    exact h'.concat (by simp)
  · refine ⟨[], hdata.symm, ?_⟩
    rw [List.map_nil, List.append_nil]
    exact h'.concat (by simp)

theorem LoginOk.of_concat {rets : List WebreplRet}
    (h : LoginOk passwd s bs (rets ++ [ret])) : LoginOk passwd s bs rets :=
  h.imp_left fun ⟨hinv, hrets⟩ => ⟨hinv, fun b hb => hrets b (List.mem_append_left _ hb)⟩

theorem LoginOk.loop (henv : env.passwd = cstr passwd) {rets : List WebreplRet} (fuel : ℕ)
    (h : LoginOk passwd s bs rets) :
    ∃ cs, s.sock.data = cs ++ (webreplLoop env fuel s).1.sock.data ∧
      LoginOk passwd (webreplLoop env fuel s).1 (bs ++ cs.map SockByte.byte)
        (rets ++ [(webreplLoop env fuel s).2]) := by
  induction fuel generalizing s bs with
  | zero =>
    refine ⟨[], rfl, ?_⟩
    rw [List.map_nil, List.append_nil]
    exact h.concat (by simp [webreplLoop])
  | succ fuel ih =>
    obtain ⟨cs, hcs, hok⟩ := h.readOnce henv
    rw [webreplLoop]
    generalize webreplReadOnce env s = p at hcs hok
    obtain ⟨s', ret⟩ := p
    dsimp only at hcs hok
    by_cases hret : ret = .again
    · subst hret
      obtain ⟨cs', hcs', hok'⟩ := ih hok.of_concat
      refine ⟨cs ++ cs', by rw [hcs, hcs', List.append_assoc], ?_⟩
      rwa [List.map_append, ← List.append_assoc]
    · cases ret with
      | again => exact absurd rfl hret
      | _ => exact ⟨cs, hcs, hok⟩

/-- A call of `webrepl_write` forwards nothing while the lock is closed. -/
theorem LoginOk.write {rets : List WebreplRet} (h : LoginOk passwd s bs rets) (buf : List UInt8) :
    (webreplWrite s buf).1.sock = s.sock ∧
      LoginOk passwd (webreplWrite s buf).1 bs (rets ++ [.again]) := by
  rcases h with ⟨hinv, hrets⟩ | hlog
  · have heq : (webreplWrite s buf).1 = s := by rw [webreplWrite, if_pos hinv.state]
    rw [heq]
    have hok : LoginOk passwd s bs rets := .inl ⟨hinv, hrets⟩
    exact ⟨rfl, hok.concat (by simp)⟩
  · have hne : ¬s.repl.state = .passwd := by rw [hlog.state]; decide
    rw [webreplWrite, if_neg hne]
    exact ⟨rfl, .inr ⟨hlog.state, hlog.opened⟩⟩

end Byte

/-! ### Runs -/

section Run

variable {env : WebreplEnv} {passwd : List UInt8} {hdr : List UInt8} {sock : Source SockByte}
  {ops : List WebreplOp} {s : WebreplSys} {rets : List WebreplRet}

theorem loginOk_run (henv : env.passwd = cstr passwd) (hhdr : hdr.length = webreplFileSize)
    (hrun : Machine.run (webreplStep env) (webreplMakeNew hdr sock) ops = some (s, rets)) :
    ∃ cs, sock.data = cs ++ s.sock.data ∧ LoginOk passwd s (cs.map SockByte.byte) rets := by
  have hinit : ∃ cs, sock.data = cs ++ (webreplMakeNew hdr sock).sock.data ∧
      LoginOk passwd (webreplMakeNew hdr sock) (cs.map SockByte.byte) [] := by
    refine ⟨[], rfl, .inl ⟨⟨rfl, ?_, hhdr, rfl, rfl, ?_⟩, by simp⟩⟩
    · intro q hq
      rw [List.prefix_nil.mp hq]
      rintro ⟨⟨c, hc, -⟩, -⟩
      cases hc
    · intro e he
      rw [List.mem_singleton.mp he]
      trivial
  refine Machine.run_invariant
    (fun s rets => ∃ cs, sock.data = cs ++ s.sock.data ∧
      LoginOk passwd s (cs.map SockByte.byte) rets) ?_ hinit hrun
  rintro s rets op s' ret ⟨cs, hcs, hok⟩ hstep
  cases op with
  | read =>
    obtain ⟨cs', hcs', hok'⟩ := hok.loop henv (s.sock.sched.length + 1)
    obtain ⟨rfl, rfl⟩ := Prod.mk.inj (Option.some.inj hstep)
    refine ⟨cs ++ cs', ?_, ?_⟩
    · rw [hcs, hcs', List.append_assoc]
      rfl
    · rw [List.map_append]
      exact hok'
  | write buf =>
    obtain ⟨hsock, hok'⟩ := hok.write buf
    obtain ⟨rfl, rfl⟩ := Prod.mk.inj (Option.some.inj hstep)
    exact ⟨cs, by rw [hsock, hcs], hok'⟩

/-- The bytes that have been read from the socket -/
def consumedBytes (sock : Source SockByte) (s : WebreplSys) : List UInt8 :=
  (sock.data.take (sock.data.length - s.sock.data.length)).map SockByte.byte

/-- **The lock is closed as long as no line has opened it.** -/
theorem locked_iff (henv : env.passwd = cstr passwd) (hhdr : hdr.length = webreplFileSize)
    (hrun : Machine.run (webreplStep env) (webreplMakeNew hdr sock) ops = some (s, rets)) :
    Locked s rets ↔ ∀ q, q <+: consumedBytes sock s → ¬Accepts passwd q := by
  obtain ⟨cs, hcs, hok⟩ := loginOk_run henv hhdr hrun
  have hbytes : consumedBytes sock s = cs.map SockByte.byte := by
    rw [consumedBytes, hcs, List.length_append, Nat.add_sub_cancel, List.take_left]
  rw [hbytes]
  rcases hok with ⟨hinv, hrets⟩ | hlog
  · exact iff_of_true ⟨hinv.state, hinv.log, hrets⟩ hinv.closed
  · obtain ⟨q, hq, hacc⟩ := hlog.opened
    refine iff_of_false (fun hl => ?_) fun h => h q hq hacc
    have := hl.state
    rw [hlog.state] at this
    cases this

/-- **Until a line that is the password has been received, the lock is closed**, unless the bytes up
to the end of another line open it. -/
theorem webrepl_locked_iff (hset : webreplSetPassword passwd = some env.passwd)
    (hhdr : hdr.length = webreplFileSize)
    (hrun : Machine.run (webreplStep env) (webreplMakeNew hdr sock) ops = some (s, rets)) :
    ((∀ line ∈ linesFrom [] (consumedBytes sock s), line ≠ passwd) → Locked s rets) ↔
      ((∀ line ∈ linesFrom [] (consumedBytes sock s), line ≠ passwd) →
        ∀ q, q <+: consumedBytes sock s → ¬Accepts passwd q) := by
  have henv : env.passwd = cstr passwd := by
    rw [webreplSetPassword] at hset
    split at hset
    · cases hset
    · exact (Option.some.inj hset).symm
  rw [locked_iff henv hhdr hrun]

end Run

/-- A device with the password `abc` and no files -/
def abcEnv : WebreplEnv where
  version := [1, 12, 0]
  openFile := fun _ _ => none
  passwd := [97, 98, 99]

/-- A socket on which bytes arrive one by one as text -/
def typedSock (bs : List UInt8) : Source SockByte where
  data := bs.map fun b => ⟨b, true⟩
  sched := bs.map fun _ => .upTo 1

/-- The line `abd` is denied. -/
theorem webrepl_locked_abd : ∃ s rets, Machine.run (webreplStep abcEnv)
        (webreplMakeNew (List.replicate webreplFileSize 0) (typedSock [97, 98, 100, 13]))
        [.read, .write [62]] = some (s, rets) ∧ Locked s rets := by
  obtain ⟨s, rets, hrun, hs⟩ : ∃ s rets, Machine.run (webreplStep abcEnv)
      (webreplMakeNew (List.replicate webreplFileSize 0) (typedSock [97, 98, 100, 13]))
      [.read, .write [62]] = some (s, rets) ∧
      consumedBytes (typedSock [97, 98, 100, 13]) s = [97, 98, 100, 13] := by
    refine ⟨_, _, rfl, ?_⟩
    decide
  have hset : webreplSetPassword [97, 98, 99] = some abcEnv.passwd := by decide
  have hiff := webrepl_locked_iff hset (by decide) hrun
  rw [hs] at hiff
  have hclosed : ∀ q ∈ [97, 98, 100, 13].inits, ¬Accepts [97, 98, 99] q := by decide
  exact ⟨s, rets, hrun,
    hiff.mpr (fun _ q hq => hclosed q ((List.mem_inits _ _).mpr hq)) (by decide)⟩

/-- **A line that is not the password opens the lock**: after the line `a`, which is denied, the
line `bc` is taken for the rest of `abc`; and `abc`, a zero and anything is taken for `abc`. -/
theorem webrepl_opened_by_other_lines :
    (∃ s rets, webreplSetPassword [97, 98, 99] = some abcEnv.passwd ∧
      Machine.run (webreplStep abcEnv)
        (webreplMakeNew (List.replicate webreplFileSize 0) (typedSock [97, 13, 98, 99, 13]))
        [.read, .read] = some (s, rets) ∧
      (∀ line ∈ linesFrom [] (consumedBytes (typedSock [97, 13, 98, 99, 13]) s),
        line ≠ [97, 98, 99]) ∧ ¬Locked s rets) ∧
    (∃ s rets, Machine.run (webreplStep abcEnv)
        (webreplMakeNew (List.replicate webreplFileSize 0) (typedSock [97, 98, 99, 0, 120, 13]))
        [.read] = some (s, rets) ∧
      (∀ line ∈ linesFrom [] (consumedBytes (typedSock [97, 98, 99, 0, 120, 13]) s),
        line ≠ [97, 98, 99]) ∧ ¬Locked s rets) := by
  refine ⟨⟨_, _, by decide, rfl, by decide, fun h => ?_⟩, ⟨_, _, rfl, by decide, fun h => ?_⟩⟩
  · have := h.state
    revert this
    decide
  · have := h.state
    revert this
    decide

end Pycopy
