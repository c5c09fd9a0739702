import Pycopy.Extmod.Webrepl
import Pycopy.Lib.Machine

/-!
# Files Received by WebREPL

A request to write a file is a header, with the name and the size of the file, and then the bytes of
the file. They arrive in pieces of any size, and a call of `read` on the socket may fail at any time
because nothing is there yet. `_webrepl_read` first reads one byte. While the file is received, it
then counts this byte and reads what else is there, and writes all of it.

If the second call of `read` fails, `_webrepl_read` returns before it has written the first byte,
which is counted all the same. The byte is lost, and the file is closed one byte too early.

## Main results

* `put_file_good_iff`: the bytes that have been received have been written if and only if no call
  has lost one. -/

open Stream

namespace Pycopy

/-! ### Requests -/

/-- Bytes of binary records -/
def binBytes (bs : List UInt8) : List SockByte := bs.map fun b => ⟨b, false⟩

/-- A request to write a file -/
structure PutRequest where
  hdr : List UInt8
  payload : List UInt8
  length_hdr : hdr.length = webreplFileSize
  type_hdr : hdrType hdr = putFile
  size_hdr : hdrSize hdr = payload.length

/-- The next bytes of the socket are those of a request, and webrepl expects a header. -/
structure PutStart (req : PutRequest) (rest : List SockByte) (s : WebreplSys) : Prop where
  state : s.repl.state = .normal
  hdrToRecv : s.repl.hdrToRecv = webreplFileSize
  length_hdr : s.repl.hdr.length = webreplFileSize
  data : s.sock.data = binBytes req.hdr ++ (binBytes req.payload ++ rest)

/-- A call of `_webrepl_read` before the request has been received, with the state before it. There
are `left` bytes after the request. -/
def putStep (env : WebreplEnv) (left : ℕ) (s : WebreplSys) (_ : Unit) :
    Option (WebreplSys × WebreplSys) :=
  if s.sock.data.length ≤ left then none else some ((webreplReadOnce env s).1, s)

/-- What is done for a request: the file is opened, which is confirmed. Then bytes are written. When
all is done, the file is closed, which is confirmed. -/
def putLog (name : List UInt8) (writes : List (List UInt8)) (done : Bool) : List WebreplEvent :=
  [.openFile name true, webreplResp] ++ writes.map .writeFile ++
    if done then [.closeFile, webreplResp] else []

/-- The bytes of the file that have been received have been written in their order. The file is
closed, and the end is confirmed, if all of them have been received. -/
def PutGood (req : PutRequest) (s₀ s : WebreplSys) : Prop :=
  let received := s₀.sock.data.length - s.sock.data.length
  if received < webreplFileSize then s.log = s₀.log
  else
    ∃ writes : List (List UInt8),
      s.log = s₀.log ++ putLog (hdrFname req.hdr) writes
        (decide (received = webreplFileSize + req.payload.length)) ∧
      writes.flatten = req.payload.take (received - webreplFileSize)

/-- A call of `read` has given something, and then a call for `n` bytes fails. -/
def thenFails (n : ℕ) : ReadResult SockByte × Source SockByte → Bool
  | (.bytes _, sock) => decide ((sock.read n).1 = .error)
  | _ => false

/-- More than one byte of the file is missing, one byte is there, and then nothing is there yet. -/
def LosesByte (s : WebreplSys) : Prop :=
  s.repl.hdrToRecv = 0 ∧ 1 < s.repl.dataToRecv ∧
    thenFails (min 511 (s.repl.dataToRecv - 1)) (s.sock.read 1) = true

instance (s : WebreplSys) : Decidable (LosesByte s) := inferInstanceAs (Decidable (_ ∧ _))

/-! ### The bytes of a request -/

@[simp] theorem length_binBytes (bs : List UInt8) : (binBytes bs).length = bs.length :=
  List.length_map _

@[simp] theorem map_byte_binBytes (bs : List UInt8) : (binBytes bs).map SockByte.byte = bs := by
  rw [binBytes, List.map_map]
  exact List.map_id _

/-- What is read from the start of some binary bytes -/
theorem binBytes_split {bs data tail : List SockByte} {xs : List UInt8}
    (h : binBytes xs ++ tail = bs ++ data) (hle : bs.length ≤ xs.length) :
    bs = binBytes (xs.take bs.length) ∧ data = binBytes (xs.drop bs.length) ++ tail := by
  have hxs : binBytes xs = binBytes (xs.take bs.length) ++ binBytes (xs.drop bs.length) := by
    rw [binBytes, binBytes, binBytes, ← List.map_append, List.take_append_drop]
  rw [hxs, List.append_assoc] at h
  have hlen : (binBytes (xs.take bs.length)).length = bs.length := by
    rw [length_binBytes, List.length_take, Nat.min_eq_left hle]
  obtain ⟨htake, hdrop⟩ := List.append_inj h hlen
  exact ⟨htake.symm, hdrop.symm⟩

theorem putLog_concat (name : List UInt8) (writes : List (List UInt8)) (bs : List UInt8) :
    putLog name (writes ++ [bs]) false = putLog name writes false ++ [.writeFile bs] := by
  simp [putLog]

theorem putLog_done (name : List UInt8) (writes : List (List UInt8)) :
    putLog name writes true = putLog name writes false ++ [.closeFile, webreplResp] := by
  simp [putLog]

/-- The bytes that are written by some events -/
def writtenBytes (log : List WebreplEvent) : List UInt8 :=
  log.flatMap fun
    | .writeFile bs => bs
    | _ => []

theorem writtenBytes_putLog (name : List UInt8) (writes : List (List UInt8)) (done : Bool) :
    writtenBytes (putLog name writes done) = writes.flatten := by
  have hwrites : writtenBytes (writes.map .writeFile) = writes.flatten := by
    rw [writtenBytes, List.flatMap_map, List.flatMap_id']
  have hdone : writtenBytes (if done then [.closeFile, webreplResp] else []) = [] := by
    cases done <;> rfl
  rw [putLog, writtenBytes, List.flatMap_append, List.flatMap_append, ← writtenBytes,
    ← writtenBytes, ← writtenBytes, hwrites, hdone, List.append_nil]
  rfl

/-! ### The header -/

section Request

variable {env : WebreplEnv} {req : PutRequest} {rest : List SockByte} {log : List WebreplEvent}
  {s : WebreplSys}

/-- `j` bytes of the header have been received. -/
structure PutHeader (req : PutRequest) (rest : List SockByte) (log : List WebreplEvent)
    (s : WebreplSys) (j : ℕ) : Prop where
  state : s.repl.state = .normal
  le : j ≤ webreplFileSize
  data : s.sock.data = binBytes (req.hdr.drop j) ++ (binBytes req.payload ++ rest)
  hdrToRecv : s.repl.hdrToRecv = webreplFileSize - j
  length_hdr : s.repl.hdr.length = webreplFileSize
  hdr : s.repl.hdr.take j = req.hdr.take j
  log : s.log = log

/-- `m` bytes of the file have been received, and `lost` of them have not been written. -/
structure PutData (req : PutRequest) (rest : List SockByte) (log : List WebreplEvent)
    (s : WebreplSys) (m lost : ℕ) : Prop where
  state : s.repl.state = .normal
  le : m ≤ req.payload.length
  data : s.sock.data = binBytes (req.payload.drop m) ++ rest
  dataToRecv : s.repl.dataToRecv = req.payload.length - m
  hdrToRecv : s.repl.hdrToRecv = if m = req.payload.length then webreplFileSize else 0
  hdr : s.repl.hdr = req.hdr
  writes : ∃ writes : List (List UInt8),
    s.log = log ++ putLog (hdrFname req.hdr) writes (decide (m = req.payload.length)) ∧
    writes.flatten.length + lost = m ∧ (lost = 0 → writes.flatten = req.payload.take m)

variable {j : ℕ} {bs : List SockByte} {sock : Source SockByte}

theorem PutHeader.feed (h : PutHeader req rest log s j) (hdata : s.sock.data = bs ++ sock.data)
    (hle : bs.length ≤ webreplFileSize - j) :
    PutHeader req rest log
      { s with
        repl :=
          { s.repl with
            hdr := splice s.repl.hdr (webreplFileSize - s.repl.hdrToRecv) (bs.map SockByte.byte)
            hdrToRecv := s.repl.hdrToRecv - bs.length }
        sock := sock }
      (j + bs.length) := by
  have hj := h.le
  have hlen := h.length_hdr
  have hpos : webreplFileSize - s.repl.hdrToRecv = j := by rw [h.hdrToRecv]; omega
  have hmap : (bs.map SockByte.byte).length = bs.length := List.length_map _
  rw [h.data] at hdata
  have hdrop : (req.hdr.drop j).length = webreplFileSize - j := by
    rw [List.length_drop, req.length_hdr]
  obtain ⟨hbs, hsock⟩ := binBytes_split hdata (hdrop.symm ▸ hle)
  rw [hpos]
  refine ⟨h.state, by omega, ?_, ?_, ?_, ?_, h.log⟩
  · rw [← List.drop_drop]
    exact hsock
  · dsimp only
    rw [h.hdrToRecv]
    omega
  · exact (length_splice (by omega)).trans hlen
  · dsimp only
    rw [← hmap, take_splice (by omega), h.hdr, hmap, List.take_add]
    rw [congrArg (List.map SockByte.byte) hbs, map_byte_binBytes]

/-- A call of `read` that gives nothing -/
theorem PutHeader.withSock (h : PutHeader req rest log s j)
    (hdata : sock.data = s.sock.data) : PutHeader req rest log { s with sock := sock } j :=
  ⟨h.state, h.le, hdata.trans h.data, h.hdrToRecv, h.length_hdr, h.hdr, h.log⟩

variable {m lost : ℕ}

theorem PutData.withSock (h : PutData req rest log s m lost) (hdata : sock.data = s.sock.data) :
    PutData req rest log { s with sock := sock } m lost :=
  ⟨h.state, h.le, hdata.trans h.data, h.dataToRecv, h.hdrToRecv, h.hdr, h.writes⟩

/-- When the header is complete, the file is opened. -/
theorem PutHeader.op (hopen : (env.openFile (hdrFname req.hdr) true).isSome)
    (h : PutHeader req rest log s webreplFileSize) :
    PutData req rest log (handleOp env s).1 0 0 := by
  have hhdr : s.repl.hdr = req.hdr := by
    have := h.hdr
    rwa [List.take_of_length_le (Nat.le_of_eq h.length_hdr),
      List.take_of_length_le (Nat.le_of_eq req.length_hdr)] at this
  obtain ⟨content, hcontent⟩ := Option.isSome_iff_exists.mp hopen
  have hdata : s.sock.data = binBytes req.payload ++ rest := by
    rw [h.data, ← req.length_hdr, List.drop_length]
    rfl
  have hver : ¬putFile = getVer := by decide
  rw [handleOp]
  dsimp only
  rw [hhdr, req.type_hdr, if_neg hver, decide_eq_true rfl, hcontent]
  dsimp only
  rw [if_pos rfl, req.size_hdr, checkFileOpFinished]
  dsimp only
  split
  · next h0 =>
      refine ⟨h.state, Nat.zero_le _, hdata, rfl, (if_pos h0.symm).symm, rfl, [], ?_, rfl, ?_⟩
      · simp [h.log, h0, putLog]
      · simp
  · next h0 =>
      have h0' : ¬0 = req.payload.length := fun h => h0 h.symm
      refine ⟨h.state, Nat.zero_le _, hdata, rfl, ?_, rfl, [], ?_, rfl, ?_⟩
      · rw [if_neg h0']
        exact h.hdrToRecv
      · simp [h.log, h0', putLog]
      · simp

/-- Where the request is, and how many bytes have been lost -/
def PutAt (req : PutRequest) (rest : List SockByte) (log : List WebreplEvent) (s : WebreplSys)
    (lost : ℕ) : Prop :=
  (∃ j < webreplFileSize, PutHeader req rest log s j ∧ lost = 0) ∨
    ∃ m, PutData req rest log s m lost

theorem PutHeader.finish (hopen : (env.openFile (hdrFname req.hdr) true).isSome) {j : ℕ}
    (h : PutHeader req rest log s j) (ret : WebreplRet) :
    PutAt req rest log
      (if s.repl.hdrToRecv ≠ 0 then (s, ret) else handleOp env s).1 0 := by
  have hj := h.le
  have hrecv := h.hdrToRecv
  split
  · next hne => exact .inl ⟨j, by omega, h, rfl⟩
  · next h0 =>
      obtain rfl : j = webreplFileSize := by omega
      exact .inr ⟨0, h.op hopen⟩

variable {b : SockByte}

/-- The first byte of the header that is missing, and what else is there -/
theorem PutHeader.byte (hopen : (env.openFile (hdrFname req.hdr) true).isSome)
    (h : PutHeader req rest log s j) (hj : j < webreplFileSize)
      (hdata : s.sock.data = b :: sock.data) :
    PutAt req rest log (headerByte env { s with sock := sock } b.byte).1 0 := by
  have hone : [b].length ≤ webreplFileSize - j := by
    rw [List.length_singleton]
    omega
  have hfeed := h.feed hdata hone
  have hrecv := hfeed.hdrToRecv
  rw [headerByte]
  dsimp only
  split
  · next hne =>
      have hcases := sock.read_cases (Nat.pos_of_ne_zero hne)
      obtain ⟨r, sock', hread⟩ : ∃ r sock', sock.read (s.repl.hdrToRecv - 1) = (r, sock') :=
        ⟨_, _, rfl⟩
      rw [hread] at hcases ⊢
      have hlt : j + 1 < webreplFileSize := by
        have hne' : s.repl.hdrToRecv - 1 ≠ 0 := hne
        have hrecv' : s.repl.hdrToRecv - 1 = webreplFileSize - (j + 1) := hrecv
        omega
      rcases hcases with ⟨bs, rfl, -, hle, hdata', -⟩ | ⟨rfl | rfl, hdata', -⟩
      · have hle' : bs.length ≤ webreplFileSize - (j + [b].length) :=
          Nat.le_trans hle (Nat.le_of_eq hrecv)
        exact (hfeed.feed hdata' hle').finish hopen .again
      · exact .inl ⟨j + 1, hlt, hfeed.withSock hdata', rfl⟩
      · exact .inl ⟨j + 1, hlt, hfeed.withSock hdata', rfl⟩
  · next h0 =>
      have hlast : j + [b].length = webreplFileSize := by
        have h0' : ¬s.repl.hdrToRecv - 1 ≠ 0 := h0
        have hrecv' : s.repl.hdrToRecv - 1 = webreplFileSize - (j + 1) := hrecv
        rw [List.length_singleton]
        omega
      rw [hlast] at hfeed
      exact .inr ⟨0, hfeed.op hopen⟩

/-! ### The bytes of the file -/

/-- Some bytes are written. If they are the last ones, the file is closed. -/
theorem PutData.put (h : PutData req rest log s m lost) (hdata : s.sock.data = bs ++ sock.data)
    (hne : bs ≠ [])
    (hle : bs.length ≤ req.payload.length - m) :
    PutData req rest log
      (fileBytes
        { s with
          repl := { s.repl with dataToRecv := s.repl.dataToRecv - bs.length }
          sock := sock } (bs.map SockByte.byte))
      (m + bs.length) lost := by
  have hpos : 0 < bs.length := List.length_pos_iff.mpr hne
  have hm : m ≠ req.payload.length := by omega
  rw [h.data] at hdata
  obtain ⟨hbs, hsock⟩ := binBytes_split hdata (by rw [List.length_drop]; exact hle)
  rw [List.drop_drop] at hsock
  obtain ⟨writes, hlog, hlen, hgood⟩ := h.writes
  rw [decide_eq_false hm] at hlog
  have hbytes : bs.map SockByte.byte = (req.payload.drop m).take bs.length :=
    (congrArg (List.map SockByte.byte) hbs).trans (map_byte_binBytes _)
  have hflat : (writes ++ [bs.map SockByte.byte]).flatten.length + lost = m + bs.length := by
    rw [List.flatten_concat, List.length_append, List.length_map]
    omega
  have hgood' : lost = 0 →
      (writes ++ [bs.map SockByte.byte]).flatten = req.payload.take (m + bs.length) := by
    intro h0
    rw [List.flatten_concat, hgood h0, hbytes, List.take_add]
  have hrecv : s.repl.dataToRecv - bs.length = req.payload.length - (m + bs.length) := by
    rw [h.dataToRecv]
    omega
  have hle' : m + bs.length ≤ req.payload.length := by omega
  rw [fileBytes]
  dsimp only
  rw [h.hdr, if_pos req.type_hdr, checkFileOpFinished]
  dsimp only
  rw [hrecv]
  split
  · next h0 =>
      have hdone : m + bs.length = req.payload.length := by omega
      refine ⟨h.state, hle', hsock, rfl, (if_pos hdone).symm, rfl, _, ?_, hflat, hgood'⟩
      dsimp only
      rw [decide_eq_true hdone, putLog_done, putLog_concat, hlog]
      simp only [List.append_assoc]
  · next h0 =>
      have hdone : m + bs.length ≠ req.payload.length := by omega
      refine ⟨h.state, hle', hsock, rfl, ?_, rfl, _, ?_, hflat, hgood'⟩
      · rw [if_neg hdone]
        exact h.hdrToRecv.trans (if_neg hm)
      · dsimp only
        rw [decide_eq_false hdone, putLog_concat, hlog, List.append_assoc]

/-- A byte is counted, but not written. -/
theorem PutData.lose (h : PutData req rest log s m lost) (hdata : s.sock.data = b :: sock.data)
    (hlt : m + 1 < req.payload.length) :
    PutData req rest log
      { s with
        repl := { s.repl with dataToRecv := s.repl.dataToRecv - 1 }
        sock := sock }
      (m + 1) (lost + 1) := by
  have hm : m ≠ req.payload.length := by omega
  have hm' : m + 1 ≠ req.payload.length := by omega
  rw [h.data] at hdata
  have hle : [b].length ≤ (req.payload.drop m).length := by
    rw [List.length_drop, List.length_singleton]
    omega
  obtain ⟨-, hsock⟩ := @binBytes_split [b] _ _ _ hdata hle
  rw [List.drop_drop] at hsock
  obtain ⟨writes, hlog, hlen, -⟩ := h.writes
  refine ⟨h.state, by omega, hsock, ?_, ?_, h.hdr, writes, ?_, by omega, fun h0 => by omega⟩
  · dsimp only
    rw [h.dataToRecv]
    omega
  · rw [if_neg hm']
    exact h.hdrToRecv.trans (if_neg hm)
  · rw [decide_eq_false hm']
    rwa [decide_eq_false hm] at hlog

/-- The first byte of the file that is missing, and what else is there -/
theorem PutData.byte (h : PutData req rest log s m lost) (hm : m < req.payload.length)
    (hread : s.sock.read 1 = (.bytes [b], sock)) (hdata : s.sock.data = b :: sock.data) :
    ∃ m', PutData req rest log (dataByte { s with sock := sock } b.byte).1 m'
      (lost + if LosesByte s then 1 else 0) := by
  have hrecv := h.dataToRecv
  have hhdr : s.repl.hdrToRecv = 0 := h.hdrToRecv.trans (if_neg (by omega))
  have hloses : LosesByte s ↔
      1 < s.repl.dataToRecv ∧ (sock.read (min 511 (s.repl.dataToRecv - 1))).1 = .error := by
    rw [LosesByte, hread, thenFails, decide_eq_true_eq]
    exact and_iff_right hhdr
  have hone : [b].length ≤ req.payload.length - m := by
    rw [List.length_singleton]
    omega
  rw [dataByte]
  dsimp only
  split
  · next hne =>
      have hn : 0 < min 511 (s.repl.dataToRecv - 1) := by omega
      have hcases := sock.read_cases hn
      obtain ⟨r, sock', hread'⟩ :
          ∃ r sock', sock.read (min 511 (s.repl.dataToRecv - 1)) = (r, sock') := ⟨_, _, rfl⟩
      rw [hread'] at hcases hloses ⊢
      rcases hcases with ⟨bs, rfl, -, hle, hdata', -⟩ | ⟨rfl | rfl, hdata', -⟩
      · have hnot : ¬LosesByte s := fun hl => by cases (hloses.mp hl).2
        have hall : s.sock.data = (b :: bs) ++ sock'.data := by
          rw [hdata]
          exact congrArg (b :: ·) hdata'
        have hput := h.put hall (List.cons_ne_nil _ _) (by rw [List.length_cons]; omega)
        rw [if_neg hnot]
        dsimp only
        rw [Nat.sub_sub, Nat.add_comm 1]
        exact ⟨_, hput⟩
      · have hl : LosesByte s := hloses.mpr ⟨by omega, rfl⟩
        rw [if_pos hl]
        exact ⟨m + 1, (h.lose hdata (by omega)).withSock hdata'⟩
      · have hnot : ¬LosesByte s := fun hl => by cases (hloses.mp hl).2
        rw [if_neg hnot]
        have hall : s.sock.data = [b] ++ sock'.data := by
          rw [hdata, ← hdata']
          rfl
        have hput := h.put hall (List.cons_ne_nil _ _) hone
        exact ⟨_, hput⟩
  · next h0 =>
      have hnot : ¬LosesByte s := fun hl => h0 (by have := (hloses.mp hl).1; omega)
      rw [if_neg hnot]
      have hall : s.sock.data = [b] ++ sock.data := hdata
      have hput := h.put hall (List.cons_ne_nil _ _) hone
      exact ⟨_, hput⟩

/-! ### Calls -/

/-- A call when the next byte is binary -/
theorem webreplReadOnce_binary (hstate : s.repl.state = .normal) {xs : List UInt8}
    {tail : List SockByte} (hxs : 0 < xs.length) (hdata : s.sock.data = binBytes xs ++ tail) :
    (∃ sock, (webreplReadOnce env s).1 = { s with sock := sock } ∧ sock.data = s.sock.data ∧
      ∀ bs, (s.sock.read 1).1 ≠ .bytes bs) ∨
    ∃ b sock, s.sock.read 1 = (.bytes [b], sock) ∧ s.sock.data = b :: sock.data ∧
      webreplReadOnce env s =
        if s.repl.hdrToRecv ≠ 0 then headerByte env { s with sock := sock } b.byte
        else if s.repl.dataToRecv ≠ 0 then dataByte { s with sock := sock } b.byte
        else ({ s with sock := sock }, .again) := by
  have hcases := s.sock.read_cases Nat.one_pos
  obtain ⟨r, sock, hread⟩ : ∃ r sock, s.sock.read 1 = (r, sock) := ⟨_, _, rfl⟩
  rw [webreplReadOnce]
  rw [hread] at hcases ⊢
  rcases hcases with ⟨bs, rfl, hne, hle, hbs, -⟩ | ⟨rfl | rfl, hsame, -⟩
  · obtain ⟨b, rfl⟩ : ∃ b, bs = [b] :=
      List.length_eq_one_iff.mp (Nat.le_antisymm hle (List.length_pos_iff.mpr hne))
    refine .inr ⟨b, sock, rfl, hbs, ?_⟩
    have htext : b.text = false := by
      obtain ⟨hb, -⟩ := binBytes_split (hdata.symm.trans hbs) hxs
      have hmem : b ∈ binBytes (xs.take [b].length) := hb ▸ List.mem_singleton_self b
      obtain ⟨x, -, rfl⟩ := List.mem_map.mp hmem
      rfl
    have hlogin : ¬s.repl.state = .passwd := by
      rw [hstate]
      decide
    dsimp only
    rw [handleByte, if_neg hlogin, htext]
    rfl
  · exact .inl ⟨sock, rfl, hsame, by rintro _ ⟨⟩⟩
  · exact .inl ⟨sock, rfl, hsame, by rintro _ ⟨⟩⟩

theorem PutHeader.round (hopen : (env.openFile (hdrFname req.hdr) true).isSome)
    (h : PutHeader req rest log s j) (hj : j < webreplFileSize) :
    PutAt req rest log (webreplReadOnce env s).1 0 ∧ ¬LosesByte s := by
  have hrecv : s.repl.hdrToRecv ≠ 0 := by
    rw [h.hdrToRecv]
    omega
  refine ⟨?_, fun hl => hrecv hl.1⟩
  have hpos : 0 < (req.hdr.drop j).length := by
    rw [List.length_drop, req.length_hdr]
    omega
  rcases webreplReadOnce_binary h.state hpos h.data with
    ⟨sock, hround, hdata, -⟩ | ⟨b, sock, -, hdata, hround⟩
  · rw [hround]
    exact .inl ⟨j, hj, h.withSock hdata, rfl⟩
  · rw [hround, if_pos hrecv]
    exact h.byte hopen hj hdata

/-- A call while the bytes of the file are received -/
theorem PutData.round (h : PutData req rest log s m lost) (hm : m < req.payload.length) :
    PutAt req rest log (webreplReadOnce env s).1 (lost + if LosesByte s then 1 else 0) := by
  have hhdr : s.repl.hdrToRecv = 0 := h.hdrToRecv.trans (if_neg (by omega))
  have hrecv : s.repl.dataToRecv ≠ 0 := by
    rw [h.dataToRecv]
    omega
  have hpos : 0 < (req.payload.drop m).length := by
    rw [List.length_drop]
    omega
  rcases webreplReadOnce_binary h.state hpos h.data with
    ⟨sock, hround, hdata, hnone⟩ | ⟨b, sock, hread, hdata, hround⟩
  · have hnot : ¬LosesByte s := by
      rintro ⟨-, -, hl⟩
      obtain ⟨r, sock', hread⟩ : ∃ r sock', s.sock.read 1 = (r, sock') := ⟨_, _, rfl⟩
      rw [hread] at hl hnone
      cases r with
      | bytes bs => exact hnone bs rfl
      | _ => cases hl
    rw [hround, if_neg hnot]
    exact .inr ⟨m, h.withSock hdata⟩
  · rw [hround, if_neg (not_not_intro hhdr), if_pos hrecv]
    exact .inr (h.byte hm hread hdata)

/-! ### Runs -/

theorem PutStart.at (h : PutStart req rest s) : PutAt req rest s.log s 0 :=
  .inl ⟨0, by decide, ⟨h.state, Nat.zero_le _, h.data, h.hdrToRecv, h.length_hdr, rfl, rfl⟩, rfl⟩

/-- **What is lost in a run** -/
theorem PutAt.run (hopen : (env.openFile (hdrFname req.hdr) true).isSome) {s' : WebreplSys}
    (h : PutAt req rest log s 0) {ops : List Unit} {trace : List WebreplSys}
    (hrun : Machine.run (putStep env rest.length) s ops = some (s', trace)) :
    PutAt req rest log s' (trace.countP LosesByte) := by
  have hinit : PutAt req rest log s (([] : List WebreplSys).countP LosesByte) := h
  refine Machine.run_invariant
    (fun s trace => PutAt req rest log s (trace.countP LosesByte)) ?_ hinit hrun
  intro s trace _ s' o hat hstep
  rw [putStep] at hstep
  split at hstep
  · cases hstep
  · next hlen =>
      obtain ⟨rfl, rfl⟩ := Prod.mk.inj (Option.some.inj hstep)
      rw [List.countP_append, List.countP_singleton]
      rcases hat with ⟨j, hj, hheader, h0⟩ | ⟨m, hdata⟩
      · obtain ⟨hnext, hnot⟩ := hheader.round hopen hj
        rw [h0, decide_eq_false hnot]
        exact hnext
      · have hm : m < req.payload.length := by
          rw [hdata.data, List.length_append, length_binBytes, List.length_drop] at hlen
          omega
        simp only [decide_eq_true_eq]
        exact hdata.round hm

/-- **The bytes that have been received have been written if and only if none was lost.** -/
theorem PutAt.good_iff {s₀ : WebreplSys} (hstart : PutStart req rest s₀)
    (h : PutAt req rest s₀.log s lost) : PutGood req s₀ s ↔ lost = 0 := by
  have hlen₀ : s₀.sock.data.length = webreplFileSize + (req.payload.length + rest.length) := by
    rw [hstart.data, List.length_append, List.length_append, length_binBytes, length_binBytes,
      req.length_hdr]
  rcases h with ⟨j, hj, hheader, h0⟩ | ⟨m, hdata⟩
  · have hlen : s₀.sock.data.length - s.sock.data.length = j := by
      rw [hlen₀, hheader.data, List.length_append, List.length_append, length_binBytes,
        length_binBytes, List.length_drop, req.length_hdr]
      omega
    refine iff_of_true ?_ h0
    rw [PutGood, hlen, if_pos hj]
    exact hheader.log
  · have hm := hdata.le
    have hlen : s₀.sock.data.length - s.sock.data.length = webreplFileSize + m := by
      rw [hlen₀, hdata.data, List.length_append, length_binBytes, List.length_drop]
      omega
    have hnot : ¬webreplFileSize + m < webreplFileSize := by omega
    have hdone : decide (webreplFileSize + m = webreplFileSize + req.payload.length) =
        decide (m = req.payload.length) :=
      decide_eq_decide.mpr Nat.add_left_cancel_iff
    obtain ⟨writes, hlog, hcount, hgood⟩ := hdata.writes
    rw [PutGood, hlen, if_neg hnot, hdone, Nat.add_sub_cancel_left]
    constructor
    · rintro ⟨writes', hlog', hflat⟩
      have heq : writes'.flatten = writes.flatten := by
        have := List.append_cancel_left (hlog'.symm.trans hlog)
        rw [← writtenBytes_putLog (hdrFname req.hdr) writes', this, writtenBytes_putLog]
      rw [← heq, hflat, List.length_take] at hcount
      omega
    · intro h0
      exact ⟨writes, hlog, hgood h0⟩

end Request

/-- **The bytes of the file that have been received have been written, in order and once, and the
end is confirmed after all of them, if and only if in no call one byte was there and then
nothing.** -/
theorem put_file_good_iff {env : WebreplEnv} {req : PutRequest} {rest : List SockByte}
    {s₀ s : WebreplSys} {ops : List Unit} {trace : List WebreplSys} (hstart : PutStart req rest s₀)
    (hopen : (env.openFile (hdrFname req.hdr) true).isSome)
    (hrun : Machine.run (putStep env rest.length) s₀ ops = some (s, trace)) :
    PutGood req s₀ s ↔ ∀ t ∈ trace, ¬LosesByte t := by
  have hat := hstart.at.run hopen hrun
  rw [hat.good_iff hstart, List.countP_eq_zero]
  simp only [decide_eq_true_eq]

/-- A request to write the bytes 1 and 2 to the file `x` -/
def putX : PutRequest where
  hdr := [0x57, 0x41, 1, 0] ++ List.replicate 8 0 ++ [2, 0, 0, 0, 1, 0, 120] ++ List.replicate 63 0
  payload := [1, 2]
  length_hdr := by decide
  type_hdr := by decide
  size_hdr := by decide

/-- A device on which every file can be opened -/
def openEnv : WebreplEnv where
  version := [1, 12, 0]
  openFile := fun _ _ => some []
  passwd := []

/-- The request arrives. -/
def putXSys (sched : List Delivery) : WebreplSys where
  repl :=
    { state := .normal
      hdrToRecv := webreplFileSize
      dataToRecv := 0
      hdr := List.replicate webreplFileSize 0
      fileData := [] }
  sock := { data := binBytes putX.hdr ++ (binBytes putX.payload ++ []), sched := sched }
  log := []

theorem putXSys_start (sched : List Delivery) : PutStart putX [] (putXSys sched) :=
  ⟨rfl, rfl, List.length_replicate, rfl⟩

/-- The bytes of the file are there at once, after a call that found nothing. -/
theorem put_file_good_at_once : ∃ s trace, Machine.run (putStep openEnv 0)
        (putXSys [.upTo 0, .upTo 80, .error, .upTo 0, .upTo 0]) [(), (), ()] = some (s, trace) ∧
      s.sock.data = [] ∧
      PutGood putX (putXSys [.upTo 0, .upTo 80, .error, .upTo 0, .upTo 0]) s := by
  obtain ⟨s, trace, hrun, hdata, htrace⟩ : ∃ s trace, Machine.run (putStep openEnv 0)
      (putXSys [.upTo 0, .upTo 80, .error, .upTo 0, .upTo 0]) [(), (), ()] = some (s, trace) ∧
      s.sock.data = [] ∧ ∀ t ∈ trace, ¬LosesByte t := by
    refine ⟨_, _, rfl, rfl, ?_⟩
    decide
  have hopen : (openEnv.openFile (hdrFname putX.hdr) true).isSome := rfl
  exact ⟨s, trace, hrun, hdata, (put_file_good_iff (putXSys_start _) hopen hrun).mpr htrace⟩

/-- **A byte is lost**: between the two bytes of the file nothing is there, and only the second one
is written. -/
theorem put_file_loses_byte : ∃ s trace, Machine.run (putStep openEnv 0)
        (putXSys [.upTo 0, .upTo 80, .upTo 0, .error, .upTo 0]) [(), (), ()] = some (s, trace) ∧
      s.log = putLog [120] [[2]] true ∧
      ¬PutGood putX (putXSys [.upTo 0, .upTo 80, .upTo 0, .error, .upTo 0]) s := by
  obtain ⟨s, trace, hrun, hlog, hcount⟩ : ∃ s trace, Machine.run (putStep openEnv 0)
      (putXSys [.upTo 0, .upTo 80, .upTo 0, .error, .upTo 0]) [(), (), ()] = some (s, trace) ∧
      s.log = putLog [120] [[2]] true ∧ trace.countP LosesByte = 1 := by
    refine ⟨_, _, rfl, rfl, ?_⟩
    decide
  have hopen : (openEnv.openFile (hdrFname putX.hdr) true).isSome := rfl
  have hat := (putXSys_start _).at.run hopen hrun
  rw [hcount] at hat
  exact ⟨s, trace, hrun, hlog, fun h => nomatch (hat.good_iff (putXSys_start _)).mp h⟩

end Pycopy
