import Pycopy.Lib.Stream

/-!
# WebREPL

`extmod/modwebrepl.c`: a terminal over a websocket, with files that are sent and received in binary
records between the text. It reads its socket byte by byte, asks for a password first, and then
takes a header for every file operation.

Everything that it does to its socket and to files is kept in a log.

## Main results

* `handleByte_advances`: the socket is read in order, and after the password the state does not
  change any more.
-/

open Stream

namespace Pycopy

/-- The zero-terminated string at the start of some bytes -/
def cstr (bs : List UInt8) : List UInt8 := bs.takeWhile (· ≠ 0)

/-! ### Headers -/

/-- `sizeof(struct webrepl_file)` -/
def webreplFileSize : ℕ := 82

/-- The place of `fname` in `struct webrepl_file` -/
def fnameOffset : ℕ := 18

/-- `PUT_FILE` -/
def putFile : UInt8 := 1

/-- `GET_FILE` -/
def getFile : UInt8 := 2

/-- `GET_VER` -/
def getVer : UInt8 := 3

/-- `hdr.type` -/
def hdrType (hdr : List UInt8) : UInt8 := hdr.getD 2 0

/-- `hdr.size` -/
def hdrSize (hdr : List UInt8) : ℕ :=
  (hdr.getD 12 0).toNat + 256 * ((hdr.getD 13 0).toNat + 256 * ((hdr.getD 14 0).toNat +
    256 * (hdr.getD 15 0).toNat))

/-- `hdr.fname` -/
def hdrFname (hdr : List UInt8) : List UInt8 := cstr (hdr.drop fnameOffset)

/-! ### State -/

inductive WebreplState
  | passwd
  | normal
  deriving DecidableEq, Repr

/-- `mp_obj_webrepl_t`, with what is left of the file that is being sent -/
structure Webrepl where
  state : WebreplState
  hdrToRecv : ℕ
  dataToRecv : ℕ
  hdr : List UInt8
  fileData : List UInt8
  deriving DecidableEq, Repr

/-- What is done to the socket and to files -/
inductive WebreplEvent
  | sendStr (msg : String)
  | send (bs : List UInt8)
  | openFile (name : List UInt8) (write : Bool)
  | writeFile (bs : List UInt8)
  | closeFile
  deriving DecidableEq, Repr

/-- A byte of the socket, with whether it belongs to a text record -/
structure SockByte where
  byte : UInt8
  text : Bool
  deriving DecidableEq, Repr

/-- The webrepl with its socket -/
structure WebreplSys where
  repl : Webrepl
  sock : Source SockByte
  log : List WebreplEvent
  deriving DecidableEq, Repr

/-- What `_webrepl_read` returns. The caller of `webrepl_read` does not see `again`. An exception is
raised if a file cannot be opened. -/
inductive WebreplRet
  | again
  | error
  | eof
  | data (b : UInt8)
  | exception
  deriving DecidableEq, Repr

/-- The version, the files that can be opened for reading or writing, with what is in them, and the
password -/
structure WebreplEnv where
  version : List UInt8
  openFile : List UInt8 → Bool → Option (List UInt8)
  passwd : List UInt8

/-- `webrepl_set_password`: what is stored, or a `ValueError` -/
def webreplSetPassword (passwd : List UInt8) : Option (List UInt8) :=
  if 9 < passwd.length then none else some (cstr passwd)

/-- `webrepl_make_new`. The header is that of the new block of memory. -/
def webreplMakeNew (hdr : List UInt8) (sock : Source SockByte) : WebreplSys where
  repl :=
    { state := .passwd
      hdrToRecv := webreplFileSize
      dataToRecv := 0
      hdr := hdr
      fileData := [] }
  sock := sock
  log := [.sendStr "Password: "]

/-! ### Reading -/

variable (env : WebreplEnv)

/-- A byte of the password -/
def passwdByte (s : WebreplSys) (c : UInt8) : WebreplSys × WebreplRet :=
  let repl := s.repl
  if c = 13 ∨ c = 10 then
    let hdr := splice repl.hdr (fnameOffset + repl.dataToRecv) [0]
    if hdrFname hdr ≠ env.passwd then
      ({ s with
         repl := { repl with hdr := hdr }
         log := s.log ++ [.sendStr "\r\nAccess denied\r\n"] }, .eof)
    else
      ({ s with
         repl := { repl with state := .normal, dataToRecv := 0, hdr := hdr }
         log := s.log ++ [.sendStr "\r\nWebREPL connected\r\n>>> "] }, .again)
  else if repl.dataToRecv < 10 then
    ({ s with
       repl :=
         { repl with
           hdr := splice repl.hdr (fnameOffset + repl.dataToRecv) [c]
           dataToRecv := repl.dataToRecv + 1 } }, .again)
  else (s, .again)

/-- `write_webrepl_resp` with code zero -/
def webreplResp : WebreplEvent := .send [0x57, 0x42, 0, 0]

/-- `check_file_op_finished` -/
def checkFileOpFinished (s : WebreplSys) : WebreplSys :=
  if s.repl.dataToRecv = 0 then
    { s with
      repl := { s.repl with hdrToRecv := webreplFileSize }
      log := s.log ++ [.closeFile, webreplResp] }
  else s

/-- `write_file_chunk`: the number of bytes that are sent -/
def writeFileChunk (s : WebreplSys) : WebreplSys × ℕ :=
  let out := s.repl.fileData.take 256
  ({ s with
     repl := { s.repl with fileData := s.repl.fileData.drop 256 }
     log := s.log ++ [.send (UInt8.ofNat out.length :: UInt8.ofNat (out.length >>> 8) :: out)] },
   out.length)

/-- `handle_op` -/
def handleOp (s : WebreplSys) : WebreplSys × WebreplRet :=
  let type := hdrType s.repl.hdr
  if type = getVer then
    ({ s with
       repl := { s.repl with hdrToRecv := webreplFileSize }
       log := s.log ++ [.send env.version] }, .again)
  else
    let name := hdrFname s.repl.hdr
    match env.openFile name (decide (type = putFile)) with
    | none => (s, .exception)
    | some content =>
      let s :=
        { s with
          repl := { s.repl with fileData := content }
          log := s.log ++ [.openFile name (decide (type = putFile)), webreplResp] }
      if type = putFile then
        (checkFileOpFinished { s with repl := { s.repl with dataToRecv := hdrSize s.repl.hdr } },
          .again)
      else if type = getFile then
        ({ s with repl := { s.repl with dataToRecv := 1 } }, .again)
      else (s, .again)

/-- A byte of a header, and as much of the rest of it as there is -/
def headerByte (s : WebreplSys) (c : UInt8) : WebreplSys × WebreplRet :=
  let repl : Webrepl :=
    { s.repl with
      hdr := splice s.repl.hdr (webreplFileSize - s.repl.hdrToRecv) [c]
      hdrToRecv := s.repl.hdrToRecv - 1 }
  let s := { s with repl := repl }
  if repl.hdrToRecv ≠ 0 then
    match s.sock.read repl.hdrToRecv with
    | (.error, sock) => ({ s with sock := sock }, .error)
    | (.eof, sock) => ({ s with sock := sock }, .again)
    | (.bytes bs, sock) =>
      let s : WebreplSys :=
        { s with
          repl :=
            { repl with
              hdr := splice repl.hdr (webreplFileSize - repl.hdrToRecv) (bs.map SockByte.byte)
              hdrToRecv := repl.hdrToRecv - bs.length }
          sock := sock }
      if s.repl.hdrToRecv ≠ 0 then (s, .again) else handleOp env s
  else handleOp env s

/-- What is done with the bytes of a file that have been received, or with the byte that asks for
the next part of a file -/
def fileBytes (s : WebreplSys) (filebuf : List UInt8) : WebreplSys :=
  let type := hdrType s.repl.hdr
  if type = putFile then checkFileOpFinished { s with log := s.log ++ [.writeFile filebuf] }
  else if type = getFile then
    let (s, outSz) := writeFileChunk s
    checkFileOpFinished
      (if outSz ≠ 0 then { s with repl := { s.repl with dataToRecv := 1 } } else s)
  else checkFileOpFinished s

/-- A byte of a file, and as much of the rest of it as there is and as fits the buffer -/
def dataByte (s : WebreplSys) (c : UInt8) : WebreplSys × WebreplRet :=
  let s : WebreplSys := { s with repl := { s.repl with dataToRecv := s.repl.dataToRecv - 1 } }
  if s.repl.dataToRecv ≠ 0 then
    match s.sock.read (min 511 s.repl.dataToRecv) with
    | (.error, sock) => ({ s with sock := sock }, .error)
    | (.eof, sock) => (fileBytes { s with sock := sock } [c], .again)
    | (.bytes bs, sock) =>
      (fileBytes
        { s with
          repl := { s.repl with dataToRecv := s.repl.dataToRecv - bs.length }
          sock := sock } (c :: bs.map SockByte.byte), .again)
  else (fileBytes s [c], .again)

/-- What is done with the first byte -/
def handleByte (s : WebreplSys) (b : SockByte) : WebreplSys × WebreplRet :=
  if s.repl.state = .passwd then passwdByte env s b.byte
  else if b.text then (s, .data b.byte)
  else if s.repl.hdrToRecv ≠ 0 then headerByte env s b.byte
  else if s.repl.dataToRecv ≠ 0 then dataByte s b.byte
  else (s, .again)

/-- `_webrepl_read` -/
def webreplReadOnce (s : WebreplSys) : WebreplSys × WebreplRet :=
  match s.sock.read 1 with
  | (.error, sock) => ({ s with sock := sock }, .error)
  | (.eof, sock) => ({ s with sock := sock }, .eof)
  | (.bytes [], sock) => ({ s with sock := sock }, .eof)
  | (.bytes (b :: _), sock) => handleByte env { s with sock := sock } b

/-- The loop of `webrepl_read`, with fuel -/
def webreplLoop : ℕ → WebreplSys → WebreplSys × WebreplRet
  | 0, s => (s, .again)
  | fuel + 1, s =>
    match webreplReadOnce env s with
    | (s, .again) => webreplLoop fuel s
    | (s, ret) => (s, ret)

/-- `webrepl_read`. There is a call of `read` in every round. -/
def webreplRead (s : WebreplSys) : WebreplSys × WebreplRet :=
  webreplLoop env (s.sock.sched.length + 1) s

/-- `webrepl_write`: the number of bytes that are written -/
def webreplWrite (s : WebreplSys) (buf : List UInt8) : WebreplSys × ℕ :=
  if s.repl.state = .passwd then (s, buf.length)
  else ({ s with log := s.log ++ [.send buf] }, buf.length)

/-! ### What is read -/

section Advances

variable {env} {s : WebreplSys}

/-- Some bytes are read, and the state is the same. -/
def Advances (s s' : WebreplSys) : Prop :=
  s'.repl.state = s.repl.state ∧ ∃ cs, s.sock.data = cs ++ s'.sock.data

theorem Advances.of_eq {s' : WebreplSys} (hstate : s'.repl.state = s.repl.state)
    (hdata : s'.sock.data = s.sock.data) : Advances s s' :=
  ⟨hstate, [], by rw [hdata]; rfl⟩

theorem Advances.trans {t u : WebreplSys} (h : Advances s t) (h' : Advances t u) :
    Advances s u := by
  obtain ⟨hstate, cs, hcs⟩ := h
  obtain ⟨hstate', cs', hcs'⟩ := h'
  exact ⟨hstate'.trans hstate, cs ++ cs', by rw [hcs, hcs', List.append_assoc]⟩

@[simp] theorem checkFileOpFinished_sock : (checkFileOpFinished s).sock = s.sock := by
  rw [checkFileOpFinished]
  split <;> rfl

@[simp] theorem checkFileOpFinished_state : (checkFileOpFinished s).repl.state = s.repl.state := by
  rw [checkFileOpFinished]
  split <;> rfl

/-- The operation of a header reads nothing. -/
theorem handleOp_advances : Advances s (handleOp env s).1 := by
  rw [handleOp]
  split
  · exact .of_eq rfl rfl
  · dsimp only
    split
    · exact .of_eq rfl rfl
    · split
      · exact .of_eq checkFileOpFinished_state (congrArg Source.data checkFileOpFinished_sock)
      · split <;> exact .of_eq rfl rfl

/-- Bytes of a file are stored without a read. -/
theorem fileBytes_advances (filebuf : List UInt8) : Advances s (fileBytes s filebuf) := by
  rw [fileBytes]
  split
  · exact .of_eq checkFileOpFinished_state (congrArg Source.data checkFileOpFinished_sock)
  · split
    · dsimp only [writeFileChunk]
      refine .of_eq (checkFileOpFinished_state.trans ?_)
        (congrArg Source.data (checkFileOpFinished_sock.trans ?_)) <;> split <;> rfl
    · exact .of_eq checkFileOpFinished_state (congrArg Source.data checkFileOpFinished_sock)

/-- A read takes bytes off the front. -/
theorem read_advances {n : ℕ} (hn : 0 < n) {r : ReadResult SockByte} {sock : Source SockByte}
    (hread : s.sock.read n = (r, sock)) : ∃ cs, s.sock.data = cs ++ sock.data := by
  have hcases := s.sock.read_cases hn
  rw [hread] at hcases
  rcases hcases with ⟨bs, -, -, -, hdata, -⟩ | ⟨-, hdata, -⟩
  · exact ⟨bs, hdata⟩
  · exact ⟨[], hdata.symm⟩

/-- A header is read on from its first byte. -/
theorem headerByte_advances (c : UInt8) : Advances s (headerByte env s c).1 := by
  rw [headerByte]
  dsimp only
  split
  · next hne =>
      obtain ⟨r, sock, hread⟩ : ∃ r sock, s.sock.read (s.repl.hdrToRecv - 1) = (r, sock) :=
        ⟨_, _, rfl⟩
      have hadv := read_advances (Nat.pos_of_ne_zero hne) hread
      rw [hread]
      cases r with
      | error => exact ⟨rfl, hadv⟩
      | eof => exact ⟨rfl, hadv⟩
      | bytes bs =>
        dsimp only
        split
        · exact ⟨rfl, hadv⟩
        · exact Advances.trans (t := { s with repl := _, sock := sock }) ⟨rfl, hadv⟩
            handleOp_advances
  · exact Advances.trans (t := { s with repl := _ }) (.of_eq rfl rfl) handleOp_advances

/-- The data is read on from its first byte. -/
theorem dataByte_advances (c : UInt8) : Advances s (dataByte s c).1 := by
  rw [dataByte]
  dsimp only
  split
  · next hne =>
      obtain ⟨r, sock, hread⟩ :
        ∃ r sock, s.sock.read (min 511 (s.repl.dataToRecv - 1)) = (r, sock) := ⟨_, _, rfl⟩
      have hadv := read_advances (by omega) hread
      rw [hread]
      cases r with
      | error => exact ⟨rfl, hadv⟩
      | eof =>
        exact Advances.trans (t := { s with repl := _, sock := sock }) ⟨rfl, hadv⟩
          (fileBytes_advances [c])
      | bytes bs =>
        exact Advances.trans (t := { s with repl := _, sock := sock }) ⟨rfl, hadv⟩
          (fileBytes_advances _)
  · exact Advances.trans (t := { s with repl := _ }) (.of_eq rfl rfl) (fileBytes_advances [c])

/-- **After the password the state does not change any more.** -/
theorem handleByte_advances (h : s.repl.state = .normal) (b : SockByte) :
    Advances s (handleByte env s b).1 := by
  rw [handleByte, if_neg (by rw [h]; decide)]
  split
  · exact .of_eq rfl rfl
  · split
    · exact headerByte_advances _
    · split
      · exact dataByte_advances _
      · exact .of_eq rfl rfl

end Advances

end Pycopy
