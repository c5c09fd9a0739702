import Pycopy.Lib.Machine
import Pycopy.Lib.TwosComplement
import Pycopy.Str.Vstr
import Mathlib.Data.BitVec

/-!
# In-Memory Files

`StringIO` and `BytesIO` of `py/objstringio.c`: `stringio_make_new`, `stringio_read`,
`stringio_copy_on_write`, `stringio_write` and the seek of `stringio_ioctl`, with `vstr_add_len` of
`py/vstr.c` and the check of `stream_seek`. Words have `w` bits. An access outside the memory of
the buffer has no result, and memory that was allocated and not written holds anything.

An object made from a string reads the memory of the string and copies it before the first write.

The object behaves as a file, a list of bytes with a position. There is one exception: a write that
has to allocate rounds the new size with a mask of 32 bits, and near `2 ^ 32` bytes the size that
comes out is small.

## Main results

* `stringio_file_iff`: runs are those of a file, if and only if no write has to allocate a size
  near `2 ^ 32` or above it.
-/

open Stream

namespace Pycopy

/-! ### Definitions -/

/-- Where `vstr->buf` points: to the memory of the string the object was made from, and then
`vstr->fixed_buf` is set, or to memory of its own. -/
inductive StrBuf
  | fixed
  | own (block : List UInt8)
  deriving DecidableEq, Repr

/-- `mp_obj_stringio_t` with its `vstr_t`, and the memory of the object it was made from -/
structure Stringio where
  original : List UInt8
  buf : StrBuf
  alloc : ℕ
  len : ℕ
  pos : ℕ
  deriving DecidableEq, Repr

/-- The memory that `vstr->buf` points to -/
def Stringio.mem (o : Stringio) : List UInt8 :=
  match o.buf with
  | .fixed => o.original
  | .own block => block

/-- The memory that `vstr->buf` points to is written. -/
def Stringio.setMem (o : Stringio) (mem : List UInt8) : Stringio :=
  match o.buf with
  | .fixed => { o with original := mem }
  | .own _ => { o with buf := .own mem }

/-- `memcpy(o->vstr->buf + off, bs, size)` -/
def Stringio.memcpy (o : Stringio) (off : ℕ) (bs : List UInt8) : Option Stringio :=
  if off + bs.length ≤ o.mem.length then some (o.setMem (splice o.mem off bs)) else none

/-- `memset(o->vstr->buf + off, 0, n)` -/
def Stringio.memset (o : Stringio) (off n : ℕ) : Option Stringio :=
  if off + n ≤ o.mem.length then some (o.setMem (splice o.mem off (List.replicate n 0))) else none

/-- Error codes of the operations -/
inductive FileErrno
  | efbig
  | einval
  deriving DecidableEq, Repr

/-- `stringio_read` -/
def stringioRead (o : Stringio) (size : ℕ) : List UInt8 × Stringio :=
  if o.len ≤ o.pos then ([], o)
  else
    let remaining := o.len - o.pos
    let size := if remaining < size then remaining else size
    ((o.mem.drop o.pos).take size, { o with pos := o.pos + size })

/-- `stringio_copy_on_write` -/
def stringioCopyOnWrite (o : Stringio) : Stringio := { o with buf := .own (o.mem.take o.len) }

/-- `m_renew`, with `fresh` in the new memory -/
def renew (block : List UInt8) (newAlloc : ℕ) (fresh : ℕ → UInt8) : List UInt8 :=
  block.take newAlloc ++ (List.range (newAlloc - block.length)).map fresh

/-- `vstr_add_len` for a buffer that is not fixed -/
def vstrAddLen (w : ℕ) (o : Stringio) (len : ℕ) (fresh : ℕ → UInt8) : Stringio :=
  let o :=
    if o.alloc < (o.len + len) % 2 ^ w then
      let newAlloc := roundAlloc w ((o.len + len + 16) % 2 ^ w)
      { o with alloc := newAlloc, buf := .own (renew o.mem newAlloc fresh) }
    else o
  { o with len := (o.len + len) % 2 ^ w }

/-- `stringio_write` -/
def stringioWrite (w : ℕ) (o : Stringio) (bs : List UInt8) (fresh : ℕ → UInt8) :
    Option (Except FileErrno ℕ × Stringio) :=
  let o := if o.buf = .fixed then stringioCopyOnWrite o else o
  let newPos := (o.pos + bs.length) % 2 ^ w
  if newPos < bs.length then some (.error .efbig, o)
  else
    let orgLen := o.len
    let o :=
      if o.alloc < newPos then vstrAddLen w { o with len := o.alloc } (newPos - o.alloc) fresh
      else o
    (if orgLen < o.pos then o.memset orgLen (o.pos - orgLen) else some o).bind fun o =>
      (o.memcpy o.pos bs).map fun o =>
        (.ok bs.length,
          { o with pos := newPos, len := if o.len < newPos then newPos else o.len })

/-- `stream_seek` and `MP_STREAM_SEEK` of `stringio_ioctl`. `whence` is an `int`: 0 is
`MP_SEEK_SET`, 1 is `MP_SEEK_CUR` and 2 is `MP_SEEK_END`. -/
def stringioSeek {w : ℕ} (o : Stringio) (whence : BitVec 32) (offset : BitVec w) :
    Except FileErrno ℕ × Stringio :=
  if whence = 0 ∧ offset.toInt < 0 then (.error .einval, o)
  else
    let ref := if whence = 1 then o.pos else if whence = 2 then o.len else 0
    let newPos := (ref + offset.toNat) % 2 ^ w
    if whence ≠ 0 ∧ offset.toInt < 0 then
      let newPos := if ref < newPos then 0 else newPos
      (.ok newPos, { o with pos := newPos })
    else if newPos < ref then (.error .einval, o)
    else (.ok newPos, { o with pos := newPos })

/-- `vstr_new`, with `fresh` in the memory -/
def stringioNew (sz : ℕ) (fresh : ℕ → UInt8) : Stringio :=
  { original := []
    buf := .own ((List.range (max sz 1)).map fresh)
    alloc := max sz 1
    len := 0
    pos := 0 }

/-- The arguments of the constructor: none, a size, a string, or another object with a buffer -/
inductive StringioArgs
  | none
  | size (sz : ℕ)
  | str (bs : List UInt8)
  | buffer (bs : List UInt8)
  deriving DecidableEq, Repr

/-- `stringio_make_new` -/
def stringioMakeNew (w : ℕ) (fresh : ℕ → UInt8) : StringioArgs → Option Stringio
  | .none => some (stringioNew 16 fresh)
  | .size sz => some (stringioNew sz fresh)
  | .str bs => some ⟨bs, .fixed, bs.length, bs.length, 0⟩
  | .buffer bs =>
    (stringioWrite w { stringioNew bs.length fresh with original := bs } bs fresh).map
      fun (_, o) => { o with pos := 0 }

/-- The operations on an open object, a write with what new memory holds. -/
inductive FileOp (w : ℕ)
  | read (size : ℕ)
  | write (bs : List UInt8) (hlen : bs.length < 2 ^ w) (fresh : ℕ → UInt8)
  | seek (whence : BitVec 32) (offset : BitVec w)

/-- The result of an operation -/
inductive FileResult
  | bytes (bs : List UInt8)
  | num (r : Except FileErrno ℕ)

/-- One operation. `mp_stream_rw` does not call `stringio_write` for no bytes. -/
def stringioOp {w : ℕ} (o : Stringio) : FileOp w → Option (Stringio × FileResult)
  | .read size => some ((stringioRead o size).2, .bytes (stringioRead o size).1)
  | .write [] _ _ => some (o, .num (.ok 0))
  | .write (b :: bs) _ fresh =>
    (stringioWrite w o (b :: bs) fresh).map fun (r, o) => (o, .num r)
  | .seek whence offset =>
    some ((stringioSeek o whence offset).2, .num (stringioSeek o whence offset).1)

/-! ### Files -/

/-- A file: bytes and a position -/
structure File where
  content : List UInt8
  pos : ℕ

/-- Bytes that are written at the position replace those that are there or come after the end; a
hole before them is filled with zeros. -/
def File.write (f : File) (bs : List UInt8) : File where
  content := f.content.take f.pos ++ List.replicate (f.pos - f.content.length) 0 ++ bs ++
    f.content.drop (f.pos + bs.length)
  pos := f.pos + bs.length

/-- The place that a seek asks for -/
def File.target {w : ℕ} (f : File) (whence : BitVec 32) (offset : BitVec w) : ℤ :=
  (if whence = 1 then f.pos else if whence = 2 then f.content.length else 0) + offset.toInt

/-- An operation on a file with positions of `w` bits -/
def File.op {w : ℕ} (f : File) : FileOp w → File × FileResult
  | .read size =>
    let bs := (f.content.drop f.pos).take size
    ({ f with pos := f.pos + bs.length }, .bytes bs)
  | .write bs _ _ =>
    if bs = [] then (f, .num (.ok 0))
    else if f.pos + bs.length < 2 ^ w then (f.write bs, .num (.ok bs.length))
    else (f, .num (.error .efbig))
  | .seek whence offset =>
    if whence = 0 ∧ offset.toInt < 0 then (f, .num (.error .einval))
    else if 2 ^ w ≤ f.target whence offset then (f, .num (.error .einval))
    else ({ f with pos := (f.target whence offset).toNat },
      .num (.ok (f.target whence offset).toNat))

/-- The operations one after the other, with their results -/
def File.run {w : ℕ} : File → List (FileOp w) → File × List FileResult
  | f, [] => (f, [])
  | f, op :: ops => let (f', rs) := File.run (f.op op).1 ops; (f', (f.op op).2 :: rs)

/-- The file of an object -/
def Stringio.file (o : Stringio) : File := ⟨o.mem.take o.len, o.pos⟩

/-- The file that the constructor makes -/
def StringioArgs.file : StringioArgs → File
  | .none => ⟨[], 0⟩
  | .size _ => ⟨[], 0⟩
  | .str bs => ⟨bs, 0⟩
  | .buffer bs => ⟨bs, 0⟩

/-- The size that can be rounded up: below `2 ^ 32` by 16 bytes, or by 24 with words of 32 bits -/
def growLimit (w : ℕ) : ℕ := if w = 32 then 2 ^ 32 - 24 else 2 ^ 32 - 16

/-- A write that has to allocate does not end near `2 ^ 32` or above it. -/
def Stringio.Fits {w : ℕ} (o : Stringio) : FileOp w → Prop
  | .write bs _ _ =>
    bs ≠ [] → o.pos + bs.length < 2 ^ w → o.alloc < o.pos + bs.length →
      o.pos + bs.length < growLimit w
  | _ => True

/-- Sizes are words. -/
def StringioArgs.Words (w : ℕ) : StringioArgs → Prop
  | .none => True
  | .size sz => sz < 2 ^ w
  | .str bs => bs.length < 2 ^ w
  | .buffer bs => bs.length < 2 ^ w

/-- The bytes of the object that was passed to the constructor -/
def StringioArgs.original : StringioArgs → List UInt8
  | .str bs => bs
  | .buffer bs => bs
  | _ => []

/-- The memory is as large as the object believes, and words are words. -/
structure Stringio.Inv (w : ℕ) (o : Stringio) : Prop where
  len_le : o.len ≤ o.alloc
  alloc_lt : o.alloc < 2 ^ w
  pos_lt : o.pos < 2 ^ w
  mem_length : o.mem.length = o.alloc
  fixed_len : o.buf = .fixed → o.len = o.alloc

/-! ### Memory -/

variable {w : ℕ}

/-- **When the rounded size is large enough.** -/
theorem roundAlloc_spec {newPos : ℕ} (hw : 32 ≤ w) (h : newPos < 2 ^ w) :
    newPos ≤ roundAlloc w ((newPos + 16) % 2 ^ w) ↔ newPos < growLimit w := by
  have hmask : ∀ a, a &&& (2 ^ 32 - 8) = a / 8 * 8 % 2 ^ 32 := fun a =>
    @TwosComplement.and_two_pow_sub_two_pow 32 3 (by decide) a
  rw [roundAlloc, hmask, growLimit]
  by_cases h32 : w = 32
  · subst h32
    rw [if_pos rfl]
    omega
  · have hbig : 2 ^ 33 ≤ 2 ^ w := Nat.pow_le_pow_right (by decide) (by omega)
    rw [if_neg h32]
    generalize 2 ^ w = size at h hbig
    -- the sum does not wrap around, or it is small
    have hsum : (newPos + 16) % size = newPos + 16 ∨
        size ≤ newPos + 16 ∧ (newPos + 16) % size < 16 := by
      by_cases hlt : newPos + 16 < size
      · exact .inl (Nat.mod_eq_of_lt hlt)
      · rw [Nat.mod_eq_sub_mod (by omega), Nat.mod_eq_of_lt (by omega)]
        omega
    rw [Nat.mod_eq_of_lt (by omega)]
    generalize (newPos + 16) % size = a at hsum
    omega

theorem roundAlloc_lt (w a : ℕ) : roundAlloc w a < 2 ^ w := Nat.mod_lt _ (Nat.two_pow_pos w)

theorem length_renew (block : List UInt8) (newAlloc : ℕ) (fresh : ℕ → UInt8) :
    (renew block newAlloc fresh).length = newAlloc := by
  simp only [renew, List.length_append, List.length_take, List.length_map, List.length_range]
  omega

variable {block : List UInt8}

theorem take_renew {newAlloc n : ℕ} (fresh : ℕ → UInt8)
    (hn : n ≤ newAlloc) (hblock : n ≤ block.length) :
    (renew block newAlloc fresh).take n = block.take n := by
  rw [renew, List.take_append_of_le_length (by rw [List.length_take]; omega), List.take_take,
    Nat.min_eq_left hn]

/-- **A write into the memory of a file**: the hole before it is cleared, and the file ends where
the write ends or where it did. -/
theorem take_splice_hole {mem content bs : List UInt8} {pos : ℕ}
    (hcontent : mem.take content.length = content) (hfit : pos + bs.length ≤ mem.length) :
    (splice
        (if content.length < pos then
          splice mem content.length (List.replicate (pos - content.length) 0)
        else mem) pos bs).take (max (pos + bs.length) content.length) =
      content.take pos ++ List.replicate (pos - content.length) 0 ++ bs ++
        content.drop (pos + bs.length) := by
  split_ifs with hhole
  · -- the file ends before the position
    have hzeros : (splice mem content.length (List.replicate (pos - content.length) 0)).take pos =
        content ++ List.replicate (pos - content.length) 0 := by
      have htake := @take_splice _ mem (List.replicate (pos - content.length) 0) content.length
        (by omega)
      rwa [List.length_replicate, Nat.add_sub_cancel' hhole.le, hcontent] at htake
    have hlen : (splice mem content.length (List.replicate (pos - content.length) 0)).length =
        mem.length := length_splice (by rw [List.length_replicate]; omega)
    rw [Nat.max_eq_left (by omega), take_splice (by omega), hzeros,
      List.take_of_length_le hhole.le, List.drop_of_length_le (by omega), List.append_nil]
  · have hzero : pos - content.length = 0 := by omega
    have hfirst : mem.take pos = content.take pos := by
      rw [← hcontent, List.take_take, Nat.min_eq_left (by omega)]
    rw [hzero, List.replicate_zero, List.append_nil, ← hfirst]
    by_cases hend : content.length ≤ pos + bs.length
    · rw [Nat.max_eq_left hend, take_splice (by omega), List.drop_of_length_le hend,
        List.append_nil]
    · have hlen : (mem.take pos ++ bs).length = pos + bs.length := by
        rw [List.length_append, List.length_take, Nat.min_eq_left (by omega)]
      rw [Nat.max_eq_right (by omega), splice, List.take_append, hlen,
        List.take_of_length_le (by omega), ← List.drop_take, hcontent]

/-! ### Writing -/

variable {o : Stringio}

/-- The object before a write has memory of its own, and is the same file. -/
theorem ownMemory_spec (h : o.Inv w) :
    ∃ block, (if o.buf = .fixed then stringioCopyOnWrite o else o) =
        { o with buf := .own block } ∧ block.length = o.alloc ∧
      block.take o.len = o.file.content := by
  split_ifs with hfixed
  · have hlen : o.mem.length ≤ o.len := by rw [h.mem_length, h.fixed_len hfixed]
    refine ⟨o.mem.take o.len, rfl, ?_, ?_⟩
    · rw [List.take_of_length_le hlen, h.mem_length]
    · rw [List.take_take, Nat.min_self]
      rfl
  · cases hbuf : o.buf with
    | fixed => exact absurd hbuf hfixed
    | own block =>
      have hmem : o.mem = block := by rw [Stringio.mem, hbuf]
      refine ⟨block, ?_, by rw [← hmem, h.mem_length], by rw [← hmem]; rfl⟩
      rw [← hbuf]

/-- The memory of a write that ends at `newPos`: it stays, or it is allocated anew. -/
theorem grown_spec {w : ℕ} {o : Stringio} {block : List UInt8} {newPos : ℕ} (hw : 32 ≤ w)
    (hbuf : o.buf = .own block) (hblock : block.length = o.alloc) (hlen : o.len ≤ o.alloc)
    (halloc : o.alloc < 2 ^ w) (hnew : newPos < 2 ^ w) (fresh : ℕ → UInt8) :
    ∃ block' len', (if o.alloc < newPos then
          vstrAddLen w { o with len := o.alloc } (newPos - o.alloc) fresh else o) =
        { o with buf := .own block', alloc := block'.length, len := len' } ∧
      block'.length < 2 ^ w ∧ (newPos ≤ block'.length ↔ o.alloc < newPos → newPos < growLimit w) ∧
      (newPos ≤ block'.length → block'.take o.len = block.take o.len ∧
        (if len' < newPos then newPos else len') = max newPos o.len) := by
  by_cases hgrow : o.alloc < newPos
  · have hsum : o.alloc + (newPos - o.alloc) = newPos := by omega
    have hmem : ({ o with len := o.alloc } : Stringio).mem = block := by rw [Stringio.mem, hbuf]
    have hsize := @length_renew block (roundAlloc w ((newPos + 16) % 2 ^ w)) fresh
    refine ⟨renew block (roundAlloc w ((newPos + 16) % 2 ^ w)) fresh, newPos, ?_, ?_, ?_, ?_⟩
    · rw [if_pos hgrow, vstrAddLen, hmem]
      dsimp only
      rw [hsum, Nat.mod_eq_of_lt hnew, if_pos hgrow, hsize]
      dsimp only
      rw [hsum, Nat.mod_eq_of_lt hnew]
    · rw [hsize]
      exact roundAlloc_lt _ _
    · rw [hsize, roundAlloc_spec hw hnew]
      exact (imp_iff_right hgrow).symm
    · intro hle
      rw [hsize] at hle
      refine ⟨take_renew fresh (by omega) (by omega), ?_⟩
      rw [if_neg (Nat.lt_irrefl _), Nat.max_eq_left (by omega)]
  · refine ⟨block, o.len, ?_, hblock ▸ halloc, ?_, fun _ => ⟨rfl, ?_⟩⟩
    · rw [if_neg hgrow, hblock, ← hbuf]
    · exact iff_of_true (by omega) fun h => absurd h hgrow
    · split_ifs <;> omega

/-- Clearing the hole and copying the bytes: both stay inside of the memory if the write does. -/
theorem memset_memcpy {β : Type} (hbuf : o.buf = .own block)
    (orgLen : ℕ) (bs : List UInt8) (g : Stringio → β) :
    (if orgLen < o.pos then o.memset orgLen (o.pos - orgLen) else some o).bind
        (fun o => (o.memcpy o.pos bs).map g) =
      (if o.pos + bs.length ≤ block.length then
        some { o with buf := .own (splice
          (if orgLen < o.pos then splice block orgLen (List.replicate (o.pos - orgLen) 0)
            else block) o.pos bs) }
      else none).map g := by
  obtain ⟨original, buf, alloc, len, pos⟩ := o
  dsimp only at hbuf ⊢
  subst hbuf
  by_cases hhole : orgLen < pos
  · have hlen : pos ≤ block.length →
        (splice block orgLen (List.replicate (pos - orgLen) 0)).length = block.length :=
      fun hle => length_splice (by rw [List.length_replicate]; omega)
    rw [if_pos hhole, if_pos hhole, Stringio.memset]
    by_cases hle : pos ≤ block.length
    · rw [if_pos (by dsimp only [Stringio.mem]; omega), Option.bind_some, Stringio.memcpy]
      simp only [Stringio.mem, Stringio.setMem, hlen hle]
    · rw [if_neg (by dsimp only [Stringio.mem]; omega), if_neg (by omega)]
      rfl
  · rw [if_neg hhole, if_neg hhole, Option.bind_some]
    rfl

/-- **What a write does**: it writes the file, or reports that the position overflows; and it stays
inside of the memory if and only if it fits. -/
theorem stringioWrite_spec (hw : 32 ≤ w) (h : o.Inv w) {bs : List UInt8}
    (hbs : bs.length < 2 ^ w) (fresh : ℕ → UInt8) :
    ((stringioWrite w o bs fresh).isSome ↔ (o.pos + bs.length < 2 ^ w →
        o.alloc < o.pos + bs.length → o.pos + bs.length < growLimit w)) ∧
    ∀ r o', stringioWrite w o bs fresh = some (r, o') →
      o'.Inv w ∧ o'.original = o.original ∧
      (if o.pos + bs.length < 2 ^ w then (o.file.write bs, .ok bs.length)
        else (o.file, .error FileErrno.efbig)) = (o'.file, r) := by
  obtain ⟨block, hown, hblock, hcontent⟩ := ownMemory_spec h
  have hpos := h.pos_lt
  rw [stringioWrite, hown]
  dsimp only
  by_cases hover : o.pos + bs.length < 2 ^ w
  · have hnew : (o.pos + bs.length) % 2 ^ w = o.pos + bs.length := Nat.mod_eq_of_lt hover
    obtain ⟨block', len', hgrown, hlt, hfits, hgood⟩ :=
      @grown_spec w { o with buf := .own block } block (o.pos + bs.length) hw rfl hblock h.len_le
        h.alloc_lt hover fresh
    dsimp only at hgrown hfits hgood
    have hlen : o.file.content.length = o.len := by
      rw [Stringio.file, List.length_take, h.mem_length, Nat.min_eq_left h.len_le]
    rw [hnew, if_neg (by omega), hgrown, memset_memcpy rfl, imp_iff_right hover, ← hfits]
    dsimp only
    by_cases hle : o.pos + bs.length ≤ block'.length
    · obtain ⟨hsame, hmax⟩ := hgood hle
      rw [if_pos hle]
      refine ⟨iff_of_true rfl hle, ?_⟩
      rintro r o' heq
      obtain ⟨rfl, rfl⟩ := Prod.mk.inj (Option.some.inj heq)
      rw [hcontent] at hsame
      have hlen' : o.len ≤ block'.length := by
        rw [← hlen, ← hsame, List.length_take]
        exact Nat.min_le_right _ _
      have hclear : (if o.len < o.pos then
          splice block' o.len (List.replicate (o.pos - o.len) 0) else block').length =
            block'.length := by
        split_ifs with hhole
        · exact length_splice (by rw [List.length_replicate]; omega)
        · rfl
      have hwritten := @take_splice_hole block' o.file.content bs o.pos (by rw [hlen, hsame]) hle
      rw [hlen] at hwritten
      refine ⟨⟨?_, hlt, hover, ?_, fun hfixed => nomatch hfixed⟩, rfl, ?_⟩
      · rw [hmax]
        exact Nat.max_le.mpr ⟨hle, hlen'⟩
      · exact (length_splice (by rw [hclear]; exact hle)).trans hclear
      · rw [if_pos hover, hmax, File.write, hlen]
        exact congrArg (fun c => (File.mk c (o.pos + bs.length), _)) hwritten.symm
    · rw [if_neg hle]
      exact ⟨iff_of_false Bool.false_ne_true hle, fun r o' heq => nomatch heq⟩
  · have hnew : (o.pos + bs.length) % 2 ^ w = o.pos + bs.length - 2 ^ w := by
      rw [Nat.mod_eq_sub_mod (by omega), Nat.mod_eq_of_lt (by omega)]
    rw [hnew, if_pos (by omega)]
    refine ⟨iff_of_true rfl fun hlt => absurd hlt hover, ?_⟩
    rintro r o' heq
    obtain ⟨rfl, rfl⟩ := Prod.mk.inj (Option.some.inj heq)
    refine ⟨⟨h.len_le, h.alloc_lt, h.pos_lt, hblock, fun hfixed => nomatch hfixed⟩, rfl, ?_⟩
    rw [if_neg hover, Stringio.file]
    exact congrArg (fun c => (File.mk c o.pos, _)) hcontent.symm

/-! ### Reading and seeking -/

theorem Stringio.Inv.length_content (h : o.Inv w) : o.file.content.length = o.len := by
  rw [Stringio.file, List.length_take, h.mem_length, Nat.min_eq_left h.len_le]

/-- **What a read does.** -/
theorem stringioRead_spec (h : o.Inv w) (size : ℕ) :
    (stringioRead o size).2.Inv w ∧ (stringioRead o size).2.original = o.original ∧
      o.file.op (.read size : FileOp w) =
        ((stringioRead o size).2.file, .bytes (stringioRead o size).1) := by
  have hcontent : o.file.content.drop o.pos = (o.mem.drop o.pos).take (o.len - o.pos) :=
    List.drop_take
  rw [stringioRead]
  by_cases hend : o.len ≤ o.pos
  · rw [if_pos hend]
    refine ⟨h, rfl, ?_⟩
    have hnil : (o.file.content.drop o.pos).take size = [] := by
      rw [hcontent, Nat.sub_eq_zero_of_le hend, List.take_zero, List.take_nil]
    exact congrArg (fun bs => (File.mk o.file.content (o.pos + bs.length), FileResult.bytes bs))
      hnil
  · have hlen := h.len_le
    have halloc := h.alloc_lt
    have hmem := h.mem_length
    have hsize : (if o.len - o.pos < size then o.len - o.pos else size) =
        min size (o.len - o.pos) := by
      split_ifs <;> omega
    have htake : (o.file.content.drop o.pos).take size =
        (o.mem.drop o.pos).take (min size (o.len - o.pos)) := by
      rw [hcontent, List.take_take]
    have hcount : ((o.file.content.drop o.pos).take size).length = min size (o.len - o.pos) := by
      rw [htake, List.length_take, List.length_drop]
      omega
    rw [if_neg hend]
    dsimp only
    rw [hsize]
    refine ⟨⟨h.len_le, h.alloc_lt, ?_, h.mem_length, h.fixed_len⟩, rfl, ?_⟩
    · dsimp only
      omega
    · have hop : o.file.op (.read size : FileOp w) =
          (⟨o.file.content, o.pos + ((o.file.content.drop o.pos).take size).length⟩,
            .bytes ((o.file.content.drop o.pos).take size)) := rfl
      rw [hop, hcount, htake]
      rfl

variable {ref : ℕ}

theorem add_word_mod (hlt : ref < 2 ^ w) (offset : BitVec w) : (ref + offset.toNat) % 2 ^ w =
      if ref + offset.toNat < 2 ^ w then ref + offset.toNat else ref + offset.toNat - 2 ^ w := by
  have hword := offset.isLt
  split_ifs with hsum
  · exact Nat.mod_eq_of_lt hsum
  · rw [Nat.mod_eq_sub_mod (by omega), Nat.mod_eq_of_lt (by omega)]

variable {offset : BitVec w}

/-- The place of a seek is a sum of words. Backwards it wraps around unless the place is before the
start; forwards it is too small if it wraps around. -/
theorem seek_sum (hlt : ref < 2 ^ w) :
    (offset.toInt < 0 →
      (if ref < (ref + offset.toNat) % 2 ^ w then 0 else (ref + offset.toNat) % 2 ^ w) =
          (ref + offset.toInt).toNat ∧
        (ref + offset.toInt).toNat < 2 ^ w ∧ ¬(2 : ℤ) ^ w ≤ ref + offset.toInt) ∧
    (¬offset.toInt < 0 →
      ((ref + offset.toNat) % 2 ^ w < ref ↔ (2 : ℤ) ^ w ≤ ref + offset.toInt) ∧
        (¬(2 : ℤ) ^ w ≤ ref + offset.toInt →
          (ref + offset.toNat) % 2 ^ w = (ref + offset.toInt).toNat ∧
            (ref + offset.toInt).toNat < 2 ^ w)) := by
  have hword := offset.isLt
  have hint := BitVec.toInt_eq_toNat_cond offset
  have hcast : ((2 ^ w : ℕ) : ℤ) = 2 ^ w := Nat.cast_pow 2 w
  rw [add_word_mod hlt]
  split_ifs at hint ⊢ <;> omega

/-- **What a seek does**: positions are computed in words, and the file is asked for the same
place. -/
theorem stringioSeek_spec (h : o.Inv w) (whence : BitVec 32) (offset : BitVec w) :
    (stringioSeek o whence offset).2.Inv w ∧
      (stringioSeek o whence offset).2.original = o.original ∧
      o.file.op (.seek whence offset) =
        ((stringioSeek o whence offset).2.file, .num (stringioSeek o whence offset).1) := by
  have hpos := h.pos_lt
  have hlen := h.len_le
  have halloc := h.alloc_lt
  rw [stringioSeek, File.op]
  by_cases hset : whence = 0 ∧ offset.toInt < 0
  · rw [if_pos hset, if_pos hset]
    exact ⟨h, rfl, rfl⟩
  rw [if_neg hset, if_neg hset]
  -- the place from which the offset counts
  obtain ⟨ref, href, hlt, htarget⟩ : ∃ ref : ℕ,
      (if whence = 1 then o.pos else if whence = 2 then o.len else 0) = ref ∧ ref < 2 ^ w ∧
        o.file.target whence offset = ref + offset.toInt := by
    refine ⟨_, rfl, ?_, ?_⟩
    · split_ifs <;> omega
    · rw [File.target, h.length_content]
      split_ifs <;> rfl
  have hnext : ∀ pos, pos < 2 ^ w → ({ o with pos := pos } : Stringio).Inv w := fun pos hpos =>
    ⟨h.len_le, h.alloc_lt, hpos, h.mem_length, h.fixed_len⟩
  rw [href, htarget]
  dsimp only
  by_cases hneg : offset.toInt < 0
  · obtain ⟨hnew, hword, hinside⟩ := (seek_sum hlt).1 hneg
    rw [if_pos ⟨fun h0 => hset ⟨h0, hneg⟩, hneg⟩, hnew, if_neg hinside]
    exact ⟨hnext _ hword, rfl, rfl⟩
  · obtain ⟨hover, hnew⟩ := (seek_sum hlt).2 hneg
    rw [if_neg fun hc => hneg hc.2]
    by_cases hlarge : (2 : ℤ) ^ w ≤ ref + offset.toInt
    · rw [if_pos (hover.mpr hlarge), if_pos hlarge]
      exact ⟨h, rfl, rfl⟩
    · rw [if_neg fun hc => hlarge (hover.mp hc), if_neg hlarge, (hnew hlarge).1]
      exact ⟨hnext _ (hnew hlarge).2, rfl, rfl⟩

/-! ### Runs -/

/-- **One operation**: it has a result if and only if it fits, and then it is the one of the
file. -/
theorem stringioOp_spec (hw : 32 ≤ w) (h : o.Inv w) (op : FileOp w) :
    ((stringioOp o op).isSome ↔ o.Fits op) ∧
      ∀ o' r, stringioOp o op = some (o', r) →
        o'.Inv w ∧ o'.original = o.original ∧ o.file.op op = (o'.file, r) := by
  cases op with
  | read size =>
    refine ⟨iff_of_true rfl trivial, ?_⟩
    rintro o' r heq
    obtain ⟨rfl, rfl⟩ := Prod.mk.inj (Option.some.inj heq)
    exact stringioRead_spec h size
  | seek whence offset =>
    refine ⟨iff_of_true rfl trivial, ?_⟩
    rintro o' r heq
    obtain ⟨rfl, rfl⟩ := Prod.mk.inj (Option.some.inj heq)
    exact stringioSeek_spec h whence offset
  | write bs hbs fresh =>
    cases bs with
    | nil =>
      refine ⟨iff_of_true rfl fun hne => absurd rfl hne, ?_⟩
      rintro o' r heq
      obtain ⟨rfl, rfl⟩ := Prod.mk.inj (Option.some.inj heq)
      exact ⟨h, rfl, rfl⟩
    | cons b bs =>
      obtain ⟨hfits, hspec⟩ := stringioWrite_spec hw h hbs fresh
      rw [stringioOp, Option.isSome_map, hfits, Stringio.Fits,
        imp_iff_right (List.cons_ne_nil b bs)]
      refine ⟨Iff.rfl, ?_⟩
      rintro o' r heq
      obtain ⟨⟨r₁, o₁⟩, hwrite, heq⟩ := Option.map_eq_some_iff.mp heq
      obtain ⟨rfl, rfl⟩ := Prod.mk.inj heq
      obtain ⟨hinv, horiginal, hfile⟩ := hspec r₁ o₁ hwrite
      refine ⟨hinv, horiginal, ?_⟩
      rw [File.op, if_neg (List.cons_ne_nil b bs)]
      have hpos : o.file.pos = o.pos := rfl
      rw [hpos]
      split_ifs at hfile ⊢ with hover
      · obtain ⟨hwritten, rfl⟩ := Prod.mk.inj hfile
        rw [hwritten]
      · obtain ⟨hsame, rfl⟩ := Prod.mk.inj hfile
        rw [hsame]

theorem stringio_run (hw : 32 ≤ w) (h : o.Inv w) {ops : List (FileOp w)}
    {o' : Stringio} {rs : List FileResult} (hrun : Machine.run stringioOp o ops = some (o', rs)) :
    o'.original = o.original ∧ o.file.run ops = (o'.file, rs) := by
  induction ops generalizing o rs with
  | nil =>
    obtain ⟨rfl, rfl⟩ : o = o' ∧ [] = rs := by simpa [Machine.run] using hrun
    exact ⟨rfl, rfl⟩
  | cons op ops ih =>
    obtain ⟨o₁, r, rs₁, hop, hrest, rfl⟩ := Machine.run_cons_eq_some.mp hrun
    obtain ⟨hinv, horiginal, hfile⟩ := (stringioOp_spec hw h op).2 o₁ r hop
    obtain ⟨horiginal', hfile'⟩ := ih hinv hrest
    refine ⟨horiginal'.trans horiginal, ?_⟩
    rw [File.run, hfile, hfile']

theorem stringioNew_inv {sz : ℕ} (hw : 32 ≤ w) (hsz : sz < 2 ^ w) (fresh : ℕ → UInt8)
    (original : List UInt8) :
    ({ stringioNew sz fresh with original := original } : Stringio).Inv w := by
  have hpow : 2 ^ 32 ≤ 2 ^ w := Nat.pow_le_pow_right (by decide) hw
  refine ⟨Nat.zero_le _, ?_, Nat.two_pow_pos w, ?_, fun hfixed => nomatch hfixed⟩
  · dsimp only [stringioNew]
    omega
  · dsimp only [Stringio.mem, stringioNew]
    rw [List.length_map, List.length_range]

/-- The constructor makes the file of its argument. -/
theorem stringioMakeNew_spec (hw : 32 ≤ w) (fresh : ℕ → UInt8) {args : StringioArgs}
    (hargs : args.Words w) :
    ∃ o, stringioMakeNew w fresh args = some o ∧ o.Inv w ∧ o.file = args.file ∧
      o.original = args.original := by
  have hpow : 2 ^ 32 ≤ 2 ^ w := Nat.pow_le_pow_right (by decide) hw
  cases args with
  | none => exact ⟨_, rfl, stringioNew_inv hw (by omega) fresh [], rfl, rfl⟩
  | size sz => exact ⟨_, rfl, stringioNew_inv hw hargs fresh [], rfl, rfl⟩
  | str bs =>
    refine ⟨_, rfl, ⟨Nat.le_refl _, hargs, Nat.two_pow_pos w, rfl, fun _ => rfl⟩, ?_, rfl⟩
    rw [Stringio.file, StringioArgs.file]
    exact congrArg (fun c => File.mk c 0) (List.take_length)
  | buffer bs =>
    have hnew := stringioNew_inv hw hargs fresh bs
    obtain ⟨hfits, hspec⟩ := stringioWrite_spec hw hnew hargs fresh
    have hroom : ¬max bs.length 1 < 0 + bs.length := by omega
    obtain ⟨⟨r, o⟩, hwrite⟩ := Option.isSome_iff_exists.mp
      (hfits.mpr fun _ hgrow => absurd hgrow hroom)
    obtain ⟨hinv, horiginal, hfile⟩ := hspec r o hwrite
    rw [if_pos
      (by rwa [show (stringioNew bs.length fresh).pos = 0 from rfl, Nat.zero_add])] at hfile
    have hcontent : bs = o.file.content := by
      have := congrArg (fun p => p.1.content) hfile
      simpa [File.write, Stringio.file, stringioNew] using this
    refine ⟨{ o with pos := 0 }, ?_, ?_, ?_, horiginal⟩
    · rw [stringioMakeNew, hwrite]
      rfl
    · exact ⟨hinv.len_le, hinv.alloc_lt, Nat.two_pow_pos w, hinv.mem_length, hinv.fixed_len⟩
    · exact congrArg (fun c => File.mk c 0) hcontent.symm

/-- **In-memory files.** A new object holds the bytes it was made from. Every sequence of reads,
writes and seeks on it has the results of the same operations on a file, and leaves the object it
was made from alone, if and only if no write has to allocate up to a place near `2 ^ 32` or above
it; the state before a write tells whether it has to. -/
theorem stringio_file_iff {w : ℕ} (hw : 32 ≤ w) (fresh : ℕ → UInt8) (args : StringioArgs)
    (hargs : args.Words w) (ops : List (FileOp w)) :
    ∃ o, stringioMakeNew w fresh args = some o ∧
      ((∃ o' rs, Machine.run stringioOp o ops = some (o', rs) ∧
          args.file.run ops = (o'.file, rs) ∧ o'.original = args.original) ↔
        ∀ ops₁ op ops₂ o₁ rs, ops = ops₁ ++ op :: ops₂ →
          Machine.run stringioOp o ops₁ = some (o₁, rs) → o₁.Fits op) := by
  obtain ⟨o, hmake, hinv, hfile, horiginal⟩ := stringioMakeNew_spec hw fresh hargs
  refine ⟨o, hmake, ?_⟩
  rw [← Machine.exists_run_iff (Stringio.Inv w) Stringio.Fits
    (fun o op h => (stringioOp_spec hw h op).1)
    (fun o op o' r h heq => ((stringioOp_spec hw h op).2 o' r heq).1) hinv ops, ← hfile,
    ← horiginal]
  constructor
  · rintro ⟨o', rs, hrun, -⟩
    exact ⟨o', rs, hrun⟩
  · rintro ⟨o', rs, hrun⟩
    obtain ⟨hsame, hrun'⟩ := stringio_run hw hinv hrun
    exact ⟨o', rs, hrun, hrun', hsame⟩

/-- A byte is written after a hole, and all is read. -/
def writeAfterHole : List (FileOp 64) :=
  [.seek 0 5, .write [9] (by decide) fun _ => 255, .seek 0 0, .read 10]

/-- The hole is filled with zeros, and the string stays. -/
theorem stringio_file_iff_hole :
    ∃ o o' rs, stringioMakeNew 64 (fun _ => 255) (.str [1, 2, 3]) = some o ∧
      Machine.run stringioOp o writeAfterHole = some (o', rs) ∧
      (StringioArgs.str [1, 2, 3]).file.run writeAfterHole = (o'.file, rs) ∧
      o'.file.content = [1, 2, 3, 0, 0, 9] ∧ o'.original = [1, 2, 3] := by
  obtain ⟨o, hmake, hiff⟩ := stringio_file_iff (w := 64) (by decide) (fun _ => 255) (.str [1, 2, 3])
    (by decide : [1, 2, 3].length < 2 ^ 64) writeAfterHole
  obtain rfl := Option.some.inj hmake
  obtain ⟨o', rs, hrun, hfile, horiginal⟩ := hiff.mpr (by
    rintro ops₁ op ops₂ o₁ rs heq hrun
    rcases ops₁ with _ | ⟨op₁, _ | ⟨op₂, _ | ⟨op₃, _ | ⟨op₄, ops₁⟩⟩⟩⟩ <;>
      simp only [writeAfterHole, List.nil_append, List.cons_append, List.cons.injEq] at heq
    · obtain ⟨rfl, -⟩ := heq
      trivial
    · obtain ⟨rfl, rfl, -⟩ := heq
      obtain ⟨rfl, -⟩ := Prod.mk.inj (Option.some.inj hrun)
      exact fun _ _ _ => by decide
    · obtain ⟨-, -, rfl, -⟩ := heq
      trivial
    · obtain ⟨-, -, -, rfl, -⟩ := heq
      trivial
    · simp at heq)
  refine ⟨_, o', rs, rfl, hrun, hfile, ?_, horiginal⟩
  have hend : (StringioArgs.str [1, 2, 3]).file.run writeAfterHole =
      (⟨[1, 2, 3, 0, 0, 9], 6⟩, [.num (.ok 5), .num (.ok 1), .num (.ok 0),
        .bytes [1, 2, 3, 0, 0, 9]]) := rfl
  rw [hend] at hfile
  rw [← (Prod.mk.inj hfile).1]

/-- A byte is written just below `2 ^ 32`. -/
def writeNearLimit : List (FileOp 64) :=
  [.seek 0 (2 ^ 32 - 8), .write [1] (by decide) fun _ => 0]

/-- A file takes the byte; the object writes outside of the memory that it allocates, which has 16
bytes. -/
theorem stringio_write_overruns :
    (File.run ⟨[], 0⟩ writeNearLimit).2 = [.num (.ok (2 ^ 32 - 8)), .num (.ok 1)] ∧
      roundAlloc 64 (2 ^ 32 - 7 + 16) = 16 ∧
      Machine.run stringioOp (stringioNew 16 fun _ => 0) writeNearLimit = none := by
  refine ⟨rfl, by decide, ?_⟩
  decide +kernel

end Pycopy
