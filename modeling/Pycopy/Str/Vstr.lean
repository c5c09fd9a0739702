import Pycopy.Lib.Stream
import Pycopy.Str.Unichar
import Mathlib.Algebra.Order.Group.Nat

/-!
# Strings that Grow

A `vstr_t` of `py/vstr.c` is a buffer with a length, and with the size of the buffer as it was asked
for. The buffer grows before bytes are added, and the size that is asked for is rounded up. This is
done with a mask of 32 bits, while a size has 64: for more than four gigabytes the result is too
small. Also, the end of what is cut out is computed without a check for a carry.

## Main results

* `vstr_run_iff`: when a string is the list of its bytes, whatever was done with it before.
-/

namespace Pycopy

/-! ### Definitions -/

/-- `vstr_t` with a buffer of its own. The list `buf` is all of the buffer that there is. -/
structure Vstr where
  buf : List UInt8
  alloc : ℕ
  len : ℕ
  deriving DecidableEq, Repr

/-- A read or a write outside the buffer -/
inductive VstrFault
  | outOfBounds
  deriving DecidableEq, Repr

/-- A `size_t` of 64 bits -/
def sizeT (n : ℕ) : ℕ := n % 2 ^ 64

/-- `ROUND_ALLOC`; the mask is an `unsigned int`. -/
def roundAlloc (w a : ℕ) : ℕ := ((a &&& (2 ^ 32 - 8)) + 8) % 2 ^ w

/-- Bytes are stored in the buffer. -/
def storeBytes (buf : List UInt8) (pos : ℕ) (bs : List UInt8) : Except VstrFault (List UInt8) :=
  if pos + bs.length ≤ buf.length then .ok (Stream.splice buf pos bs) else .error .outOfBounds

/-- `memmove` inside the buffer -/
def moveBytes (buf : List UInt8) (dst src n : ℕ) : Except VstrFault (List UInt8) :=
  if src + n ≤ buf.length then storeBytes buf dst ((buf.drop src).take n) else .error .outOfBounds

/-- `m_renew`, which succeeds. What is new in the buffer is anything. -/
def Vstr.renew (junk : UInt8) (vstr : Vstr) (alloc : ℕ) : Vstr :=
  { vstr with
    buf := vstr.buf.take alloc ++ List.replicate (alloc - vstr.buf.length) junk
    alloc := alloc }

variable (junk : UInt8) (vstr : Vstr)

/-- `vstr_init` -/
def vstrInit (alloc : ℕ) : Vstr :=
  let alloc := if alloc < 1 then 1 else alloc
  { buf := List.replicate alloc junk, alloc := alloc, len := 0 }

/-- `vstr_extend` -/
def vstrExtend (size : ℕ) : Vstr := vstr.renew junk (sizeT (vstr.alloc + size))

/-- `vstr_ensure_extra` -/
def vstrEnsureExtra (size : ℕ) : Vstr :=
  if vstr.alloc < sizeT (vstr.len + size) then
    vstr.renew junk (roundAlloc 64 (sizeT (vstr.len + size + 16)))
  else vstr

/-- `vstr_hint_size` -/
def vstrHintSize (size : ℕ) : Vstr := vstrEnsureExtra junk vstr size

/-- `vstr_add_strn`. The functions that add a byte or a character make room with `vstr_add_len` and
store in it, with the same effect. -/
def vstrAddStrn (str : List UInt8) : Except VstrFault Vstr := do
  let vstr := vstrEnsureExtra junk vstr str.length
  let buf ← storeBytes vstr.buf vstr.len str
  return { vstr with buf := buf, len := sizeT (vstr.len + str.length) }

/-- `vstr_add_byte` -/
def vstrAddByte (b : UInt8) : Except VstrFault Vstr := vstrAddStrn junk vstr [b]

/-- `vstr_ins_byte`, with `vstr_ins_blank_bytes` for one byte -/
def vstrInsByte (bytePos : ℕ) (b : UInt8) : Except VstrFault Vstr := do
  let l := vstr.len
  let bytePos := if l < bytePos then l else bytePos
  let vstr := vstrEnsureExtra junk vstr 1
  let buf ← moveBytes vstr.buf (bytePos + 1) bytePos (l - bytePos)
  let buf ← storeBytes buf bytePos [b]
  return { vstr with buf := buf, len := sizeT (vstr.len + 1) }

/-- `vstr_null_terminated_str` -/
def vstrNullTerminatedStr : Except VstrFault Vstr := do
  let vstr := if vstr.alloc = vstr.len then vstrExtend junk vstr 1 else vstr
  let buf ← storeBytes vstr.buf vstr.len [0]
  return { vstr with buf := buf }

/-- `vstr_cut_tail_bytes` -/
def vstrCutTailBytes (len : ℕ) : Vstr :=
  if vstr.len < len then { vstr with len := 0 } else { vstr with len := vstr.len - len }

/-- `vstr_cut_out_bytes`. The differences of sizes wrap around. -/
def vstrCutOutBytes (bytePos bytesToCut : ℕ) : Except VstrFault Vstr :=
  if vstr.len ≤ bytePos then .ok vstr
  else if vstr.len ≤ sizeT (bytePos + bytesToCut) then .ok { vstr with len := bytePos }
  else do
    let buf ← moveBytes vstr.buf bytePos (sizeT (bytePos + bytesToCut))
      (sizeT (2 ^ 64 + vstr.len - bytePos + (2 ^ 64 - bytesToCut)))
    return { vstr with buf := buf, len := sizeT (vstr.len + (2 ^ 64 - bytesToCut)) }

/-- The operations, with arguments that are sizes where the source has them -/
inductive VstrOp
  | addByte (b : UInt8)
  | addChar (c : Fin 0x110000)
  | addStrn (str : List UInt8)
  | insByte (bytePos : Fin (2 ^ 64)) (b : UInt8)
  | cutHeadBytes (bytesToCut : Fin (2 ^ 64))
  | cutTailBytes (len : Fin (2 ^ 64))
  | cutOutBytes (bytePos bytesToCut : Fin (2 ^ 64))
  | hintSize (size : Fin (2 ^ 64))
  | nullTerminatedStr
  | extend (size : Fin (2 ^ 64))
  deriving DecidableEq

def vstrStep : VstrOp → Except VstrFault Vstr
  | .addByte b => vstrAddByte junk vstr b
  | .addChar c => vstrAddStrn junk vstr (vstrAddChar c)
  | .addStrn str => vstrAddStrn junk vstr str
  | .insByte bytePos b => vstrInsByte junk vstr bytePos b
  | .cutHeadBytes bytesToCut => vstrCutOutBytes vstr 0 bytesToCut
  | .cutTailBytes len => .ok (vstrCutTailBytes vstr len)
  | .cutOutBytes bytePos bytesToCut => vstrCutOutBytes vstr bytePos bytesToCut
  | .hintSize size => .ok (vstrHintSize junk vstr size)
  | .nullTerminatedStr => vstrNullTerminatedStr junk vstr
  | .extend size => .ok (vstrExtend junk vstr size)

/-! ### The same on lists -/

/-- What an operation does with a list -/
def VstrOp.onList (l : List UInt8) : VstrOp → List UInt8
  | .addByte b => l ++ [b]
  | .addChar c => l ++ vstrAddChar c
  | .addStrn str => l ++ str
  | .insByte bytePos b => l.take bytePos ++ b :: l.drop bytePos
  | .cutHeadBytes bytesToCut => l.drop bytesToCut
  | .cutTailBytes len => l.take (l.length - len)
  | .cutOutBytes bytePos bytesToCut => l.take bytePos ++ l.drop (bytePos + bytesToCut)
  | .hintSize _ | .nullTerminatedStr | .extend _ => l

/-- The string is a list of bytes: its length is inside the size, the size is inside the buffer, and
the bytes are there. -/
structure Vstr.Holds (vstr : Vstr) (l : List UInt8) : Prop where
  len_le : vstr.len ≤ vstr.alloc
  alloc_le : vstr.alloc ≤ vstr.buf.length
  len_eq : vstr.len = l.length
  take_eq : vstr.buf.take vstr.len = l

/-- The operations that are right: room for `k` bytes is there, or is asked for with less than 32
bits; a size that is only asked for may be too small, but not less than the length; and no sum of
sizes has a carry. -/
def VstrOp.Fits (len alloc : ℕ) : VstrOp → Prop
  | .addByte _ | .insByte _ _ => len + 1 ≤ alloc ∨ len + 1 + 16 < 2 ^ 32
  | .addChar c => len + (vstrAddChar c).length ≤ alloc ∨
      len + (vstrAddChar c).length + 16 < 2 ^ 32
  | .addStrn str => len + str.length ≤ alloc ∨ len + str.length + 16 < 2 ^ 32
  | .cutOutBytes bytePos bytesToCut => len ≤ bytePos ∨ bytePos.val + bytesToCut < 2 ^ 64
  | .hintSize size => (len + size) % 2 ^ 64 ≤ alloc ∨
      len ≤ (((len + size + 16) % 2 ^ 64 &&& 0xFFFFFFF8) + 8)
  | .extend size => len ≤ (alloc + size) % 2 ^ 64
  | .cutHeadBytes _ | .cutTailBytes _ | .nullTerminatedStr => True

/-! ### Rounding -/

theorem roundAlloc_eq (a : ℕ) : roundAlloc 64 a = (a &&& 0xFFFFFFF8) + 8 := by
  have hle : a &&& 0xFFFFFFF8 ≤ 0xFFFFFFF8 := Nat.and_le_right
  have hmask : 2 ^ 32 - 8 = 0xFFFFFFF8 := rfl
  rw [roundAlloc, hmask]
  exact Nat.mod_eq_of_lt (by omega)

/-- The size is rounded up below 32 bits. -/
theorem roundAlloc_ge {a : ℕ} (h : a < 2 ^ 32) : a < roundAlloc 64 a := by
  have hdiv : (a &&& 0xFFFFFFF8) / 2 ^ 3 = a / 2 ^ 3 := by
    rw [Nat.and_div_two_pow]
    have hmask : 0xFFFFFFF8 / 2 ^ 3 = 2 ^ 29 - 1 := rfl
    rw [hmask, Nat.and_two_pow_sub_one_eq_mod, Nat.mod_eq_of_lt (by omega)]
  rw [roundAlloc_eq]
  omega

theorem roundAlloc_short {n : ℕ} (h : 2 ^ 32 ≤ n + 16) : roundAlloc 64 (n + 16) < n := by
  have hle : (n + 16) &&& 0xFFFFFFF8 ≤ 0xFFFFFFF8 := Nat.and_le_right
  have hmod : (n + 16) &&& 0xFFFFFFF8 ≤ (n + 16) % 2 ^ 32 := by
    have heq := @Nat.and_mod_two_pow (n + 16) 0xFFFFFFF8 32
    rw [Nat.mod_eq_of_lt (by omega)] at heq
    rw [heq]
    exact Nat.and_le_left
  rw [roundAlloc_eq]
  omega

/-! ### Steps -/

section Steps

variable {junk vstr} {l bs : List UInt8} {pos : ℕ}

theorem Vstr.length_renew (alloc : ℕ) : (vstr.renew junk alloc).buf.length = alloc := by
  simp [Vstr.renew]
  omega

/-- A buffer of another size holds the same if it is not too short. -/
theorem Vstr.Holds.renew_iff (h : vstr.Holds l) (alloc : ℕ) :
    (vstr.renew junk alloc).Holds l ↔ l.length ≤ alloc := by
  refine ⟨fun h' => h'.len_eq ▸ h'.len_le, fun hle => ?_⟩
  have hlen := h.len_eq
  refine ⟨hlen ▸ hle, (Vstr.length_renew alloc).ge, hlen, ?_⟩
  have hbuf : l.length ≤ vstr.buf.length := hlen ▸ h.len_le.trans h.alloc_le
  have htake := h.take_eq
  rw [hlen] at htake
  simp only [Vstr.renew, hlen]
  rw [List.take_append_of_le_length (by rw [List.length_take]; omega), List.take_take,
    Nat.min_eq_left hle, htake]

theorem storeBytes_eq (h : pos + bs.length ≤ vstr.buf.length) :
    storeBytes vstr.buf pos bs = .ok (Stream.splice vstr.buf pos bs) := if_pos h

theorem Vstr.Holds.ensure (h : vstr.Holds l) {k : ℕ} (hk : l.length + k < 2 ^ 63)
    (hfits : vstr.len + k ≤ vstr.alloc ∨ vstr.len + k + 16 < 2 ^ 32) :
    (vstrEnsureExtra junk vstr k).Holds l ∧
      l.length + k ≤ (vstrEnsureExtra junk vstr k).alloc := by
  have hlen := h.len_eq
  rw [vstrEnsureExtra, sizeT, sizeT, Nat.mod_eq_of_lt (by omega), Nat.mod_eq_of_lt (by omega)]
  split_ifs with hroom
  · have hround := roundAlloc_ge (hfits.resolve_left (by omega))
    exact ⟨(h.renew_iff _).mpr (by omega), by simp only [Vstr.renew]; omega⟩
  · exact ⟨h, by omega⟩

theorem Vstr.Holds.ensure_short (h : vstr.Holds l) {k : ℕ} (hk : l.length + k < 2 ^ 63)
    (hfits : ¬(vstr.len + k ≤ vstr.alloc ∨ vstr.len + k + 16 < 2 ^ 32)) :
    (vstrEnsureExtra junk vstr k).len = l.length ∧
      (vstrEnsureExtra junk vstr k).buf.length < l.length + k := by
  have hlen := h.len_eq
  rw [vstrEnsureExtra, sizeT, sizeT, Nat.mod_eq_of_lt (by omega), Nat.mod_eq_of_lt (by omega),
    if_pos (by omega)]
  refine ⟨hlen, ?_⟩
  rw [Vstr.length_renew, ← hlen]
  exact roundAlloc_short (by omega)

theorem addStrn_iff (h : vstr.Holds l) (hk : l.length + bs.length < 2 ^ 63) :
    (∃ vstr', vstrAddStrn junk vstr bs = .ok vstr' ∧ vstr'.Holds (l ++ bs)) ↔
      (vstr.len + bs.length ≤ vstr.alloc ∨ vstr.len + bs.length + 16 < 2 ^ 32) := by
  by_cases hfits : vstr.len + bs.length ≤ vstr.alloc ∨ vstr.len + bs.length + 16 < 2 ^ 32
  · refine iff_of_true ?_ hfits
    obtain ⟨hheld, hroom⟩ := @Vstr.Holds.ensure junk vstr l h _ hk hfits
    rw [vstrAddStrn]
    generalize vstrEnsureExtra junk vstr bs.length = room at hheld hroom
    have hlen := hheld.len_eq
    have halloc := hheld.alloc_le
    refine ⟨_, by rw [storeBytes_eq (by omega)]; rfl, ?_, ?_, ?_, ?_⟩
    · simp only [sizeT]
      rw [Nat.mod_eq_of_lt (by omega)]
      omega
    · simp only
      rw [Stream.length_splice (by omega)]
      exact halloc
    · simp only [sizeT, List.length_append]
      rw [Nat.mod_eq_of_lt (by omega), hlen]
    · simp only [sizeT]
      rw [Nat.mod_eq_of_lt (by omega), Stream.take_splice (by omega), hheld.take_eq]
  · refine iff_of_false ?_ hfits
    obtain ⟨hlen, hshort⟩ := @Vstr.Holds.ensure_short junk vstr l h _ hk hfits
    rintro ⟨vstr', hcall, -⟩
    rw [vstrAddStrn] at hcall
    rw [storeBytes, if_neg (by omega)] at hcall
    cases hcall

/-- The bytes from a place to the end -/
theorem Vstr.Holds.drop_take (h : vstr.Holds l) (pos : ℕ) :
    (vstr.buf.drop pos).take (vstr.len - pos) = l.drop pos := by
  rw [← h.take_eq, List.drop_take]

theorem Vstr.Holds.take (h : vstr.Holds l) (hpos : pos ≤ l.length) :
    vstr.buf.take pos = l.take pos := by
  rw [← h.take_eq, List.take_take, Nat.min_eq_left (by rw [h.len_eq]; exact hpos)]

/-- A part of the string is moved inside the buffer. -/
theorem Vstr.Holds.moveBytes (h : vstr.Holds l) {dst : ℕ} (hpos : pos ≤ l.length)
    (hdst : dst + (l.length - pos) ≤ vstr.buf.length) :
    moveBytes vstr.buf dst pos (l.length - pos) =
      .ok (Stream.splice vstr.buf dst (l.drop pos)) := by
  have hlen := h.len_eq
  have hle := h.len_le.trans h.alloc_le
  have hdrop := h.drop_take pos
  rw [hlen] at hdrop
  rw [Pycopy.moveBytes, if_pos (by omega), hdrop, storeBytes, if_pos (by rwa [List.length_drop])]

theorem insByte_iff (h : vstr.Holds l) (hk : l.length + 1 < 2 ^ 63) (b : UInt8) :
    (∃ vstr', vstrInsByte junk vstr pos b = .ok vstr' ∧
        vstr'.Holds (l.take pos ++ b :: l.drop pos)) ↔
      (vstr.len + 1 ≤ vstr.alloc ∨ vstr.len + 1 + 16 < 2 ^ 32) := by
  have hpos : (if l.length < pos then l.length else pos) = min pos l.length := by
    split <;> omega
  have hlist : l.take pos ++ b :: l.drop pos =
      l.take (min pos l.length) ++ b :: l.drop (min pos l.length) := by
    rw [← List.take_eq_take_min, ← List.drop_eq_drop_min]
  rw [hlist, vstrInsByte]
  simp only [h.len_eq, hpos]
  have hmin : min pos l.length ≤ l.length := Nat.min_le_right _ _
  generalize min pos l.length = p at hmin
  by_cases hfits : l.length + 1 ≤ vstr.alloc ∨ l.length + 1 + 16 < 2 ^ 32
  · refine iff_of_true ?_ hfits
    rw [← h.len_eq] at hfits
    obtain ⟨hheld, hroom⟩ := @Vstr.Holds.ensure junk vstr l h _ hk hfits
    generalize vstrEnsureExtra junk vstr 1 = room at hheld hroom
    have hlen := hheld.len_eq
    have halloc := hheld.alloc_le
    have hdrop : (l.drop p).length = l.length - p := List.length_drop
    have hmoved : (Stream.splice room.buf (p + 1) (l.drop p)).length = room.buf.length :=
      Stream.length_splice (by omega)
    have htake : (Stream.splice room.buf (p + 1) (l.drop p)).take (l.length + 1) =
        room.buf.take (p + 1) ++ l.drop p := by
      rw [← Stream.take_splice (by omega), hdrop]
      congr 1
      omega
    rw [hheld.moveBytes hmin (by omega)]
    simp only [bind, Except.bind]
    rw [storeBytes, if_pos (by rw [hmoved, List.length_singleton]; omega)]
    refine ⟨_, rfl, ?_, ?_, ?_, ?_⟩
    · simp only [sizeT]
      rw [Nat.mod_eq_of_lt (by omega)]
      omega
    · simp only
      rw [Stream.length_splice (by rw [hmoved, List.length_singleton]; omega), hmoved]
      exact halloc
    · simp only [sizeT, List.length_append, List.length_take, List.length_cons, hdrop]
      rw [Nat.mod_eq_of_lt (by omega), hlen]
      omega
    · simp only [sizeT]
      rw [Nat.mod_eq_of_lt (by omega), hlen,
        Stream.take_splice_of_le (by rw [List.length_singleton]; omega)
        (by omega), htake, Stream.splice, List.length_singleton,
        List.take_append_of_le_length (by rw [List.length_take]; omega), List.take_take,
        Nat.min_eq_left (Nat.le_succ p), hheld.take hmin,
        List.drop_left' (by rw [List.length_take]; omega), List.append_assoc]
      rfl
  · refine iff_of_false ?_ hfits
    rw [← h.len_eq] at hfits
    obtain ⟨hlen, hshort⟩ := @Vstr.Holds.ensure_short junk vstr l h _ hk hfits
    rintro ⟨vstr', hcall, -⟩
    rw [moveBytes] at hcall
    split_ifs at hcall with hsrc
    · rw [storeBytes, if_neg] at hcall
      · cases hcall
      · rw [List.length_take, List.length_drop]
        omega
    · cases hcall

theorem nullTerminatedStr_right (h : vstr.Holds l) (hl : l.length < 2 ^ 63) :
    ∃ vstr', vstrNullTerminatedStr junk vstr = .ok vstr' ∧ vstr'.Holds l := by
  obtain ⟨room, hroom, hheld, hlt⟩ : ∃ room,
      (if vstr.alloc = vstr.len then vstrExtend junk vstr 1 else vstr) = room ∧ room.Holds l ∧
        l.length < room.alloc := by
    have hlen := h.len_eq
    have hle := h.len_le
    refine ⟨_, rfl, ?_⟩
    split_ifs with heq
    · have hsize : sizeT (vstr.alloc + 1) = l.length + 1 := by
        rw [heq, hlen]
        exact Nat.mod_eq_of_lt (by omega)
      rw [vstrExtend, hsize]
      exact ⟨(h.renew_iff _).mpr (Nat.le_succ _), Nat.lt_succ_self _⟩
    · exact ⟨h, by omega⟩
  have hlen := hheld.len_eq
  have halloc := hheld.alloc_le
  have hstore : room.len + [(0 : UInt8)].length ≤ room.buf.length := by
    rw [List.length_singleton]
    omega
  rw [vstrNullTerminatedStr, hroom, storeBytes, if_pos hstore]
  refine ⟨_, rfl, hheld.len_le, ?_, hlen, ?_⟩
  · simp only
    rw [Stream.length_splice hstore]
    exact halloc
  · simp only
    rw [Stream.splice, List.append_assoc, List.take_left' (by rw [List.length_take]; omega)]
    exact hheld.take_eq

theorem cutTailBytes_right (h : vstr.Holds l) (n : ℕ) :
    (vstrCutTailBytes vstr n).Holds (l.take (l.length - n)) := by
  have hlen := h.len_eq
  have hle := h.len_le
  rw [vstrCutTailBytes]
  split_ifs with hn
  · have hzero : l.length - n = 0 := by omega
    exact ⟨Nat.zero_le _, h.alloc_le, by rw [hzero]; rfl, by rw [hzero]; rfl⟩
  · refine ⟨by simp only; omega, h.alloc_le, ?_, ?_⟩
    · simp only [List.length_take]
      omega
    · simp only [hlen]
      exact h.take (Nat.sub_le _ _)

theorem cutOutBytes_iff (h : vstr.Holds l) (hl : l.length < 2 ^ 63) {n : ℕ} (hn : n < 2 ^ 64) :
    (∃ vstr', vstrCutOutBytes vstr pos n = .ok vstr' ∧
      vstr'.Holds (l.take pos ++ l.drop (pos + n))) ↔ (vstr.len ≤ pos ∨ pos + n < 2 ^ 64) := by
  have hlen := h.len_eq
  have hle := h.len_le
  have halloc := h.alloc_le
  rw [vstrCutOutBytes]
  by_cases hpos : vstr.len ≤ pos
  · rw [if_pos hpos, List.take_of_length_le (by omega), List.drop_of_length_le (by omega),
      List.append_nil]
    exact iff_of_true ⟨vstr, rfl, h⟩ (.inl hpos)
  rw [if_neg hpos]
  by_cases hcarry : pos + n < 2 ^ 64
  · refine iff_of_true ?_ (.inr hcarry)
    rw [sizeT, Nat.mod_eq_of_lt hcarry]
    by_cases hend : vstr.len ≤ pos + n
    · rw [if_pos hend, List.drop_of_length_le (by omega), List.append_nil]
      have hle' : pos ≤ vstr.alloc := by omega
      have htake : vstr.buf.take pos = l.take pos := h.take (by omega)
      refine ⟨_, rfl, hle', halloc, ?_, htake⟩
      simp only [List.length_take]
      omega
    · have hcount : sizeT (2 ^ 64 + vstr.len - pos + (2 ^ 64 - n)) = l.length - (pos + n) := by
        rw [sizeT]
        omega
      have hlen' : sizeT (vstr.len + (2 ^ 64 - n)) = pos + (l.drop (pos + n)).length := by
        rw [sizeT, List.length_drop]
        omega
      have hdrop : (l.drop (pos + n)).length = l.length - (pos + n) := List.length_drop
      rw [if_neg hend, hcount, hlen', h.moveBytes (by omega) (by omega)]
      refine ⟨_, rfl, by simp only; omega, ?_, ?_, ?_⟩
      · simp only
        rw [Stream.length_splice (by omega)]
        exact halloc
      · simp only [List.length_append, List.length_take]
        omega
      · simp only
        rw [Stream.take_splice (by omega), h.take (by omega)]
  · refine iff_of_false ?_ (not_or.mpr ⟨hpos, hcarry⟩)
    -- the sum is too small, and the length grows
    have hsum : sizeT (pos + n) < pos := by
      rw [sizeT]
      omega
    have hlen' : vstr.len < sizeT (vstr.len + (2 ^ 64 - n)) := by
      rw [sizeT]
      omega
    rw [if_neg (by omega)]
    rintro ⟨vstr', hcall, hheld⟩
    have hlist := hheld.len_eq
    rw [List.length_append, List.length_take, List.length_drop] at hlist
    cases hmove : moveBytes vstr.buf pos (sizeT (pos + n))
        (sizeT (2 ^ 64 + vstr.len - pos + (2 ^ 64 - n))) with
    | error e =>
      rw [hmove] at hcall
      cases hcall
    | ok buf =>
      rw [hmove] at hcall
      cases hcall
      simp only at hlist
      omega

/-- **Which operations are right** -/
theorem vstr_step_iff (h : vstr.Holds l) (op : VstrOp) (hl : l.length < 2 ^ 63)
    (hmax : (op.onList l).length < 2 ^ 63) :
    (∃ vstr', vstrStep junk vstr op = .ok vstr' ∧ vstr'.Holds (op.onList l)) ↔
      op.Fits vstr.len vstr.alloc := by
  have hok : ∀ v : Vstr, (∃ vstr', Except.ok v = (.ok vstr' : Except VstrFault Vstr) ∧
      vstr'.Holds l) ↔ v.Holds l := fun v =>
    ⟨fun ⟨_, heq, hv⟩ => Except.ok.inj heq ▸ hv, fun hv => ⟨v, rfl, hv⟩⟩
  cases op with
  | addByte b => exact addStrn_iff h (by simpa [VstrOp.onList] using hmax)
  | addChar c => exact addStrn_iff h (by simpa [VstrOp.onList] using hmax)
  | addStrn str => exact addStrn_iff h (by simpa [VstrOp.onList] using hmax)
  | insByte bytePos b =>
    refine insByte_iff h ?_ b
    simp only [VstrOp.onList, List.length_append, List.length_take, List.length_cons,
      List.length_drop] at hmax
    omega
  | cutHeadBytes n =>
    have hcut := @cutOutBytes_iff vstr l 0 h hl n n.isLt
    rw [List.take_zero, List.nil_append, Nat.zero_add] at hcut
    exact hcut.trans (iff_true_intro (.inr n.isLt))
  | cutTailBytes n =>
    exact iff_true_intro ⟨_, rfl, cutTailBytes_right h n⟩
  | cutOutBytes bytePos n => exact cutOutBytes_iff h hl n.isLt
  | hintSize size =>
    rw [vstrStep, VstrOp.onList, hok, vstrHintSize, vstrEnsureExtra, VstrOp.Fits, sizeT, sizeT]
    split_ifs with hroom
    · rw [h.renew_iff, roundAlloc_eq, or_iff_right (by omega), h.len_eq]
    · exact iff_of_true h (.inl (by omega))
  | nullTerminatedStr => exact iff_true_intro (nullTerminatedStr_right h hl)
  | extend size =>
    rw [vstrStep, VstrOp.onList, hok, vstrExtend, h.renew_iff, VstrOp.Fits, sizeT, h.len_eq]

end Steps

/-! ### Runs -/

/-- Every operation of a run leaves what it would leave in a list. -/
def VstrRunRight (vstr : Vstr) (l : List UInt8) : List VstrOp → Prop
  | [] => True
  | op :: ops => ∃ vstr', vstrStep junk vstr op = .ok vstr' ∧ vstr'.Holds (op.onList l) ∧
      VstrRunRight vstr' (op.onList l) ops

/-- Every operation of a run fits. -/
def VstrRunFits (vstr : Vstr) : List VstrOp → Prop
  | [] => True
  | op :: ops => op.Fits vstr.len vstr.alloc ∧
      ∀ vstr', vstrStep junk vstr op = .ok vstr' → VstrRunFits vstr' ops

/-- All lengths are below `2 ^ 63`. -/
def LengthsOk (l : List UInt8) : List VstrOp → Prop
  | [] => l.length < 2 ^ 63
  | op :: ops => l.length < 2 ^ 63 ∧ LengthsOk (op.onList l) ops

theorem LengthsOk.length_lt {l : List UInt8} {ops : List VstrOp} (h : LengthsOk l ops) :
    l.length < 2 ^ 63 := by
  cases ops with
  | nil => exact h
  | cons op ops => exact h.1

theorem Vstr.Holds.run_iff {vstr : Vstr} {l : List UInt8} {ops : List VstrOp} (h : vstr.Holds l)
    (hmax : LengthsOk l ops) : VstrRunRight junk vstr l ops ↔ VstrRunFits junk vstr ops := by
  induction ops generalizing vstr l with
  | nil => exact Iff.rfl
  | cons op ops ih =>
    obtain ⟨hl, hrest⟩ := hmax
    rw [VstrRunRight, VstrRunFits, ← vstr_step_iff h op hl hrest.length_lt]
    constructor
    · rintro ⟨vstr', hstep, hheld, hright⟩
      refine ⟨⟨vstr', hstep, hheld⟩, fun vstr'' hstep' => ?_⟩
      obtain rfl := Except.ok.inj (hstep.symm.trans hstep')
      exact (ih hheld hrest).mp hright
    · rintro ⟨⟨vstr', hstep, hheld⟩, hfits⟩
      exact ⟨vstr', hstep, hheld, (ih hheld hrest).mpr (hfits vstr' hstep)⟩

theorem vstrInit_holds (alloc : ℕ) : (vstrInit junk alloc).Holds [] :=
  ⟨Nat.zero_le _, by simp [vstrInit], rfl, rfl⟩

/-- **Runs.** A string is the list of its bytes, whatever is done with it, exactly if every
operation fits when it is done. -/
theorem vstr_run_iff (alloc : ℕ) {ops : List VstrOp} (hmax : LengthsOk [] ops) :
    VstrRunRight junk (vstrInit junk alloc) [] ops ↔ VstrRunFits junk (vstrInit junk alloc) ops :=
  (vstrInit_holds junk alloc).run_iff junk hmax

/-- Four bytes are added to a buffer of two, which grows for the last three of them, and the last
one is cut off again. -/
theorem vstr_run_iff_byte : VstrRunRight 0 (vstrInit 0 2) []
    [.addByte 65, .addStrn [66, 67, 68], .cutTailBytes 1] := by
  have hmax : LengthsOk [] [.addByte 65, .addStrn [66, 67, 68], .cutTailBytes 1] :=
    ⟨by decide, by decide, by decide, show 3 < 2 ^ 63 by decide⟩
  refine (vstr_run_iff 0 2 hmax).mpr ⟨.inl (by decide), fun vstr hadd => ?_⟩
  cases hadd
  exact ⟨.inr (by decide), fun _ _ => ⟨trivial, fun _ _ => trivial⟩⟩

/-- Nine bytes, and a hint of almost four gigabytes: the buffer has eight bytes after that. -/
theorem vstr_hint_shrinks : ¬VstrRunRight 0 (vstrInit 0 16) []
    [.addStrn [65, 66, 67, 68, 69, 70, 71, 72, 73], .hintSize 4294967271] := by
  rintro ⟨vstr₁, hadd, -, vstr₂, hhint, hheld, -⟩
  cases hadd
  cases hhint
  exact absurd hheld.len_le (by decide)

end Pycopy
