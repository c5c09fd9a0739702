import Pycopy.Seq.Slice
import Pycopy.Struct.Binary

/-!
# Memory Views

`memoryview` of `py/objarray.c`: a view of the elements of a buffer, given by an offset and a length
in elements. `memoryview_init_internal` clamps the offset and the size that it is called with, and a
slice of a view is a view of a part of it. The offset is kept in a bit field that is eight bits
narrower than a word, but to cut off its high bits only moves a view to the front.

The clamping adds the offset and the size as machine words. If the sum overflows, the size is kept
as it is, and the view reaches far beyond the end of the buffer.

## Main results

* `memview_chain_safe_iff`: which views are safe, with all that is sliced off from them.
-/

namespace Pycopy

variable {w : ℕ} (B : StructBuild w)

/-! ### The source -/

/-- `mp_buffer_info_t`. An address is that of a byte, from a common origin on. -/
structure BufferInfo where
  buf : ℤ
  len : ℕ
  typecode : Char
  writable : Bool
  deriving DecidableEq, Repr

/-- The arguments of `memoryview` after the buffer -/
inductive MemviewArgs
  | whole
  | sized (size : ℤ)
  | window (offset size : ℤ)
  deriving DecidableEq, Repr

/-- `mp_obj_array_t` of a memory view -/
structure MemView where
  items : ℤ
  typecode : Char
  writable : Bool
  memviewOffset : ℕ
  len : ℕ
  deriving DecidableEq, Repr

/-- `mp_binary_get_size('@', typecode, NULL)` -/
def nativeSize (typecode : Char) : Except SeqExc ℕ :=
  match binaryGetSize B .native typecode with
  | some (size, _) => .ok size
  | none => .error (.valueError "bad typecode")

/-- An integer in a bit field of `n` bits without a sign -/
def bitField (n : ℕ) (v : ℤ) : ℕ := (v % 2 ^ n).toNat

/-- The size from an offset on, reduced to what the buffer has -/
def memviewSize (w : ℕ) (numEl offset size : ℤ) : ℤ :=
  let size := if size < 0 then 0 else size
  if numEl < wordAdd w offset size then wordAdd w numEl (-offset) else size

/-- The offset and the size, as `memoryview_init_internal` clamps them -/
def memviewClamp (w : ℕ) (numEl : ℤ) : MemviewArgs → ℤ × ℤ
  | .whole => (0, numEl)
  | .sized size => (0, memviewSize w numEl 0 size)
  | .window offset size =>
    let offset := if offset < 0 ∨ numEl ≤ offset then 0 else offset
    (offset, memviewSize w numEl offset size)

/-- `memoryview_init_internal` -/
def memoryviewInit (bufinfo : BufferInfo) (args : MemviewArgs) : Except SeqExc MemView := do
  let elSize ← nativeSize B bufinfo.typecode
  let numEl := wordOfLen w (bufinfo.len / elSize)
  let (offset, size) := memviewClamp w numEl args
  .ok { items := bufinfo.buf
        typecode := bufinfo.typecode
        writable := bufinfo.writable
        memviewOffset := bitField (w - 8) offset
        len := bitField w size }

/-- `array_subscr` when a slice of a view is loaded -/
def memviewSlice (w : ℕ) (o : MemView) (index : SliceObj) : Except SeqExc MemView := do
  let (fast, slice) ← seqGetFastSliceIndexes w o.len index
  if fast then
    .ok { o with
          memviewOffset := bitField (w - 8) (o.memviewOffset + slice.start)
          len := bitField w (slice.stop - slice.start) }
  else .error (.notImplementedError "only slices with step=1 (aka None) are supported")

/-- `mp_get_index` for an index that is a word -/
def getIndex (w len : ℕ) (index : ℤ) (isSlice : Bool) : Except SeqExc ℕ :=
  let i := if index < 0 then wordAdd w index len else index
  if isSlice then .ok (if i < 0 then 0 else if (len : ℤ) < i then len else i.toNat)
  else if i < 0 ∨ (len : ℤ) ≤ i then .error .indexError
  else .ok i.toNat

/-- Some bytes that are read or written -/
structure ByteRange where
  start : ℤ
  len : ℤ
  deriving DecidableEq, Repr

/-- The element that `array_subscr` reads or writes at an index of a view -/
def memviewElem (o : MemView) (index : ℤ) (store : Bool) : Except SeqExc ByteRange := do
  let i ← getIndex w o.len index false
  if store ∧ !o.writable then .error .notSupported
  else do
    let sz ← nativeSize B o.typecode
    .ok ⟨o.items + (((i + o.memviewOffset) % 2 ^ w : ℕ) : ℤ) * sz, sz⟩

/-- `array_get_buffer` of a view: nothing if a view that cannot be written is to be written -/
def arrayGetBuffer (o : MemView) (write : Bool) : Except SeqExc (Option BufferInfo) := do
  let sz ← nativeSize B o.typecode
  if !o.writable ∧ write then .ok none
  else
    .ok (some
      { buf := o.items + ((o.memviewOffset * sz % 2 ^ w : ℕ) : ℤ)
        len := o.len * sz % 2 ^ w
        typecode := o.typecode
        writable := o.writable })

/-- What is assigned to a slice -/
inductive SliceSrc
  | array (typecode : Char) (len : ℕ)
  | view (v : MemView)
  | bytes (len : ℕ)
  | other
  deriving DecidableEq, Repr

/-- The number of elements that are assigned, if they have the same size as those of the view -/
def SliceSrc.srcLen (itemSz : ℕ) : SliceSrc → Except SeqExc ℕ
  | .array typecode len => do
    let sz ← nativeSize B typecode
    if itemSz ≠ sz then .error (.valueError "lhs and rhs should be compatible") else .ok len
  | .view v => do
    let sz ← nativeSize B v.typecode
    if itemSz ≠ sz then .error (.valueError "lhs and rhs should be compatible") else .ok v.len
  | .bytes len =>
    if itemSz ≠ 1 then .error (.valueError "lhs and rhs should be compatible") else .ok len
  | .other => .error (.notImplementedError "array/bytes required on right side")

/-- `mp_seq_replace_slice_no_grow` and `mp_seq_clear` on `destLen` elements: the elements that are
written, the rest that is moved, and what is cleared behind it -/
def replaceSliceNoGrow (dest destLen beg end_ sliceLen lenAdj itemSz : ℤ) : List ByteRange :=
  [⟨dest + beg * itemSz, sliceLen * itemSz⟩,
    ⟨dest + end_ * itemSz, (destLen - end_) * itemSz⟩,
    ⟨dest + (beg + sliceLen) * itemSz, (destLen - end_) * itemSz⟩,
    ⟨dest + (destLen + lenAdj) * itemSz, (destLen - (destLen + lenAdj)) * itemSz⟩]

/-- `array_subscr` when a slice of a view is assigned: the bytes of the view that are read or
written -/
def memviewAssign (o : MemView) (index : SliceObj) (value : SliceSrc) :
    Except SeqExc (List ByteRange) := do
  let (fast, slice) ← seqGetFastSliceIndexes w o.len index
  if fast then do
    let itemSz ← nativeSize B o.typecode
    let srcLen ← value.srcLen B itemSz
    let lenAdj := wordAdd w srcLen (-(slice.stop - slice.start))
    if !o.writable then .error .notSupported
    else if lenAdj ≠ 0 then .error (.valueError "lhs and rhs should be compatible")
    else
      .ok (replaceSliceNoGrow (o.items + o.memviewOffset * itemSz) o.len slice.start slice.stop
        srcLen lenAdj itemSz)
  else .error (.notImplementedError "only slices with step=1 (aka None) are supported")

/-- Slices of slices of a view -/
def memviewSlices (w : ℕ) (o : MemView) : List SliceObj → Except SeqExc MemView
  | [] => .ok o
  | index :: rest => do
    let v ← memviewSlice w o index
    memviewSlices w v rest

/-! ### Safety -/

/-- Some bytes are in a buffer. -/
structure BufferInfo.Within (buf : BufferInfo) (r : ByteRange) : Prop where
  len : 0 ≤ r.len
  start : buf.buf ≤ r.start
  stop : r.start + r.len ≤ buf.buf + buf.len

/-- The bytes of the elements of a view -/
def MemView.range (o : MemView) : Except SeqExc ByteRange := do
  let sz ← nativeSize B o.typecode
  .ok ⟨o.items + o.memviewOffset * sz, o.len * sz⟩

/-- The length of what is assigned is a `size_t`. -/
def SliceSrc.Sized (w : ℕ) : SliceSrc → Prop
  | .array _ len => len < 2 ^ w
  | .view v => v.len < 2 ^ w
  | .bytes len => len < 2 ^ w
  | .other => True

/-- A view is in a buffer, and so is all that is read or written through it. -/
structure MemView.Safe (buf : BufferInfo) (o : MemView) : Prop where
  range : ∀ {r}, o.range B = .ok r → buf.Within r
  elem : ∀ {index store r}, IsWord w index → memviewElem B o index store = .ok r → buf.Within r
  assign : ∀ {index value rs}, SliceObj.Valid w index → SliceSrc.Sized w value →
    memviewAssign B o index value = .ok rs → ∀ r ∈ rs, buf.Within r
  buffer : ∀ {write info}, arrayGetBuffer B o write = .ok (some info) →
    buf.Within ⟨info.buf, info.len⟩

/-- The arguments are words. -/
def MemviewArgs.Words (w : ℕ) : MemviewArgs → Prop
  | .whole => True
  | .sized size => IsWord w size
  | .window offset size => IsWord w offset ∧ IsWord w size

/-- The end of the view can be computed. If it overflows the word, the size must fit the buffer by
itself, behind the offset that the bit field keeps. -/
def MemviewArgs.Fit (w : ℕ) (numEl : ℤ) : MemviewArgs → Prop
  | .whole => True
  | .sized _ => True
  | .window offset size =>
    0 ≤ offset → offset < numEl → 2 ^ (w - 1) ≤ offset + size →
      offset % 2 ^ (w - 8) + size ≤ numEl

/-! ### Construction -/

variable {args : MemviewArgs}

section Construction

variable {numEl : ℕ}

theorem bitField_cast (n : ℕ) (v : ℤ) : (bitField n v : ℤ) = v % 2 ^ n :=
  Int.toNat_of_nonneg (Int.emod_nonneg v (by positivity))

/-- A word that is not negative is kept. -/
theorem bitField_word {v : ℤ} (h0 : 0 ≤ v) (hlt : v < 2 ^ (w - 1)) : (bitField w v : ℤ) = v := by
  have hle : (2 : ℤ) ^ (w - 1) ≤ 2 ^ w := pow_le_pow_right₀ (by decide) (Nat.sub_le w 1)
  rw [bitField_cast, Int.emod_eq_of_lt h0 (by omega)]

/-- A bit field is never larger than what is stored in it. -/
theorem bitField_le {n : ℕ} {v : ℤ} (h0 : 0 ≤ v) : (bitField n v : ℤ) ≤ v := by
  lift v to ℕ using h0
  rw [bitField_cast]
  exact_mod_cast Nat.mod_le v (2 ^ n)

/-- The size is reduced to the rest of the buffer, unless the end overflows. -/
theorem memviewSize_eq (h : IsLen w numEl) {offset size : ℤ} (h0 : 0 ≤ offset)
    (ho : offset ≤ numEl) (hs : IsWord w size) :
    memviewSize w numEl offset size =
      if offset + size < 2 ^ (w - 1) then min (max size 0) (numEl - offset) else size := by
  have hw : 0 < w := by have := h.pos; omega
  have hlt := h.lt
  obtain ⟨hs1, hs2⟩ := hs
  have hmax : (if size < 0 then 0 else size) = max size 0 := by split <;> omega
  rw [memviewSize, hmax]
  by_cases hsum : offset + size < 2 ^ (w - 1)
  · rw [if_pos hsum, wordAdd_eq hw ⟨by omega, by omega⟩, wordAdd_eq hw ⟨by omega, by omega⟩]
    split <;> omega
  · have hneg : wordAdd w offset (max size 0) < 0 :=
      wordAdd_neg_of_overflow hw ⟨by omega, by omega⟩ ⟨by omega, by omega⟩ (by omega)
    rw [if_neg hsum, if_neg (by omega)]
    omega

/-- The clamped arguments: the offset is an element or zero, and the size is a word. -/
theorem memviewClamp_bounds (h : IsLen w numEl) (ha : args.Words w) :
    0 ≤ (memviewClamp w numEl args).1 ∧ 0 ≤ (memviewClamp w numEl args).2 ∧
      (memviewClamp w numEl args).2 < 2 ^ (w - 1) := by
  have hlt := h.lt
  cases args with
  | whole => exact ⟨le_rfl, Int.natCast_nonneg _, hlt⟩
  | sized size =>
    obtain ⟨hs1, hs2⟩ : IsWord w size := ha
    simp only [memviewClamp, memviewSize_eq h le_rfl (Int.natCast_nonneg _) ⟨hs1, hs2⟩]
    split <;> omega
  | window offset size =>
    obtain ⟨ho, hs1, hs2⟩ : IsWord w offset ∧ IsWord w size := ha
    simp only [memviewClamp]
    split
    · rw [memviewSize_eq h le_rfl (Int.natCast_nonneg _) ⟨hs1, hs2⟩]
      split <;> omega
    · rw [memviewSize_eq h (by omega) (by omega) ⟨hs1, hs2⟩]
      split <;> omega

/-- The clamped arguments are inside of the buffer if the end can be computed, and only then. -/
theorem memviewClamp_inside_iff (h : IsLen w numEl) (ha : args.Words w) :
    (memviewClamp w numEl args).1 % 2 ^ (w - 8) + (memviewClamp w numEl args).2 ≤ numEl ↔
      args.Fit w numEl := by
  have hlt := h.lt
  have hzero : (0 : ℤ) % 2 ^ (w - 8) = 0 := Int.zero_emod _
  cases args with
  | whole => exact iff_of_true (by simp only [memviewClamp, hzero]; omega) trivial
  | sized size =>
    obtain ⟨hs1, hs2⟩ : IsWord w size := ha
    refine iff_of_true ?_ trivial
    simp only [memviewClamp, hzero, memviewSize_eq h le_rfl (Int.natCast_nonneg _) ⟨hs1, hs2⟩]
    split <;> omega
  | window offset size =>
    obtain ⟨ho, hs1, hs2⟩ : IsWord w offset ∧ IsWord w size := ha
    simp only [memviewClamp, MemviewArgs.Fit]
    split
    · rw [memviewSize_eq h le_rfl (Int.natCast_nonneg _) ⟨hs1, hs2⟩, hzero]
      refine iff_of_true ?_ fun h1 h2 => by omega
      split <;> omega
    · have hle : offset % 2 ^ (w - 8) ≤ offset := by
        rw [← bitField_cast]
        exact bitField_le (by omega)
      rw [memviewSize_eq h (by omega) (by omega) ⟨hs1, hs2⟩]
      generalize offset % 2 ^ (w - 8) = t at *
      split <;> omega

end Construction

/-- A view of the elements of a buffer: it is inside of the `numEl` elements. -/
structure MemView.Inside (buf : BufferInfo) (numEl : ℕ) (o : MemView) : Prop where
  items : o.items = buf.buf
  typecode : o.typecode = buf.typecode
  bound : o.memviewOffset + o.len ≤ numEl

section Views

variable {B} {buf : BufferInfo} {sz : ℕ}

theorem nativeSize_pos {typecode : Char} (h : nativeSize B typecode = .ok sz) : 0 < sz := by
  rw [nativeSize] at h
  split at h
  · next size align hsize =>
      cases h
      exact (binaryGetSize_bounds hsize).1
  · cases h

/-- The number of elements of a buffer is a word. -/
theorem isLen_div (B : StructBuild w) (hbuf : (buf.len : ℤ) < 2 ^ (w - 1)) (sz : ℕ) :
    IsLen w (buf.len / sz) := by
  have hw : 1 < w := by have := B.word; omega
  refine ⟨hw, lt_of_le_of_lt ?_ hbuf⟩
  exact_mod_cast Nat.div_le_self buf.len sz

theorem memoryviewInit_eq (hbuf : (buf.len : ℤ) < 2 ^ (w - 1)) (args : MemviewArgs)
    (hsz : nativeSize B buf.typecode = .ok sz) :
    memoryviewInit B buf args = .ok
      { items := buf.buf
        typecode := buf.typecode
        writable := buf.writable
        memviewOffset := bitField (w - 8) (memviewClamp w (buf.len / sz : ℕ) args).1
        len := bitField w (memviewClamp w (buf.len / sz : ℕ) args).2 } := by
  simp only [memoryviewInit, hsz, bind, Except.bind, wordOfLen_eq (isLen_div B hbuf sz)]

/-- **Which calls make a view inside of the buffer** -/
theorem memoryviewInit_inside_iff (hbuf : (buf.len : ℤ) < 2 ^ (w - 1))
    (ha : args.Words w) (hsz : nativeSize B buf.typecode = .ok sz) :
    ∃ v, memoryviewInit B buf args = .ok v ∧
      (v.Inside buf (buf.len / sz) ↔ args.Fit w (buf.len / sz : ℕ)) := by
  have hlen : IsLen w (buf.len / sz) := isLen_div B hbuf sz
  refine ⟨_, memoryviewInit_eq hbuf args hsz, ?_⟩
  rw [← memviewClamp_inside_iff hlen ha]
  obtain ⟨h1, h2, h3⟩ := memviewClamp_bounds hlen ha
  have hoff := bitField_cast (w - 8) (memviewClamp w (buf.len / sz : ℕ) args).1
  have hsize := bitField_word h2 h3
  rw [← hoff]
  constructor
  · rintro ⟨-, -, hb⟩
    dsimp only at hb
    omega
  · intro hb
    refine ⟨rfl, rfl, ?_⟩
    dsimp only
    omega

/-! ### Slices and accesses -/

variable {n : ℕ} {s : SliceObj}

/-- The bounds of a slice with step one -/
theorem fast_bounds (h : IsLen w n) (hs : s.Valid w) {slice : BoundSlice}
    (hfast : seqGetFastSliceIndexes w n s = .ok (true, slice)) :
    0 ≤ slice.start ∧ slice.start ≤ slice.stop ∧ slice.stop ≤ n := by
  rw [seqGetFastSliceIndexes_eq h hs] at hfast
  obtain ⟨hone, rfl⟩ := Prod.mk.inj (Except.ok.inj hfast)
  have hpos : 0 < s.step.getD 1 := by
    rw [of_decide_eq_true hone]
    exact one_pos
  obtain ⟨⟨h1, h2⟩, h3, h4⟩ := pySliceBounds_pos (n := n) hpos
  dsimp only
  rw [fastStop, if_pos hpos]
  omega

variable {numEl : ℕ} {o : MemView}

theorem MemView.Inside.isLen (ho : o.Inside buf numEl) (h : IsLen w numEl) : IsLen w o.len := by
  refine ⟨h.pos, lt_of_le_of_lt ?_ h.lt⟩
  have := ho.bound
  omega

variable {v : MemView}

/-- **A slice of a view is inside of the buffer.** -/
theorem memviewSlice_inside (h : IsLen w numEl) (ho : o.Inside buf numEl)
    (hs : s.Valid w) (hv : memviewSlice w o s = .ok v) : v.Inside buf numEl := by
  have hlen := ho.isLen h
  obtain ⟨p, hp⟩ : ∃ p, seqGetFastSliceIndexes w o.len s = .ok p :=
    ⟨_, seqGetFastSliceIndexes_eq hlen hs⟩
  obtain ⟨fast, slice⟩ := p
  simp only [memviewSlice, hp, bind, Except.bind] at hv
  cases fast with
  | false => cases hv
  | true =>
    cases hv
    obtain ⟨h1, h2, h3⟩ := fast_bounds hlen hs hp
    refine ⟨ho.items, ho.typecode, ?_⟩
    have hoff := bitField_le (n := w - 8) (show 0 ≤ (o.memviewOffset : ℤ) + slice.start by omega)
    have hlt := hlen.lt
    have hsize := bitField_word (w := w) (show 0 ≤ slice.stop - slice.start by omega) (by omega)
    have hb := ho.bound
    dsimp only
    omega

theorem memviewSlices_inside (h : IsLen w numEl) {chain : List SliceObj}
    (hc : ∀ s ∈ chain, s.Valid w) {o : MemView} (ho : o.Inside buf numEl)
    (hv : memviewSlices w o chain = .ok v) : v.Inside buf numEl := by
  induction chain generalizing o with
  | nil =>
    cases hv
    exact ho
  | cons s chain ih =>
    rw [memviewSlices] at hv
    cases hslice : memviewSlice w o s with
    | error e =>
      rw [hslice] at hv
      cases hv
    | ok o' =>
      rw [hslice] at hv
      exact ih (fun s' hs' => hc s' (List.mem_cons_of_mem s hs'))
        (memviewSlice_inside h ho (hc s List.mem_cons_self) hslice) hv

/-- Some elements of a buffer are in its bytes. -/
theorem within_of_elems {start len : ℤ} (h0 : 0 ≤ start) (hl : 0 ≤ len)
    (hle : start + len ≤ (buf.len / sz : ℕ)) :
    buf.Within ⟨buf.buf + start * sz, len * sz⟩ := by
  have hmul : ((buf.len / sz * sz : ℕ) : ℤ) ≤ buf.len := by
    exact_mod_cast Nat.div_mul_le_self buf.len sz
  have hle' := Int.mul_le_mul_of_nonneg_right hle (Int.natCast_nonneg sz)
  have hstart := Int.mul_nonneg h0 (Int.natCast_nonneg sz)
  rw [Int.add_mul] at hle'
  push_cast at hmul hle'
  refine ⟨Int.mul_nonneg hl (Int.natCast_nonneg sz), ?_, ?_⟩ <;> dsimp only <;> linarith

/-- An index of a view is one of its elements. -/
theorem getIndex_lt {i : ℕ} {index : ℤ} (h : getIndex w n index false = .ok i) : i < n := by
  simp only [getIndex, Bool.false_eq_true, if_false] at h
  generalize (if index < 0 then wordAdd w index n else index) = j at h
  split at h
  · cases h
  · next hj =>
      cases h
      omega

theorem SliceSrc.srcLen_lt {itemSz : ℕ} {value : SliceSrc} (hv : value.Sized w)
    (h : value.srcLen B itemSz = .ok n) : n < 2 ^ w := by
  have hcompat {typecode : Char} {len : ℕ} (hlen : len < 2 ^ w)
      (h : (nativeSize B typecode >>= fun sz =>
        if itemSz ≠ sz then .error (.valueError "lhs and rhs should be compatible") else .ok len) =
          Except.ok n) : n < 2 ^ w := by
    cases hsz : nativeSize B typecode with
    | error e =>
      rw [hsz] at h
      cases h
    | ok sz =>
      simp only [hsz, bind, Except.bind] at h
      split at h
      · cases h
      · cases h
        exact hlen
  cases value with
  | array typecode len => exact hcompat hv h
  | view v => exact hcompat hv h
  | bytes len =>
    rw [SliceSrc.srcLen] at h
    split at h
    · cases h
    · cases h
      exact hv
  | other => cases h

/-- Words that are less than `2 ^ w` apart are equal if their difference is zero as a word. -/
theorem eq_of_wordAdd_neg_eq_zero {a b : ℤ} (h : wordAdd w a (-b) = 0) (h1 : a - b < 2 ^ w)
    (h2 : -(2 ^ w) < a - b) : a = b := by
  have hdvd : ((2 ^ w : ℕ) : ℤ) ∣ a + -b := Int.dvd_of_bmod_eq_zero h
  have hcast : ((2 ^ w : ℕ) : ℤ) = 2 ^ w := by norm_cast
  have := Int.eq_zero_of_abs_lt_dvd hdvd (by rw [hcast, abs_lt]; constructor <;> linarith)
  linarith

/-- The elements that are moved when a slice is replaced by one of the same length are those of the
view. -/
theorem replaceSliceNoGrow_within {beg end_ : ℤ} (h1 : 0 ≤ beg) (h2 : beg ≤ end_)
    (h3 : end_ ≤ o.len) (hb : (o.memviewOffset : ℤ) + o.len ≤ (buf.len / sz : ℕ)) :
    ∀ r ∈ replaceSliceNoGrow (buf.buf + o.memviewOffset * sz) o.len beg end_ (end_ - beg) 0 sz,
      buf.Within r := by
  have helems (start len : ℤ) (h0 : 0 ≤ start) (hl : 0 ≤ len) (hle : start + len ≤ o.len) :
      buf.Within ⟨buf.buf + o.memviewOffset * sz + start * sz, len * sz⟩ := by
    rw [add_assoc, ← Int.add_mul]
    exact within_of_elems (by omega) hl (by omega)
  intro r hr
  simp only [replaceSliceNoGrow, List.mem_cons, List.not_mem_nil, or_false] at hr
  rcases hr with rfl | rfl | rfl | rfl
  · exact helems _ _ h1 (by omega) (by omega)
  · exact helems _ _ (by omega) (by omega) (by omega)
  · exact helems _ _ (by omega) (by omega) (by omega)
  · exact helems _ _ (by omega) (by omega) (by omega)

section Inside

variable (hbuf : (buf.len : ℤ) < 2 ^ (w - 1)) (hsz : nativeSize B buf.typecode = .ok sz)
  (ho : o.Inside buf (buf.len / sz))

include ho in
theorem MemView.Inside.range_within : buf.Within ⟨buf.buf + o.memviewOffset * sz, o.len * sz⟩ :=
  within_of_elems (Int.natCast_nonneg _) (Int.natCast_nonneg _) (by exact_mod_cast ho.bound)

include hsz ho

theorem MemView.Inside.elem_within {index : ℤ} {store : Bool} {r : ByteRange}
    (hr : memviewElem B o index store = .ok r) : buf.Within r := by
  have hb := ho.bound
  simp only [memviewElem, bind, Except.bind] at hr
  cases hi : getIndex w o.len index false with
  | error e =>
    rw [hi] at hr
    cases hr
  | ok i =>
    have hlt := getIndex_lt hi
    have hmod : (i + o.memviewOffset) % 2 ^ w ≤ i + o.memviewOffset := Nat.mod_le _ _
    simp only [hi, ho.typecode, ho.items, hsz] at hr
    split at hr
    · cases hr
    · cases hr
      have hone : buf.Within
          ⟨buf.buf + (((i + o.memviewOffset) % 2 ^ w : ℕ) : ℤ) * sz, 1 * sz⟩ :=
        within_of_elems (Int.natCast_nonneg _) (by decide) (by omega)
      rwa [one_mul] at hone

/-- The products of `array_get_buffer` are at most the true ones. -/
theorem MemView.Inside.buffer_within {write : Bool} {info : BufferInfo}
    (hinfo : arrayGetBuffer B o write = .ok (some info)) : buf.Within ⟨info.buf, info.len⟩ := by
  simp only [arrayGetBuffer, ho.typecode, ho.items, hsz, bind, Except.bind] at hinfo
  split at hinfo
  · cases hinfo
  · cases hinfo
    have hoff := Nat.mod_le (o.memviewOffset * sz) (2 ^ w)
    have hsize := Nat.mod_le (o.len * sz) (2 ^ w)
    have hstop := ho.range_within.stop
    zify at hoff hsize
    dsimp only at hstop
    refine ⟨Int.natCast_nonneg _, by dsimp only; omega, ?_⟩
    dsimp only
    push_cast
    linarith

include hbuf

theorem MemView.Inside.assign_within {index : SliceObj} {value : SliceSrc} {rs : List ByteRange}
    (hindex : index.Valid w) (hvalue : value.Sized w)
    (hrs : memviewAssign B o index value = .ok rs) : ∀ r ∈ rs, buf.Within r := by
  have holen := ho.isLen (isLen_div B hbuf sz)
  obtain ⟨p, hp⟩ : ∃ p, seqGetFastSliceIndexes w o.len index = .ok p :=
    ⟨_, seqGetFastSliceIndexes_eq holen hindex⟩
  obtain ⟨fast, slice⟩ := p
  simp only [memviewAssign, hp, ho.typecode, ho.items, hsz, bind, Except.bind] at hrs
  cases fast with
  | false => cases hrs
  | true =>
    obtain ⟨h1, h2, h3⟩ := fast_bounds holen hindex hp
    cases hsrc : value.srcLen B sz with
    | error e =>
      rw [hsrc] at hrs
      cases hrs
    | ok srcLen =>
      simp only [hsrc, if_true] at hrs
      split at hrs
      · cases hrs
      · split at hrs
        · cases hrs
        · next hadj =>
            cases hrs
            have hn : ((srcLen : ℕ) : ℤ) < 2 ^ w := by
              exact_mod_cast SliceSrc.srcLen_lt hvalue hsrc
            have hpow : (2 : ℤ) ^ (w - 1) ≤ 2 ^ w :=
              pow_le_pow_right₀ (by decide) (Nat.sub_le w 1)
            have hlt := holen.lt
            have hadj' := not_not.mp hadj
            rw [hadj', eq_of_wordAdd_neg_eq_zero hadj' (by omega) (by omega)]
            exact replaceSliceNoGrow_within h1 h2 h3 (by exact_mod_cast ho.bound)

/-- **A view inside of a buffer is safe.** -/
theorem MemView.Inside.safe : o.Safe B buf where
  range hr := by
    simp only [MemView.range, ho.typecode, ho.items, hsz, bind, Except.bind] at hr
    cases hr
    exact ho.range_within
  elem _ hr := ho.elem_within hsz hr
  assign hindex hvalue hrs := ho.assign_within hbuf hsz hindex hvalue hrs
  buffer hinfo := ho.buffer_within hsz hinfo

end Inside

/-- A view that is not inside of the elements of a buffer is not in its bytes. -/
theorem MemView.Safe.bound (hsz : nativeSize B buf.typecode = .ok sz)
    (ht : o.typecode = buf.typecode) (hi : o.items = buf.buf) (ho : o.Safe B buf) :
    o.memviewOffset + o.len ≤ buf.len / sz := by
  have hr : o.range B = .ok ⟨o.items + o.memviewOffset * sz, o.len * sz⟩ := by
    rw [MemView.range, ht, hsz]
    rfl
  have hstop := (ho.range hr).stop
  dsimp only at hstop
  rw [hi] at hstop
  rw [Nat.le_div_iff_mul_le (nativeSize_pos hsz), Nat.add_mul]
  have : ((o.memviewOffset * sz + o.len * sz : ℕ) : ℤ) ≤ buf.len := by
    push_cast
    linarith
  exact_mod_cast this

/-- **A memory view and all that is sliced off from it touch only bytes of the buffer, unless the
end of the view overflows the word.** -/
theorem memview_chain_safe_iff (hbuf : (buf.len : ℤ) < 2 ^ (w - 1)) {args : MemviewArgs}
    (ha : args.Words w) :
    (∀ (chain : List SliceObj) (v : MemView), (∀ s ∈ chain, s.Valid w) →
        (memoryviewInit B buf args >>= fun o => memviewSlices w o chain) = .ok v → v.Safe B buf) ↔
      ∀ sz, nativeSize B buf.typecode = .ok sz → args.Fit w (buf.len / sz : ℕ) := by
  constructor
  · intro hsafe sz hsz
    obtain ⟨v, hv, hiff⟩ := memoryviewInit_inside_iff hbuf ha hsz
    have hv' := memoryviewInit_eq hbuf args hsz
    rw [hv] at hv'
    cases hv'
    refine hiff.mp ⟨rfl, rfl, MemView.Safe.bound hsz rfl rfl (hsafe [] _ (by simp) ?_)⟩
    rw [hv]
    rfl
  · intro hfit chain v hchain hv
    cases hsz : nativeSize B buf.typecode with
    | error e =>
      rw [memoryviewInit, hsz] at hv
      cases hv
    | ok sz =>
      obtain ⟨o, ho, hiff⟩ := memoryviewInit_inside_iff hbuf ha hsz
      rw [ho] at hv
      exact (memviewSlices_inside (isLen_div B hbuf sz) hchain (hiff.mpr (hfit sz hsz)) hv).safe
        hbuf hsz

/-- `memoryview(b"abcd", 1, 2)` and its slices are safe. -/
theorem memview_chain_safe_window : MemviewArgs.Words 32 (.window 1 2) ∧
      ∀ (chain : List SliceObj) (v : MemView), (∀ s ∈ chain, s.Valid 32) →
        (memoryviewInit build32 ⟨0, 4, 'B', false⟩ (.window 1 2) >>= fun o =>
          memviewSlices 32 o chain) = .ok v → v.Safe build32 ⟨0, 4, 'B', false⟩ := by
  have hwords : MemviewArgs.Words 32 (.window 1 2) := ⟨⟨by decide, by decide⟩, by decide, by decide⟩
  refine ⟨hwords, (memview_chain_safe_iff (by decide) hwords).mpr fun sz _ => ?_⟩
  intro _ _ hover
  exact absurd hover (by decide)

/-- `memoryview(b"abcd", 1, 0x7fffffff)` reaches beyond the end of the buffer, and its elements
there can be read. -/
theorem memview_window_overflows : MemviewArgs.Words 32 (.window 1 0x7fffffff) ∧
      memoryviewInit build32 ⟨0, 4, 'B', false⟩ (.window 1 0x7fffffff) =
        .ok ⟨0, 'B', false, 1, 0x7fffffff⟩ ∧
      memviewElem build32 ⟨0, 'B', false, 1, 0x7fffffff⟩ 1000 false = .ok ⟨1001, 1⟩ ∧
      ¬(BufferInfo.mk 0 4 'B' false).Within ⟨1001, 1⟩ := by
  refine ⟨⟨⟨by decide, by decide⟩, by decide, by decide⟩, rfl, rfl, ?_⟩
  rintro ⟨-, -, hstop⟩
  exact absurd hstop (by decide)

end Views

end Pycopy
