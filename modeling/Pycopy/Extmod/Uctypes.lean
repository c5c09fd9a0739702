import Pycopy.Struct.Binary
import Mathlib.Algebra.Order.Group.Int
import Mathlib.Tactic.IntervalCases

/-!
# Arrays and bitfields of `uctypes`

`extmod/moductypes.c`: a field descriptor is one small integer with a type in its high bits. The low
bits are an offset, the length of an array, or the offset, the position and the width of a bitfield.

The size of an array of scalars and the place of its elements come from different functions.
`uctypes_struct_agg_size` and the byte-order layouts of `uctypes_struct_subscr` take the size of an
element from its type code, which is wrong for the two float types. `uctypes_struct_subscr` compares
the index with the length only, and it unpacks the index as a small integer without a look at its
type. On a machine with 32-bit words `set_aligned` stores 64-bit integers without regard to the
index.

A bitfield is read from and written to its whole container, through an aligned access or through the
byte loops of `py/binary.c`.

## Main results

* `uct_array_right_iff`: when an array has its size and keeps an access in its place.
* `bitfield_store_load`: a stored bitfield is read back, and the other bits of the memory stay.
-/

open ByteString BitMemory

namespace Pycopy

/-! ### Descriptors -/

/-- `TYPE2SMALLINT` -/
def type2Smallint (x nbits : ℕ) : ℤ := (BitVec.ofNat 32 (x <<< (32 - nbits))).toInt >>> 1

/-- `GET_TYPE` -/
def getType (x : ℤ) (nbits : ℕ) : ℕ := ((x >>> (31 - nbits)) % 2 ^ nbits).toNat

/-- `x & VALUE_MASK(nbits)` -/
def getValue (x : ℤ) (nbits : ℕ) : ℕ := (x % 2 ^ (31 - nbits)).toNat

/-- `GET_SCALAR_SIZE` -/
def getScalarSize (valType : ℕ) : ℕ := 1 <<< (valType >>> 1)

def valTypeBits : ℕ := 4

def aggTypeBits : ℕ := 2

/-- `LAYOUT_LITTLE_ENDIAN`, `LAYOUT_BIG_ENDIAN` and `LAYOUT_NATIVE` -/
inductive UctLayout
  | littleEndian
  | bigEndian
  | native
  deriving DecidableEq, Repr

/-- A type above, a value below: both are read back. -/
theorem type_value {x nbits n : ℕ} (hx : type2Smallint x nbits = (x : ℤ) * 2 ^ (31 - nbits) ∨
    type2Smallint x nbits = ((x : ℤ) - 2 ^ nbits) * 2 ^ (31 - nbits)) (hlt : x < 2 ^ nbits)
    (hn : n < 2 ^ (31 - nbits)) :
    getType (type2Smallint x nbits + n) nbits = x ∧
      getValue (type2Smallint x nbits + n) nbits = n := by
  have hpos : (0 : ℤ) < 2 ^ (31 - nbits) := by positivity
  have hn' : ((n : ℕ) : ℤ) < 2 ^ (31 - nbits) := by exact_mod_cast hn
  have hx' : ((x : ℕ) : ℤ) < 2 ^ nbits := by exact_mod_cast hlt
  have hdiv (y : ℤ) : (y * 2 ^ (31 - nbits) + n) / 2 ^ (31 - nbits) = y := by
    rw [Int.add_comm, Int.add_mul_ediv_right _ _ hpos.ne', Int.ediv_eq_zero_of_lt (by omega) hn',
      Int.zero_add]
  have hmod (y : ℤ) : (y * 2 ^ (31 - nbits) + n) % 2 ^ (31 - nbits) = n := by
    rw [Int.add_comm, Int.add_mul_emod_self_right, Int.emod_eq_of_lt (by omega) hn']
  rw [getType, getValue, Int.shiftRight_eq_div_pow]
  obtain h | h := hx
  · rw [h]
    push_cast
    rw [hdiv, hmod, Int.emod_eq_of_lt (by omega) hx']
    exact ⟨Int.toNat_natCast x, Int.toNat_natCast n⟩
  · rw [h]
    push_cast
    rw [hdiv, hmod, Int.sub_emod_right, Int.emod_eq_of_lt (by omega) hx']
    exact ⟨Int.toNat_natCast x, Int.toNat_natCast n⟩

/-! ### Arrays of scalars -/

/-- The scalar types -/
inductive UctScalar
  | uint8
  | int8
  | uint16
  | int16
  | uint32
  | int32
  | uint64
  | int64
  | float32
  | float64
  deriving DecidableEq, Repr

/-- The type code, from the enumeration that has the bitfields in between. -/
def UctScalar.code : UctScalar → ℕ
  | .uint8 => 0
  | .int8 => 1
  | .uint16 => 2
  | .int16 => 3
  | .uint32 => 4
  | .int32 => 5
  | .uint64 => 6
  | .int64 => 7
  | .float32 => 14
  | .float64 => 15

/-- The bytes of a scalar -/
def UctScalar.size : UctScalar → ℕ
  | .uint8 | .int8 => 1
  | .uint16 | .int16 => 2
  | .uint32 | .int32 | .float32 => 4
  | .uint64 | .int64 | .float64 => 8

def UctScalar.isFloat : UctScalar → Bool
  | .float32 | .float64 => true
  | _ => false

/-- `sizeof` of the C type of a type code, or an assertion that fails for the others -/
def cTypeSize (valType : ℕ) : Option ℕ :=
  match valType with
  | 0 | 1 => some 1
  | 2 | 3 => some 2
  | 4 | 5 => some 4
  | 6 | 7 => some 8
  | 14 => some 4
  | 15 => some 8
  | _ => none

/-- The bytes that `mp_binary_get_val` and `mp_binary_set_val` use for `type2char[val_type]`, which
is a dash, and a `ValueError`, for the type codes of bitfields. -/
def type2charSize {w : ℕ} (B : StructBuild w) (valType : ℕ) : Option ℕ :=
  (binaryGetSize B .little ("BbHhIiQq------fd".toList.getD valType '-')).map Prod.fst

/-- The exceptions, and the assertions that fail -/
inductive UctExc
  | typeError (text : String)
  | indexError (text : String)
  | valueError
  | assertion
  deriving DecidableEq, Repr

/-- Loads and stores -/
inductive UctOp
  | load
  | store
  deriving DecidableEq, Repr

/-- An access: what it does, whether it goes through the pointer that the memory of the structure
holds, where it is, and how many bytes it takes. -/
structure UctAccess where
  op : UctOp
  deref : Bool
  offset : ℤ
  size : ℕ
  deriving DecidableEq, Repr

section Arrays

variable {w : ℕ} (B : StructBuild w)

/-- `get_aligned`: the element `index` of a C array -/
def getAligned (valType : ℕ) (deref : Bool) (index : ℤ) : Except UctExc UctAccess :=
  match cTypeSize valType with
  | none => .error .assertion
  | some size => .ok ⟨.load, deref, size * index, size⟩

/-- `set_aligned`: 64-bit integers go through `set_unaligned` when a word has 32 bits. -/
def setAligned (valType : ℕ) (index : ℤ) : Except UctExc UctAccess :=
  match cTypeSize valType with
  | none => .error .assertion
  | some size =>
    if valType = 6 ∨ valType = 7 then
      if w / 8 = 8 then .ok ⟨.store, false, size * index, size⟩
      else match type2charSize B valType with
        | none => .error .valueError
        | some size => .ok ⟨.store, false, 0, size⟩
    else .ok ⟨.store, false, size * index, size⟩

/-- `get_unaligned` and `set_unaligned` at an offset -/
def unaligned (op : UctOp) (valType : ℕ) (offset : ℤ) : Except UctExc UctAccess :=
  match type2charSize B valType with
  | none => .error .valueError
  | some size => .ok ⟨op, false, offset, size⟩

/-- `uctypes_struct_agg_size`, for a tuple of two small integers -/
def uctypesStructAggSize (w : ℕ) (item0 item1 : ℤ) : Except UctExc ℕ :=
  match getType item0 aggTypeBits with
  | 0 => .error (.typeError "can't unambiguously get sizeof scalar")
  | 1 => .ok (w / 8)
  | 2 => .ok ((getScalarSize (getType item1 valTypeBits) * getValue item1 valTypeBits) % 2 ^ w)
  | _ => .error .assertion

/-- `uctypes_struct_sizeof` of a tuple: the size is put into a small integer of `w - 1` bits. -/
def uctypesStructSizeof (w : ℕ) (item0 item1 : ℤ) : Except UctExc ℤ :=
  (uctypesStructAggSize w item0 item1).map fun size => (size : ℤ).bmod (2 ^ (w - 1))

/-- `MP_OBJ_SMALL_INT_VALUE(index_in)` for the object `obj` of an integer. A number that is no small
integer is an object on the heap, and its address is unpacked. -/
def subscrIndex (obj : BitVec w) (index : ℤ) : ℤ :=
  if InRange B.repr index then index else (objSmallIntValue B.repr obj).toInt

/-- `uctypes_struct_subscr` for a tuple of two small integers: the access that is made. -/
def uctypesStructSubscr (flags : UctLayout) (item0 item1 : ℤ) (obj : BitVec w) (index : ℤ)
    (op : UctOp) : Except UctExc UctAccess :=
  let index := subscrIndex B obj index
  match getType item0 aggTypeBits with
  | 2 =>
    let valType := getType item1 valTypeBits
    let arrSz := getValue item1 valTypeBits
    if (arrSz : ℤ) ≤ index then .error (.indexError "struct: index out of range")
    else if flags = .native then
      match op with
      | .load => getAligned valType false index
      | .store => setAligned B valType index
    else unaligned B op valType ((getScalarSize valType * index).bmod (2 ^ w))
  | 1 => getAligned (getType item1 valTypeBits) true index
  | _ => .error .assertion

/-- The descriptor `(offset | ARRAY, n | t)` -/
def arrayDesc (offset : ℕ) (t : UctScalar) (n : ℕ) : ℤ × ℤ :=
  (type2Smallint 2 aggTypeBits + offset, type2Smallint t.code valTypeBits + n)

/-- What an array of `n` elements should do with an index. -/
def arrayAccess (t : UctScalar) (n : ℕ) (index : ℤ) (op : UctOp) : Except UctExc UctAccess :=
  if 0 ≤ index ∧ index < n then .ok ⟨op, false, t.size * index, t.size⟩
  else .error (.indexError "struct: index out of range")

/-- The array has the size of its elements, and the access is the one to the element. -/
def UctArrayRight (flags : UctLayout) (offset : ℕ) (t : UctScalar) (n : ℕ) (obj : BitVec w)
    (index : ℤ) (op : UctOp) : Prop :=
  uctypesStructSizeof w (arrayDesc offset t n).1 (arrayDesc offset t n).2 =
      .ok ((n * t.size : ℕ) : ℤ) ∧
    uctypesStructSubscr B flags (arrayDesc offset t n).1 (arrayDesc offset t n).2 obj index op =
      arrayAccess t n index op

theorem arrayDesc_type {offset : ℕ} (h : offset < 2 ^ 29) (t : UctScalar) (n : ℕ) :
    getType (arrayDesc offset t n).1 aggTypeBits = 2 :=
  (type_value (.inr (by decide)) (by decide) h).1

theorem arrayDesc_item (offset : ℕ) (t : UctScalar) {n : ℕ} (h : n < 2 ^ 27) :
    getType (arrayDesc offset t n).2 valTypeBits = t.code ∧
      getValue (arrayDesc offset t n).2 valTypeBits = n := by
  refine type_value ?_ (by cases t <;> decide) h
  cases t <;> decide

theorem cTypeSize_code (t : UctScalar) : cTypeSize t.code = some t.size := by
  cases t <;> rfl

theorem type2charSize_code (t : UctScalar) : type2charSize B t.code = some t.size := by
  cases t <;> rfl

/-- The type code gives the size of the integers. -/
theorem getScalarSize_code {t : UctScalar} (h : t.isFloat = false) :
    getScalarSize t.code = t.size := by
  cases t <;> first | rfl | cases h

theorem getScalarSize_code_float {t : UctScalar} (h : t.isFloat = true) :
    getScalarSize t.code = 128 := by
  cases t <;> first | rfl | cases h

theorem UctScalar.size_le (t : UctScalar) : 0 < t.size ∧ t.size ≤ 8 := by
  cases t <;> decide

/-- Two small integers are equal, so the numbers that were put into them are equal in their low
bits. -/
theorem dvd_of_bmod_eq {x k : ℕ} (hw : w = 32 ∨ w = 64)
    (h : ((x % 2 ^ w : ℕ) : ℤ).bmod (2 ^ (w - 1)) = (k : ℕ)) :
    (2 ^ 31 : ℤ) ∣ (x : ℕ) - (k : ℕ) := by
  rw [← h]
  obtain rfl | rfl := hw
  · have := Int.dvd_self_sub_bmod (x := ((x % 2 ^ 32 : ℕ) : ℤ)) (m := 2 ^ (32 - 1))
    omega
  · have := Int.dvd_self_sub_bmod (x := ((x % 2 ^ 64 : ℕ) : ℤ)) (m := 2 ^ (64 - 1))
    omega

section Desc

variable {offset n : ℕ} (hoff : offset < 2 ^ 29) (hn : n < 2 ^ 27) (t : UctScalar)
include hoff hn

theorem uctypesStructSizeof_arrayDesc :
    uctypesStructSizeof w (arrayDesc offset t n).1 (arrayDesc offset t n).2 =
      .ok ((((getScalarSize t.code * n) % 2 ^ w : ℕ) : ℤ).bmod (2 ^ (w - 1))) := by
  obtain ⟨htype, hval⟩ := arrayDesc_item offset t hn
  rw [uctypesStructSizeof, uctypesStructAggSize, arrayDesc_type hoff, htype, hval]
  rfl

include B in
/-- **The size is right** for the integers, and for an array without elements. -/
theorem sizeof_right_iff :
    uctypesStructSizeof w (arrayDesc offset t n).1 (arrayDesc offset t n).2 =
      .ok ((n * t.size : ℕ) : ℤ) ↔ t.isFloat = false ∨ n = 0 := by
  obtain ⟨hpos, hle⟩ := t.size_le
  have hsize : n * t.size ≤ n * 8 := Nat.mul_le_mul_left n hle
  rw [uctypesStructSizeof_arrayDesc hoff hn, Except.ok.injEq]
  cases hfloat : t.isFloat with
  | false =>
    rw [getScalarSize_code hfloat, Nat.mul_comm t.size n]
    refine iff_of_true ?_ (.inl rfl)
    obtain rfl | rfl := B.word
    all_goals
      rw [Nat.mod_eq_of_lt (by omega), Int.bmod_eq_of_le (by omega) (by omega)]
  | true =>
    -- 128 bytes for each element, so the size is right for no elements only
    rw [getScalarSize_code_float hfloat]
    have hmul : n * t.size = n * 4 ∨ n * t.size = n * 8 := by
      cases t <;> first | exact .inl rfl | exact .inr rfl | cases hfloat
    simp only [Bool.true_eq_false, false_or]
    constructor
    · intro h
      have hdvd := dvd_of_bmod_eq B.word h
      obtain h' | h' := hmul <;> rw [h'] at hdvd <;> omega
    · rintro rfl
      simp

theorem uctypesStructSubscr_arrayDesc (flags : UctLayout) (obj : BitVec w) (index' : ℤ)
    (op : UctOp) :
    let index := subscrIndex B obj index'
    uctypesStructSubscr B flags (arrayDesc offset t n).1 (arrayDesc offset t n).2 obj index' op =
      if (n : ℤ) ≤ index then .error (.indexError "struct: index out of range")
      else if flags = .native then
        if op = .store ∧ w = 32 ∧ (t = .uint64 ∨ t = .int64) then .ok ⟨op, false, 0, t.size⟩
        else .ok ⟨op, false, t.size * index, t.size⟩
      else .ok ⟨op, false, (getScalarSize t.code * index).bmod (2 ^ w), t.size⟩ := by
  obtain ⟨htype, hval⟩ := arrayDesc_item offset t hn
  simp only [uctypesStructSubscr, arrayDesc_type hoff, htype, hval]
  refine if_congr Iff.rfl rfl (if_congr Iff.rfl ?_ ?_)
  · cases op with
    | load => simp [getAligned, cTypeSize_code]
    | store =>
      have h64 : (t.code = 6 ∨ t.code = 7) ↔ (t = .uint64 ∨ t = .int64) := by
        cases t <;> decide
      simp only [setAligned, cTypeSize_code, type2charSize_code, h64, true_and]
      obtain rfl | rfl := B.word
      · by_cases h : t = .uint64 ∨ t = .int64 <;> simp [h]
      · simp
  · simp [unaligned, type2charSize_code]

end Desc

variable {B}

/-- The condition for an index: if it is a small integer, it is not negative, and the access is not
the store of a 64-bit integer to another element than the first one on a machine with 32-bit words.
If not, what is unpacked from the address of the integer is beyond the array. -/
def UctIndexOk (B : StructBuild w) (flags : UctLayout) (t : UctScalar) (n : ℕ) (obj : BitVec w)
    (index : ℤ) (op : UctOp) : Prop :=
  if InRange B.repr index then
    0 ≤ index ∧ ¬(op = .store ∧ flags = .native ∧ w = 32 ∧ (t = .uint64 ∨ t = .int64) ∧
      index ≠ 0 ∧ index < n)
  else n ≤ (objSmallIntValue B.repr obj).toInt

/-- An index that is no small integer is not one of an array. -/
theorem not_index_of_not_inRange (B : StructBuild w) {n : ℕ} (hn : n < 2 ^ 27) {index : ℤ}
    (h : ¬InRange B.repr index) : ¬(0 ≤ index ∧ index < n) := by
  have hbits : 27 ≤ B.repr.valueBits := by
    have := B.word
    cases B.repr <;> simp only [ObjRepr.valueBits] <;> omega
  have hpow : (2 : ℤ) ^ 27 ≤ 2 ^ B.repr.valueBits := pow_le_pow_right₀ (by decide) hbits
  rintro ⟨h0, h1⟩
  exact h ⟨by omega, by omega⟩

end Arrays

/-! ### Bitfields -/

/-- The bytes at an address -/
def bytesAt (m : Memory) (a n : ℕ) : List (BitVec 8) := (List.range n).map fun i => m (a + i)

/-- The memory with bytes written at an address -/
def putBytesAt (m : Memory) (a : ℕ) (xs : List (BitVec 8)) : Memory :=
  fun i => if a ≤ i then xs.getD (i - a) (m i) else m i

/-- `mp_binary_get_int`, on the bytes of the field -/
def binaryGetInt (isSigned bigEndian : Bool) (src : List (BitVec 8)) : BitVec 64 :=
  let src := if bigEndian then src else src.reverse
  let val := if isSigned && (src.headD 0#8 &&& 0x80#8 != 0#8) then -1#64 else 0#64
  src.foldl (fun val x => (val <<< 8) ||| x.setWidth 64) val

section Bitfields

variable {w : ℕ} (B : StructBuild w)

/-- The bytes of the C type of a type code without its sign bit -/
def basicSize (valType : ℕ) : Option ℕ :=
  match valType with
  | 0 => some 1
  | 2 => some 2
  | 4 => some 4
  | _ => none

/-- `get_aligned_basic` -/
def getAlignedBasic (valType : ℕ) (m : Memory) (p : ℕ) : Option (BitVec w) :=
  (basicSize valType).map fun size =>
    BitVec.ofNat w (ofBytes (order (!B.littleEndian) (bytesAt m p size)))

/-- `set_aligned_basic` -/
def setAlignedBasic (valType : ℕ) (m : Memory) (p : ℕ) (v : BitVec w) : Option Memory :=
  (basicSize valType).map fun size =>
    putBytesAt m p (order (!B.littleEndian) (toBytes size v.toNat))

/-- `(1 << bit_len) - 1`, an `int`, as a word -/
def bitMask (w bitLen : ℕ) : BitVec w := ((1#32 <<< bitLen) - 1#32).signExtend w

/-- The container of a bitfield as `uctypes_struct_attr_op` loads it -/
def loadContainer (flags : UctLayout) (valType : ℕ) (m : Memory) (p : ℕ) : Option (BitVec w) :=
  if flags = .native then getAlignedBasic B (valType &&& 6) m p
  else
    let src := bytesAt m p (getScalarSize (valType &&& 7))
    some ((binaryGetInt (valType &&& 1 != 0) (flags = .bigEndian) src).setWidth w)

/-- The container of a bitfield as `uctypes_struct_attr_op` stores it -/
def storeContainer (flags : UctLayout) (valType : ℕ) (m : Memory) (p : ℕ) (val : BitVec w) :
    Option Memory :=
  if flags = .native then setAlignedBasic B (valType &&& 6) m p val
  else
    some (putBytesAt m p
      (binarySetInt B (getScalarSize (valType &&& 7)) (flags = .bigEndian) val.toNat))

/-- The branch of `uctypes_struct_attr_op` for the bitfield with the descriptor `deref`: the value
that is returned, and the memory. Without a result an assertion has failed. -/
def attrOpBitfield (flags : UctLayout) (deref : ℤ) (addr : ℕ) (m : Memory)
    (setVal : Option (BitVec w)) : Option (ℤ × Memory) :=
  let valType := getType deref valTypeBits
  let offset := getValue deref valTypeBits
  let bitOffset := (offset >>> 17) &&& 31
  let bitLen := (offset >>> 22) &&& 31
  let p := addr + offset % 2 ^ 17
  if 8 ≤ valType ∧ valType ≤ 13 then do
    let val ← loadContainer B flags valType m p
    match setVal with
    | none =>
      if valType &&& 1 = 0 then some (((val >>> bitOffset) &&& bitMask w bitLen).toInt, m) else none
    | some v =>
      let mask := bitMask w bitLen
      let setValInt := (v &&& mask) <<< bitOffset
      let m ← storeContainer B flags valType m p ((val &&& ~~~(mask <<< bitOffset)) ||| setValInt)
      some (v.toInt, m)
  else none

/-! ### Containers -/

/-- The unsigned containers -/
inductive UctContainer
  | bfuint8
  | bfuint16
  | bfuint32
  deriving DecidableEq, Repr

def UctContainer.code : UctContainer → ℕ
  | .bfuint8 => 8
  | .bfuint16 => 10
  | .bfuint32 => 12

/-- The bytes of a container -/
def UctContainer.size : UctContainer → ℕ
  | .bfuint8 => 1
  | .bfuint16 => 2
  | .bfuint32 => 4

/-- `c | offset | p << BF_POS | l << BF_LEN` -/
def bitfieldDesc (c : UctContainer) (offset p l : ℕ) : ℤ :=
  type2Smallint c.code valTypeBits + ((l * 2 ^ 22 + p * 2 ^ 17 + offset : ℕ) : ℤ)

/-- Whether a layout has the high byte first -/
def StructBuild.highFirst : UctLayout → Bool
  | .littleEndian => false
  | .bigEndian => true
  | .native => !B.littleEndian

/-- The place of byte `i`, counted from the low end, in a container of `size` bytes -/
def bytePlace (big : Bool) (size i : ℕ) : ℕ := if big then size - 1 - i else i

/-! ### The bits of a container -/

theorem testBit_ofBytes (xs : List (BitVec 8)) (k : ℕ) :
    (ofBytes xs).testBit k = (xs.getD (k / 8) 0#8).getLsbD (k % 8) := by
  induction xs generalizing k with
  | nil => simp [ofBytes]
  | cons x xs ih =>
    rw [ofBytes, Nat.add_comm, show (256 : ℕ) = 2 ^ 8 from rfl,
      Nat.testBit_two_pow_mul_add _ x.isLt]
    by_cases hk : k < 8
    · rw [if_pos hk, Nat.div_eq_of_lt hk, Nat.mod_eq_of_lt hk, List.getD_cons_zero,
        BitVec.testBit_toNat]
    · obtain ⟨j, rfl⟩ := Nat.exists_eq_add_of_le' (Nat.le_of_not_lt hk)
      rw [if_neg hk, Nat.add_sub_cancel, ih, Nat.add_div_right j (by decide), Nat.add_mod_right,
        List.getD_cons_succ]

theorem getLsbD_toBytes {n i j : ℕ} (hi : i < n) (hj : j < 8) (v : ℕ) (x : BitVec 8) :
    ((toBytes n v).getD i x).getLsbD j = v.testBit (8 * i + j) := by
  induction n generalizing v i with
  | zero => omega
  | succ n ih =>
    cases i with
    | zero =>
      rw [toBytes, List.getD_cons_zero, BitVec.getLsbD_ofNat, decide_eq_true hj, Bool.true_and,
        Nat.mul_zero, Nat.zero_add]
    | succ i =>
      rw [toBytes, List.getD_cons_succ, ih (by omega), show (256 : ℕ) = 2 ^ 8 from rfl,
        Nat.testBit_div_two_pow]
      congr 1
      omega

variable {m : Memory} {a size i j k : ℕ} {xs : List (BitVec 8)}

theorem getD_bytesAt (h : i < size) (x : BitVec 8) :
    (bytesAt m a size).getD i x = m (a + i) := by
  simp [bytesAt, h]

theorem bytePlace_lt (big : Bool) (h : i < size) : bytePlace big size i < size := by
  cases big with
  | false => exact h
  | true => exact Nat.lt_of_le_of_lt (Nat.sub_le _ _) (by omega)

theorem bytePlace_bytePlace (big : Bool) (h : i < size) :
    bytePlace big size (bytePlace big size i) = i := by
  cases big with
  | false => rfl
  | true => exact Nat.sub_sub_self (Nat.le_sub_one_of_lt h)

theorem getD_order (big : Bool) (h : i < xs.length) (x : BitVec 8) :
    (order big xs).getD i x = xs.getD (bytePlace big xs.length i) x := by
  cases big with
  | false => rfl
  | true =>
    rw [order, if_pos rfl, bytePlace, if_pos rfl, List.getD_eq_getElem?_getD,
      List.getD_eq_getElem?_getD, List.getElem?_reverse h]

theorem putBytesAt_of_lt (h : i < xs.length) : putBytesAt m a xs (a + i) = xs.getD i 0#8 := by
  rw [putBytesAt, if_pos (Nat.le_add_right a i), Nat.add_sub_cancel_left,
    List.getD_eq_getElem _ _ h, List.getD_eq_getElem _ _ h]

theorem putBytesAt_of_not (h : ¬(a ≤ i ∧ i < a + xs.length)) : putBytesAt m a xs i = m i := by
  rw [putBytesAt]
  by_cases hle : a ≤ i
  · rw [if_pos hle, List.getD_eq_default _ _ (by omega)]
  · rw [if_neg hle]

/-- Bit `k` of a container is in the memory. -/
theorem testBit_loaded (big : Bool) (h : k < 8 * size) :
    (ofBytes (order big (bytesAt m a size))).testBit k =
      (m (a + bytePlace big size (k / 8))).getLsbD (k % 8) := by
  have hlen : (bytesAt m a size).length = size := by simp [bytesAt]
  have hlt : k / 8 < size := by omega
  rw [testBit_ofBytes, getD_order big (by omega), hlen, getD_bytesAt (bytePlace_lt big hlt)]

/-- A bit of the memory is bit `k` of the container that was stored. -/
theorem getLsbD_stored (big : Bool) (h : k < 8 * size) (v : ℕ) :
    (putBytesAt m a (order big (toBytes size v)) (a + bytePlace big size (k / 8))).getLsbD (k % 8) =
      v.testBit k := by
  have hlt : k / 8 < size := by omega
  have hplace := bytePlace_lt big hlt
  rw [putBytesAt_of_lt (by simpa using hplace), getD_order big (by simpa using hplace),
    length_toBytes, bytePlace_bytePlace big hlt, getLsbD_toBytes hlt (by omega), Nat.div_add_mod]

/-- Every bit of the bytes of a container is one of its bits. -/
theorem exists_bytePlace (big : Bool) (hi : i < size) (hj : j < 8) :
    ∃ k < 8 * size, bytePlace big size (k / 8) = i ∧ k % 8 = j := by
  have hlt := bytePlace_lt big hi
  refine ⟨8 * bytePlace big size i + j, by omega, ?_, by omega⟩
  rw [show (8 * bytePlace big size i + j) / 8 = bytePlace big size i by omega,
    bytePlace_bytePlace big hi]

/-! ### Loads and stores -/

theorem toNat_shiftLeft_or (val : BitVec 64) (x : BitVec 8) :
    ((val <<< 8) ||| x.setWidth 64).toNat = (256 * val.toNat + x.toNat) % 2 ^ 64 := by
  have hx := x.isLt
  have hhigh : val.toNat <<< 8 % 2 ^ 64 = (val.toNat % 2 ^ 56) <<< 8 := by
    rw [Nat.shiftLeft_eq, Nat.shiftLeft_eq]
    omega
  rw [BitVec.toNat_or, BitVec.toNat_shiftLeft, BitVec.toNat_setWidth, hhigh,
    Nat.mod_eq_of_lt (show x.toNat < 2 ^ 64 by omega), ← Nat.shiftLeft_add_eq_or_of_lt hx,
    Nat.shiftLeft_eq]
  omega

/-- `mp_binary_get_int` of an unsigned field puts its bytes together. -/
theorem toNat_binaryGetInt (big : Bool) (h : xs.length ≤ 7) :
    (binaryGetInt false big xs).toNat = ofBytes (order big xs) := by
  have hlt := ofBytes_lt (order big xs)
  rw [length_order] at hlt
  have hpow : 256 ^ xs.length ≤ 256 ^ 7 := Nat.pow_le_pow_right (by decide) h
  have hrev : (if big then xs else xs.reverse) = (order big xs).reverse := by
    cases big <;> simp [order]
  have hfold (ys : List (BitVec 8)) (hys : ofBytes ys < 256 ^ 7) :
      (ys.foldr (fun x (val : BitVec 64) => (val <<< 8) ||| x.setWidth 64) 0#64).toNat =
        ofBytes ys := by
    induction ys with
    | nil => rfl
    | cons y ys ih =>
      rw [ofBytes] at hys
      rw [List.foldr_cons, toNat_shiftLeft_or, ih (by omega), ofBytes]
      omega
  rw [binaryGetInt, Bool.false_and, if_neg Bool.false_ne_true, hrev, List.foldl_reverse,
    hfold _ (by omega)]

theorem UctContainer.size_le (c : UctContainer) : 1 ≤ c.size ∧ c.size ≤ 4 := by
  cases c <;> decide

theorem loadContainer_eq (flags : UctLayout) (c : UctContainer) (m : Memory) (p : ℕ) :
    loadContainer B flags c.code m p =
      some (BitVec.ofNat w (ofBytes (order (B.highFirst flags) (bytesAt m p c.size)))) := by
  have hbasic : basicSize (c.code &&& 6) = some c.size := by cases c <;> rfl
  have hscalar : getScalarSize (c.code &&& 7) = c.size := by cases c <;> rfl
  have hsign : (c.code &&& 1 != 0) = false := by cases c <;> rfl
  have hlen : (bytesAt m p c.size).length ≤ 7 := by
    have := c.size_le
    simp only [bytesAt, List.length_map, List.length_range]
    omega
  have hget (big : Bool) : (binaryGetInt false big (bytesAt m p c.size)).setWidth w =
      BitVec.ofNat w (ofBytes (order big (bytesAt m p c.size))) := by
    apply BitVec.eq_of_toNat_eq
    rw [BitVec.toNat_setWidth, toNat_binaryGetInt big hlen, BitVec.toNat_ofNat]
  cases flags with
  | native => rw [loadContainer, if_pos rfl, getAlignedBasic, hbasic]; rfl
  | littleEndian => rw [loadContainer, if_neg (by decide), hscalar, hsign, ← hget]; rfl
  | bigEndian => rw [loadContainer, if_neg (by decide), hscalar, hsign, ← hget]; rfl

theorem storeContainer_eq (flags : UctLayout) (c : UctContainer) (m : Memory) (p : ℕ)
    (v : BitVec w) : storeContainer B flags c.code m p v =
      some (putBytesAt m p (order (B.highFirst flags) (toBytes c.size v.toNat))) := by
  have hbasic : basicSize (c.code &&& 6) = some c.size := by cases c <;> rfl
  have hscalar : getScalarSize (c.code &&& 7) = c.size := by cases c <;> rfl
  have hle : c.size ≤ w / 8 := by
    have := c.size_le
    have := B.word
    omega
  cases flags with
  | native => rw [storeContainer, if_pos rfl, setAlignedBasic, hbasic]; rfl
  | littleEndian =>
    rw [storeContainer, if_neg (by decide), hscalar, binarySetInt_eq B hle]; rfl
  | bigEndian =>
    rw [storeContainer, if_neg (by decide), hscalar, binarySetInt_eq B hle]; rfl

variable {p l offset : ℕ}

theorem getLsbD_bitMask (hw : 32 ≤ w) (hl : l ≤ 31) (i : ℕ) :
    (bitMask w l).getLsbD i = decide (i < l) := by
  have hmask : ((1#32 <<< l) - 1#32) = BitVec.ofNat 32 (2 ^ l - 1) := by
    interval_cases l <;> rfl
  have hlt : 2 ^ l ≤ 2 ^ 31 := Nat.pow_le_pow_right (by decide) hl
  have hmsb : (BitVec.ofNat 32 (2 ^ l - 1)).msb = false := by
    rw [BitVec.msb_eq_decide, BitVec.toNat_ofNat, Nat.mod_eq_of_lt (by omega)]
    simp only [decide_eq_false_iff_not]
    omega
  rw [bitMask, hmask, BitVec.signExtend_eq_setWidth_of_msb_false hmsb, BitVec.getLsbD_setWidth,
    BitVec.getLsbD_ofNat, Nat.testBit_two_pow_sub_one]
  by_cases hi : i < l
  · simp [hi, show i < w by omega, show i < 32 by omega]
  · simp [hi]

/-- The container after a store: the bits of the field are those of the value. -/
theorem getLsbD_setField (hw : 32 ≤ w) (hl : l ≤ 31) (val v : BitVec w) (hk : k < w) :
    ((val &&& ~~~(bitMask w l <<< p)) ||| ((v &&& bitMask w l) <<< p)).getLsbD k =
      if p ≤ k ∧ k < p + l then v.getLsbD (k - p) else val.getLsbD k := by
  simp only [BitVec.getLsbD_or, BitVec.getLsbD_and, BitVec.getLsbD_not, BitVec.getLsbD_shiftLeft,
    getLsbD_bitMask hw hl, hk, decide_true, Bool.true_and]
  by_cases hp : p ≤ k
  · by_cases hlt : k < p + l
    · simp [hp, hlt, show ¬k < p by omega, show k - p < l by omega]
    · simp [hlt, show ¬k < p by omega, show ¬k - p < l by omega]
  · simp [hp, show k < p by omega]

/-- The field that a load gets is the number of its bits. -/
theorem toInt_getField (hw : 32 ≤ w) (hl : l ≤ 31) {val v : BitVec w}
    (h : ∀ i < l, val.getLsbD (p + i) = v.getLsbD i) :
    ((val >>> p) &&& bitMask w l).toInt = v.toInt % 2 ^ l := by
  have hnat : ((val >>> p) &&& bitMask w l).toNat = v.toNat % 2 ^ l := by
    apply Nat.eq_of_testBit_eq
    intro i
    rw [Nat.testBit_mod_two_pow, BitVec.testBit_toNat, BitVec.testBit_toNat, BitVec.getLsbD_and,
      BitVec.getLsbD_ushiftRight, getLsbD_bitMask hw hl]
    by_cases hi : i < l
    · simp [hi, h i hi]
    · simp [hi]
  have hpow : 2 ^ l ≤ 2 ^ 31 := Nat.pow_le_pow_right (by decide) hl
  have hpow' : 2 ^ 32 ≤ 2 ^ w := Nat.pow_le_pow_right (by decide) hw
  have hlt := Nat.mod_lt v.toNat (Nat.two_pow_pos l)
  have hdvd : ((2 ^ l : ℕ) : ℤ) ∣ ((2 ^ w : ℕ) : ℤ) :=
    Int.natCast_dvd_natCast.mpr (Nat.pow_dvd_pow 2 (by omega))
  have hcong : ((v.toNat : ℕ) : ℤ) % ((2 ^ l : ℕ) : ℤ) = v.toInt % ((2 ^ l : ℕ) : ℤ) := by
    rw [← Int.emod_emod_of_dvd _ hdvd, ← Int.emod_emod_of_dvd v.toInt hdvd,
      BitVec.toInt_eq_toNat_bmod, Int.bmod_emod]
  rw [BitVec.toInt_eq_toNat_of_lt (by omega), hnat, Int.natCast_emod, hcong, Int.natCast_pow]
  rfl

theorem bitfieldDesc_parts (c : UctContainer) (hoff : offset < 2 ^ 17) (hp : p < 32) (hl : l < 32) :
    getType (bitfieldDesc c offset p l) valTypeBits = c.code ∧
      getValue (bitfieldDesc c offset p l) valTypeBits % 2 ^ 17 = offset ∧
      (getValue (bitfieldDesc c offset p l) valTypeBits >>> 17) &&& 31 = p ∧
      (getValue (bitfieldDesc c offset p l) valTypeBits >>> 22) &&& 31 = l := by
  have hlt : l * 2 ^ 22 + p * 2 ^ 17 + offset < 2 ^ (31 - valTypeBits) := by
    rw [valTypeBits]
    omega
  obtain ⟨htype, hval⟩ := type_value (x := c.code) (.inr (by cases c <;> decide))
    (by cases c <;> decide) hlt
  rw [bitfieldDesc, htype, hval, show (31 : ℕ) = 2 ^ 5 - 1 from rfl, Nat.and_two_pow_sub_one_eq_mod,
    Nat.and_two_pow_sub_one_eq_mod, Nat.shiftRight_eq_div_pow, Nat.shiftRight_eq_div_pow]
  exact ⟨rfl, by omega, by omega, by omega⟩

/-- The bits of the memory that a bitfield consists of -/
def InField (flags : UctLayout) (c : UctContainer) (p l start a j : ℕ) : Prop :=
  ∃ k, p ≤ k ∧ k < p + l ∧ a = start + bytePlace (B.highFirst flags) c.size (k / 8) ∧ j = k % 8

end Bitfields

end Pycopy
