import Pycopy.Map.Set
import Pycopy.Mpz.Arith
import Pycopy.Runtime.SmallInt
import Mathlib.Algebra.BigOperators.Group.Multiset.Basic
import Mathlib.Data.BitVec

/-!
# Equality and Hashes of Objects

`mp_obj_equal` of `py/obj.c` and the hash of `mp_unary_op` in `py/runtime.c`, for booleans, small
and big integers, strings, byte strings, tuples and frozensets.

One value has many representations. An integer may be tagged or have its digits on the heap, and a
big zero may have a sign; a string may be interned or not, and its hash may be computed or not; the
elements of a frozenset may be in any order, in a table of any size. Both functions look at the
representation. They fit together because each depends on the value alone. The value of an integer
is given here by a sign and digits, so that nothing has to be known of the digits of a big integer:
with leading zeros they are equal to no other digits.

A tuple or a frozenset holds objects of a level below, so an object of nesting depth `n` is one of
level `n`; every level comes with the values its objects stand for.

Comparing pointers first, as `mp_obj_equal` does, only shortens the comparison of an object with
itself.

## Main results

* `mpzCmp_eq_zero_iff`: big integers are equal when they have the same digits and, unless they are
  zero, the same sign.
* `setEqual_iff`: the comparison of frozensets finds out whether they have the same elements.
* `equal_iff_view_eq`: two objects are equal when they stand for the same value.
* `mpUnaryOpHash_eq`: the hash is a function of the value.
-/

open DigitList OpenAddressing

namespace Pycopy

variable {w : ℕ}

/-! ### Definitions -/

/-- The build options: `MICROPY_QSTR_BYTES_IN_HASH`, `MICROPY_QSTR_BYTES_IN_LEN`, the width of
`mp_uint_t`, `MICROPY_ALLOC_QSTR_CHUNK_INIT` and whether there is a `MICROPY_QSTR_EXTRA_POOL`.
Constant data lies below `romEnd`, the heap above. -/
structure QstrConfig where
  bytesInHash : ℕ
  bytesInLen : ℕ
  wordBits : ℕ
  chunkInit : ℕ
  extraPool : Bool
  romEnd : ℕ
  bytesInHash_pos : 0 < bytesInHash

/-- `qstr_compute_hash` -/
def qstrComputeHash (C : QstrConfig) (s : List (BitVec 8)) : ℕ :=
  let hash := s.foldl (fun hash x => ((hash <<< 5) + hash) % 2 ^ C.wordBits ^^^ x.toNat) 5381
  let hash := hash % 256 ^ C.bytesInHash
  -- a valid hash is never zero
  if hash = 0 then hash + 1 else hash

/-- The options of a small port. -/
def qstrConfigSmall : QstrConfig where
  bytesInHash := 2
  bytesInLen := 1
  wordBits := 32
  chunkInit := 128
  extraPool := false
  romEnd := 48
  bytesInHash_pos := by decide

/-- `mpz_init_fixed_from_int`, with a buffer of `MPZ_NUM_DIG_FOR_INT` digits -/
def mpzInitFixedFromInt (c : MpzConfig) (val : ℤ) : Except MpzFault Mpz :=
  mpzSetFromInt c ⟨false, true, mpzNumDigForInt c, []⟩ val

/-- The loop of `mpz_hash`, from the highest digit on -/
def mpzHashLoop (c : MpzConfig) (w : ℕ) : List ℕ → BitVec w
  | [] => 0#w
  | d :: ds => mpzHashLoop c w ds <<< c.digSize ||| BitVec.ofNat w d

/-- `mpz_hash` -/
def mpzHash (c : MpzConfig) (w : ℕ) (z : Mpz) : BitVec w :=
  if z.neg then -mpzHashLoop c w z.dig else mpzHashLoop c w z.dig

theorem inRange_bool (r : ObjRepr w) (b : Bool) : InRange r b.toInt := by
  have hlt : (1 : ℤ) < 2 ^ r.valueBits := one_lt_pow₀ (by decide) r.valueBits_ne_zero
  cases b with
  | false => exact ⟨by rw [Bool.toInt_false]; omega, by rw [Bool.toInt_false]; omega⟩
  | true => exact ⟨by rw [Bool.toInt_true]; omega, by rw [Bool.toInt_true]; omega⟩

/-- The hash and the data of an `mp_obj_str_t`; a hash of zero has not been computed. -/
structure StrObj (C : QstrConfig) where
  hash : ℕ
  data : List (BitVec 8)
  hash_eq : hash = 0 ∨ hash = qstrComputeHash C data

/-- The build, with the strings that are interned, and the addresses of the empty tuple and of
`mp_type_frozenset`. -/
structure ObjConfig (w : ℕ) where
  repr : ObjRepr w
  mpz : MpzConfig
  qstr : QstrConfig
  interned : List (StrObj qstr)
  emptyTuple : BitVec w
  frozensetType : BitVec w
  wordSize_eq : mpz.wordSize = w
  digSize_lt : mpz.digSize < w
  interned_hash : ∀ s ∈ interned, s.hash = qstrComputeHash qstr s.data
  interned_nodup : (interned.map StrObj.data).Nodup

/-- A `str`: a qstr, or an object on the heap -/
inductive StrRef (E : ObjConfig w)
  | qstr (q : Fin E.interned.length)
  | heap (s : StrObj E.qstr)

/-- `GET_STR_HASH` and `GET_STR_DATA_LEN` -/
def StrRef.get {E : ObjConfig w} : StrRef E → StrObj E.qstr
  | .qstr q => E.interned.get q
  | .heap s => s

/-- The objects of one level, with the contents of tuples and frozensets in the level below. Small
integers are in range, digits below the base, and the tables of frozensets in order. -/
inductive Obj (E : ObjConfig w) {α : Type} (H : Hashing α)
  | bool (b : Bool)
  | smallInt (v : ℤ) (hv : InRange E.repr v)
  | int (z : Mpz) (hz : Below E.mpz.base z.dig)
  | str (s : StrRef E)
  | bytes (s : StrObj E.qstr)
  | tuple (items : List α)
  | frozenset (set : MpSet α) (hset : set.Good H)

section Level

variable {E : ObjConfig w} {α : Type} {H : Hashing α}

/-- `MP_OBJ_NEW_SMALL_INT(value)` for a bool -/
def Obj.ofBool (b : Bool) : Obj E H := .smallInt b.toInt (inRange_bool E.repr b)

/-- `mp_obj_str_equal` -/
def mpObjStrEqual : StrRef E → StrRef E → Bool
  | .qstr q1, .qstr q2 => q1 == q2
  | s1, s2 =>
    let (s1, s2) := (s1.get, s2.get)
    if s1.hash ≠ 0 ∧ s2.hash ≠ 0 ∧ s1.hash ≠ s2.hash then false else s1.data == s2.data

/-- `mp_obj_int_binary_op` for `MP_BINARY_OP_EQUAL` and a small integer on the right -/
def mpzEqualInt (c : MpzConfig) (z : Mpz) (v : ℤ) : Bool :=
  match mpzInitFixedFromInt c v with
  | .ok zInt => mpzCmp c z zInt == 0
  | .error _ => false

/-- `mp_seq_cmp_objs` for `MP_BINARY_OP_EQUAL` -/
def mpSeqCmpObjs (equal : α → α → Bool) (items1 items2 : List α) : Bool :=
  if items1.length ≠ items2.length then false
  else (items1.zip items2).all fun items => equal items.1 items.2

/-- `set_issubset_internal` for two sets, with `proper` false -/
def setIssubsetInternal (H : Hashing α) (self other : MpSet α) : Bool :=
  self.table.all fun slot =>
    match slot with
    | .filled next => (mpSetLookup H 2 other next .lookup).any fun out => out.1.isSome
    | _ => true

/-- `set_equal` -/
def setEqual (H : Hashing α) (self other : MpSet α) : Bool :=
  if self.used ≠ other.used then false else setIssubsetInternal H self other

/-- `type->binary_op` for `MP_BINARY_OP_EQUAL`, where `again` is `mp_obj_equal`; `MP_OBJ_NULL` is
false. -/
def binaryOpEqual (again : Obj E H → Obj E H → Bool) : Obj E H → Obj E H → Bool
  | .bool b, o2 => again (.ofBool b) o2
  | .int z _, .smallInt v _ => mpzEqualInt E.mpz z v
  | .int z _, .int z2 _ => mpzCmp E.mpz z z2 == 0
  -- the extra cases of `mp_obj_int_binary_op`
  | .int z hz, .bool b => again (.int z hz) (.ofBool b)
  | .bytes s1, .bytes s2 => s1.data == s2.data
  | .tuple items1, .tuple items2 => mpSeqCmpObjs H.equal items1 items2
  | .frozenset set1 _, .frozenset set2 _ => setEqual H set1 set2
  | _, _ => false

/-- The fast path for strings in `mp_obj_equal`, and what follows it -/
def equalNotSmall (again : Obj E H → Obj E H → Bool) : Obj E H → Obj E H → Bool
  | .str s1, .str s2 => mpObjStrEqual s1 s2
  | .str _, _ => false
  | _, .str _ => false
  | o1, o2 => binaryOpEqual again o1 o2

/-- `mp_obj_equal`, with calls nested at most `fuel` deep in one level -/
def Obj.mpObjEqual : ℕ → Obj E H → Obj E H → Bool
  | 0, _, _ => false
  | _ + 1, .smallInt v1 _, .smallInt v2 _ => v1 == v2
  | fuel + 1, .smallInt v1 h1, o2 => equalNotSmall (Obj.mpObjEqual fuel) o2 (.smallInt v1 h1)
  | fuel + 1, o1, o2 => equalNotSmall (Obj.mpObjEqual fuel) o1 o2

/-- The hash of a string in `mp_unary_op` -/
def strHash (E : ObjConfig w) (s : StrObj E.qstr) : BitVec w :=
  objNewSmallInt E.repr
    (BitVec.ofNat w (if s.hash = 0 then qstrComputeHash E.qstr s.data else s.hash))

/-- `mp_unary_op` for `MP_UNARY_OP_HASH`, where `hash` gives the hashes of the level below -/
def mpUnaryOpHash (hash : α → BitVec w) : Obj E H → BitVec w
  | .smallInt v _ => objNewSmallInt E.repr (BitVec.ofInt w v)
  | .str s => strHash E s.get
  | .bytes s => strHash E s
  | .bool b => objNewSmallInt E.repr (BitVec.ofInt w b.toInt)
  | .int z _ => objNewSmallInt E.repr (mpzHash E.mpz w z)
  | .tuple items =>
    objNewSmallInt E.repr
      (items.foldl (fun sum item => sum + objSmallIntValue E.repr (hash item)) E.emptyTuple)
  | .frozenset set _ =>
    objNewSmallInt E.repr
      (set.table.foldl
        (fun sum slot =>
          match slot with
          | .filled elem => sum + objSmallIntValue E.repr (hash elem)
          | _ => sum)
        E.frozensetType)

end Level

/-! ### Values -/

/-- The sign and the digits of a big integer. The sign of zero does not count. -/
def Mpz.key (z : Mpz) : Bool × List ℕ := (z.neg && !z.dig.isEmpty, z.dig)

/-- The sign and the digits of a machine integer -/
def intKey (c : MpzConfig) (v : ℤ) : Bool × List ℕ :=
  (decide (v < 0), Nat.digits c.base v.natAbs)

/-- What the objects of one level stand for, with the contents in the level below -/
inductive View (V : Type)
  | int (key : Bool × List ℕ)
  | str (s : List (BitVec 8))
  | bytes (s : List (BitVec 8))
  | tuple (items : List V)
  | frozenset (elems : Multiset V)

section View

variable {E : ObjConfig w} {α V : Type} {H : Hashing α}

/-- The value of an object -/
def Obj.view (value : α → V) : Obj E H → View V
  | .bool b => .int (intKey E.mpz b.toInt)
  | .smallInt v _ => .int (intKey E.mpz v)
  | .int z _ => .int z.key
  | .str s => .str s.get.data
  | .bytes s => .bytes s.data
  | .tuple items => .tuple (items.map value)
  | .frozenset set _ => .frozenset ((contents set.table).map value)

/-- The hash of a value -/
def View.hash (E : ObjConfig w) (hash : V → BitVec w) : View V → BitVec w
  | .int (neg, dig) =>
    objNewSmallInt E.repr
      (if neg then -mpzHashLoop E.mpz w dig else mpzHashLoop E.mpz w dig)
  | .str s => objNewSmallInt E.repr (BitVec.ofNat w (qstrComputeHash E.qstr s))
  | .bytes s => objNewSmallInt E.repr (BitVec.ofNat w (qstrComputeHash E.qstr s))
  | .tuple items =>
    objNewSmallInt E.repr
      (E.emptyTuple + (items.map fun item => objSmallIntValue E.repr (hash item)).sum)
  | .frozenset elems =>
    objNewSmallInt E.repr
      (E.frozensetType + (elems.map fun elem => objSmallIntValue E.repr (hash elem)).sum)

end View

/-- The objects of one level and their values: equality is equality of values, and the hash is a
function of the value. -/
structure ObjLevel (E : ObjConfig w) where
  Carrier : Type
  Value : Type
  value : Carrier → Value
  equal : Carrier → Carrier → Bool
  hash : Carrier → BitVec w
  valueHash : Value → BitVec w
  equal_iff : ∀ a b, equal a b = true ↔ value a = value b
  hash_eq : ∀ a, hash a = valueHash (value a)

/-- What `mp_set_lookup` needs to know about the elements of a set -/
def ObjLevel.hashing {E : ObjConfig w} (L : ObjLevel E) : Hashing L.Carrier where
  equal := L.equal
  hash a := (objSmallIntValue E.repr (L.hash a)).toNat
  equal_symm a b h := (L.equal_iff b a).mpr ((L.equal_iff a b).mp h).symm
  hash_eq a b h := by rw [L.hash_eq, L.hash_eq, (L.equal_iff a b).mp h]

/-! ### Integers -/

theorem shiftLeft_or_ofNat {k d : ℕ} (n : ℕ) (hd : d < 2 ^ k) :
    BitVec.ofNat w n <<< k ||| BitVec.ofNat w d = BitVec.ofNat w (d + 2 ^ k * n) := by
  refine BitVec.eq_of_toNat_eq ?_
  rw [Nat.add_comm, Nat.two_pow_add_eq_or_of_lt hd, BitVec.toNat_or, BitVec.toNat_shiftLeft,
    BitVec.toNat_ofNat, BitVec.toNat_ofNat, BitVec.toNat_ofNat, Nat.or_mod_two_pow,
    Nat.shiftLeft_eq, Nat.mod_mul_mod, Nat.mul_comm n]

variable {c : MpzConfig}

theorem mpzHashLoop_eq {ds : List ℕ} (hds : Below c.base ds) :
    mpzHashLoop c w ds = BitVec.ofNat w (Nat.ofDigits c.base ds) := by
  induction ds with
  | nil => rfl
  | cons d ds ih =>
    rw [mpzHashLoop, ih fun x hx => hds x (List.mem_cons_of_mem d hx), Nat.ofDigits_cons]
    exact shiftLeft_or_ofNat _ (hds d List.mem_cons_self)

theorem below_digits (c : MpzConfig) (n : ℕ) : Below c.base (Nat.digits c.base n) := by
  intro d hd
  exact Nat.digits_lt_base c.one_lt_base hd

/-- The digits of a machine integer give back its hash. -/
theorem intKey_hash {V : Type} (E : ObjConfig w) (hash : V → BitVec w) (v : ℤ) :
    (View.int (intKey E.mpz v)).hash E hash = objNewSmallInt E.repr (BitVec.ofInt w v) := by
  rw [intKey, View.hash, mpzHashLoop_eq (below_digits _ _), Nat.ofDigits_digits]
  by_cases hneg : v < 0
  · have hv : v = -(v.natAbs : ℤ) := by omega
    rw [if_pos (decide_eq_true hneg)]
    conv_rhs => rw [hv, BitVec.ofInt_neg, BitVec.ofInt_natCast]
  · have hv : v = (v.natAbs : ℤ) := by omega
    rw [if_neg (by rwa [decide_eq_true_eq])]
    conv_rhs => rw [hv, BitVec.ofInt_natCast]

/-- A sign on zero has no effect. -/
theorem key_hash {V : Type} (E : ObjConfig w) (hash : V → BitVec w) (z : Mpz) :
    (View.int z.key).hash E hash = objNewSmallInt E.repr (mpzHash E.mpz w z) := by
  rw [Mpz.key, View.hash, mpzHash]
  cases hdig : z.dig with
  | nil => simp [mpzHashLoop]
  | cons d ds => simp

@[simp] theorem intKey_inj (c : MpzConfig) (v1 v2 : ℤ) : intKey c v1 = intKey c v2 ↔ v1 = v2 := by
  rw [intKey, intKey, Prod.mk.injEq, decide_eq_decide, Nat.digits_inj_iff]
  omega

/-- **Comparison of digits** -/
theorem mpnCmp_eq_zero_iff {idig jdig : List ℕ} (hi : Below c.base idig)
    (hj : Below c.base jdig) : mpnCmp c idig jdig = 0 ↔ idig = jdig := by
  rw [mpnCmp]
  split_ifs with hlt hgt
  · exact iff_of_false (by decide) fun h => by rw [h] at hlt; exact Nat.lt_irrefl _ hlt
  · exact iff_of_false (by decide) fun h => by rw [h] at hgt; exact Nat.lt_irrefl _ hgt
  · have hlen : idig.length = jdig.length := by omega
    rw [mpnCmpLoop_eq_sign (by simpa using hlen) (below_reverse.mpr hi) (below_reverse.mpr hj),
      List.reverse_reverse, List.reverse_reverse, Int.sign_eq_zero_iff_zero, Int.sub_eq_zero,
      Int.natCast_inj]
    exact ⟨Nat.ofDigits_inj_of_len_eq c.one_lt_base hlen hi hj, congrArg _⟩

/-- **Comparison of big integers** -/
theorem mpzCmp_eq_zero_iff {a b : Mpz} (ha : Below c.base a.dig) (hb : Below c.base b.dig) :
    mpzCmp c a b = 0 ↔ a.key = b.key := by
  rw [mpzCmp, Mpz.key, Mpz.key, Prod.mk.injEq, Mpz.len, Mpz.len]
  by_cases hzero : a.dig.length = 0 ∧ b.dig.length = 0
  · obtain ⟨hazero, hbzero⟩ := hzero
    rw [if_pos ⟨hazero, hbzero⟩, List.length_eq_zero_iff.mp hazero,
      List.length_eq_zero_iff.mp hbzero]
    simp
  have hcmp := mpnCmp_eq_zero_iff ha hb
  have hne : a.dig = b.dig → a.dig ≠ [] ∧ b.dig ≠ [] := by
    intro h
    rw [h, and_self, List.length_eq_zero_iff] at hzero
    exact ⟨h ▸ hzero, hzero⟩
  rw [if_neg hzero]
  cases a.neg <;> cases b.neg
  · simpa using hcmp
  -- different signs: the digits cannot be equal and empty
  · simpa using fun hempty hdig => (hne hdig).2 hempty
  · simpa using fun hempty hdig => (hne hdig).1 hempty
  · simp only [sub_self, ne_eq, not_true_eq_false, if_false, if_true, neg_eq_zero, hcmp]
    exact ⟨fun h => ⟨by rw [h], h⟩, And.right⟩

variable {v : ℤ}

/-- A word fits the digits that are set aside for it. -/
theorem mpzInitFixedFromInt_eq (hc : c.digSize < c.wordSize) (hv : v.natAbs < 2 ^ c.wordSize) :
    mpzInitFixedFromInt c v =
      .ok ⟨decide (v < 0), true, mpzNumDigForInt c, Nat.digits c.base v.natAbs⟩ := by
  rw [mpzInitFixedFromInt, mpzSetFromInt]
  by_cases hzero : v = 0
  · subst hzero
    simp
  have hdig := c.four_le_digSize
  have hneed : ¬mpzNumDigForInt c < minAlloc := by
    rw [mpzNumDigForInt, minAlloc, Nat.not_lt, Nat.le_div_iff_mul_le (by omega)]
    omega
  have huval : ((if v < 0 then -v else v) % 2 ^ c.wordSize).toNat = v.natAbs := by
    have habs : (if v < 0 then -v else v) = (v.natAbs : ℤ) := by split <;> omega
    rw [habs, ← Nat.cast_two, ← Nat.cast_pow, ← Int.natCast_mod, Nat.mod_eq_of_lt hv,
      Int.toNat_natCast]
  have hfit : (Nat.digits c.base v.natAbs).length ≤ mpzNumDigForInt c := by
    rw [Nat.digits_length_le_iff c.one_lt_base]
    refine Nat.lt_of_lt_of_le hv ?_
    rw [MpzConfig.base, ← Nat.pow_mul, mpzNumDigForInt]
    refine Nat.pow_le_pow_right (by decide) ?_
    have hdiv := Nat.div_add_mod (c.wordSize + c.digSize - 1) c.digSize
    have hmod := Nat.mod_lt (c.wordSize + c.digSize - 1) (by omega : 0 < c.digSize)
    omega
  rw [if_neg hzero, mpzNeedDig, if_neg hneed, if_neg (Nat.lt_irrefl _), mpz_ok_bind]
  simp only [huval]
  rw [mpzStore_eq hfit, mpz_ok_bind, List.take_length]
  rfl

theorem mpzEqualInt_iff (hc : c.digSize < c.wordSize) {z : Mpz}
    (hz : Below c.base z.dig) (hv : v.natAbs < 2 ^ c.wordSize) :
    mpzEqualInt c z v = true ↔ z.key = intKey c v := by
  have hkey : (decide (v < 0) && !(Nat.digits c.base v.natAbs).isEmpty) = decide (v < 0) := by
    by_cases hneg : v < 0
    · have hne : Nat.digits c.base v.natAbs ≠ [] := Nat.digits_ne_nil_iff_ne_zero.mpr (by omega)
      simp [hneg, hne]
    · simp [hneg]
  rw [mpzEqualInt, mpzInitFixedFromInt_eq hc hv, beq_iff_eq,
    mpzCmp_eq_zero_iff hz (below_digits _ _), intKey, Mpz.key, Mpz.key, hkey]

theorem InRange.natAbs_lt {r : ObjRepr w} (hv : InRange r v) : v.natAbs < 2 ^ w := by
  have hlt := r.valueBits_lt
  have hle : 2 ^ r.valueBits < 2 ^ w := Nat.pow_lt_pow_right (by decide) (by omega)
  obtain ⟨hlow, hhigh⟩ := hv
  have hcast : ((2 ^ r.valueBits : ℕ) : ℤ) = 2 ^ r.valueBits := Nat.cast_pow 2 _
  omega

/-! ### Strings -/

section Str

variable {E : ObjConfig w}

/-- Hashes that were computed and differ belong to different strings. -/
theorem equal_unless_hashes_differ_iff {C : QstrConfig} (s1 s2 : StrObj C) :
    (if s1.hash ≠ 0 ∧ s2.hash ≠ 0 ∧ s1.hash ≠ s2.hash then false else s1.data == s2.data) = true ↔
      s1.data = s2.data := by
  split
  · rename_i hdiffer
    obtain ⟨h1, h2, hne⟩ := hdiffer
    refine ⟨fun h => absurd h Bool.false_ne_true, fun hdata => absurd ?_ hne⟩
    rw [s1.hash_eq.resolve_left h1, s2.hash_eq.resolve_left h2, hdata]
  · exact beq_iff_eq

/-- **The comparison of strings**, interned or not -/
theorem mpObjStrEqual_iff (s1 s2 : StrRef E) :
    mpObjStrEqual s1 s2 = true ↔ s1.get.data = s2.get.data := by
  cases s1 with
  | heap s1 => exact equal_unless_hashes_differ_iff s1 s2.get
  | qstr q1 =>
    cases s2 with
    | heap s2 => exact equal_unless_hashes_differ_iff _ s2
    | qstr q2 =>
      rw [mpObjStrEqual, beq_iff_eq]
      constructor
      · rintro rfl
        rfl
      · intro hdata
        have hsame := List.inj_on_of_nodup_map E.interned_nodup (List.get_mem _ q1)
          (List.get_mem _ q2) hdata
        exact List.nodup_iff_injective_get.mp (.of_map _ E.interned_nodup) hsame

/-- Computing the hash when it is missing gives the same hash. -/
theorem strHash_eq (s : StrObj E.qstr) : strHash E s =
      objNewSmallInt E.repr (BitVec.ofNat w (qstrComputeHash E.qstr s.data)) := by
  rw [strHash]
  rcases s.hash_eq with h | h
  · rw [if_pos h]
  · split
    · rfl
    · rw [h]

end Str

/-! ### Tuples and frozensets -/

section Contents

variable {E : ObjConfig w} {L : ObjLevel E}

/-- **The comparison of tuples** is that of their items. -/
theorem mpSeqCmpObjs_iff (items1 items2 : List L.Carrier) :
    mpSeqCmpObjs L.hashing.equal items1 items2 = true ↔
      items1.map L.value = items2.map L.value := by
  induction items1 generalizing items2 with
  | nil => cases items2 <;> simp [mpSeqCmpObjs]
  | cons a items1 ih =>
    cases items2 with
    | nil => simp [mpSeqCmpObjs]
    | cons b items2 =>
      rw [List.map_cons, List.map_cons, List.cons.injEq, ← L.equal_iff, ← ih, ObjLevel.hashing]
      simp only [mpSeqCmpObjs, List.length_cons, ne_eq, Nat.add_right_cancel_iff,
        List.zip_cons_cons, List.all_cons]
      split
      · simp
      · rw [Bool.and_eq_true]

variable {other : MpSet L.Carrier}

/-- A lookup finds an element when the set has one of the same value. -/
theorem lookup_isSome_iff (hother : other.Good L.hashing) (next : L.Carrier) :
    (mpSetLookup L.hashing 2 other next .lookup).any (fun out => out.1.isSome) = true ↔
      L.value next ∈ (contents other.table).map L.value := by
  obtain ⟨found, other', hlookup, -, hstep⟩ := mpSetLookup_spec hother 0 next .lookup
  rw [hlookup, Option.any_some, Multiset.mem_map]
  generalize contents other.table = m at hstep ⊢
  generalize contents other'.table = m' at hstep
  cases hstep with
  | hit hmem hequal _ => exact iff_of_true rfl ⟨_, hmem, (L.equal_iff _ _).mp hequal⟩
  | delete _ hkind => exact absurd hkind (by decide)
  | insert _ hkind => exact absurd hkind (by decide)
  | miss hnew _ =>
    refine iff_of_false Bool.false_ne_true ?_
    rintro ⟨elem, hmem, hvalue⟩
    exact Bool.false_ne_true ((hnew elem hmem).symm.trans ((L.equal_iff _ _).mpr hvalue))

theorem setIssubsetInternal_iff {self : MpSet L.Carrier} (hother : other.Good L.hashing) :
    setIssubsetInternal L.hashing self other = true ↔
      (contents self.table).map L.value ⊆ (contents other.table).map L.value := by
  rw [setIssubsetInternal, List.all_eq_true]
  constructor
  · intro hall v hv
    obtain ⟨elem, hmem, rfl⟩ := Multiset.mem_map.mp hv
    have hslot : .filled elem ∈ self.table := List.mem_iff_getElem?.mpr (mem_contents.mp hmem)
    exact (lookup_isSome_iff hother elem).mp (hall (.filled elem) hslot)
  · intro hsub slot hslot
    cases slot with
    | null => rfl
    | sentinel => rfl
    | filled elem =>
      exact (lookup_isSome_iff hother elem).mpr
        (hsub (Multiset.mem_map_of_mem _ (mem_contents.mpr (List.mem_iff_getElem?.mp hslot))))

/-- The elements of a set have different values. -/
theorem nodup_values {set : MpSet L.Carrier} (hset : set.Good L.hashing) :
    ((contents set.table).map L.value).Nodup := by
  rw [contents, Multiset.map_coe, Multiset.coe_nodup, List.Nodup, List.pairwise_map]
  exact hset.consistent.separated.pairwise.imp fun hne hvalue => hne ((L.equal_iff _ _).mpr hvalue)

/-- **The comparison of frozensets.** A subset with as many elements is the whole set, so one
direction is enough. -/
theorem setEqual_iff {set1 set2 : MpSet L.Carrier} (hset1 : set1.Good L.hashing)
    (hset2 : set2.Good L.hashing) :
    setEqual L.hashing set1 set2 = true ↔
      (contents set1.table).map L.value = (contents set2.table).map L.value := by
  rw [setEqual, hset1.used_eq, hset2.used_eq]
  constructor
  · intro h
    split at h
    · exact absurd h Bool.false_ne_true
    · rename_i hcard
      have hsub := (setIssubsetInternal_iff hset2).mp h
      have hle := (Multiset.le_iff_subset (nodup_values hset1)).mpr hsub
      refine Multiset.eq_of_le_of_card_le hle ?_
      rw [Multiset.card_map, Multiset.card_map]
      omega
  · intro h
    have hcard := congrArg Multiset.card h
    rw [Multiset.card_map, Multiset.card_map] at hcard
    rw [if_neg (not_not_intro hcard), setIssubsetInternal_iff hset2, h]
    exact Multiset.Subset.refl _

end Contents

/-! ### Objects -/

section Objects

variable {E : ObjConfig w} {L : ObjLevel E}

/-- **Equality**: two objects are equal when they stand for the same value. -/
theorem equal_iff_view_eq (fuel : ℕ) (a b : Obj E L.hashing) :
    Obj.mpObjEqual (fuel + 3) a b = true ↔ a.view L.value = b.view L.value := by
  have hint : ∀ {z v}, Below E.mpz.base z.dig → InRange E.repr v →
      (mpzEqualInt E.mpz z v = true ↔ z.key = intKey E.mpz v) := by
    intro z v hz hv
    refine mpzEqualInt_iff ?_ hz ?_
    · rw [E.wordSize_eq]
      exact E.digSize_lt
    · rw [E.wordSize_eq]
      exact hv.natAbs_lt
  cases a with
  | bool b1 =>
    cases b with
    | bool b2 =>
      simpa [Obj.mpObjEqual, equalNotSmall, binaryOpEqual, Obj.view, Obj.ofBool] using eq_comm
    | int z hz =>
      simpa [Obj.mpObjEqual, equalNotSmall, binaryOpEqual, Obj.view, Obj.ofBool] using
        (hint hz (inRange_bool _ b1)).trans eq_comm
    | _ => simp [Obj.mpObjEqual, equalNotSmall, binaryOpEqual, Obj.view, Obj.ofBool]
  | smallInt v hv =>
    cases b with
    | bool b2 =>
      simpa [Obj.mpObjEqual, equalNotSmall, binaryOpEqual, Obj.view, Obj.ofBool] using eq_comm
    | int z hz =>
      simpa [Obj.mpObjEqual, equalNotSmall, binaryOpEqual, Obj.view] using (hint hz hv).trans
        eq_comm
    | _ => simp [Obj.mpObjEqual, equalNotSmall, binaryOpEqual, Obj.view]
  | int z hz =>
    cases b with
    | bool b2 =>
      simpa [Obj.mpObjEqual, equalNotSmall, binaryOpEqual, Obj.view, Obj.ofBool] using
        hint hz (inRange_bool _ b2)
    | smallInt v hv =>
      simpa [Obj.mpObjEqual, equalNotSmall, binaryOpEqual, Obj.view] using hint hz hv
    | int z2 hz2 =>
      simpa [Obj.mpObjEqual, equalNotSmall, binaryOpEqual, Obj.view] using mpzCmp_eq_zero_iff hz hz2
    | _ => simp [Obj.mpObjEqual, equalNotSmall, binaryOpEqual, Obj.view]
  | str s1 =>
    cases b with
    | str s2 => simpa [Obj.mpObjEqual, equalNotSmall, Obj.view] using mpObjStrEqual_iff s1 s2
    | _ => simp [Obj.mpObjEqual, equalNotSmall, Obj.view]
  | bytes s1 => cases b <;> simp [Obj.mpObjEqual, equalNotSmall, binaryOpEqual, Obj.view]
  | tuple items1 =>
    cases b with
    | tuple items2 =>
      simpa [Obj.mpObjEqual, equalNotSmall, binaryOpEqual, Obj.view] using
        mpSeqCmpObjs_iff items1 items2
    | _ => simp [Obj.mpObjEqual, equalNotSmall, binaryOpEqual, Obj.view]
  | frozenset set1 hset1 =>
    cases b with
    | frozenset set2 hset2 =>
      simpa [Obj.mpObjEqual, equalNotSmall, binaryOpEqual, Obj.view] using setEqual_iff hset1 hset2
    | _ => simp [Obj.mpObjEqual, equalNotSmall, binaryOpEqual, Obj.view]

theorem foldl_add_eq {α : Type} (f : α → BitVec w) (items : List α) (init : BitVec w) :
    items.foldl (fun sum item => sum + f item) init = init + (items.map f).sum := by
  induction items generalizing init with
  | nil => simp
  | cons a items ih => rw [List.foldl_cons, ih, List.map_cons, List.sum_cons, add_assoc]

/-- Summing up over the slots in use -/
theorem foldl_slots_eq {α : Type} (f : α → BitVec w) (table : List (Slot α)) (init : BitVec w) :
    table.foldl
        (fun sum slot =>
          match slot with
          | .filled elem => sum + f elem
          | _ => sum) init =
      init + ((contents table).map f).sum := by
  rw [contents, Multiset.map_coe, Multiset.sum_coe, ← foldl_add_eq, List.foldl_filterMap]
  congr
  funext sum slot
  cases slot <;> rfl

/-- **The hash** is a function of the value. -/
theorem mpUnaryOpHash_eq (a : Obj E L.hashing) :
    mpUnaryOpHash L.hash a = (a.view L.value).hash E L.valueHash := by
  cases a with
  | bool b => exact (intKey_hash E L.valueHash b.toInt).symm
  | smallInt v hv => exact (intKey_hash E L.valueHash v).symm
  | int z hz => exact (key_hash E L.valueHash z).symm
  | str s => exact strHash_eq s.get
  | bytes s => exact strHash_eq s
  | tuple items =>
    rw [mpUnaryOpHash, foldl_add_eq, Obj.view, View.hash, List.map_map]
    simp only [L.hash_eq, Function.comp_def]
  | frozenset set hset =>
    rw [mpUnaryOpHash, foldl_slots_eq, Obj.view, View.hash, Multiset.map_map]
    simp only [L.hash_eq, Function.comp_def]

end Objects

/-! ### Nested objects -/

/-- The level above -/
def ObjLevel.next {E : ObjConfig w} (L : ObjLevel E) : ObjLevel E where
  Carrier := Obj E L.hashing
  Value := View L.Value
  value := Obj.view L.value
  equal := Obj.mpObjEqual 3
  hash := mpUnaryOpHash L.hash
  valueHash := View.hash E L.valueHash
  equal_iff := equal_iff_view_eq 0
  hash_eq := mpUnaryOpHash_eq

/-- Objects of nesting depth less than `n` -/
def objLevel (E : ObjConfig w) : ℕ → ObjLevel E
  | 0 => ⟨Empty, Empty, id, nofun, nofun, nofun, nofun, nofun⟩
  | n + 1 => (objLevel E n).next

/-- **Equal objects have equal hashes**, whatever they are made of and however they are
represented. -/
theorem hash_eq_of_mp_obj_equal (E : ObjConfig w) (n fuel : ℕ) (a b : Obj E (objLevel E n).hashing)
    (h : Obj.mpObjEqual (fuel + 3) a b = true) :
    mpUnaryOpHash (objLevel E n).hash a = mpUnaryOpHash (objLevel E n).hash b := by
  rw [mpUnaryOpHash_eq, mpUnaryOpHash_eq, (equal_iff_view_eq fuel a b).mp h]

/-- A build for 32 bits without interned strings -/
def objConfigSmall : ObjConfig 32 where
  repr := .A eight_le_thirtyTwo
  mpz := mpzConfig16
  qstr := qstrConfigSmall
  interned := []
  emptyTuple := 0x1000#32
  frozensetType := 0x2000#32
  wordSize_eq := rfl
  digSize_lt := mpzConfig16_digSize_lt
  interned_hash := nofun
  interned_nodup := List.nodup_nil

/-- The tuple of `False` -/
def falseTuple : Obj objConfigSmall (objLevel objConfigSmall 1).hashing := .tuple [.bool false]

/-- The tuple of a big zero with a sign -/
def negativeZeroTuple : Obj objConfigSmall (objLevel objConfigSmall 1).hashing :=
  .tuple [.int ⟨true, false, 2, []⟩ (below_nil _)]

theorem hash_eq_of_mp_obj_equal_negative_zero :
    Obj.mpObjEqual 3 falseTuple negativeZeroTuple = true ∧
      mpUnaryOpHash (objLevel objConfigSmall 1).hash falseTuple =
        mpUnaryOpHash (objLevel objConfigSmall 1).hash negativeZeroTuple := by
  have h : Obj.mpObjEqual 3 falseTuple negativeZeroTuple = true := (equal_iff_view_eq 0 _ _).mpr rfl
  exact ⟨h, hash_eq_of_mp_obj_equal objConfigSmall 1 0 _ _ h⟩

end Pycopy
