import Pycopy.Lib.ByteString
import Pycopy.Runtime.IntObj

/-!
# Packing integers into bytes

`py/binary.c`: the sizes of the type codes of the `struct` module, and the bytes of an integer. A
small integer goes through `mp_binary_set_int`; a big integer goes through `mpz_as_bytes` of
`py/mpz.c`, which writes the bytes of its digits.

`mpz_as_bytes` stops after the last digit. The rest of the field is zero, which is right for
positive numbers only.

## Main results

* `intToBytesImpl_eq`: the bytes of a big integer.
* `binaryGetSize_bounds`: the sizes and alignments of the type codes.
-/

open ByteString DigitList TwosComplement

namespace Pycopy

/-! ### The build -/

/-- The C types whose size and alignment native formats use. -/
inductive CType
  | short
  | int
  | long
  | longLong
  | pointer
  | float
  | double
  deriving DecidableEq, Repr

/-- A build for a machine with words of `w` bits: the representation of objects, the big integers
with digits of 16 or 32 bits, the byte order, and the C types. -/
structure StructBuild (w : ℕ) where
  repr : ObjRepr w
  mpz : MpzConfig
  littleEndian : Bool
  size : CType → ℕ
  align : CType → ℕ
  word : w = 32 ∨ w = 64
  digSize : mpz.digSize = 16 ∨ mpz.digSize = 32
  dblDigSize : mpz.dblDigSize = 2 * mpz.digSize
  size_pos : ∀ t, 0 < size t
  size_le : ∀ t, size t ≤ 8
  size_pointer : size .pointer = w / 8
  size_float : size .float = 4
  size_double : size .double = 8
  align_pow : ∀ t, ∃ k ≤ 4, align t = 2 ^ k

/-- A 32-bit machine with big integers of 16-bit digits -/
def build32 : StructBuild 32 where
  repr := .A eight_le_thirtyTwo
  mpz := mpzConfig16
  littleEndian := true
  size
    | .short => 2
    | .int | .long | .pointer | .float => 4
    | .longLong | .double => 8
  align
    | .short => 2
    | .int | .long | .pointer | .float => 4
    | .longLong | .double => 8
  word := .inl rfl
  digSize := .inl rfl
  dblDigSize := rfl
  size_pos t := by cases t <;> decide
  size_le t := by cases t <;> decide
  size_pointer := rfl
  size_float := rfl
  size_double := rfl
  align_pow t := by
    cases t with
    | short => exact ⟨1, by decide, rfl⟩
    | int => exact ⟨2, by decide, rfl⟩
    | long => exact ⟨2, by decide, rfl⟩
    | longLong => exact ⟨3, by decide, rfl⟩
    | pointer => exact ⟨2, by decide, rfl⟩
    | float => exact ⟨2, by decide, rfl⟩
    | double => exact ⟨3, by decide, rfl⟩

/-- The byte order and size conventions: `@`, `=`, `<` and `>`. -/
inductive StructType
  | native
  | standard
  | little
  | big
  deriving DecidableEq, Repr

variable {w : ℕ} (B : StructBuild w)

/-- The size and alignment of a C type -/
def StructBuild.layout (t : CType) : ℕ × ℕ := (B.size t, B.align t)

/-- `mp_binary_get_size`: the size and the alignment, or a `ValueError` for a bad type code. -/
def binaryGetSize (structType : StructType) (valType : Char) : Option (ℕ × ℕ) :=
  match structType with
  | .little | .big =>
    match valType with
    | 'b' | 'B' => some (1, 1)
    | 'h' | 'H' => some (2, 1)
    | 'i' | 'I' => some (4, 1)
    | 'l' | 'L' => some (4, 1)
    | 'q' | 'Q' => some (8, 1)
    | 'P' | 'O' | 'S' => some (w / 8, 1)
    | 'f' => some (4, 1)
    | 'd' => some (8, 1)
    | _ => none
  | .native =>
    match valType with
    | '\x01' | 'b' | 'B' => some (1, 1)
    | 'h' | 'H' => some (B.layout .short)
    | 'i' | 'I' => some (B.layout .int)
    | 'l' | 'L' => some (B.layout .long)
    | 'q' | 'Q' => some (B.layout .longLong)
    | 'P' | 'O' | 'S' => some (B.layout .pointer)
    | 'f' => some (B.layout .float)
    | 'd' => some (B.layout .double)
    | _ => none
  | .standard => none

/-! ### Writing -/

/-- The bytes of a word in memory -/
def StructBuild.wordBytes (val : ℕ) : List (BitVec 8) :=
  if B.littleEndian then toBytes (w / 8) val else (toBytes (w / 8) val).reverse

/-- `mp_binary_set_int`: the bytes that are stored for the low `valSz` bytes of a word. -/
def binarySetInt (valSz : ℕ) (bigEndian : Bool) (val : ℕ) : List (BitVec 8) :=
  if B.littleEndian && !bigEndian then (B.wordBytes val).take valSz
  else if !B.littleEndian && bigEndian then (B.wordBytes val).drop (w / 8 - valSz)
  else if B.littleEndian then ((B.wordBytes val).take valSz).reverse
  else ((B.wordBytes val).drop (w / 8 - valSz)).reverse

/-- The inner loop of `mpz_as_bytes`: `k` bytes are taken from the low end of `d`; returns the rest
of `d`, the carry and the bytes. -/
def mpzAsBytesDigit (c : MpzConfig) (neg : Bool) : ℕ → ℕ → ℕ → ℕ × ℕ × List (BitVec 8)
  | 0, d, carry => (d, carry, [])
  | k + 1, d, carry =>
    let val := d % c.base
    let val := if neg then ((255 - val % 256) + carry) % c.base else val
    let carry := if neg then val >>> 8 else carry
    let (d, carry, out) := mpzAsBytesDigit c neg k (d >>> 8) carry
    (d, carry, BitVec.ofNat 8 val :: out)

/-- The outer loop of `mpz_as_bytes`, over the digits. -/
def mpzAsBytesLoop (c : MpzConfig) (neg : Bool) : List ℕ → ℕ → ℕ → ℕ → List (BitVec 8)
  | [], _, _, _ => []
  | dig :: digs, bits, d, carry =>
    let bits := bits + c.digSize
    let (d, carry, out) := mpzAsBytesDigit c neg (bits / 8) ((d <<< c.digSize) ||| dig) carry
    out ++ mpzAsBytesLoop c neg digs (bits % 8) d carry

/-- `mp_obj_int_to_bytes_impl`: the field is cleared, then `mpz_as_bytes` stores its bytes from the
low end until there are no more of them or the field is full. -/
def intToBytesImpl (c : MpzConfig) (z : Mpz) (bigEndian : Bool) (len : ℕ) : List (BitVec 8) :=
  let out := (mpzAsBytesLoop c z.neg z.dig 0 0 1).take len
  let field := out ++ List.replicate (len - out.length) 0#8
  if bigEndian then field.reverse else field

/-! ### Reading -/

/-- `mpz_set_from_ll` on a new number -/
def mpzSetFromLl (c : MpzConfig) (val : BitVec 64) (isSigned : Bool) : Mpz where
  neg := isSigned && val.slt 0#64
  fixedDig := false
  alloc := max minAlloc ((64 + c.digSize - 1) / c.digSize)
  dig := Nat.digits c.base (if isSigned && val.slt 0#64 then (-val).toNat else val.toNat)

/-! ### The bytes of an integer -/

/-- The bytes of a field in memory, from the low byte to the high byte. -/
def order (bigEndian : Bool) (xs : List (BitVec 8)) : List (BitVec 8) :=
  if bigEndian then xs.reverse else xs

@[simp] theorem length_order (big : Bool) (xs : List (BitVec 8)) :
    (order big xs).length = xs.length := by
  cases big <;> simp [order]

/-- `mp_binary_set_int` stores the low bytes. -/
theorem binarySetInt_eq {valSz : ℕ} (h : valSz ≤ w / 8) (big : Bool) (val : ℕ) :
    binarySetInt B valSz big val = order big (toBytes valSz val) := by
  have htake := take_toBytes h val
  have hdrop : (toBytes (w / 8) val).reverse.drop (w / 8 - valSz) =
      (toBytes valSz val).reverse := by
    rw [List.drop_reverse, length_toBytes, Nat.sub_sub_self h, htake]
  cases hB : B.littleEndian <;> cases big
  all_goals simp [binarySetInt, StructBuild.wordBytes, order, hB, htake, hdrop]

variable {B}

/-- The bytes that a digit holds -/
def StructBuild.digBytes (B : StructBuild w) : ℕ := B.mpz.digSize / 8

theorem StructBuild.digSize_eq : B.mpz.digSize = 8 * B.digBytes := by
  rw [digBytes]
  rcases B.digSize with h | h <;> rw [h]

theorem StructBuild.base_eq : B.mpz.base = 256 ^ B.digBytes := by
  rw [MpzConfig.base, digBytes]
  rcases B.digSize with h | h <;> simp [h]

theorem StructBuild.two_le_digBytes : 2 ≤ B.digBytes := by
  rw [digBytes]
  rcases B.digSize with h | h <;> simp [h]

theorem StructBuild.dvd_base : 256 ∣ B.mpz.base := by
  rw [B.base_eq]
  exact dvd_pow_self 256 (by have := B.two_le_digBytes; omega)

theorem StructBuild.lt_base : 256 < B.mpz.base := by
  rw [B.base_eq]
  calc 256 < 256 ^ 2 := by decide
    _ ≤ 256 ^ B.digBytes := Nat.pow_le_pow_right (by decide) B.two_le_digBytes

theorem toNat_smallIntMax (r : ObjRepr w) : (smallIntMax r).toNat = 2 ^ r.valueBits - 1 := by
  have h := toInt_smallIntMax r
  have hpos : (1 : ℤ) ≤ 2 ^ r.valueBits := one_le_pow₀ (by decide)
  have hlt := (smallIntMax r).isLt
  rw [BitVec.toInt_eq_toNat_cond] at h
  zify [Nat.one_le_two_pow (n := r.valueBits)]
  split at h <;> omega

variable {m n : ℕ}

theorem ofNat_eight_congr (h : m % 256 = n % 256) : BitVec.ofNat 8 m = BitVec.ofNat 8 n :=
  BitVec.eq_of_toNat_eq (by rw [BitVec.toNat_ofNat, BitVec.toNat_ofNat]; exact h)

/-- The magnitude of a number as `n` bytes, or the complement of it for a negative number. -/
def complement (neg : Bool) (n m carry : ℕ) : ℕ := if neg then 256 ^ n - 1 - m + carry else m

/-- The carry out of the low bytes -/
def carryAfter (neg : Bool) (n m carry : ℕ) : ℕ :=
  if neg then complement neg n m carry / 256 ^ n else carry

variable {carry : ℕ}

theorem carryAfter_le (neg : Bool) (n m : ℕ) (hc : carry ≤ 1) : carryAfter neg n m carry ≤ 1 := by
  have hpos : 0 < 256 ^ n := Nat.pow_pos (by decide)
  cases neg with
  | false => exact hc
  | true =>
    simp only [carryAfter, complement, if_true]
    exact Nat.div_le_of_le_mul (by omega)

variable {k d : ℕ}

/-- A complement is taken piece by piece: the carry out of the low part goes into the high part. -/
theorem complement_add (neg : Bool) (carry : ℕ) (hd : d < 256 ^ k) (hm : m < 256 ^ n) :
    complement neg (k + n) (d + 256 ^ k * m) carry % 256 ^ k =
        complement neg k d carry % 256 ^ k ∧
      complement neg (k + n) (d + 256 ^ k * m) carry / 256 ^ k =
        complement neg n m (carryAfter neg k d carry) := by
  have hpos : 0 < 256 ^ k := Nat.pow_pos (by decide)
  cases neg with
  | false =>
    simp only [complement, Bool.false_eq_true, if_false, Nat.add_mul_mod_self_left,
      Nat.add_mul_div_left d m hpos, Nat.div_eq_of_lt hd, Nat.zero_add, and_self]
  | true =>
    have hsplit : 256 ^ (k + n) - 1 - (d + 256 ^ k * m) + carry =
        256 ^ k * (256 ^ n - 1 - m) + (256 ^ k - 1 - d + carry) := by
      obtain ⟨j, hj⟩ := Nat.exists_eq_add_of_lt hm
      rw [pow_add, hj, show m + j + 1 - 1 - m = j by omega,
        show 256 ^ k * (m + j + 1) = 256 ^ k * m + 256 ^ k * j + 256 ^ k by ring]
      omega
    simp only [complement, carryAfter, if_true, hsplit, Nat.mul_add_mod, Nat.mul_add_div hpos,
      and_self]

theorem carryAfter_add (neg : Bool) (carry : ℕ) (hd : d < 256 ^ k) (hm : m < 256 ^ n) :
    carryAfter neg (k + n) (d + 256 ^ k * m) carry =
      carryAfter neg n m (carryAfter neg k d carry) := by
  cases neg with
  | false => rfl
  | true =>
    rw [carryAfter, if_pos rfl, pow_add, ← Nat.div_div_eq_div_mul,
      (complement_add true carry hd hm).2]
    rfl

theorem toBytes_complement_add (neg : Bool) (carry : ℕ) (hd : d < 256 ^ k) (hm : m < 256 ^ n) :
    toBytes (k + n) (complement neg (k + n) (d + 256 ^ k * m) carry) =
      toBytes k (complement neg k d carry) ++
        toBytes n (complement neg n m (carryAfter neg k d carry)) := by
  obtain ⟨hmod, hdiv⟩ := complement_add neg carry hd hm
  rw [toBytes_add, hdiv, toBytes_congr hmod]

theorem mpzAsBytesDigit_succ (neg : Bool) (k d : ℕ) (hc : carry ≤ 1) :
    mpzAsBytesDigit B.mpz neg (k + 1) d carry =
      ((mpzAsBytesDigit B.mpz neg k (d / 256) (carryAfter neg 1 (d % 256) carry)).1,
        (mpzAsBytesDigit B.mpz neg k (d / 256) (carryAfter neg 1 (d % 256) carry)).2.1,
        toBytes 1 (complement neg 1 (d % 256) carry) ++
          (mpzAsBytesDigit B.mpz neg k (d / 256) (carryAfter neg 1 (d % 256) carry)).2.2) := by
  have hmod : d % B.mpz.base % 256 = d % 256 := Nat.mod_mod_of_dvd d B.dvd_base
  have hlt : 255 - d % 256 + carry < B.mpz.base := lt_of_le_of_lt (by omega) B.lt_base
  cases neg with
  | false =>
    simp [mpzAsBytesDigit, carryAfter, complement, toBytes, Nat.shiftRight_eq_div_pow,
      ofNat_eight_congr hmod, ofNat_eight_congr (Nat.mod_mod d 256)]
  | true =>
    simp [mpzAsBytesDigit, carryAfter, complement, toBytes, Nat.shiftRight_eq_div_pow, hmod,
      Nat.mod_eq_of_lt hlt]

/-- The inner loop takes the bytes of a digit. -/
theorem mpzAsBytesDigit_eq (neg : Bool) (k : ℕ) (hc : carry ≤ 1) (hd : d < 256 ^ k) :
    mpzAsBytesDigit B.mpz neg k d carry =
      (0, carryAfter neg k d carry, toBytes k (complement neg k d carry)) := by
  induction k generalizing d carry with
  | zero =>
    have h0 : d = 0 := by simpa using hd
    subst h0
    cases neg <;> simp [mpzAsBytesDigit, toBytes, carryAfter, complement]
  | succ k ih =>
    have hhigh : d / 256 < 256 ^ k := by
      rw [pow_succ] at hd
      omega
    have hlow : d % 256 < 256 ^ 1 := Nat.mod_lt _ (by decide)
    have hcarry := carryAfter_add neg carry hlow hhigh
    have hbytes := toBytes_complement_add neg carry hlow hhigh
    rw [pow_one, Nat.mod_add_div] at hcarry hbytes
    rw [mpzAsBytesDigit_succ neg k d hc, ih (carryAfter_le neg 1 _ hc) hhigh, Nat.add_comm k 1,
      hcarry, hbytes]

/-- The outer loop gives the bytes of all digits. -/
theorem mpzAsBytesLoop_eq (neg : Bool) {dig : List ℕ} (hc : carry ≤ 1)
    (hdig : Below B.mpz.base dig) :
    mpzAsBytesLoop B.mpz neg dig 0 0 carry =
      toBytes (B.digBytes * dig.length)
        (complement neg (B.digBytes * dig.length) (Nat.ofDigits B.mpz.base dig) carry) := by
  induction dig generalizing carry with
  | nil => simp [mpzAsBytesLoop, toBytes]
  | cons x dig ih =>
    obtain ⟨hx, hdig⟩ := below_cons.mp hdig
    have hbits : B.mpz.digSize % 8 = 0 := by
      rcases B.digSize with h | h <;> rw [h]
    have hm := ofDigits_lt B.mpz.one_lt_base hdig
    rw [B.base_eq, ← pow_mul] at hm
    rw [B.base_eq] at hx
    have hbytes := toBytes_complement_add neg carry hx hm
    rw [List.length_cons, Nat.mul_succ, Nat.add_comm _ B.digBytes, Nat.ofDigits_cons, B.base_eq,
      hbytes, ← B.base_eq, ← ih (carryAfter_le neg _ x hc) hdig]
    simp only [mpzAsBytesLoop, Nat.zero_shiftLeft, Nat.zero_or, Nat.zero_add]
    rw [hbits, show B.mpz.digSize / 8 = B.digBytes from rfl, mpzAsBytesDigit_eq neg _ hc hx]

theorem residue_eight_mul (n : ℕ) (v : ℤ) : (residue (8 * n) v : ℤ) = v % 256 ^ n := by
  rw [residue, pow_mul, show (2 : ℤ) ^ 8 = 256 by decide, Int.toNat_of_nonneg]
  exact Int.emod_nonneg v (by positivity)

theorem residue_lt_pow (n : ℕ) (v : ℤ) : residue (8 * n) v < 256 ^ n := by
  have h := residue_lt (8 * n) v
  rwa [pow_mul] at h

/-- A complement with a carry is the number in two's complement. -/
theorem complement_mod (neg : Bool) (hm : m < 256 ^ n) :
    complement neg n m 1 % 256 ^ n = residue (8 * n) (signed neg m) := by
  zify
  rw [residue_eight_mul]
  cases neg with
  | false => rfl
  | true =>
    have h : complement true n m 1 = 256 ^ n - m := by
      rw [complement, if_pos rfl]
      omega
    rw [h, Nat.cast_sub hm.le, signed, cond_true, sub_eq_neg_add]
    push_cast
    rw [Int.add_emod_right]

/-- Only the low bytes of an integer matter. -/
theorem toBytes_residue {j : ℕ} (h : j ≤ k) (v : ℤ) :
    toBytes j (residue (8 * k) v) = toBytes j (residue (8 * j) v) := by
  refine toBytes_congr ?_
  zify
  rw [residue_eight_mul, residue_eight_mul, Int.emod_emod,
    Int.emod_emod_of_dvd v (pow_dvd_pow 256 h)]

/-- **The bytes of a big integer**: its digits in two's complement, followed by zeros. -/
theorem intToBytesImpl_eq {z : Mpz} (hz : z.Valid B.mpz) (big : Bool) (len : ℕ) :
    intToBytesImpl B.mpz z big len =
      order big (toBytes len (residue (8 * min len (B.digBytes * z.len)) (z.value B.mpz))) := by
  have hm := ofDigits_lt B.mpz.one_lt_base hz.below
  rw [B.base_eq, ← pow_mul, ← B.base_eq] at hm
  have hloop : mpzAsBytesLoop B.mpz z.neg z.dig 0 0 1 =
      toBytes (B.digBytes * z.len) (residue (8 * (B.digBytes * z.len)) (z.value B.mpz)) := by
    rw [mpzAsBytesLoop_eq z.neg (le_refl 1) hz.below, Mpz.value, Mpz.len, ← complement_mod z.neg hm]
    exact toBytes_congr (Nat.mod_mod _ _).symm
  simp only [intToBytesImpl, hloop, List.length_take, length_toBytes]
  rcases le_total len (B.digBytes * z.len) with hle | hle
  · rw [min_eq_left hle, Nat.sub_self, take_toBytes hle, toBytes_residue hle, List.replicate_zero,
      List.append_nil]
    rfl
  · have hhigh : residue (8 * (B.digBytes * z.len)) (z.value B.mpz) /
        256 ^ (B.digBytes * z.len) = 0 := Nat.div_eq_of_lt (residue_lt_pow _ _)
    obtain ⟨k, rfl⟩ := Nat.exists_eq_add_of_le hle
    rw [min_eq_right hle, List.take_of_length_le (by simp), Nat.add_sub_cancel_left, toBytes_add,
      hhigh, toBytes_zero]
    rfl

/-! ### The sizes of fields -/

variable {t : StructType} {code : Char} {size : ℕ}

theorem binaryGetSize_bounds {align : ℕ} (h : binaryGetSize B t code = some (size, align)) :
    0 < size ∧ size ≤ 8 ∧ ∃ k ≤ 4, align = 2 ^ k := by
  have hlayout (ty : CType) (hty : B.layout ty = (size, align)) :
      0 < size ∧ size ≤ 8 ∧ ∃ k ≤ 4, align = 2 ^ k := by
    obtain ⟨rfl, rfl⟩ := Prod.mk.inj hty
    exact ⟨B.size_pos ty, B.size_le ty, B.align_pow ty⟩
  have hconst (n : ℕ) (hn : 0 < n ∧ n ≤ 8) (hty : (n, 1) = (size, align)) :
      0 < size ∧ size ≤ 8 ∧ ∃ k ≤ 4, align = 2 ^ k := by
    obtain ⟨rfl, rfl⟩ := Prod.mk.inj hty
    exact ⟨hn.1, hn.2, 0, by omega, rfl⟩
  have hw := B.word
  rw [binaryGetSize.eq_def] at h
  cases t <;> dsimp only at h <;> try split at h
  all_goals first
    | exact hlayout _ (Option.some.inj h)
    | exact hconst _ (by omega) (Option.some.inj h)
    | cases h

end Pycopy
