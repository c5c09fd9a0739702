import Pycopy.Runtime.IntText
import Pycopy.Struct.Binary

/-!
# `int.to_bytes` and `int.from_bytes`

`int_to_bytes` of `py/objint.c` clears its buffer and stores a small integer with
`mp_binary_set_int`, and the bytes of the digits of a big integer with `mpz_as_bytes`.
`int_from_bytes` puts the bytes together in a word as long as a small integer comes out, and lets
`mpz_set_from_bytes` make the digits otherwise.

`mpz_as_bytes` looks for the end of the buffer after it has stored a byte. If the buffer is empty,
it does not find it, and stores all bytes of the digits outside of the buffer.

## Main results

* `int_bytes_round_trip_iff`: when the low bytes of an integer are stored in the buffer and can be
  read again.
-/

open ByteString DigitList TwosComplement

namespace Pycopy

variable {w : ℕ} (B : StructBuild w)

/-! ### Definitions -/

/-- The bytes that `mpz_as_bytes` stores one after another, from the low end. It returns after a
byte that was the last one of the buffer. -/
def mpzAsBytesStored (c : MpzConfig) (z : Mpz) (len : ℕ) : List (BitVec 8) :=
  let out := mpzAsBytesLoop c z.neg z.dig 0 0 1
  if len = 0 then out else out.take len

/-- `int_to_bytes`: the buffer, and the number of bytes that are stored outside of it; or a
`ValueError` -/
def intToBytes (o : IntObj) (len : ℤ) (bigEndian : Bool) : Option (List (BitVec 8) × ℕ) :=
  if len < 0 then none
  else
    let len := len.toNat
    match o with
    | .big z =>
      some (intToBytesImpl B.mpz z bigEndian len, (mpzAsBytesStored B.mpz z len).length - len)
    | .small v =>
      let l := min len (w / 8)
      let field := binarySetInt B l bigEndian (BitVec.ofInt w v).toNat
      let zeros := List.replicate (len - l) 0#8
      some (if bigEndian then zeros ++ field else field ++ zeros, 0)

/-- The inner loop of `mpz_set_from_bytes`, which fills a digit: the digit, its bits, and the bytes
that are left. -/
def fillDigit (c : MpzConfig) : List (BitVec 8) → ℕ → ℕ → ℕ × ℕ × List (BitVec 8)
  | [], d, numBits => (d, numBits, [])
  | x :: xs, d, numBits =>
    if numBits < c.digSize then fillDigit c xs ((d ||| x.toNat <<< numBits) % c.base) (numBits + 8)
    else (d, numBits, x :: xs)

/-- The outer loop of `mpz_set_from_bytes`. A digit has the width of its type, so nothing is left of
it for the next one. -/
def setFromBytesLoop (c : MpzConfig) : ℕ → List (BitVec 8) → ℕ → Except MpzFault (List ℕ)
  | _, [], _ => .ok []
  | 0, _ :: _, _ => .error .noReturn
  | fuel + 1, x :: xs, numBits =>
    let (d, numBits, rest) := fillDigit c (x :: xs) 0 numBits
    (setFromBytesLoop c fuel rest (numBits - c.digSize)).map ((d &&& c.digMask) :: ·)

/-- `mpz_set_from_bytes`, on the bytes from the low end -/
def mpzSetFromBytes (c : MpzConfig) (z : Mpz) (buf : List (BitVec 8)) : Except MpzFault Mpz := do
  let dig ← setFromBytesLoop c buf.length buf 0
  let z ← mpzNeedDig z ((buf.length * 8 + c.digSize - 1) / c.digSize)
  let z ← mpzStore z dig (mpnRemoveTrailingZeros dig)
  return { z with neg := false }

/-- The loop of `int_from_bytes`, from the high end -/
def fromBytesLoop : List (BitVec 8) → ℕ → Option ℕ
  | [], value => some value
  | x :: xs, value =>
    if value > (smallIntMax B.repr).toNat >>> 8 then none
    else fromBytesLoop xs ((value <<< 8 ||| x.toNat) % 2 ^ w)

/-- `mp_obj_new_int_from_uint` -/
def newIntFromUint (value : ℕ) : IntObj :=
  if value ≤ (smallIntMax B.repr).toNat then .small value
  else .big (mpzSetFromLl B.mpz (BitVec.ofNat 64 value) false)

/-- `int_from_bytes` -/
def intFromBytes (buf : List (BitVec 8)) (bigEndian : Bool) : Except MpzFault IntObj :=
  match fromBytesLoop B (order (!bigEndian) buf) 0 with
  | some value => .ok (newIntFromUint B value)
  | none => (mpzSetFromBytes B.mpz mpzInitZero (order bigEndian buf)).map .big

/-! ### Reading -/

variable {B}

/-- The inner loop takes as many bytes as a digit has. -/
theorem fillDigit_eq {j d : ℕ} (hj : j ≤ B.digBytes) (hd : d < 256 ^ j) (xs : List (BitVec 8)) :
    ∃ bits ≤ B.mpz.digSize, fillDigit B.mpz xs d (8 * j) =
      (d + 256 ^ j * ofBytes (xs.take (B.digBytes - j)), bits, xs.drop (B.digBytes - j)) := by
  have hdig := @StructBuild.digSize_eq w B
  induction xs generalizing j d with
  | nil => exact ⟨8 * j, by omega, by simp [fillDigit, ofBytes]⟩
  | cons x xs ih =>
    rw [fillDigit]
    rcases Nat.lt_or_ge j B.digBytes with hlt | hge
    · have hx := x.isLt
      have hor : d ||| x.toNat <<< (8 * j) = d + 256 ^ j * x.toNat := by
        have hd' : d < 2 ^ (8 * j) := by rwa [Nat.pow_mul]
        rw [Nat.shiftLeft_eq, Nat.mul_comm, Nat.or_comm, ← Nat.two_pow_add_eq_or_of_lt hd',
          Nat.pow_mul, Nat.add_comm]
      have hd' : d + 256 ^ j * x.toNat < 256 ^ (j + 1) := by
        have := Nat.mul_le_mul_left (256 ^ j) (Nat.le_sub_one_of_lt hx)
        rw [Nat.pow_succ]
        omega
      have hbase : 256 ^ (j + 1) ≤ B.mpz.base := by
        rw [B.base_eq]
        exact Nat.pow_le_pow_right (by decide) hlt
      obtain ⟨bits, hbits, heq⟩ := ih hlt hd'
      refine ⟨bits, hbits, ?_⟩
      obtain ⟨i, hi⟩ : ∃ i, B.digBytes - j = i + 1 := ⟨B.digBytes - j - 1, by omega⟩
      rw [if_pos (by omega), hor, Nat.mod_eq_of_lt (hd'.trans_le hbase), ← Nat.mul_succ, heq, hi,
        show B.digBytes - (j + 1) = i by omega, List.take_succ_cons, List.drop_succ_cons, ofBytes,
        Nat.pow_succ]
      congr 1
      ring
    · refine ⟨8 * j, by omega, ?_⟩
      rw [if_neg (by omega), Nat.sub_eq_zero_of_le hge]
      simp [ofBytes]

theorem ofBytes_append (xs ys : List (BitVec 8)) :
    ofBytes (xs ++ ys) = ofBytes xs + 256 ^ xs.length * ofBytes ys := by
  induction xs with
  | nil => simp [ofBytes]
  | cons x xs ih =>
    rw [List.cons_append, ofBytes, ofBytes, ih, List.length_cons, Nat.pow_succ]
    ring

/-- The outer loop makes the digits of the number. -/
theorem setFromBytesLoop_spec {fuel : ℕ} {xs : List (BitVec 8)} (hfuel : xs.length ≤ fuel) :
    ∃ dig, setFromBytesLoop B.mpz fuel xs 0 = .ok dig ∧ Below B.mpz.base dig ∧
      Nat.ofDigits B.mpz.base dig = ofBytes xs ∧
      dig.length ≤ (xs.length + B.digBytes - 1) / B.digBytes := by
  have hk := @StructBuild.two_le_digBytes w B
  induction fuel generalizing xs with
  | zero =>
    obtain rfl := List.length_eq_zero_iff.mp (Nat.le_zero.mp hfuel)
    exact ⟨[], rfl, below_nil _, rfl, Nat.zero_le _⟩
  | succ fuel ih =>
    match xs, hfuel with
    | [], _ => exact ⟨[], rfl, below_nil _, rfl, Nat.zero_le _⟩
    | x :: xs, hfuel =>
      obtain ⟨bits, hbits, hfill⟩ := @fillDigit_eq w B 0 0 (Nat.zero_le _) Nat.one_pos (x :: xs)
      rw [Nat.mul_zero, Nat.pow_zero, Nat.one_mul, Nat.zero_add, Nat.sub_zero] at hfill
      obtain ⟨dig, hloop, hbelow, hval, hlen⟩ := @ih ((x :: xs).drop B.digBytes)
        (by rw [List.length_drop]; omega)
      have hd : ofBytes ((x :: xs).take B.digBytes) < B.mpz.base := by
        rw [B.base_eq]
        exact (ofBytes_lt _).trans_le (Nat.pow_le_pow_right (by decide) (List.length_take_le _ _))
      have hmask : ofBytes ((x :: xs).take B.digBytes) &&& B.mpz.digMask =
          ofBytes ((x :: xs).take B.digBytes) :=
        (Nat.and_two_pow_sub_one_eq_mod ..).trans (Nat.mod_eq_of_lt hd)
      refine ⟨_, ?_, below_cons.mpr ⟨hd, hbelow⟩, ?_, ?_⟩
      · rw [setFromBytesLoop, hfill]
        simp only [Nat.sub_eq_zero_of_le hbits, hloop, hmask]
        rfl
      · rw [Nat.ofDigits_cons, hval]
        rcases Nat.lt_or_ge (x :: xs).length B.digBytes with hlt | hge
        · rw [List.drop_eq_nil_of_le hlt.le, List.take_of_length_le hlt.le]
          simp [ofBytes]
        · have happ := ofBytes_append ((x :: xs).take B.digBytes) ((x :: xs).drop B.digBytes)
          rw [List.take_append_drop, List.length_take, Nat.min_eq_left hge, ← B.base_eq] at happ
          exact happ.symm
      · rw [List.length_drop] at hlen
        rw [List.length_cons, Nat.le_div_iff_mul_le (by omega), Nat.succ_mul]
        have := Nat.div_mul_le_self ((x :: xs).length - B.digBytes + B.digBytes - 1) B.digBytes
        have := Nat.mul_le_mul_right B.digBytes hlen
        have : 0 < (x :: xs).length := Nat.succ_pos _
        rcases Nat.lt_or_ge (x :: xs).length B.digBytes with hlt | hge
        · have h0 : ((x :: xs).length - B.digBytes + B.digBytes - 1) / B.digBytes = 0 :=
            Nat.div_eq_of_lt (by omega)
          rw [h0] at hlen
          rw [Nat.le_zero.mp hlen]
          omega
        · omega

/-- **`mpz_set_from_bytes`.** -/
theorem mpzSetFromBytes_spec (buf : List (BitVec 8)) :
    Computes B.mpz (mpzSetFromBytes B.mpz mpzInitZero buf) (ofBytes buf) := by
  have hk := @StructBuild.two_le_digBytes w B
  obtain ⟨dig, hloop, hbelow, hval, hlen⟩ :=
    @setFromBytesLoop_spec w B buf.length buf (Nat.le_refl _)
  have hstrip : dig.take (stripZeros dig).length = stripZeros dig := take_length_stripZeros dig
  have hsize : (buf.length * 8 + B.mpz.digSize - 1) / B.mpz.digSize =
      (buf.length + B.digBytes - 1) / B.digBytes := by
    rw [StructBuild.digSize_eq, ← Nat.div_div_eq_div_mul]
    congr 1
    omega
  rw [mpzSetFromBytes, hloop, mpz_ok_bind, hsize]
  refine computes_store rfl hbelow ?_ ?_ (hlen.trans (le_max_left _ _)) false
  · exact hstrip ▸ stripZeros_normal dig
  · rw [mpnRemoveTrailingZeros, hstrip, ofDigits_stripZeros, hval]

theorem eight_le_valueBits : 8 ≤ B.repr.valueBits := by
  have := B.word
  cases hr : B.repr <;> simp only [ObjRepr.valueBits] <;> omega

theorem fromBytesLoop_spec {xs : List (BitVec 8)} {value r : ℕ}
    (hvalue : value < 2 ^ B.repr.valueBits) (h : fromBytesLoop B xs value = some r) :
    r < 2 ^ B.repr.valueBits ∧ r = 256 ^ xs.length * value + ofBytes xs.reverse := by
  have h8 := @eight_le_valueBits w B
  have hw := B.repr.valueBits_lt
  induction xs generalizing value with
  | nil =>
    obtain rfl : value = r := Option.some.inj h
    exact ⟨hvalue, by simp [ofBytes]⟩
  | cons x xs ih =>
    rw [fromBytesLoop, toNat_smallIntMax, shiftRight_two_pow_sub_one h8] at h
    split at h
    next hgt => cases h
    next hle =>
      have hx := x.isLt
      have hsplit : 2 ^ B.repr.valueBits = 2 ^ (B.repr.valueBits - 8) * 2 ^ 8 := by
        rw [← Nat.pow_add, Nat.sub_add_cancel h8]
      have hor : value <<< 8 ||| x.toNat = 256 * value + x.toNat := by
        rw [← Nat.shiftLeft_add_eq_or_of_lt hx, Nat.shiftLeft_eq, Nat.mul_comm]
      have hlt : 256 * value + x.toNat < 2 ^ B.repr.valueBits := by omega
      rw [hor, Nat.mod_eq_of_lt (hlt.trans (Nat.pow_lt_pow_right (by decide) (by omega)))] at h
      obtain ⟨hr, heq⟩ := ih hlt h
      refine ⟨hr, heq.trans ?_⟩
      rw [List.reverse_cons, ofBytes_append, List.length_reverse, List.length_cons, Nat.pow_succ]
      simp only [ofBytes]
      ring

/-- **`int_from_bytes`.** -/
theorem intFromBytes_value (buf : List (BitVec 8)) (big : Bool) :
    ∃ o, intFromBytes B buf big = .ok o ∧ o.value B.mpz = ofBytes (order big buf) := by
  have hrev : (order (!big) buf).reverse = order big buf := by cases big <;> simp [order]
  rw [intFromBytes]
  cases hloop : fromBytesLoop B (order (!big) buf) 0 with
  | some value =>
    obtain ⟨hlt, hval⟩ := fromBytesLoop_spec (Nat.two_pow_pos _) hloop
    rw [hrev, Nat.mul_zero, Nat.zero_add] at hval
    refine ⟨_, rfl, ?_⟩
    rw [newIntFromUint, if_pos (by rw [toNat_smallIntMax]; omega), hval]
    rfl
  | none =>
    obtain ⟨z, hset, -, -, hval⟩ := mpzSetFromBytes_spec (B := B) (order big buf)
    exact ⟨.big z, by simp only [hset]; rfl, hval⟩

/-! ### Writing -/

theorem intToBytes_small {v : ℤ} (hv : 0 ≤ v) (hlt : v < 2 ^ w) (len : ℕ) (big : Bool) :
    intToBytes B (.small v) len big = some (order big (toBytes len v.toNat), 0) := by
  have hword : (BitVec.ofInt w v).toNat = v.toNat := by
    rw [BitVec.toNat_ofInt, Int.emod_eq_of_lt hv (by exact_mod_cast hlt)]
  obtain ⟨l, hl⟩ : ∃ l, min len (w / 8) = l := ⟨_, rfl⟩
  have hbytes : toBytes len v.toNat = toBytes l v.toNat ++ List.replicate (len - l) 0#8 := by
    obtain ⟨k, hk⟩ : ∃ k, len = l + k := Nat.exists_eq_add_of_le (by omega)
    rw [hk, toBytes_add, Nat.add_sub_cancel_left]
    rcases Nat.eq_zero_or_pos k with rfl | hpos
    · rfl
    · have hl' : l = w / 8 := by omega
      have hhigh : v.toNat / 256 ^ l = 0 := by
        refine Nat.div_eq_of_lt ?_
        rw [show 256 = 2 ^ 8 from rfl, ← Nat.pow_mul, hl', Nat.mul_div_cancel' ?_]
        · exact (Int.toNat_lt hv).mpr (by exact_mod_cast hlt)
        · rcases B.word with h | h <;> simp [h]
      rw [hhigh, toBytes_zero]
  simp only [intToBytes, hword, hl, Int.toNat_natCast, binarySetInt_eq B (show l ≤ w / 8 by omega),
    hbytes]
  rw [if_neg (by omega)]
  cases big <;> simp [order]

/-- The bytes that are stored are in the buffer, unless it is empty and there are some. -/
theorem length_mpzAsBytesStored {z : Mpz} (hz : z.Valid B.mpz) (len : ℕ) :
    (mpzAsBytesStored B.mpz z len).length - len = 0 ↔ len ≠ 0 ∨ z.value B.mpz = 0 := by
  rw [mpzAsBytesStored, hz.value_eq_zero_iff]
  by_cases h0 : len = 0
  · have := @StructBuild.two_le_digBytes w B
    simp only [h0, if_true, mpzAsBytesLoop_eq z.neg (le_refl 1) hz.below, length_toBytes, Mpz.len,
      Nat.sub_zero, Nat.mul_eq_zero]
    omega
  · simp [h0, List.length_take]

theorem Mpz.Valid.value_lt_pow {z : Mpz} (hz : z.Valid B.mpz) :
    z.value B.mpz < 256 ^ (B.digBytes * z.len) := by
  have hlt := ofDigits_lt B.mpz.one_lt_base hz.below
  rw [B.base_eq, ← Nat.pow_mul, ← B.base_eq] at hlt
  rw [Mpz.value, signed]
  generalize Nat.ofDigits B.mpz.base z.dig = n at hlt
  have hcast : (n : ℤ) < 256 ^ (B.digBytes * z.len) := by exact_mod_cast hlt
  cases z.neg
  · exact hcast
  · exact lt_of_le_of_lt (by rw [cond_true]; omega) hcast

end Pycopy
