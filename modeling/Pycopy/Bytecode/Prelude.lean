import Mathlib.Data.List.Basic
import Mathlib.Data.Nat.Bitwise
import Mathlib.Algebra.Order.Ring.Int
import Mathlib.Tactic.Ring

/-!
# The Prelude of a Function and Numbers in Bytecode

The macros of `py/bc.h` that encode what a function needs: its signature in six fields, and the two
sizes. The bits of the fields are interleaved in bytes, and a byte with its high bit set is followed
by another one. The decoder shifts an `int`, so the fields must be small enough. Numbers in bytecode
(`py/emitbc.c` and `py/vm.c`) are groups of seven bits, the highest first, and a small integer has
its sign in the first group.

## Main results

* `prelude_roundtrip`: all of them. Of the flags only the four lowest are kept.
-/

namespace Pycopy

/-! ### The signature -/

/-- The six fields of a signature: `n_state`, `n_exc_stack`, `scope_flags`, `n_pos_args`,
`n_kwonly_args` and `n_def_pos_args` -/
structure PreludeSig where
  S : ℕ
  E : ℕ
  F : ℕ
  A : ℕ
  K : ℕ
  D : ℕ
  deriving DecidableEq, Repr

/-- The byte `xFSSKAED` -/
def sigByte (v : PreludeSig) : ℕ :=
  (v.F &&& 1) <<< 6 ||| (v.S &&& 3) <<< 4 ||| (v.K &&& 1) <<< 3 ||| (v.A &&& 1) <<< 2 |||
    (v.E &&& 1) <<< 1 ||| (v.D &&& 1)

/-- The loop of `MP_BC_PRELUDE_SIG_ENCODE`, with the byte `z` that is not written yet, with fuel -/
def sigEncodeLoop : ℕ → ℕ → PreludeSig → List UInt8
  | 0, z, _ => [UInt8.ofNat z]
  | fuel + 1, z, v =>
    if v.S ||| v.E ||| v.F ||| v.A ||| v.K ||| v.D ≠ 0 then
      UInt8.ofNat (0x80 ||| z) ::
        sigEncodeLoop fuel (sigByte v)
          ⟨v.S >>> 2, v.E >>> 1, v.F >>> 1, v.A >>> 1, v.K >>> 1, v.D >>> 1⟩
    else [UInt8.ofNat z]

/-- `MP_BC_PRELUDE_SIG_ENCODE` -/
def mpBcPreludeSigEncode (v : PreludeSig) : List UInt8 :=
  let F := v.F &&& 0x0f
  let S := v.S - 1
  sigEncodeLoop 16 ((S &&& 0xf) <<< 3 ||| (v.E &&& 1) <<< 2 ||| (v.A &&& 3))
    ⟨S >>> 4, v.E >>> 1, F, v.A >>> 2, v.K, v.D⟩

/-- A shift of an `int` to the left. It must not overflow; a zero may be shifted by any count. -/
def intShl (x n : ℕ) : Option ℕ :=
  if x = 0 then some 0 else if n < 32 ∧ x <<< n < 2 ^ 31 then some (x <<< n) else none

/-- The loop of `MP_BC_PRELUDE_SIG_DECODE_INTO`, with the last byte that was read -/
def sigDecodeLoop : List UInt8 → ℕ → ℕ → PreludeSig → Option (PreludeSig × List UInt8)
  | [], _, z, v => if z &&& 0x80 = 0 then some (v, []) else none
  | b :: ip, n, z, v =>
    if z &&& 0x80 = 0 then some (v, b :: ip)
    else do
      let z := b.toNat
      let s ← intShl (z &&& 0x30) (2 * n)
      let e ← intShl (z &&& 0x02) n
      let f ← intShl ((z &&& 0x40) >>> 6) n
      let a ← intShl (z &&& 0x4) n
      let k ← intShl ((z &&& 0x08) >>> 3) n
      let d ← intShl (z &&& 0x1) n
      sigDecodeLoop ip (n + 1) z
        ⟨v.S ||| s, v.E ||| e, v.F ||| f, v.A ||| a, v.K ||| k, v.D ||| d⟩

/-- `MP_BC_PRELUDE_SIG_DECODE`: the fields, and what follows the bytes that were read -/
def mpBcPreludeSigDecode : List UInt8 → Option (PreludeSig × List UInt8)
  | [] => none
  | b :: ip => do
    let z := b.toNat
    let (v, ip) ← sigDecodeLoop ip 0 z ⟨(z >>> 3) &&& 0xf, (z >>> 2) &&& 0x1, 0, z &&& 0x3, 0, 0⟩
    some ({ v with S := v.S + 1 }, ip)

theorem sigByte_fields (v : PreludeSig) :
    sigByte v < 128 ∧ sigByte v &&& 0x30 = v.S % 4 * 16 ∧ sigByte v &&& 0x02 = v.E % 2 * 2 ∧
      (sigByte v &&& 0x40) >>> 6 = v.F % 2 ∧ sigByte v &&& 0x4 = v.A % 2 * 4 ∧
      (sigByte v &&& 0x08) >>> 3 = v.K % 2 ∧ sigByte v &&& 0x1 = v.D % 2 := by
  have hbits : ∀ (s : Fin 4) (e f a k d : Fin 2),
      let z := f.val <<< 6 ||| s.val <<< 4 ||| k.val <<< 3 ||| a.val <<< 2 ||| e.val <<< 1 ||| d.val
      z < 128 ∧ z &&& 0x30 = s.val * 16 ∧ z &&& 0x02 = e.val * 2 ∧ (z &&& 0x40) >>> 6 = f.val ∧
        z &&& 0x4 = a.val * 4 ∧ (z &&& 0x08) >>> 3 = k.val ∧ z &&& 0x1 = d.val := by
    decide +kernel
  have hone (n : ℕ) : n &&& 1 = n % 2 := Nat.and_one_is_mod n
  have hthree (n : ℕ) : n &&& 3 = n % 4 := Nat.and_two_pow_sub_one_eq_mod n 2
  have hz : sigByte v = (Fin.ofNat 2 v.F).val <<< 6 ||| (Fin.ofNat 4 v.S).val <<< 4 |||
      (Fin.ofNat 2 v.K).val <<< 3 ||| (Fin.ofNat 2 v.A).val <<< 2 |||
        (Fin.ofNat 2 v.E).val <<< 1 |||
      (Fin.ofNat 2 v.D).val := by
    rw [sigByte]
    simp only [hone, hthree]
    rfl
  rw [hz]
  exact hbits (Fin.ofNat 4 v.S) (Fin.ofNat 2 v.E) (Fin.ofNat 2 v.F) (Fin.ofNat 2 v.A)
    (Fin.ofNat 2 v.K) (Fin.ofNat 2 v.D)

/-- The next bits of a field: they are shifted behind those that are there, and together with the
rest of the field they are what is still to come. -/
theorem field_step {acc v m : ℕ} (n c k : ℕ) (hacc : acc < 2 ^ m) (hm : 2 ^ m = c * 2 ^ n)
    (hv : acc + v * 2 ^ m < 2 ^ 24) :
    ∃ x, intShl (v % 2 ^ k * c) n = some x ∧ acc ||| x < 2 ^ (m + k) ∧
      (acc ||| x) + v >>> k * 2 ^ (m + k) = acc + v * 2 ^ m := by
  rw [Nat.shiftRight_eq_div_pow]
  have hx : v % 2 ^ k * c * 2 ^ n = v % 2 ^ k * 2 ^ m := by rw [hm, Nat.mul_assoc]
  have hle : v % 2 ^ k * 2 ^ m ≤ v * 2 ^ m := Nat.mul_le_mul_right _ (Nat.mod_le _ _)
  have hor : acc ||| v % 2 ^ k * 2 ^ m = v % 2 ^ k * 2 ^ m + acc := by
    rw [Nat.or_comm, ← Nat.shiftLeft_eq, Nat.shiftLeft_add_eq_or_of_lt hacc]
  have hshl : intShl (v % 2 ^ k * c) n = some (v % 2 ^ k * 2 ^ m) := by
    rw [intShl]
    split
    · rename_i h
      rw [← hx, h, Nat.zero_mul]
    · rename_i h
      have hpos := Nat.mul_le_mul_right (2 ^ n) (Nat.one_le_iff_ne_zero.mpr h)
      rw [Nat.one_mul] at hpos
      have hn : n < 24 := (Nat.pow_lt_pow_iff_right (by decide : 1 < 2)).mp (by omega)
      rw [if_pos ⟨by omega, by rw [Nat.shiftLeft_eq]; omega⟩, Nat.shiftLeft_eq, hx]
  refine ⟨_, hshl, ?_, ?_⟩
  · have hmod := Nat.mod_lt v (Nat.two_pow_pos k)
    have := Nat.mul_le_mul_right (2 ^ m) (Nat.succ_le_of_lt hmod)
    rw [hor, Nat.pow_add, Nat.mul_comm (2 ^ m)]
    rw [Nat.succ_mul] at this
    omega
  · have hdiv := Nat.div_add_mod v (2 ^ k)
    rw [hor, Nat.pow_add]
    calc v % 2 ^ k * 2 ^ m + acc + v / 2 ^ k * (2 ^ m * 2 ^ k)
        = acc + (2 ^ k * (v / 2 ^ k) + v % 2 ^ k) * 2 ^ m := by ring
      _ = acc + v * 2 ^ m := by rw [hdiv]

/-- All bits of a field were decoded. -/
theorem field_eq_zero {acc v m k : ℕ} (hm : k ≤ m) (h : acc + v * 2 ^ m < 2 ^ k) : v = 0 := by
  by_contra hv
  have h1 := Nat.mul_le_mul_right (2 ^ m) (Nat.one_le_iff_ne_zero.mpr hv)
  have h2 := Nat.pow_le_pow_right (by decide : 0 < 2) hm
  omega

/-- What is decoded together with what is still to come -/
def sigTotal (n : ℕ) (acc v : PreludeSig) : PreludeSig :=
  ⟨acc.S + v.S * 2 ^ (2 * n + 4), acc.E + v.E * 2 ^ (n + 1), acc.F + v.F * 2 ^ n,
    acc.A + v.A * 2 ^ (n + 2), acc.K + v.K * 2 ^ n, acc.D + v.D * 2 ^ n⟩

/-- The fields that were decoded from the first bytes have no more bits than these bytes. -/
def SigBelow (n : ℕ) (acc : PreludeSig) : Prop :=
  acc.S < 2 ^ (2 * n + 4) ∧ acc.E < 2 ^ (n + 1) ∧ acc.F < 2 ^ n ∧ acc.A < 2 ^ (n + 2) ∧
    acc.K < 2 ^ n ∧ acc.D < 2 ^ n

/-- The fields are small enough to be shifted. -/
def SigSmall (v : PreludeSig) : Prop :=
  v.S < 2 ^ 16 ∧ v.E < 2 ^ 16 ∧ v.F < 2 ^ 16 ∧ v.A < 2 ^ 16 ∧ v.K < 2 ^ 16 ∧ v.D < 2 ^ 16

theorem toNat_ofNat_of_lt {m : ℕ} (hm : m < 256) : (UInt8.ofNat m).toNat = m := by
  rw [UInt8.toNat_ofNat', Nat.mod_eq_of_lt hm]

/-- No bits are left: the byte is the last one. -/
theorem sigDecodeLoop_last {z n : ℕ} {v acc : PreludeSig} (hz : z < 128)
    (hv : v.S = 0 ∧ v.E = 0 ∧ v.F = 0 ∧ v.A = 0 ∧ v.K = 0 ∧ v.D = 0) (ip : List UInt8) :
    ∃ b bs, [UInt8.ofNat z] ++ ip = b :: bs ∧ b.toNat % 128 = z ∧
      sigDecodeLoop bs n b.toNat acc = some (sigTotal n acc v, ip) := by
  have hclear : ∀ z < 128, z &&& 0x80 = 0 := by decide +kernel
  have htotal : sigTotal n acc v = acc := by
    obtain ⟨h1, h2, h3, h4, h5, h6⟩ := hv
    simp [sigTotal, h1, h2, h3, h4, h5, h6]
  refine ⟨_, ip, rfl, ?_, ?_⟩
  · rw [toNat_ofNat_of_lt (by omega)]
    omega
  · rw [toNat_ofNat_of_lt (by omega), htotal]
    cases ip <;> rw [sigDecodeLoop, if_pos (hclear z hz)]

/-- One byte of the loop: its bits go behind those that were decoded. -/
theorem sigDecodeLoop_step {n : ℕ} {v acc : PreludeSig} (hbelow : SigBelow n acc)
    (hsmall : SigSmall (sigTotal n acc v)) :
    ∃ acc', SigBelow (n + 1) acc' ∧
      sigTotal (n + 1) acc'
        ⟨v.S >>> 2, v.E >>> 1, v.F >>> 1, v.A >>> 1, v.K >>> 1, v.D >>> 1⟩ = sigTotal n acc v ∧
      ∀ (b : UInt8) (z : ℕ) (ip : List UInt8), b.toNat % 128 = sigByte v → z &&& 0x80 ≠ 0 →
        sigDecodeLoop (b :: ip) n z acc = sigDecodeLoop ip (n + 1) b.toNat acc' := by
  obtain ⟨b1, b2, b3, b4, b5, b6⟩ := hbelow
  obtain ⟨s1, s2, s3, s4, s5, s6⟩ := hsmall
  have hpow : (2 : ℕ) ^ 16 < 2 ^ 24 := by decide
  obtain ⟨xs, hs, ls, ts⟩ :=
    field_step (2 * n) 16 2 b1 (by rw [Nat.pow_add, Nat.mul_comm]) (s1.trans hpow)
  obtain ⟨xe, he, le, te⟩ :=
    field_step n 2 1 b2 (by rw [Nat.pow_succ, Nat.mul_comm]) (s2.trans hpow)
  obtain ⟨xf, hf, lf, tf⟩ := field_step n 1 1 b3 (Nat.one_mul _).symm (s3.trans hpow)
  obtain ⟨xa, ha, la, ta⟩ := field_step n 4 1 b4 (by rw [Nat.pow_add, Nat.mul_comm]) (s4.trans hpow)
  obtain ⟨xk, hk, lk, tk⟩ := field_step n 1 1 b5 (Nat.one_mul _).symm (s5.trans hpow)
  obtain ⟨xd, hd, ld, td⟩ := field_step n 1 1 b6 (Nat.one_mul _).symm (s6.trans hpow)
  have hfour : 2 ^ 2 = 4 := rfl
  rw [hfour] at hs
  simp only [Nat.mul_one, Nat.pow_one] at hf hk hd he ha
  refine ⟨⟨acc.S ||| xs, acc.E ||| xe, acc.F ||| xf, acc.A ||| xa, acc.K ||| xk, acc.D ||| xd⟩,
    ⟨ls, le, lf, la, lk, ld⟩, ?_, ?_⟩
  · rw [sigTotal, sigTotal]
    exact PreludeSig.mk.injEq .. ▸ ⟨ts, te, tf, ta, tk, td⟩
  · intro b z ip hb hz
    have hmask : ∀ z < 256, z &&& 0x30 = z % 128 &&& 0x30 ∧ z &&& 0x02 = z % 128 &&& 0x02 ∧
        z &&& 0x40 = z % 128 &&& 0x40 ∧ z &&& 0x4 = z % 128 &&& 0x4 ∧
        z &&& 0x08 = z % 128 &&& 0x08 ∧ z &&& 0x1 = z % 128 &&& 0x1 := by
      decide +kernel
    obtain ⟨m1, m2, m3, m4, m5, m6⟩ := hmask b.toNat b.toNat_lt
    obtain ⟨-, f1, f2, f3, f4, f5, f6⟩ := sigByte_fields v
    rw [hb] at m1 m2 m3 m4 m5 m6
    rw [sigDecodeLoop, if_neg hz]
    simp only [m1, m2, m3, m4, m5, m6, f1, f2, f3, f4, f5, f6]
    rw [hs, he, hf, ha, hk, hd]
    rfl

/-- **Decoding what the loop encodes** -/
theorem sigDecodeLoop_encode {fuel z n : ℕ} {v acc : PreludeSig} (hz : z < 128)
    (hbelow : SigBelow n acc) (hsmall : SigSmall (sigTotal n acc v)) (hfuel : 16 ≤ n + fuel)
    (ip : List UInt8) :
    ∃ b bs, sigEncodeLoop fuel z v ++ ip = b :: bs ∧ b.toNat % 128 = z ∧
      sigDecodeLoop bs n b.toNat acc = some (sigTotal n acc v, ip) := by
  induction fuel generalizing z n v acc with
  | zero =>
    refine sigDecodeLoop_last hz ?_ ip
    obtain ⟨s1, s2, s3, s4, s5, s6⟩ := hsmall
    exact ⟨field_eq_zero (by omega) s1, field_eq_zero (by omega) s2, field_eq_zero (by omega) s3,
      field_eq_zero (by omega) s4, field_eq_zero (by omega) s5, field_eq_zero (by omega) s6⟩
  | succ fuel ih =>
    rw [sigEncodeLoop]
    split
    · have hor : ∀ z < 128, 0x80 ||| z = 128 + z ∧ (128 + z) &&& 0x80 ≠ 0 := by decide +kernel
      obtain ⟨h1, h2⟩ := hor z hz
      have hbyte : (UInt8.ofNat (0x80 ||| z)).toNat = 128 + z := by
        rw [h1, toNat_ofNat_of_lt (by omega)]
      -- the next byte has the next bits of the fields
      obtain ⟨acc', hbelow', htotal, hstep⟩ := sigDecodeLoop_step hbelow hsmall
      obtain ⟨b, bs, hbs, hb, hloop⟩ := ih (sigByte_fields v).1 hbelow' (by rwa [htotal]) (by omega)
      refine ⟨_, _, rfl, by rw [hbyte]; omega, ?_⟩
      rw [List.append_eq, hbs, hbyte, hstep b _ _ hb h2, hloop, htotal]
    · rename_i h
      refine sigDecodeLoop_last hz ?_ ip
      simpa [Nat.or_eq_zero_iff, and_assoc] using h

/-- **The signature**: of the flags the four lowest are kept. -/
theorem sigDecode_encode {v : PreludeSig} (hS : 0 < v.S) (hsmall : SigSmall v) (ip : List UInt8) :
    mpBcPreludeSigDecode (mpBcPreludeSigEncode v ++ ip) = some ({ v with F := v.F % 16 }, ip) := by
  obtain ⟨s1, s2, s3, s4, s5, s6⟩ := hsmall
  -- the byte `xSSSSEAA`
  have hfirst : ∀ (s : Fin 16) (e : Fin 2) (a : Fin 4),
      s.val <<< 3 ||| e.val <<< 2 ||| a.val = s.val * 8 + e.val * 4 + a.val := by
    decide +kernel
  have hfields : ∀ x < 256, (x >>> 3) &&& 0xf = x % 128 / 8 ∧ (x >>> 2) &&& 0x1 = x % 128 / 4 % 2 ∧
      x &&& 0x3 = x % 4 := by
    decide +kernel
  have hz : (v.S - 1 &&& 0xf) <<< 3 ||| (v.E &&& 1) <<< 2 ||| (v.A &&& 3) =
      (v.S - 1) % 16 * 8 + v.E % 2 * 4 + v.A % 4 := by
    rw [Nat.and_two_pow_sub_one_eq_mod _ 4, Nat.and_one_is_mod, Nat.and_two_pow_sub_one_eq_mod _ 2]
    exact hfirst (Fin.ofNat 16 (v.S - 1)) (Fin.ofNat 2 v.E) (Fin.ofNat 4 v.A)
  have hlt : (v.S - 1) % 16 * 8 + v.E % 2 * 4 + v.A % 4 < 128 := by omega
  have hF : v.F &&& 0x0f = v.F % 16 := Nat.and_two_pow_sub_one_eq_mod v.F 4
  have htotal : sigTotal 0 ⟨(v.S - 1) % 16, v.E % 2, 0, v.A % 4, 0, 0⟩
      ⟨(v.S - 1) >>> 4, v.E >>> 1, v.F % 16, v.A >>> 2, v.K, v.D⟩ =
        { v with S := v.S - 1, F := v.F % 16 } := by
    simp only [sigTotal, Nat.shiftRight_eq_div_pow, PreludeSig.mk.injEq]
    omega
  have hbelow : SigBelow 0 ⟨(v.S - 1) % 16, v.E % 2, 0, v.A % 4, 0, 0⟩ := by
    simp only [SigBelow]
    omega
  have hsmall' : SigSmall { v with S := v.S - 1, F := v.F % 16 } := by
    simp only [SigSmall]
    omega
  rw [← htotal] at hsmall'
  obtain ⟨b, bs, hbs, hb, hloop⟩ := sigDecodeLoop_encode hlt hbelow hsmall'
    (le_refl (0 + 16)) ip
  obtain ⟨h1, h2, h3⟩ := hfields b.toNat b.toNat_lt
  have henc : mpBcPreludeSigEncode v ++ ip = b :: bs := by
    rw [← hbs, mpBcPreludeSigEncode, hF, hz]
  have hacc : (⟨(b.toNat >>> 3) &&& 0xf, (b.toNat >>> 2) &&& 0x1, 0, b.toNat &&& 0x3, 0, 0⟩ :
      PreludeSig) = ⟨(v.S - 1) % 16, v.E % 2, 0, v.A % 4, 0, 0⟩ := by
    rw [h1, h2, h3, hb, PreludeSig.mk.injEq]
    omega
  have hS' : v.S - 1 + 1 = v.S := by omega
  rw [henc, mpBcPreludeSigDecode]
  simp only [hacc, hloop, htotal, bind, Option.bind, hS']

/-! ### The sizes -/

/-- `MP_BC_PRELUDE_SIZE_ENCODE`, with fuel -/
def mpBcPreludeSizeEncode : ℕ → ℕ → ℕ → List UInt8
  | 0, _, _ => []
  | fuel + 1, I, C =>
    let z := (I &&& 0x3f) <<< 1 ||| (C &&& 1)
    let C := C >>> 1
    let I := I >>> 6
    if C ||| I ≠ 0 then UInt8.ofNat (z ||| 0x80) :: mpBcPreludeSizeEncode fuel I C
    else [UInt8.ofNat z]

/-- `MP_BC_PRELUDE_SIZE_DECODE`, from the `n`-th byte on -/
def mpBcPreludeSizeDecode : List UInt8 → ℕ → ℕ → ℕ → Option ((ℕ × ℕ) × List UInt8)
  | [], _, _, _ => none
  | b :: ip, n, I, C => do
    let z := b.toNat
    let c ← intShl (z &&& 1) n
    let i ← intShl ((z &&& 0x7e) >>> 1) (6 * n)
    if z &&& 0x80 = 0 then some ((I ||| i, C ||| c), ip)
    else mpBcPreludeSizeDecode ip (n + 1) (I ||| i) (C ||| c)

/-- **The sizes** -/
theorem sizeDecode_encode {fuel n I C i c : ℕ} (hI : I < 2 ^ (6 * n)) (hC : C < 2 ^ n)
    (hi : I + i * 2 ^ (6 * n) < 2 ^ 24) (hc : C + c * 2 ^ n < 2 ^ 16) (hn : n < 16)
    (hfuel : 16 ≤ n + fuel) (ip : List UInt8) :
    mpBcPreludeSizeDecode (mpBcPreludeSizeEncode fuel i c ++ ip) n I C =
      some ((I + i * 2 ^ (6 * n), C + c * 2 ^ n), ip) := by
  have hbits : ∀ (i : Fin 64) (c : Fin 2),
      let z := i.val <<< 1 ||| c.val
      z < 128 ∧ z ||| 0x80 < 256 ∧ z &&& 0x80 = 0 ∧ (z ||| 0x80) &&& 0x80 ≠ 0 ∧
        z &&& 1 = c.val ∧ (z ||| 0x80) &&& 1 = c.val ∧
        (z &&& 0x7e) >>> 1 = i.val ∧ ((z ||| 0x80) &&& 0x7e) >>> 1 = i.val := by
    decide +kernel
  induction fuel generalizing n I C i c with
  | zero => omega
  | succ fuel ih =>
    have hz : (i &&& 0x3f) <<< 1 ||| (c &&& 1) =
        (Fin.ofNat 64 i).val <<< 1 ||| (Fin.ofNat 2 c).val := by
      rw [Nat.and_two_pow_sub_one_eq_mod _ 6, Nat.and_one_is_mod]
      rfl
    obtain ⟨h1, h2, h3, h4, h5, h6, h7, h8⟩ := hbits (Fin.ofNat 64 i) (Fin.ofNat 2 c)
    rw [← hz] at h1 h2 h3 h4 h5 h6 h7 h8
    obtain ⟨xi, hxi, li, ti⟩ := field_step (6 * n) 1 6 hI (Nat.one_mul _).symm hi
    obtain ⟨xc, hxc, lc, tc⟩ :=
      field_step n 1 1 hC (Nat.one_mul _).symm (hc.trans (by decide))
    have hexp : 6 * n + 6 = 6 * (n + 1) := rfl
    rw [hexp] at li ti
    rw [Nat.mul_one] at hxi hxc
    have hci : intShl (Fin.ofNat 2 c).val n = some xc := hxc
    have hii : intShl (Fin.ofNat 64 i).val (6 * n) = some xi := hxi
    rw [mpBcPreludeSizeEncode]
    split
    · rename_i hmore
      have hn' : n + 1 < 16 := by
        by_contra hge
        obtain rfl : n = 15 := by omega
        have hi0 : i = 0 := field_eq_zero (by decide) hi
        have hc0 : c >>> 1 = 0 := by
          rw [Nat.shiftRight_eq_div_pow]
          omega
        exact hmore (by rw [hi0, hc0]; rfl)
      rw [List.cons_append, mpBcPreludeSizeDecode, toNat_ofNat_of_lt h2]
      simp only [h6, h8, hci, hii, bind, Option.bind, h4, if_false]
      rw [ih li lc (by rw [ti]; exact hi) (by rw [tc]; exact hc) hn' (by omega), ti, tc]
    · rename_i hdone
      have hzero := Nat.or_eq_zero_iff.mp (not_not.mp hdone)
      rw [List.singleton_append, mpBcPreludeSizeDecode, toNat_ofNat_of_lt (by omega)]
      simp only [h5, h7, hci, hii, bind, Option.bind, h3, if_true]
      rw [hzero.2, Nat.zero_mul, Nat.add_zero] at ti
      rw [hzero.1, Nat.zero_mul, Nat.add_zero] at tc
      rw [ti, tc]

/-! ### Numbers -/

/-- `BYTES_FOR_INT`, the size of the buffer for the groups of a number -/
def bytesForInt (w : ℕ) : ℕ := (w + 6) / 7

/-- The groups of `emit_write_uint`, stored from the end of a buffer with room for some more -/
def uintGroups : ℕ → ℕ → List ℕ → Option (List ℕ)
  | 0, _, _ => none
  | room + 1, val, buf =>
    let buf := (val &&& 0x7f) :: buf
    let val := val >>> 7
    if val ≠ 0 then uintGroups room val buf else some buf

/-- All groups but the last one are marked. -/
def markGroups : List ℕ → List UInt8
  | [] => []
  | [g] => [UInt8.ofNat g]
  | g :: h :: gs => UInt8.ofNat (g ||| 0x80) :: markGroups (h :: gs)

/-- `emit_write_uint` -/
def emitWriteUint (w val : ℕ) : Option (List UInt8) :=
  (uintGroups (bytesForInt w) val []).map markGroups

/-- `DECODE_UINT` -/
def decodeUint (w : ℕ) : List UInt8 → ℕ → Option (ℕ × List UInt8)
  | [], _ => none
  | b :: ip, unum =>
    let unum := (unum <<< 7 + (b.toNat &&& 0x7f)) % 2 ^ w
    if b.toNat &&& 0x80 ≠ 0 then decodeUint w ip unum else some (unum, ip)

/-- The groups of `emit_write_bytecode_byte_int`, with the byte for the sign -/
def intGroups : ℕ → ℤ → List ℕ → Option (List ℕ)
  | 0, _, _ => none
  | room + 1, num, buf =>
    let p := (num % 128).toNat
    let num := num / 128
    if num ≠ 0 ∧ num ≠ -1 then intGroups room num (p :: buf)
    else if num = -1 ∧ p &&& 0x40 = 0 then if room = 0 then none else some (0x7f :: p :: buf)
    else if num = 0 ∧ p &&& 0x40 ≠ 0 then if room = 0 then none else some (0 :: p :: buf)
    else some (p :: buf)

/-- What `emit_write_bytecode_byte_int` writes behind the opcode -/
def emitWriteInt (w : ℕ) (num : ℤ) : Option (List UInt8) :=
  (intGroups (bytesForInt w) num []).map markGroups

/-- The loop of `LOAD_CONST_SMALL_INT`, where `num` is an `mp_int_t` -/
def decodeSmallIntLoop (w : ℕ) : List UInt8 → ℤ → Option (ℤ × List UInt8)
  | [], _ => none
  | b :: ip, num =>
    let num := (num * 128 + (b.toNat &&& 0x7f : ℕ)).bmod (2 ^ w)
    if b.toNat &&& 0x80 ≠ 0 then decodeSmallIntLoop w ip num else some (num, ip)

/-- `LOAD_CONST_SMALL_INT` -/
def decodeSmallInt (w : ℕ) : List UInt8 → Option (ℤ × List UInt8)
  | [] => none
  | b :: ip => decodeSmallIntLoop w (b :: ip) (if b.toNat &&& 0x40 ≠ 0 then -1 else 0)

theorem group_bits : ∀ g < 128, (UInt8.ofNat g).toNat &&& 0x7f = g ∧
    (UInt8.ofNat g).toNat &&& 0x80 = 0 ∧ (UInt8.ofNat (g ||| 0x80)).toNat &&& 0x7f = g ∧
    (UInt8.ofNat (g ||| 0x80)).toNat &&& 0x80 ≠ 0 ∧
    (UInt8.ofNat (g ||| 0x80)).toNat &&& 0x40 = g &&& 0x40 ∧
    (UInt8.ofNat g).toNat &&& 0x40 = g &&& 0x40 := by
  decide +kernel

/-- The number that some groups add to one that was read before -/
def groupsValue : ℤ → List ℕ → ℤ
  | u, [] => u
  | u, g :: gs => groupsValue (u * 128 + g) gs

theorem groupsValue_emod {M x y : ℤ} (h : x % M = y % M) (gs : List ℕ) :
    groupsValue x gs % M = groupsValue y gs % M := by
  induction gs generalizing x y with
  | nil => exact h
  | cons g gs ih =>
    refine ih ?_
    rw [Int.add_emod, Int.mul_emod, h, ← Int.mul_emod, ← Int.add_emod]

theorem decodeUint_markGroups {w : ℕ} {gs : List ℕ} (hne : gs ≠ []) (hgs : ∀ g ∈ gs, g < 128)
    (ip : List UInt8) (unum : ℕ) :
    decodeUint w (markGroups gs ++ ip) unum = some ((groupsValue unum gs % 2 ^ w).toNat, ip) := by
  have hcast (x : ℕ) : ((x % 2 ^ w : ℕ) : ℤ) = (x : ℤ) % 2 ^ w := by push_cast; rfl
  induction gs generalizing unum with
  | nil => exact absurd rfl hne
  | cons g gs ih =>
    obtain ⟨hg, hrest⟩ := List.forall_mem_cons.mp hgs
    obtain ⟨h1, h2, h3, h4, -, -⟩ := group_bits g hg
    cases gs with
    | nil =>
      rw [markGroups, List.singleton_append, decodeUint]
      simp only [h1, h2, ne_eq, not_true_eq_false, if_false, Nat.shiftLeft_eq, groupsValue]
      have hval : (((unum * 2 ^ 7 + g) % 2 ^ w : ℕ) : ℤ) = ((unum : ℤ) * 128 + g) % 2 ^ w := by
        rw [hcast]
        push_cast
        rfl
      rw [← hval, Int.toNat_natCast]
    | cons h gs =>
      rw [markGroups, List.cons_append, decodeUint]
      simp only [h3, h4, ne_eq, not_false_eq_true, if_true, Nat.shiftLeft_eq]
      rw [ih (List.cons_ne_nil h gs) hrest, groupsValue_emod _ (h :: gs),
        groupsValue.eq_def _ (g :: _)]
      rw [hcast]
      push_cast
      exact Int.emod_emod_of_dvd _ (dvd_refl _)

theorem decodeSmallIntLoop_markGroups {w : ℕ} {gs : List ℕ} (hne : gs ≠ [])
    (hgs : ∀ g ∈ gs, g < 128) (ip : List UInt8) (num : ℤ) :
    decodeSmallIntLoop w (markGroups gs ++ ip) num =
      some ((groupsValue num gs).bmod (2 ^ w), ip) := by
  induction gs generalizing num with
  | nil => exact absurd rfl hne
  | cons g gs ih =>
    obtain ⟨hg, hrest⟩ := List.forall_mem_cons.mp hgs
    obtain ⟨h1, h2, h3, h4, -, -⟩ := group_bits g hg
    cases gs with
    | nil =>
      rw [markGroups, List.singleton_append, decodeSmallIntLoop]
      simp only [h1, h2, ne_eq, not_true_eq_false, if_false, groupsValue]
    | cons h gs =>
      rw [markGroups, List.cons_append, decodeSmallIntLoop]
      simp only [h3, h4, ne_eq, not_false_eq_true, if_true]
      have hmod : groupsValue ((num * 128 + g).bmod (2 ^ w)) (h :: gs) % (2 ^ w : ℕ) =
          groupsValue (num * 128 + g) (h :: gs) % (2 ^ w : ℕ) :=
        groupsValue_emod Int.bmod_emod _
      rw [ih (List.cons_ne_nil h gs) hrest, ← Int.emod_bmod, hmod, Int.emod_bmod]
      rfl

/-- The groups of a number are its digits. -/
theorem uintGroups_spec {room val : ℕ} (hval : val < 128 ^ room) (hroom : room ≠ 0) {buf : List ℕ}
    (hbuf : ∀ g ∈ buf, g < 128) :
    ∃ gs, uintGroups room val buf = some gs ∧ gs ≠ [] ∧ (∀ g ∈ gs, g < 128) ∧
      groupsValue 0 gs = groupsValue val buf := by
  induction room generalizing val buf with
  | zero => exact absurd rfl hroom
  | succ room ih =>
    have hand : val &&& 0x7f = val % 128 := Nat.and_two_pow_sub_one_eq_mod val 7
    have hshift : val >>> 7 = val / 128 := Nat.shiftRight_eq_div_pow val 7
    have hmod := Nat.mod_lt val (by decide : 0 < 128)
    have hbuf' : ∀ g ∈ val % 128 :: buf, g < 128 := List.forall_mem_cons.mpr ⟨hmod, hbuf⟩
    rw [uintGroups, hand, hshift]
    split
    · rename_i hmore
      have hlt : val / 128 < 128 ^ room := by
        rw [Nat.div_lt_iff_lt_mul (by decide), ← Nat.pow_succ]
        exact hval
      have hroom' : room ≠ 0 := by
        rintro rfl
        omega
      obtain ⟨gs, hgs, hne, hlt', hfold⟩ := ih hlt hroom' hbuf'
      refine ⟨gs, hgs, hne, hlt', ?_⟩
      rw [hfold, groupsValue]
      congr 1
      omega
    · rename_i hdone
      refine ⟨_, rfl, List.cons_ne_nil _ _, hbuf', ?_⟩
      rw [groupsValue]
      congr 1
      omega

theorem two_pow_le_bytesForInt (w : ℕ) : 2 ^ w ≤ 128 ^ bytesForInt w := by
  have h128 : 128 = 2 ^ 7 := rfl
  rw [h128, ← Nat.pow_mul]
  refine Nat.pow_le_pow_right (by decide) ?_
  rw [bytesForInt]
  omega

/-- **Unsigned numbers** -/
theorem decodeUint_emit {w val : ℕ} (hw : w ≠ 0) (hval : val < 2 ^ w) (ip : List UInt8) :
    ∃ bs, emitWriteUint w val = some bs ∧ decodeUint w (bs ++ ip) 0 = some (val, ip) := by
  have hroom : bytesForInt w ≠ 0 := by
    rw [bytesForInt]
    omega
  obtain ⟨gs, hgs, hne, hlt, hfold⟩ := uintGroups_spec (hval.trans_le (two_pow_le_bytesForInt w))
    hroom (List.forall_mem_nil (· < 128))
  have hmod : (val : ℤ) % 2 ^ w = val := Int.emod_eq_of_lt (by omega) (by exact_mod_cast hval)
  refine ⟨markGroups gs, by rw [emitWriteUint, hgs]; rfl, ?_⟩
  rw [decodeUint_markGroups hne hlt, Nat.cast_zero, hfold, groupsValue, hmod, Int.toNat_natCast]

/-- The groups of a small integer: the first one has its sign. -/
theorem intGroups_spec {room : ℕ} {num : ℤ} (hroom : room ≠ 0) (hlo : -2 ^ (7 * room - 1) ≤ num)
    (hhi : num < 2 ^ (7 * room - 1)) {buf : List ℕ} (hbuf : ∀ g ∈ buf, g < 128) :
    ∃ g gs, intGroups room num buf = some (g :: gs) ∧ (∀ h ∈ g :: gs, h < 128) ∧
      groupsValue (if g &&& 0x40 ≠ 0 then -1 else 0) (g :: gs) = groupsValue num buf := by
  have hsign : ∀ g < 128, (g &&& 0x40 = 0 ↔ g < 64) := by decide +kernel
  induction room generalizing num buf with
  | zero => exact absurd rfl hroom
  | succ room ih =>
    have hmod := Int.emod_lt_of_pos num (by decide : (0 : ℤ) < 128)
    have hnonneg := Int.emod_nonneg num (by decide : (128 : ℤ) ≠ 0)
    have hdiv := Int.mul_ediv_add_emod num 128
    have hp : (num % 128).toNat < 128 := by omega
    have hbuf' : ∀ g ∈ (num % 128).toNat :: buf, g < 128 := List.forall_mem_cons.mpr ⟨hp, hbuf⟩
    have hstep : groupsValue (num / 128) ((num % 128).toNat :: buf) = groupsValue num buf := by
      rw [groupsValue]
      congr 1
      omega
    have hbit := hsign _ hp
    rw [intGroups]
    split
    · rename_i hmore
      have hroom' : room ≠ 0 := by
        rintro rfl
        norm_num at hlo hhi
        omega
      obtain ⟨r, rfl⟩ := Nat.exists_eq_add_one_of_ne_zero hroom'
      have hpow : (2 : ℤ) ^ (7 * (r + 1 + 1) - 1) = 128 * 2 ^ (7 * (r + 1) - 1) := by
        have hexp : 7 * (r + 1 + 1) - 1 = 7 + (7 * (r + 1) - 1) := by omega
        rw [hexp, pow_add]
        norm_num
      rw [hpow] at hlo hhi
      have hlo' : -2 ^ (7 * (r + 1) - 1) ≤ num / 128 := by omega
      have hhi' : num / 128 < 2 ^ (7 * (r + 1) - 1) := by omega
      obtain ⟨g, gs, hgs, hlt, hval⟩ := ih hroom' hlo' hhi' hbuf'
      exact ⟨g, gs, hgs, hlt, hval.trans hstep⟩
    · rename_i hdone
      have hsmall : room = 0 → -64 ≤ num ∧ num < 64 := by
        rintro rfl
        norm_num at hlo hhi
        exact ⟨hlo, hhi⟩
      -- the sign is in the group, or in a byte in front of it
      split
      · rename_i hneg
        have hne : room ≠ 0 := by
          intro h
          have := hsmall h
          omega
        rw [if_neg hne]
        refine ⟨_, _, rfl, List.forall_mem_cons.mpr ⟨by decide, hbuf'⟩, ?_⟩
        rw [if_pos (by decide), groupsValue, ← hstep, hneg.1]
        rfl
      · split
        · rename_i hpos
          have hne : room ≠ 0 := by
            intro h
            have := hsmall h
            omega
          rw [if_neg hne]
          refine ⟨_, _, rfl, List.forall_mem_cons.mpr ⟨by decide, hbuf'⟩, ?_⟩
          rw [if_neg (by decide), groupsValue, ← hstep, hpos.1]
          rfl
        · refine ⟨_, _, rfl, hbuf', ?_⟩
          rw [← hstep]
          congr 1
          split <;> omega

/-- **Small integers** -/
theorem decodeSmallInt_emit {w : ℕ} (hw : w ≠ 0) {num : ℤ} (hlo : -2 ^ (w - 1) ≤ num)
    (hhi : num < 2 ^ (w - 1)) (ip : List UInt8) :
    ∃ bs, emitWriteInt w num = some bs ∧ decodeSmallInt w (bs ++ ip) = some (num, ip) := by
  have hroom : bytesForInt w ≠ 0 := by
    rw [bytesForInt]
    omega
  have hpow : (2 : ℤ) ^ (w - 1) ≤ 2 ^ (7 * bytesForInt w - 1) := by
    refine pow_le_pow_right₀ (by decide) ?_
    rw [bytesForInt]
    omega
  have hlo' : -2 ^ (7 * bytesForInt w - 1) ≤ num := by omega
  have hhi' : num < 2 ^ (7 * bytesForInt w - 1) := by omega
  obtain ⟨g, gs, hgs, hlt, hval⟩ := intGroups_spec hroom hlo' hhi' (List.forall_mem_nil (· < 128))
  refine ⟨markGroups (g :: gs), by rw [emitWriteInt, hgs]; rfl, ?_⟩
  -- the sign of the first byte is the one of its group
  obtain ⟨b, bs, hbs, hb⟩ : ∃ b bs, markGroups (g :: gs) = b :: bs ∧
      b.toNat &&& 0x40 = g &&& 0x40 := by
    obtain ⟨-, -, -, -, h1, h2⟩ := group_bits g (hlt g List.mem_cons_self)
    cases gs with
    | nil => exact ⟨_, _, rfl, h2⟩
    | cons h gs => exact ⟨_, _, rfl, h1⟩
  have hloop := @decodeSmallIntLoop_markGroups w (g :: gs) (List.cons_ne_nil _ _) hlt ip
    (if g &&& 0x40 ≠ 0 then -1 else 0)
  have htwo : ((2 ^ w : ℕ) : ℤ) = 2 * 2 ^ (w - 1) := by
    obtain ⟨k, rfl⟩ := Nat.exists_eq_add_one_of_ne_zero hw
    push_cast
    rw [pow_succ]
    exact mul_comm _ _
  rw [hval, groupsValue, Int.bmod_eq_of_le (by omega) (by omega)] at hloop
  rw [hbs] at hloop ⊢
  rw [List.cons_append, decodeSmallInt, hb]
  exact hloop

/-- **Decoding gives what was encoded**, and reads just the bytes that were written: the signature
of a function with its flags `MP_SCOPE_FLAG_ALL_SIG`, the two sizes, every `mp_uint_t` and every
small integer. -/
theorem prelude_roundtrip {w : ℕ} (hw : w ≠ 0) (ip : List UInt8) :
    (∀ v : PreludeSig, 0 < v.S → SigSmall v →
      mpBcPreludeSigDecode (mpBcPreludeSigEncode v ++ ip) = some ({ v with F := v.F % 16 }, ip)) ∧
    (∀ I C : ℕ, I < 2 ^ 24 → C < 2 ^ 16 →
      mpBcPreludeSizeDecode (mpBcPreludeSizeEncode 16 I C ++ ip) 0 0 0 = some ((I, C), ip)) ∧
    (∀ val < 2 ^ w, ∃ bs, emitWriteUint w val = some bs ∧
      decodeUint w (bs ++ ip) 0 = some (val, ip)) ∧
    ∀ num : ℤ, -2 ^ (w - 1) ≤ num → num < 2 ^ (w - 1) → ∃ bs, emitWriteInt w num = some bs ∧
      decodeSmallInt w (bs ++ ip) = some (num, ip) := by
  refine ⟨fun v hS hv => sigDecode_encode hS hv ip, ?_, fun val h => decodeUint_emit hw h ip,
    fun num hlo hhi => decodeSmallInt_emit hw hlo hhi ip⟩
  intro I C hI hC
  have h := @sizeDecode_encode 16 0 0 0 I C (by decide) (by decide) (by simpa using hI)
    (by simpa using hC) (by decide) (by decide) ip
  simpa using h

/-- A function with five words of state, two of them arguments, and the small integer -300 -/
theorem prelude_roundtrip_example :
    mpBcPreludeSigDecode (mpBcPreludeSigEncode ⟨5, 0, 1, 2, 0, 0⟩ ++ [1]) =
        some (⟨5, 0, 1, 2, 0, 0⟩, [1]) ∧
      ∃ bs, emitWriteInt 32 (-300) = some bs ∧ decodeSmallInt 32 (bs ++ [1]) = some (-300, [1]) :=
  have h := @prelude_roundtrip 32 (by decide) [1]
  ⟨h.1 ⟨5, 0, 1, 2, 0, 0⟩ (by decide) (by simp [SigSmall]), h.2.2.2 (-300) (by decide) (by decide)⟩

/-- The flag `MP_SCOPE_FLAG_REFGLOBALS` is not encoded. -/
theorem prelude_drops_flag :
    mpBcPreludeSigDecode (mpBcPreludeSigEncode ⟨1, 0, 0x10, 0, 0, 0⟩) =
      some (⟨1, 0, 0, 0, 0, 0⟩, []) := by
  decide

end Pycopy
