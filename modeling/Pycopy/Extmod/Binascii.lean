import Mathlib.Data.Nat.Bitwise
import Mathlib.Tactic.IntervalCases

/-!
# Base64

`a2b_base64` of `extmod/modubinascii.c`. The decoder shifts the values of the characters into an
accumulator that is never cut, and takes a byte out of it whenever eight bits are there. Its buffer
is allocated by the length of the text, whatever the text is.

## Main results

* `a2b_writes_iff`: when the decoder of base64 stays inside its buffer.
-/

namespace Pycopy

/-! ### The source -/

/-- What the functions raise, with the text of the `ValueError` -/
inductive BinasciiExc
  | valueError (msg : String)
  deriving DecidableEq, Repr

/-- `mod_binascii_sextet`, with `none` for its result -1 -/
def modBinasciiSextet (ch : UInt8) : Option UInt32 :=
  if ch ≥ 65 ∧ ch ≤ 90 then some (ch.toUInt32 - 65)
  else if ch ≥ 97 ∧ ch ≤ 122 then some (ch.toUInt32 - 97 + 26)
  else if ch ≥ 48 ∧ ch ≤ 57 then some (ch.toUInt32 - 48 + 52)
  else if ch = 43 then some 62
  else if ch = 47 then some 63
  else none

/-- The variables of `mod_binascii_a2b_base64`: the bytes of `out` are those stored so far. -/
structure A2b where
  shift : UInt32
  nbits : ℕ
  hadpad : Bool
  out : List UInt8
  deriving DecidableEq, Repr

/-- What the loop does with a character that has a value -/
def A2b.take (s : A2b) (sextet : UInt32) : A2b :=
  let shift := (s.shift <<< 6) ||| sextet
  let nbits := s.nbits + 6
  if nbits ≥ 8 then
    { shift := shift, nbits := nbits - 8, hadpad := false,
      out := s.out ++ [((shift >>> UInt32.ofNat (nbits - 8)) &&& 0xFF).toUInt8] }
  else { s with shift := shift, nbits := nbits, hadpad := false }

/-- The loop of `mod_binascii_a2b_base64` -/
def a2bLoop : A2b → List UInt8 → A2b
  | s, [] => s
  | s, ch :: rest =>
    if ch = 61 then
      if s.nbits = 2 ∨ s.nbits = 4 ∧ s.hadpad then { s with nbits := 0 }
      else a2bLoop { s with hadpad := true } rest
    else match modBinasciiSextet ch with
      | none => a2bLoop s rest
      | some sextet => a2bLoop (s.take sextet) rest

/-- The variables at the end of the loop -/
def a2bEnd (data : List UInt8) : A2b := a2bLoop ⟨0, 0, false, []⟩ data

/-- The size of the buffer that `mod_binascii_a2b_base64` allocates -/
def a2bAlloc (data : List UInt8) : ℕ := data.length / 4 * 3 + 1

/-- `mod_binascii_a2b_base64` -/
def modBinasciiA2bBase64 (data : List UInt8) : Except BinasciiExc (List UInt8) :=
  if (a2bEnd data).nbits ≠ 0 then .error (.valueError "incorrect padding")
  else .ok (a2bEnd data).out

/-! ### The alphabet -/

/-- The standard alphabet: `A` to `Z`, `a` to `z`, `0` to `9`, `+` and `/` -/
def base64Alphabet : List UInt8 :=
  (List.range' 65 26 ++ List.range' 97 26 ++ List.range' 48 10 ++ [43, 47]).map UInt8.ofNat

/-- A character of the alphabet -/
def inAlphabet (ch : UInt8) : Bool := base64Alphabet.contains ch

/-- The alphabet in the ranges that the decoder tests -/
theorem inAlphabet_iff (ch : UInt8) : inAlphabet ch = true ↔
    65 ≤ ch.toNat ∧ ch.toNat ≤ 90 ∨ 97 ≤ ch.toNat ∧ ch.toNat ≤ 122 ∨
      48 ≤ ch.toNat ∧ ch.toNat ≤ 57 ∨ ch.toNat = 43 ∨ ch.toNat = 47 := by
  rw [inAlphabet, List.contains_iff_mem, base64Alphabet, List.mem_map]
  constructor
  · rintro ⟨n, hn, rfl⟩
    simp only [List.mem_append, List.mem_range'_1, List.mem_cons, List.not_mem_nil, or_false] at hn
    have hback : (UInt8.ofNat n).toNat = n := UInt8.toNat_ofNat_of_lt (show n < 256 by omega)
    omega
  · intro h
    refine ⟨ch.toNat, ?_, UInt8.ofNat_toNat⟩
    simp only [List.mem_append, List.mem_range'_1, List.mem_cons, List.not_mem_nil, or_false]
    omega

/-- The values are those of the characters of the alphabet. -/
theorem isSome_sextet (ch : UInt8) : (modBinasciiSextet ch).isSome = inAlphabet ch := by
  rw [Bool.eq_iff_iff, inAlphabet_iff, modBinasciiSextet]
  simp only [ge_iff_le, UInt8.le_iff_toNat_le, ← UInt8.toNat_inj]
  split_ifs <;> simp_all

variable {s : A2b}

/-! ### The buffer of the decoder -/

/-- The bits in hand and the bytes stored, after a value -/
theorem take_bits (h : s.nbits < 8) (v : UInt32) :
    (s.take v).nbits < 8 ∧ 8 * (s.take v).out.length + (s.take v).nbits =
      8 * s.out.length + s.nbits + 6 := by
  by_cases h8 : s.nbits + 6 ≥ 8
  · simp only [A2b.take, if_pos h8, List.length_append, List.length_singleton]
    omega
  · simp only [A2b.take, if_neg h8]
    omega

/-- **What a run stores**: three bytes for four of the `k` characters that it takes. It takes all
the characters of a text that has no others. -/
theorem a2bLoop_stores (data : List UInt8) (h : s.nbits < 8) :
    ∃ k ≤ (data.filter inAlphabet).length, (data.all inAlphabet → k = data.length) ∧
      (a2bLoop s data).out.length = (8 * s.out.length + s.nbits + 6 * k) / 8 := by
  induction data generalizing s with
  | nil => exact ⟨0, Nat.zero_le _, fun _ => rfl, by rw [a2bLoop]; omega⟩
  | cons ch rest ih =>
    rw [a2bLoop]
    by_cases hpad : ch = 61
    · have hout : inAlphabet ch = false := by rw [hpad]; decide
      rw [if_pos hpad, List.filter_cons_of_neg (by rw [hout]; exact Bool.false_ne_true)]
      have hall : ¬(ch :: rest).all inAlphabet = true := by
        rw [List.all_cons, hout]
        exact Bool.false_ne_true
      split_ifs with hend
      · exact ⟨0, Nat.zero_le _, fun hc => absurd hc hall, by simp only; omega⟩
      · obtain ⟨k, hk, -, hlen⟩ := ih (s := { s with hadpad := true }) h
        exact ⟨k, hk, fun hc => absurd hc hall, hlen⟩
    · rw [if_neg hpad]
      cases hsextet : modBinasciiSextet ch with
      | none =>
        have hout : inAlphabet ch = false := by rw [← isSome_sextet, hsextet]; rfl
        obtain ⟨k, hk, -, hlen⟩ := ih h
        refine ⟨k, ?_, ?_, hlen⟩
        · rwa [List.filter_cons_of_neg (by rw [hout]; exact Bool.false_ne_true)]
        · intro hc
          rw [List.all_cons, hout] at hc
          exact absurd hc Bool.false_ne_true
      | some v =>
        have hin : inAlphabet ch = true := by rw [← isSome_sextet, hsextet]; rfl
        obtain ⟨hnbits, hbits⟩ := take_bits h v
        obtain ⟨k, hk, hall, hlen⟩ := ih hnbits
        refine ⟨k + 1, ?_, ?_, ?_⟩
        · rw [List.filter_cons_of_pos hin, List.length_cons]
          omega
        · intro hc
          rw [List.all_cons, hin, Bool.true_and] at hc
          rw [List.length_cons, hall hc]
        · rw [hlen, hbits]
          congr 1
          omega

/-- **The decoder stays inside its buffer** unless the text has three characters more than a
multiple of four and all of them are in the alphabet. -/
theorem a2b_writes_iff (data : List UInt8) :
    (a2bEnd data).out.length ≤ a2bAlloc data ↔
      ¬(data.length % 4 = 3 ∧ data.all inAlphabet = true) := by
  obtain ⟨k, hk, hall, hlen⟩ := a2bLoop_stores (s := ⟨0, 0, false, []⟩) data (by decide)
  have hfilter := List.length_filter_le inAlphabet data
  rw [a2bEnd, hlen, a2bAlloc]
  constructor
  · rintro hle ⟨hmod, hc⟩
    rw [hall hc] at hle
    simp only [List.length_nil] at hle
    omega
  · intro hn
    by_cases hc : data.all inAlphabet = true
    · have hmod : data.length % 4 ≠ 3 := fun hmod => hn ⟨hmod, hc⟩
      simp only [List.length_nil]
      omega
    · have hlt : (data.filter inAlphabet).length < data.length := by
        by_contra hge
        have heq := List.length_filter_eq_length_iff.mp
          (Nat.le_antisymm hfilter (Nat.not_lt.mp hge))
        exact hc (List.all_eq_true.mpr heq)
      simp only [List.length_nil]
      omega

/-- The text `AAA`: two bytes are stored in a buffer of one before the exception. -/
theorem a2b_overrun : (a2bEnd [65, 65, 65]).out = [0, 0] ∧ a2bAlloc [65, 65, 65] = 1 ∧
    modBinasciiA2bBase64 [65, 65, 65] = .error (.valueError "incorrect padding") := by
  decide

end Pycopy
