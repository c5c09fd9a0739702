import Pycopy.Lib.SyncCode

/-!
# UTF-8

UTF-8 as a code that synchronises: the words are the bytes of the characters, and a word starts
where a byte is not a continuation byte.

## Main results

* `exists_head`: the first byte of a character says how many there are, and the others continue it.
* `code`: UTF-8 is such a code.
-/

namespace Utf8

/-- A continuation byte -/
def isCont (b : UInt8) : Bool := b &&& 0xC0 == 0x80

theorem isCont_iff (b : UInt8) : isCont b = true ↔ 128 ≤ b.toNat ∧ b.toNat < 192 := by
  have h : ∀ n < 256, isCont (UInt8.ofNat n) = true ↔ 128 ≤ n ∧ n < 192 := by decide +kernel
  rw [← h b.toNat b.toNat_lt, UInt8.ofNat_toNat]

/-- The first bytes of the characters with `k` bytes more -/
def HeadOf (h : UInt8) (k : ℕ) : Prop :=
  (k = 0 ∧ h.toNat < 128) ∨ (k = 1 ∧ 192 ≤ h.toNat ∧ h.toNat < 224) ∨
    (k = 2 ∧ 224 ≤ h.toNat ∧ h.toNat < 240) ∨ (k = 3 ∧ 240 ≤ h.toNat ∧ h.toNat < 248)

theorem HeadOf.not_isCont {h : UInt8} {k : ℕ} (hk : HeadOf h k) : isCont h = false := by
  rw [Bool.eq_false_iff, ne_eq, isCont_iff]
  rcases hk with hk | hk | hk | hk <;> omega

theorem isCont_ofNat {n : ℕ} (hn : n < 64) : isCont (UInt8.ofNat (n + 128)) = true := by
  rw [isCont_iff, UInt8.toNat_ofNat']
  omega

/-- The first byte of a character says how many there are, and the others continue it. -/
theorem exists_head (c : Char) :
    ∃ h t, String.utf8EncodeChar c = h :: t ∧ HeadOf h t.length ∧ ∀ x ∈ t, isCont x = true := by
  have hcont (n : ℕ) : isCont (UInt8.ofNat (n % 64 + 128)) = true :=
    isCont_ofNat (Nat.mod_lt n (by decide))
  unfold String.utf8EncodeChar
  dsimp only
  split
  · refine ⟨_, [], rfl, .inl ⟨rfl, ?_⟩, by simp⟩
    rw [UInt8.toNat_ofNat']
    omega
  · split
    · refine ⟨_, _, rfl, .inr (.inl ⟨rfl, ?_⟩), ?_⟩
      · rw [UInt8.toNat_ofNat']
        omega
      · simp only [List.mem_cons, List.not_mem_nil, or_false, forall_eq, hcont]
    · split
      · refine ⟨_, _, rfl, .inr (.inr (.inl ⟨rfl, ?_⟩)), ?_⟩
        · rw [UInt8.toNat_ofNat']
          omega
        · simp only [List.mem_cons, List.not_mem_nil, or_false, forall_eq_or_imp, forall_eq, hcont,
            and_self]
      · refine ⟨_, _, rfl, .inr (.inr (.inr ⟨rfl, ?_⟩)), ?_⟩
        · rw [UInt8.toNat_ofNat']
          omega
        · simp only [List.mem_cons, List.not_mem_nil, or_false, forall_eq_or_imp, forall_eq, hcont,
            and_self]

/-- No character continues the bytes of another one. -/
theorem eq_of_prefix {c d : Char} (h : String.utf8EncodeChar c <+: String.utf8EncodeChar d) :
    c = d := by
  obtain ⟨t, ht⟩ := h
  have hc : ((String.utf8EncodeChar c).toByteArray ++ t.toByteArray).utf8DecodeChar? 0 = some c :=
    ByteArray.utf8DecodeChar?_utf8EncodeChar_append
  have hd : ((String.utf8EncodeChar d).toByteArray ++ ByteArray.empty).utf8DecodeChar? 0 = some d :=
    ByteArray.utf8DecodeChar?_utf8EncodeChar_append
  rw [← ht, List.toByteArray_append, ByteArray.append_empty, hc] at hd
  exact Option.some.inj hd

/-- **UTF-8 is a code that synchronises.** -/
def code : SyncCode UInt8 Char where
  word := String.utf8EncodeChar
  cont := isCont
  word_eq c := by
    obtain ⟨h, t, heq, hh, ht⟩ := exists_head c
    exact ⟨h, t, heq, hh.not_isCont, ht⟩
  word_prefix := eq_of_prefix

end Utf8
