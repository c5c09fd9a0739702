import Mathlib.Data.Int.Bitwise
import Mathlib.Data.List.DropRight
import Mathlib.Data.Nat.Digits.Lemmas
import Mathlib.Tactic.Linarith
import Mathlib.Tactic.LinearCombination
import Mathlib.Tactic.Ring

/-!
# Little-Endian Digit Lists

A natural number held in an array of digits is, for the algorithms that work on such
arrays, a list of digits read through `Nat.ofDigits`. This module collects what those
algorithms need about the lists, for an arbitrary base and without reference to any
particular implementation.

* `Below b l` and `Normal l` are the two halves of well-formedness: every digit is
  below the base, and the most significant digit is not zero. A normal list pins the
  size of its value from both sides (`ofDigits_lt`, `pow_le_ofDigits`).
* `carryDigits` and `carryOut` propagate a carry through a list of column sums, and
  `ofDigits_carryDigits` says that nothing is lost.
-/

namespace DigitList

/-- Every digit of the list is below the base. -/
def Below (b : ℕ) (l : List ℕ) : Prop :=
  ∀ d ∈ l, d < b

/-- The most significant digit, if there is one, is not zero. -/
def Normal (l : List ℕ) : Prop :=
  l.getLast? ≠ some 0

instance (b : ℕ) (l : List ℕ) : Decidable (Below b l) :=
  inferInstanceAs (Decidable (∀ d ∈ l, d < b))

instance (l : List ℕ) : Decidable (Normal l) :=
  inferInstanceAs (Decidable (l.getLast? ≠ some 0))

@[simp] theorem below_nil (b : ℕ) : Below b [] := by
  simp [Below]

variable {b : ℕ} {l : List ℕ}

@[simp] theorem below_cons {d : ℕ} : Below b (d :: l) ↔ d < b ∧ Below b l := by
  simp [Below]

variable {m : List ℕ}

@[simp] theorem below_append : Below b (l ++ m) ↔ Below b l ∧ Below b m := by
  simp only [Below, List.mem_append]
  constructor
  · intro h
    exact ⟨fun d hd => h d (Or.inl hd), fun d hd => h d (Or.inr hd)⟩
  · rintro ⟨hl, hm⟩ d (hd | hd)
    · exact hl d hd
    · exact hm d hd

@[simp] theorem below_reverse : Below b l.reverse ↔ Below b l := by
  simp [Below]

theorem Below.sublist (h : Below b m) (hs : l.Sublist m) : Below b l :=
  fun d hd => h d (hs.subset hd)

@[simp] theorem normal_nil : Normal [] := by
  simp [Normal]

theorem normal_append_singleton {l : List ℕ} {d : ℕ} (hd : d ≠ 0) : Normal (l ++ [d]) := by
  simp [Normal, hd]

/-! ### Size of the value -/

/-- A list of digits below the base stays below the power of its length. -/
theorem ofDigits_lt (hb : 1 < b) (h : Below b l) : Nat.ofDigits b l < b ^ l.length :=
  Nat.ofDigits_lt_base_pow_length hb h

/-- A nonempty normal list reaches the weight of its leading digit. -/
theorem pow_le_ofDigits {b : ℕ} {l : List ℕ} (hn : Normal l) (hne : l ≠ []) :
    b ^ (l.length - 1) ≤ Nat.ofDigits b l := by
  obtain ⟨init, d, rfl⟩ : ∃ init d, l = init ++ [d] :=
    ⟨l.dropLast, l.getLast hne, (List.dropLast_append_getLast hne).symm⟩
  have hd : d ≠ 0 := by
    intro h0
    exact hn (by simp [h0])
  rw [Nat.ofDigits_append, Nat.ofDigits_singleton, List.length_append,
    List.length_singleton, Nat.add_sub_cancel]
  calc b ^ init.length ≤ b ^ init.length * d := Nat.le_mul_of_pos_right _ (by omega)
    _ ≤ Nat.ofDigits b init + b ^ init.length * d := Nat.le_add_left _ _

/-- A list of digits that reaches the weight of its leading digit is normal. -/
theorem normal_of_pow_le (hb : 1 < b) (hl : Below b l)
    (h : b ^ (l.length - 1) ≤ Nat.ofDigits b l) : Normal l := by
  intro h0
  obtain ⟨init, rfl⟩ : ∃ init, l = init ++ [0] := List.getLast?_eq_some_iff.mp h0
  have h1 := ofDigits_lt hb (below_append.mp hl).1
  rw [Nat.ofDigits_append_zero, List.length_append, List.length_singleton,
    Nat.add_sub_cancel] at h
  omega

/-- A normal list has value zero only when it is empty. -/
theorem ofDigits_eq_zero_iff (hb : 1 < b) (hn : Normal l) : Nat.ofDigits b l = 0 ↔ l = [] := by
  constructor
  · intro h
    by_contra hne
    have h1 := pow_le_ofDigits (b := b) hn hne
    have h2 : 0 < b ^ (l.length - 1) := Nat.pow_pos (by omega)
    omega
  · rintro rfl
    rfl

variable {n : ℕ}

/-- The length of a normal list is bounded by any power that bounds its value. -/
theorem length_le_of_ofDigits_lt (hb : 1 < b) (hn : Normal l)
    (h : Nat.ofDigits b l < b ^ n) : l.length ≤ n := by
  by_contra hc
  have hne : l ≠ [] := by
    intro h0
    simp [h0] at hc
  have h1 := pow_le_ofDigits (b := b) hn hne
  have h2 : b ^ n ≤ b ^ (l.length - 1) := Nat.pow_le_pow_right (by omega) (by omega)
  omega

/-- Scaling every digit scales the value. -/
theorem ofDigits_map_mul (b k : ℕ) (l : List ℕ) :
    Nat.ofDigits b (l.map (· * k)) = Nat.ofDigits b l * k := by
  induction l with
  | nil => simp
  | cons d l ih =>
    rw [List.map_cons, Nat.ofDigits_cons, Nat.ofDigits_cons, ih]
    ring

/-! ### Dropping leading zeros -/

/-- Drop the zeros at the most significant end. -/
def stripZeros (l : List ℕ) : List ℕ :=
  l.rdropWhile (· == 0)

theorem stripZeros_isPrefixOf (l : List ℕ) : stripZeros l <+: l :=
  List.rdropWhile_prefix _ l

theorem stripZeros_normal (l : List ℕ) : Normal (stripZeros l) := by
  intro h
  have hne : stripZeros l ≠ [] := by
    intro h0
    simp [h0] at h
  have hlast := List.rdropWhile_last_not (· == 0) l hne
  rw [List.getLast?_eq_some_getLast hne, Option.some.injEq] at h
  exact hlast (by simpa [stripZeros] using h)

/-- Leading zeros carry no value. -/
@[simp] theorem ofDigits_stripZeros (b : ℕ) (l : List ℕ) :
    Nat.ofDigits b (stripZeros l) = Nat.ofDigits b l := by
  induction l using List.reverseRecOn with
  | nil => rfl
  | append_singleton l d ih =>
    by_cases hd : d = 0
    · subst hd
      rw [stripZeros, List.rdropWhile_concat_pos _ _ _ (by simp), ← stripZeros, ih,
        Nat.ofDigits_append_zero]
    · rw [stripZeros, List.rdropWhile_concat_neg _ _ _ (by simpa using hd)]

theorem take_length_stripZeros (l : List ℕ) : l.take (stripZeros l).length = stripZeros l :=
  (List.prefix_iff_eq_take.mp (stripZeros_isPrefixOf l)).symm

/-! ### Carry propagation -/

/-- The digits left behind when a carry ripples through a list of column sums. -/
def carryDigits (b : ℕ) : List ℕ → ℕ → List ℕ
  | [], _ => []
  | s :: ss, c => (s + c) % b :: carryDigits b ss ((s + c) / b)

/-- The carry that leaves the last column. -/
def carryOut (b : ℕ) : List ℕ → ℕ → ℕ
  | [], c => c
  | s :: ss, c => carryOut b ss ((s + c) / b)

@[simp] theorem length_carryDigits (b : ℕ) (ss : List ℕ) (c : ℕ) :
    (carryDigits b ss c).length = ss.length := by
  induction ss generalizing c with
  | nil => rfl
  | cons s ss ih => simp [carryDigits, ih]

theorem below_carryDigits (hb : 0 < b) (ss : List ℕ) (c : ℕ) : Below b (carryDigits b ss c) := by
  induction ss generalizing c with
  | nil => simp [carryDigits]
  | cons s ss ih => simp [carryDigits, ih, Nat.mod_lt _ hb]

/-- **Carry propagation loses nothing**: the digits and the outgoing carry together
have the value of the column sums and the incoming carry. -/
theorem ofDigits_carryDigits (b : ℕ) (ss : List ℕ) (c : ℕ) :
    Nat.ofDigits b (carryDigits b ss c) + b ^ ss.length * carryOut b ss c =
      Nat.ofDigits b ss + c := by
  induction ss generalizing c with
  | nil => simp [carryDigits, carryOut]
  | cons s ss ih =>
    have hstep := Nat.mod_add_div (s + c) b
    have ih' := ih ((s + c) / b)
    simp only [carryDigits, carryOut, Nat.ofDigits_cons, List.length_cons, pow_succ]
    calc (s + c) % b + b * Nat.ofDigits b (carryDigits b ss ((s + c) / b)) +
          b ^ ss.length * b * carryOut b ss ((s + c) / b)
        = (s + c) % b + b * (Nat.ofDigits b (carryDigits b ss ((s + c) / b)) +
            b ^ ss.length * carryOut b ss ((s + c) / b)) := by ring
      _ = (s + c) % b + b * ((s + c) / b) + b * Nat.ofDigits b ss := by
          rw [ih']
          ring
      _ = s + b * Nat.ofDigits b ss + c := by
          rw [hstep]
          ring

/-- Columns of the form "at most `m` times a digit pattern" keep the carry small: if
every column sum plus a carry of at most `m` stays below `b * (m + 1)`, then so does the
carry that leaves. -/
theorem carryOut_le {b m : ℕ} {ss : List ℕ} {c : ℕ} (hb : 0 < b)
    (hs : ∀ s ∈ ss, s + m < b * (m + 1)) (hc : c ≤ m) : carryOut b ss c ≤ m := by
  induction ss generalizing c with
  | nil => exact hc
  | cons s ss ih =>
    have h1 := hs s (by simp)
    refine ih (fun t ht => hs t (by simp [ht])) ?_
    exact Nat.lt_succ_iff.mp ((Nat.div_lt_iff_lt_mul hb).mpr (by nlinarith))

/-- The digits of a ripple with the outgoing carry stored after them when it is not
zero. -/
def carryAll (b : ℕ) (ss : List ℕ) (c : ℕ) : List ℕ :=
  carryDigits b ss c ++ if carryOut b ss c ≠ 0 then [carryOut b ss c] else []

@[simp] theorem carryAll_cons (b s : ℕ) (ss : List ℕ) (c : ℕ) :
    carryAll b (s :: ss) c = (s + c) % b :: carryAll b ss ((s + c) / b) := rfl

theorem carryAll_eq_ite (b : ℕ) (ss : List ℕ) (c : ℕ) : carryAll b ss c =
      if carryOut b ss c ≠ 0 then carryDigits b ss c ++ [carryOut b ss c]
      else carryDigits b ss c := by
  rw [carryAll]
  split <;> simp

theorem ofDigits_carryAll (b : ℕ) (ss : List ℕ) (c : ℕ) :
    Nat.ofDigits b (carryAll b ss c) = Nat.ofDigits b ss + c := by
  rw [← ofDigits_carryDigits b ss c, carryAll, Nat.ofDigits_append, length_carryDigits]
  split
  · rw [Nat.ofDigits_singleton]
  · rename_i h
    rw [not_not.mp h]
    rfl

variable {ss : List ℕ}

theorem below_carryAll {c : ℕ} (hb : 0 < b)
    (h : carryOut b ss c < b) : Below b (carryAll b ss c) := by
  rw [carryAll, below_append]
  refine ⟨below_carryDigits hb ss c, ?_⟩
  split
  · simpa using h
  · exact below_nil b

/-- A ripple is normal as soon as its value reaches the weight of the last column. -/
theorem normal_carryAll {c : ℕ} (hb : 1 < b)
    (h : b ^ (ss.length - 1) ≤ Nat.ofDigits b ss + c) : Normal (carryAll b ss c) := by
  by_cases h0 : carryOut b ss c = 0
  · have hb' : Below b (carryAll b ss c) := below_carryAll (by omega) (by omega)
    have hlen : (carryAll b ss c).length = ss.length := by simp [carryAll, h0]
    refine normal_of_pow_le hb hb' ?_
    rw [hlen, ofDigits_carryAll]
    exact h
  · rw [carryAll, if_pos h0]
    exact normal_append_singleton h0

end DigitList
