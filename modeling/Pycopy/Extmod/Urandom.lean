import Pycopy.Seq.Range

/-!
# Random Members of Ranges

`randrange`, `randint` and `choice` of `extmod/modurandom.c`. Each of them counts the members in a
word and passes the count to `yasmarang_randbelow`, which asks the generator for numbers until one
is below it. Nothing is assumed about the generator: its outputs are any sequence.

The count is passed as a `uint32_t`. If its low 32 bits are zero, no number is below it, and the
call does not return. The count of `randrange` with a step is moreover computed as a range computes
its length, and where this wraps an empty range seems to have members.

## Main results

* `urandom_right_iff`: all calls.
-/

open StepRange

namespace Pycopy

/-! ### The source -/

/-- The loop of `yasmarang_randbelow` that makes the mask -/
def maskLoop (n : ℕ) : ℕ → ℕ → Option ℕ
  | 0, _ => none
  | fuel + 1, mask =>
    if n &&& mask < n then maskLoop n fuel ((mask <<< 1 ||| 1) % 2 ^ 32) else some mask

/-- The loop of `yasmarang_randbelow` that asks for numbers -/
def rejectLoop (rnd : ℕ → UInt32) (n mask : ℕ) : ℕ → ℕ → Option ℕ
  | 0, _ => none
  | fuel + 1, i =>
    let r := (rnd i).toNat &&& mask
    if r ≥ n then rejectLoop rnd n mask fuel (i + 1) else some r

/-- `yasmarang_randbelow`, with the outputs of the generator. The argument becomes a `uint32_t`. -/
def yasmarangRandbelow (rnd : ℕ → UInt32) (fuel : ℕ) (n : ℤ) : Option ℕ := do
  let mask ← maskLoop (n % 2 ^ 32).toNat fuel 1
  rejectLoop rnd (n % 2 ^ 32).toNat mask fuel 0

/-- The errors -/
inductive RandExc
  | valueError
  | indexError

/-- `n` of `mod_urandom_randrange` with a step -/
def randrangeCount (w : ℕ) (start stop step : ℤ) : ℤ :=
  let n := wordAdd w (wordAdd w stop (-start)) step
  ((if 0 < step then wordAdd w n (-1) else wordAdd w n 1).tdiv step).bmod (2 ^ w)

section

variable (w : ℕ) (rnd : ℕ → UInt32) (fuel : ℕ)

/-- `mod_urandom_randrange` -/
def modUrandomRandrange (start : ℤ) : Option ℤ → Option ℤ → Option (Except RandExc ℤ)
  | none, _ =>
    if 0 < start then
      (yasmarangRandbelow rnd fuel start).map fun r : ℕ => .ok ((r : ℤ).bmod (2 ^ w))
    else some (.error .valueError)
  | some stop, none =>
    if start < stop then
      (yasmarangRandbelow rnd fuel (wordAdd w stop (-start))).map
        fun r : ℕ => .ok (wordAdd w start r)
    else some (.error .valueError)
  | some stop, some step =>
    if step = 0 then some (.error .valueError)
    else
      let n := randrangeCount w start stop step
      if 0 < n then
        (yasmarangRandbelow rnd fuel n).map fun r : ℕ => .ok (wordAdd w start (wordMul w step r))
      else some (.error .valueError)

/-- `mod_urandom_randint` -/
def modUrandomRandint (a b : ℤ) : Option (Except RandExc ℤ) :=
  if a ≤ b then
    (yasmarangRandbelow rnd fuel (wordAdd w (wordAdd w b (-a)) 1)).map
      fun r : ℕ => .ok (wordAdd w a r)
  else some (.error .valueError)

variable {α : Type}

/-- `mp_obj_subscr` of a sequence of `len` items -/
def seqSubscr (items : ℕ → α) (len i : ℤ) : Except RandExc α :=
  let i := if i < 0 then i + len else i
  if 0 ≤ i ∧ i < len then .ok (items i.toNat) else .error .indexError

/-- `mod_urandom_choice` -/
def modUrandomChoice (items : ℕ → α) (len : ℤ) : Option (Except RandExc α) :=
  if 0 < len then
    (yasmarangRandbelow rnd fuel len).map fun r : ℕ => seqSubscr items len ((r : ℤ).bmod (2 ^ w))
  else some (.error .indexError)

end

/-- A call is refused, or there are outputs of the generator for which it returns, and whatever they
are it returns a member. -/
def RandRight {β : Type} (call : (ℕ → UInt32) → ℕ → Option (Except RandExc β))
    (member : β → Prop) : Prop :=
  (∃ e, ∀ rnd fuel, call rnd fuel = some (.error e)) ∨
    ((∃ rnd fuel, call rnd fuel ≠ none) ∧
      ∀ rnd fuel res, call rnd fuel = some res → ∃ v, res = .ok v ∧ member v)

/-! ### Numbers below a count -/

variable {w : ℕ} {rnd : ℕ → UInt32} {fuel n r : ℕ} {c : ℤ}

theorem maskLoop_some (hn : n < 2 ^ 32) (j : ℕ) (hj : j + 1 ≤ 32) (hfuel : 32 < fuel + (j + 1)) :
    ∃ mask, maskLoop n fuel (2 ^ (j + 1) - 1) = some mask := by
  induction fuel generalizing j with
  | zero => omega
  | succ fuel ih =>
    rw [maskLoop, Nat.and_two_pow_sub_one_eq_mod]
    by_cases h32 : j + 1 = 32
    · rw [h32, Nat.mod_eq_of_lt hn, if_neg (lt_irrefl n)]
      exact ⟨_, rfl⟩
    have hnext : ((2 ^ (j + 1) - 1) <<< 1 ||| 1) % 2 ^ 32 = 2 ^ (j + 1 + 1) - 1 := by
      have hlt : 2 ^ (j + 1 + 1) ≤ 2 ^ 32 := Nat.pow_le_pow_right (by omega) (by omega)
      have hpos := Nat.two_pow_pos (j + 1)
      have hsucc : 2 ^ (j + 1 + 1) = 2 * 2 ^ (j + 1) := Nat.pow_succ'
      rw [← Nat.shiftLeft_add_eq_or_of_lt (by omega : 1 < 2 ^ 1), Nat.shiftLeft_eq,
        Nat.mod_eq_of_lt (by omega)]
      omega
    split_ifs
    · rw [hnext]
      exact ih (j + 1) (by omega) (by omega)
    · exact ⟨_, rfl⟩

theorem rejectLoop_lt {mask : ℕ} (i : ℕ) (h : rejectLoop rnd n mask fuel i = some r) : r < n := by
  induction fuel generalizing i with
  | zero => exact nomatch h
  | succ fuel ih =>
    rw [rejectLoop] at h
    split_ifs at h with hge
    · exact ih (i + 1) h
    · rw [← Option.some_inj.mp h]
      exact not_le.mp hge

/-- **What comes out is below the count.** -/
theorem randbelow_lt (h : yasmarangRandbelow rnd fuel c = some r) : (r : ℤ) < c % 2 ^ 32 := by
  obtain ⟨mask, -, hloop⟩ := Option.bind_eq_some_iff.mp h
  have hlt := rejectLoop_lt 0 hloop
  omega

/-- **Nothing is below zero**, and the loop is not left. -/
theorem randbelow_zero (hc : (2 : ℤ) ^ 32 ∣ c) : yasmarangRandbelow rnd fuel c = none := by
  refine Option.eq_none_iff_forall_not_mem.mpr fun r hr => ?_
  have hlt := randbelow_lt hr
  rw [Int.emod_eq_zero_of_dvd hc] at hlt
  omega

/-- A generator that gives zero -/
theorem randbelow_ne_none (hc : ¬(2 : ℤ) ^ 32 ∣ c) :
    yasmarangRandbelow (fun _ => 0) 33 c = some 0 := by
  have hpos : 0 < (c % 2 ^ 32).toNat := by omega
  have hsome : ∃ mask, maskLoop (c % 2 ^ 32).toNat 33 1 = some mask :=
    maskLoop_some (by omega) 0 (by omega) (by omega)
  obtain ⟨mask, hmask⟩ := hsome
  rw [yasmarangRandbelow, hmask]
  simp only [Option.bind_eq_bind, Option.bind_some, rejectLoop, UInt32.toNat_zero, Nat.zero_and]
  rw [if_neg (not_le.mpr hpos)]

/-! ### Calls that are not refused -/

variable {β : Type} {call : (ℕ → UInt32) → ℕ → Option (Except RandExc β)} {member : β → Prop}
  {f : ℕ → Except RandExc β}

theorem randRight_refused {e : RandExc} (hcall : ∀ rnd fuel, call rnd fuel = some (.error e)) :
    RandRight call member :=
  .inl ⟨e, hcall⟩

/-- The members that the numbers below the count stand for -/
theorem randRight_of_members
    (hcall : ∀ rnd fuel, call rnd fuel = (yasmarangRandbelow rnd fuel c).map f)
    (hc : ¬(2 : ℤ) ^ 32 ∣ c) (hf : ∀ r : ℕ, (r : ℤ) < c % 2 ^ 32 → ∃ v, f r = .ok v ∧ member v) :
    RandRight call member := by
  refine .inr ⟨⟨fun _ => 0, 33, ?_⟩, fun rnd fuel res hres => ?_⟩
  · rw [hcall, randbelow_ne_none hc]
    exact Option.some_ne_none _
  · rw [hcall] at hres
    obtain ⟨r, hr, rfl⟩ := Option.map_eq_some_iff.mp hres
    exact hf r (randbelow_lt hr)

/-- If there are no members, a call that is not refused is wrong. -/
theorem not_randRight (hcall : ∀ rnd fuel, call rnd fuel = (yasmarangRandbelow rnd fuel c).map f)
    (hwrong : (2 : ℤ) ^ 32 ∣ c ∨ ∀ v, ¬member v) : ¬RandRight call member := by
  rintro (⟨e, herr⟩ | ⟨⟨rnd, fuel, hsome⟩, hmem⟩)
  · -- without fuel there is no result
    have h0 := herr (fun _ => 0) 0
    rw [hcall] at h0
    exact nomatch h0
  · rcases hwrong with hc | hnone
    · rw [hcall, randbelow_zero hc] at hsome
      exact hsome rfl
    · obtain ⟨res, hres⟩ := Option.ne_none_iff_exists'.mp hsome
      obtain ⟨v, -, hv⟩ := hmem rnd fuel res hres
      exact hnone v hv

/-- A call that is refused unless it has members -/
theorem randRight_iff {P : Prop} [Decidable P] {e : RandExc}
    (hcall : ∀ rnd fuel, call rnd fuel =
      if P then (yasmarangRandbelow rnd fuel c).map f else some (.error e))
    (hf : P → ∀ r : ℕ, (r : ℤ) < c % 2 ^ 32 → ∃ v, f r = .ok v ∧ member v) :
    RandRight call member ↔ (P → ¬(2 : ℤ) ^ 32 ∣ c) := by
  by_cases hP : P
  · simp only [if_pos hP] at hcall
    constructor
    · intro hright _ hc
      exact not_randRight hcall (.inl hc) hright
    · intro hc
      exact randRight_of_members hcall (hc hP) (hf hP)
  · simp only [if_neg hP] at hcall
    exact iff_of_true (randRight_refused hcall) fun h => absurd h hP

/-! ### Counts in words -/

/-- The low bits of a sum do not depend on the word. -/
theorem bmod_emod_two_pow (hw : 32 ≤ w) (x : ℤ) : x.bmod (2 ^ w) % 2 ^ 32 = x % 2 ^ 32 := by
  have hdvd : (2 : ℤ) ^ 32 ∣ x.bmod (2 ^ w) - x := by
    refine dvd_trans ?_ (Int.dvd_bmod_sub_self (x := x) (m := 2 ^ w))
    push_cast
    exact pow_dvd_pow 2 hw
  exact Int.emod_eq_emod_iff_emod_sub_eq_zero.mpr (Int.emod_eq_zero_of_dvd hdvd)

theorem mem_stepRange_one {a b x : ℤ} : x ∈ stepRange a b 1 ↔ a ≤ x ∧ x < b := by
  rw [mem_stepRange one_ne_zero]
  constructor
  · rintro ⟨n, rfl, hlt⟩
    rw [Before, if_pos one_pos] at hlt
    omega
  · rintro ⟨hle, hlt⟩
    exact ⟨(x - a).toNat, by omega, by rwa [Before, if_pos one_pos]⟩

/-- A member of a range without a step, which is a word as its bounds are -/
theorem offset_member (hw : 0 < w) {a b : ℤ} (ha : IsWord w a) (hb : IsWord w (b - 1))
    (hr : (r : ℤ) < b - a) : wordAdd w a r ∈ stepRange a b 1 := by
  have hword : IsWord w (a + r) := ⟨by have := ha.1; omega, by have := hb.2; omega⟩
  rw [wordAdd_eq hw hword]
  exact mem_stepRange_one.mpr ⟨by omega, by omega⟩

/-- The quotient of a division that is rounded towards zero, as a word -/
theorem tdiv_bmod_pos_iff (hw : 0 < w) {m k : ℤ} (hk : 0 < k) (hm₁ : -(2 : ℤ) ^ (w - 1) ≤ m)
    (hm₂ : m ≤ 2 ^ (w - 1)) :
    (0 < (m.tdiv k).bmod (2 ^ w) ↔ k ≤ m ∧ ¬(k = 1 ∧ m = 2 ^ (w - 1))) ∧
      (0 < (m.tdiv k).bmod (2 ^ w) → (m.tdiv k).bmod (2 ^ w) = m / k) := by
  have hpow : ((2 ^ w : ℕ) : ℤ) = 2 * 2 ^ (w - 1) := by
    rw [← pow_succ', Nat.sub_add_cancel hw]
    push_cast
    rfl
  have hpos : (0 : ℤ) < 2 ^ (w - 1) := by positivity
  rcases lt_or_ge m 0 with hm | hm
  · have hq : m.tdiv k = -(-m / k) := by
      rw [← Int.tdiv_eq_ediv_of_nonneg (by omega), Int.neg_tdiv, neg_neg]
    have hq₀ : 0 ≤ -m / k := Int.ediv_nonneg (by omega) hk.le
    have hq₁ : -m / k ≤ -m := Int.ediv_le_self k (by omega)
    rw [hq, bmod_of_bounds hw (by omega) (by omega)]
    exact ⟨⟨fun h => by omega, fun h => by omega⟩, fun h => by omega⟩
  · rw [Int.tdiv_eq_ediv_of_nonneg hm]
    have hq₀ : 0 ≤ m / k := Int.ediv_nonneg hm hk.le
    have hq₁ : m / k ≤ m := Int.ediv_le_self k hm
    have hq₂ : 1 ≤ m / k ↔ 1 * k ≤ m := Int.le_ediv_iff_mul_le hk
    by_cases hmax : m / k = 2 ^ (w - 1)
    · -- only the least word divided by `-1`
      have hk1 : k = 1 := by
        by_contra hne
        have hmul : m / k * k ≤ m := Int.ediv_mul_le m hk.ne'
        have htwo : m / k * 2 ≤ m / k * k := Int.mul_le_mul_of_nonneg_left (by omega) hq₀
        omega
      have hneg : (m / k).bmod (2 ^ w) = -(2 : ℤ) ^ (w - 1) := by
        rw [hmax, ← Int.sub_bmod_right, hpow, bmod_of_bounds hw (by omega) (by omega)]
        omega
      rw [hneg]
      exact ⟨⟨fun h => by omega, fun h => absurd ⟨hk1, by omega⟩ h.2⟩, fun h => by omega⟩
    · rw [bmod_of_bounds hw (by omega) (by omega)]
      refine ⟨⟨fun h => ⟨by omega, ?_⟩, fun h => by omega⟩, fun _ => rfl⟩
      rintro ⟨rfl, hm'⟩
      rw [Int.ediv_one] at hmax
      exact hmax hm'

/-- What the count is divided from, with the sign of the step taken off -/
def randrangeSum (w : ℕ) (o : RangeObj) : ℤ :=
  if 0 < o.step then o.lenSum.bmod (2 ^ w) else -o.lenSum.bmod (2 ^ w)

variable {start stop step : ℤ}

theorem randrangeCount_eq :
    randrangeCount w start stop step =
      ((randrangeSum w ⟨start, stop, step⟩).tdiv |step|).bmod (2 ^ w) := by
  have hsum : (if 0 < step then wordAdd w (wordAdd w (wordAdd w stop (-start)) step) (-1)
      else wordAdd w (wordAdd w (wordAdd w stop (-start)) step) 1) =
      (RangeObj.lenSum ⟨start, stop, step⟩).bmod (2 ^ w) := by
    simp only [wordAdd, Int.bmod_add_bmod, RangeObj.lenSum]
    split <;> rfl
  simp only [randrangeCount, hsum, randrangeSum]
  by_cases h : 0 < step
  · rw [if_pos h, abs_of_pos h]
  · rw [if_neg h, abs_of_nonpos (not_lt.mp h), Int.neg_tdiv, Int.tdiv_neg, neg_neg]

/-- A sum of three words wraps at most once. -/
theorem bmod_cases (hw : 0 < w) {x : ℤ} (h₁ : -(3 * 2 ^ (w - 1)) ≤ x) (h₂ : x < 3 * 2 ^ (w - 1)) :
    (IsWord w x ∧ x.bmod (2 ^ w) = x) ∨
      (x < -2 ^ (w - 1) ∧ x.bmod (2 ^ w) = x + 2 * 2 ^ (w - 1)) ∨
      (2 ^ (w - 1) ≤ x ∧ x.bmod (2 ^ w) = x - 2 * 2 ^ (w - 1)) := by
  have hpow : ((2 ^ w : ℕ) : ℤ) = 2 * 2 ^ (w - 1) := by
    rw [← pow_succ', Nat.sub_add_cancel hw]
    push_cast
    rfl
  by_cases hlow : x < -2 ^ (w - 1)
  · refine .inr (.inl ⟨hlow, ?_⟩)
    rw [← Int.add_bmod_right, hpow, bmod_of_bounds hw (by omega) (by omega)]
  by_cases hhigh : 2 ^ (w - 1) ≤ x
  · refine .inr (.inr ⟨hhigh, ?_⟩)
    rw [← Int.sub_bmod_right, hpow, bmod_of_bounds hw (by omega) (by omega)]
  · have hword : IsWord w x := ⟨by omega, by omega⟩
    exact .inl ⟨hword, bmod_of_bounds hw hword.1 hword.2⟩

theorem randrange_step_eq (w : ℕ) (start stop : ℤ) (hk : step ≠ 0) (rnd : ℕ → UInt32) (fuel : ℕ) :
    modUrandomRandrange w rnd fuel start (some stop) (some step) =
      if 0 < randrangeCount w start stop step then
        (yasmarangRandbelow rnd fuel (randrangeCount w start stop step)).map fun r : ℕ =>
          .ok (wordAdd w start (wordMul w step r))
      else some (.error .valueError) := by
  rw [modUrandomRandrange, if_neg hk]

section Step

variable (hw : 0 < w) (hstart : IsWord w start) (hstop : IsWord w stop) (hstep : IsWord w step)

include hw hstart hstop hstep

/-- What is divided, if there are members: it is right, or it wraps and is too small. -/
theorem randrangeSum_before :
    -(2 : ℤ) ^ (w - 1) ≤ randrangeSum w ⟨start, stop, step⟩ ∧
      randrangeSum w ⟨start, stop, step⟩ ≤ 2 ^ (w - 1) ∧
      (Before step start stop →
        if IsWord w (RangeObj.lenSum ⟨start, stop, step⟩) then
          randrangeSum w ⟨start, stop, step⟩ =
            (if 0 < step then stop - start else start - stop) + |step| - 1
        else randrangeSum w ⟨start, stop, step⟩ < |step|) := by
  obtain ⟨hs₁, hs₂⟩ := hstart
  obtain ⟨ht₁, ht₂⟩ := hstop
  obtain ⟨hk₁, hk₂⟩ := hstep
  simp only [randrangeSum, RangeObj.lenSum, Before, IsWord]
  by_cases h : 0 < step
  · simp only [if_pos h, abs_of_pos h]
    rcases bmod_cases hw (x := stop - start + step + -1) (by omega) (by omega) with
      ⟨⟨hx, hx'⟩, hb⟩ | ⟨hx, hb⟩ | ⟨hx, hb⟩ <;> rw [hb] <;> split_ifs <;> omega
  · simp only [if_neg h, abs_of_nonpos (not_lt.mp h)]
    rcases bmod_cases hw (x := stop - start + step + 1) (by omega) (by omega) with
      ⟨⟨hx, hx'⟩, hb⟩ | ⟨hx, hb⟩ | ⟨hx, hb⟩ <;> rw [hb] <;> split_ifs <;> omega

/-- If there are none, what is divided is too small, unless it wraps. -/
theorem randrangeSum_empty (hempty : ¬Before step start stop) :
    (|step| ≤ randrangeSum w ⟨start, stop, step⟩ ∧
      ¬(|step| = 1 ∧ randrangeSum w ⟨start, stop, step⟩ = 2 ^ (w - 1))) ↔
    ¬(IsWord w (RangeObj.lenSum ⟨start, stop, step⟩) ∨
      step = -1 ∧ stop - start = 2 ^ (w - 1)) := by
  obtain ⟨hs₁, hs₂⟩ := hstart
  obtain ⟨ht₁, ht₂⟩ := hstop
  obtain ⟨hk₁, hk₂⟩ := hstep
  have hpos : (0 : ℤ) < 2 ^ (w - 1) := by positivity
  rw [Before] at hempty
  rw [randrangeSum, RangeObj.lenSum]
  by_cases h : 0 < step
  · simp only [if_pos h, abs_of_pos h] at hempty ⊢
    rcases bmod_cases hw (x := stop - start + step + -1) (by omega) (by omega) with
      ⟨hword, hb⟩ | ⟨hx, hb⟩ | ⟨hx, hb⟩ <;> rw [hb]
    · exact iff_of_false (by omega) (not_not.mpr (.inl hword))
    · refine iff_of_true (by omega) ?_
      rintro (hword | hmin)
      · exact absurd hword.1 (by omega)
      · omega
    · omega
  · simp only [if_neg h, abs_of_nonpos (not_lt.mp h)] at hempty ⊢
    rcases bmod_cases hw (x := stop - start + step + 1) (by omega) (by omega) with
      ⟨hword, hb⟩ | ⟨hx, hb⟩ | ⟨hx, hb⟩ <;> rw [hb]
    · exact iff_of_false (by omega) (not_not.mpr (.inl hword))
    · omega
    · have hnot : ¬IsWord w (stop - start + step + 1) := fun hword => absurd hword.2 (by omega)
      simp only [hnot, false_or]
      omega

/-- The count of a range with members is right, unless the sum or the count itself wraps. -/
theorem randrangeCount_before (hk : step ≠ 0) (hbefore : Before step start stop) :
    (0 < randrangeCount w start stop step ↔ IsWord w (RangeObj.lenSum ⟨start, stop, step⟩) ∧
        ((stepRange start stop step).length : ℤ) < 2 ^ (w - 1)) ∧
      (0 < randrangeCount w start stop step →
        randrangeCount w start stop step = (stepRange start stop step).length) := by
  obtain ⟨hm₁, hm₂, hsum⟩ := randrangeSum_before hw hstart hstop hstep
  have habs : 0 < |step| := abs_pos.mpr hk
  obtain ⟨hpos_iff, hcount⟩ := tdiv_bmod_pos_iff hw habs hm₁ hm₂
  rw [← randrangeCount_eq] at hpos_iff hcount
  specialize hsum hbefore
  by_cases hword : IsWord w (RangeObj.lenSum ⟨start, stop, step⟩)
  · rw [if_pos hword] at hsum
    rw [Before] at hbefore
    have hd : 1 ≤ (if 0 < step then stop - start else start - stop) := by
      split_ifs at hbefore ⊢ <;> omega
    have hlen : ((stepRange start stop step).length : ℤ) =
        randrangeSum w ⟨start, stop, step⟩ / |step| := by
      rw [stepRange, List.length_map, List.length_range, stepCount, hsum,
        Int.toNat_of_nonneg (Int.ediv_nonneg (by omega) habs.le)]
    rw [hlen]
    refine ⟨hpos_iff.trans ⟨fun h => ⟨hword, ?_⟩, fun h => ⟨by omega, ?_⟩⟩, hcount⟩
    · have hmul := Int.ediv_mul_le (randrangeSum w ⟨start, stop, step⟩) habs.ne'
      by_contra hge
      have hle := Int.mul_le_mul_of_nonneg_right (not_lt.mp hge) habs.le
      have hone : |step| = 1 := by nlinarith
      rw [hone] at h hle
      omega
    · rintro ⟨hone, hmax⟩
      rw [hone, Int.ediv_one] at h
      omega
  · rw [if_neg hword] at hsum
    have hn : ¬0 < randrangeCount w start stop step := fun hn => by
      have := (hpos_iff.mp hn).1
      omega
    exact ⟨iff_of_false hn fun h => hword h.1, fun h => absurd h hn⟩

/-- A number below the count of a range with members is the index of a member. -/
theorem randrange_member (hk : step ≠ 0) (hbefore : Before step start stop)
    (hn : 0 < randrangeCount w start stop step) (hr : (r : ℤ) < randrangeCount w start stop step) :
    wordAdd w start (wordMul w step r) ∈ stepRange start stop step := by
  have hr' : r < (stepRange start stop step).length := by
    have := (randrangeCount_before hw hstart hstop hstep hk hbefore).2 hn
    omega
  rw [stepRange, List.length_map] at hr'
  have hmem : start + r * step ∈ stepRange start stop step :=
    List.mem_map.mpr ⟨r, List.mem_range.mpr (by simpa using hr'), rfl⟩
  have hword : IsWord w (start + r * step) := by
    obtain ⟨hup, hdown⟩ := bounds_of_mem_stepRange hk hmem
    obtain ⟨hs₁, hs₂⟩ := hstart
    obtain ⟨ht₁, ht₂⟩ := hstop
    rcases lt_or_gt_of_ne hk with h | h
    · have := hdown h
      exact ⟨by omega, by omega⟩
    · have := hup h
      exact ⟨by omega, by omega⟩
  rw [wordMul, mul_comm step, ← wordMul, wordAdd_wordMul hw hword]
  exact hmem

/-- **`randrange` with a step** returns a member, unless the count wraps for an empty range or its
low bits are zero. -/
theorem randrange_step_right_iff (hk : step ≠ 0) :
    RandRight (fun rnd fuel => modUrandomRandrange w rnd fuel start (some stop) (some step))
        (· ∈ stepRange start stop step) ↔
      (¬Before step start stop → IsWord w (RangeObj.lenSum ⟨start, stop, step⟩) ∨
        step = -1 ∧ stop - start = 2 ^ (w - 1)) ∧
      (Before step start stop → IsWord w (RangeObj.lenSum ⟨start, stop, step⟩) →
        ((stepRange start stop step).length : ℤ) < 2 ^ (w - 1) →
        ¬(2 : ℤ) ^ 32 ∣ (stepRange start stop step).length) := by
  have hcall := randrange_step_eq w start stop hk
  by_cases hbefore : Before step start stop
  · obtain ⟨hpos_iff, hcount⟩ := randrangeCount_before hw hstart hstop hstep hk hbefore
    rw [randRight_iff hcall fun hn r hr =>
      ⟨_, rfl, randrange_member hw hstart hstop hstep hk hbefore hn (by omega)⟩]
    rw [iff_true_intro (fun h => absurd hbefore h), true_and]
    constructor
    · intro h _ hword hlt
      have hn := hpos_iff.mpr ⟨hword, hlt⟩
      rw [← hcount hn]
      exact h hn
    · intro h hn
      rw [hcount hn]
      exact h hbefore (hpos_iff.mp hn).1 (hpos_iff.mp hn).2
  · obtain ⟨hm₁, hm₂, -⟩ := randrangeSum_before hw hstart hstop hstep
    obtain ⟨hpos_iff, -⟩ := tdiv_bmod_pos_iff hw (abs_pos.mpr hk) hm₁ hm₂
    rw [← randrangeCount_eq] at hpos_iff
    have hempty := randrangeSum_empty hw hstart hstop hstep hbefore
    have hnone : ∀ v, v ∉ stepRange start stop step := by
      intro v hv
      rw [stepRange_of_not_before hk hbefore] at hv
      exact List.not_mem_nil hv
    by_cases hn : 0 < randrangeCount w start stop step
    · simp only [if_pos hn] at hcall
      refine iff_of_false (not_randRight hcall (.inr hnone)) fun h => ?_
      exact hempty.mp (hpos_iff.mp hn) (h.1 hbefore)
    · simp only [if_neg hn] at hcall
      refine iff_of_true (randRight_refused hcall) ⟨fun _ => ?_, fun h => absurd h hbefore⟩
      exact not_not.mp fun h => hn (hpos_iff.mpr (hempty.mpr h))

end Step

/-! ### All calls -/

/-- **`randrange`, `randint` and `choice` return members**, unless the number of members is a
multiple of `2 ^ 32` or the count of an empty range wraps. If the sum that is divided overflows for
a range with members, the call is refused. -/
theorem urandom_right_iff (hw : 32 ≤ w) :
    (∀ stop, IsWord w stop →
      (RandRight (fun rnd fuel => modUrandomRandrange w rnd fuel stop none none)
          (· ∈ stepRange 0 stop 1) ↔
        (0 < stop → ¬(2 : ℤ) ^ 32 ∣ stop))) ∧
    (∀ start stop, IsWord w start → IsWord w stop →
      (RandRight (fun rnd fuel => modUrandomRandrange w rnd fuel start (some stop) none)
          (· ∈ stepRange start stop 1) ↔
        (start < stop → ¬(2 : ℤ) ^ 32 ∣ stop - start))) ∧
    (∀ start stop step, IsWord w start → IsWord w stop → IsWord w step →
      (RandRight (fun rnd fuel => modUrandomRandrange w rnd fuel start (some stop) (some step))
          (· ∈ stepRange start stop step) ↔
        (step ≠ 0 →
          (¬Before step start stop → IsWord w (RangeObj.lenSum ⟨start, stop, step⟩) ∨
            step = -1 ∧ stop - start = 2 ^ (w - 1)) ∧
          (Before step start stop → IsWord w (RangeObj.lenSum ⟨start, stop, step⟩) →
            ((stepRange start stop step).length : ℤ) < 2 ^ (w - 1) →
            ¬(2 : ℤ) ^ 32 ∣ (stepRange start stop step).length)))) ∧
    (∀ a b, IsWord w a → IsWord w b →
      (RandRight (fun rnd fuel => modUrandomRandint w rnd fuel a b) (· ∈ stepRange a (b + 1) 1) ↔
        (a ≤ b → ¬(2 : ℤ) ^ 32 ∣ b - a + 1))) ∧
    (∀ (α : Type) (items : ℕ → α) (len : ℤ), IsWord w len →
      (RandRight (fun rnd fuel => modUrandomChoice w rnd fuel items len)
          (fun v => ∃ i : ℕ, (i : ℤ) < len ∧ v = items i) ↔
        (0 < len → ¬(2 : ℤ) ^ 32 ∣ len))) := by
  have hw0 : 0 < w := by omega
  have hP : (0 : ℤ) < 2 ^ (w - 1) := by positivity
  refine ⟨fun stop hstop => ?_, fun start stop hstart hstop => ?_,
    fun start stop step hstart hstop hstep => ?_, fun a b ha hb => ?_, fun α items len hlen => ?_⟩
  · refine randRight_iff (f := fun r : ℕ => .ok ((r : ℤ).bmod (2 ^ w))) (fun _ _ => rfl)
      fun hpos r hr => ⟨_, rfl, ?_⟩
    rw [bmod_of_bounds hw0 (by omega) (by have := hstop.2; omega)]
    exact mem_stepRange_one.mpr ⟨by omega, by omega⟩
  · have hlow : ∀ x : ℤ, (2 : ℤ) ^ 32 ∣ wordAdd w x (-start) ↔ (2 : ℤ) ^ 32 ∣ x - start := by
      intro x
      rw [Int.dvd_iff_emod_eq_zero, wordAdd, bmod_emod_two_pow hw, ← Int.dvd_iff_emod_eq_zero]
      rfl
    rw [← hlow]
    refine randRight_iff (f := fun r : ℕ => .ok (wordAdd w start r)) (fun _ _ => rfl)
      fun hpos r hr => ⟨_, rfl, ?_⟩
    rw [wordAdd, bmod_emod_two_pow hw] at hr
    have hlast : IsWord w (stop - 1) := ⟨by have := hstart.1; omega, by have := hstop.2; omega⟩
    exact offset_member hw0 hstart hlast (by omega)
  · by_cases hk : step = 0
    · refine iff_of_true (randRight_refused (e := .valueError) fun rnd fuel => ?_) (absurd hk)
      rw [modUrandomRandrange, if_pos hk]
    · rw [randrange_step_right_iff hw0 hstart hstop hstep hk, forall_prop_of_true hk]
  · have hcount : (b - a + 1).bmod (2 ^ w) = wordAdd w (wordAdd w b (-a)) 1 := by
      rw [wordAdd, wordAdd, Int.bmod_add_bmod]
      rfl
    have hlow : (2 : ℤ) ^ 32 ∣ wordAdd w (wordAdd w b (-a)) 1 ↔ (2 : ℤ) ^ 32 ∣ b - a + 1 := by
      rw [← hcount, Int.dvd_iff_emod_eq_zero, bmod_emod_two_pow hw, ← Int.dvd_iff_emod_eq_zero]
    rw [← hlow]
    refine randRight_iff (f := fun r : ℕ => .ok (wordAdd w a r)) (fun _ _ => rfl)
      fun hpos r hr => ⟨_, rfl, ?_⟩
    rw [← hcount, bmod_emod_two_pow hw] at hr
    exact offset_member hw0 ha (by rwa [add_sub_cancel_right]) (by omega)
  · refine randRight_iff
      (f := fun r : ℕ => seqSubscr items len ((r : ℤ).bmod (2 ^ w))) (fun _ _ => rfl)
      fun hpos r hr => ⟨items r, ?_, r, by omega, rfl⟩
    rw [bmod_of_bounds hw0 (by omega) (by have := hlen.2; omega), seqSubscr]
    simp only [if_neg (show ¬(r : ℤ) < 0 by omega)]
    rw [if_pos ⟨by omega, by omega⟩, Int.toNat_natCast]

/-- One of the numbers from 0 to 9, on a machine with words of 32 bits -/
theorem urandom_right_ten :
    IsWord 32 10 ∧
      RandRight (fun rnd fuel => modUrandomRandrange 32 rnd fuel 10 none none)
        (· ∈ stepRange 0 10 1) :=
  ⟨by decide, ((urandom_right_iff (le_refl 32)).1 10 (by decide)).mpr fun _ => by decide⟩

/-- `randrange(2 ** 32)` with words of 64 bits does not return, and `randrange(2 ** 31 - 1, -2, 1)`
with words of 32 bits returns something although nothing is in this range. -/
theorem urandom_wrong :
    ¬RandRight (fun rnd fuel => modUrandomRandrange 64 rnd fuel (2 ^ 32) none none)
        (· ∈ stepRange 0 (2 ^ 32) 1) ∧
      ¬RandRight
        (fun rnd fuel => modUrandomRandrange 32 rnd fuel (2 ^ 31 - 1) (some (-2)) (some 1))
        (· ∈ stepRange (2 ^ 31 - 1) (-2) 1) := by
  constructor
  · exact not_randRight (f := fun r : ℕ => .ok ((r : ℤ).bmod (2 ^ 64))) (fun _ _ => rfl)
      (.inl (dvd_refl _))
  · refine not_randRight (c := randrangeCount 32 (2 ^ 31 - 1) (-2) 1)
      (f := fun r : ℕ => .ok (wordAdd 32 (2 ^ 31 - 1) (wordMul 32 1 r))) (fun _ _ => rfl) (.inr ?_)
    intro v hv
    rw [mem_stepRange_one] at hv
    omega

end Pycopy
