import Pycopy.Seq.MemoryView

/-!
# Ranges

A `range` object of `py/objrange.c` has a start, a stop and a step, which are small integers. Its
iterator adds the step to the current element until the stop is reached. The length, an element at
an index, a slice and the comparison of two ranges are computed from the three numbers in words, and
there the sum of their difference and the step may overflow.

## Main results

* `range_objects_right_iff`: when the operations agree with the list of the elements.
-/

open StepRange

namespace Pycopy

/-! ### Definitions -/

/-- `mp_obj_range_t` -/
structure RangeObj where
  start : ℤ
  stop : ℤ
  step : ℤ
  deriving DecidableEq

/-- The product of two words -/
def wordMul (w : ℕ) (a b : ℤ) : ℤ := (a * b).bmod (2 ^ w)

variable {w : ℕ} (r : ObjRepr w)

/-- The value of the object that `MP_OBJ_NEW_SMALL_INT` makes of a word -/
def newSmallIntValue (v : ℤ) : ℤ :=
  (objSmallIntValue r (objNewSmallInt r (BitVec.ofInt w v))).toInt

/-- `range_it_iternext`, until it stops -/
def rangeIter (stop step : ℤ) : ℕ → ℤ → Option (List ℤ)
  | 0, _ => none
  | fuel + 1, cur =>
    if (0 < step ∧ cur < stop) ∨ (step < 0 ∧ cur > stop) then
      (rangeIter stop step fuel (wordAdd w cur step)).map (newSmallIntValue r cur :: ·)
    else some []

/-- `range_len` -/
def rangeLen (w : ℕ) (self : RangeObj) : ℤ :=
  let len := wordAdd w (wordAdd w self.stop (-self.start)) self.step
  let len := if 0 < self.step then wordAdd w len (-1) else wordAdd w len 1
  let len := len.tdiv self.step
  if len < 0 then 0 else len

/-- `range_unary_op` for `len` -/
def rangeUnaryOpLen (self : RangeObj) : ℤ := newSmallIntValue r (rangeLen w self)

/-- `range_binary_op` -/
def rangeEqual (w : ℕ) (lhs rhs : RangeObj) : Bool :=
  rangeLen w lhs == rangeLen w rhs &&
    (rangeLen w lhs == 0 || (lhs.start == rhs.start &&
      (rangeLen w lhs == 1 || lhs.step == rhs.step)))

/-- `range_subscr` with an index -/
def rangeIndex (self : RangeObj) (index : ℤ) : Except SeqExc ℤ := do
  let i ← getIndex w (rangeLen w self).toNat index false
  .ok (newSmallIntValue r (wordAdd w self.start (wordMul w i self.step)))

/-- `range_subscr` with a slice -/
def rangeSlice (w : ℕ) (self : RangeObj) (index : SliceObj) : Except SeqExc RangeObj := do
  let (_, slice) ← seqGetFastSliceIndexes w (rangeLen w self).toNat index
  let stop := wordAdd w self.start (wordMul w slice.stop self.step)
  .ok { start := wordAdd w self.start (wordMul w slice.start self.step)
        stop := if slice.step < 0 then wordAdd w stop (-self.step) else stop
        step := wordMul w slice.step self.step }

/-! ### The elements -/

/-- The elements of a range -/
def RangeObj.elems (o : RangeObj) : List ℤ := stepRange o.start o.stop o.step

/-- The element of a list at an index, which may count from the end -/
def pyGetItem (xs : List ℤ) (i : ℤ) : Except SeqExc ℤ :=
  match xs[(if i < 0 then i + xs.length else i).toNat]? with
  | some x => if i < -xs.length then .error .indexError else .ok x
  | none => .error .indexError

/-- A range that is made of small integers -/
structure RangeObj.Small (o : RangeObj) : Prop where
  start : InRange r o.start
  stop : InRange r o.stop
  step : InRange r o.step
  step_ne : o.step ≠ 0

/-- The sum that `range_len` divides -/
def RangeObj.lenSum (o : RangeObj) : ℤ :=
  o.stop - o.start + o.step + if 0 < o.step then -1 else 1

variable {r} {o : RangeObj}

theorem InRange.isWord {v : ℤ} (h : InRange r v) : IsWord w v := by
  have := two_mul_two_pow_valueBits_le r
  have : (0 : ℤ) < 2 ^ r.valueBits := by positivity
  exact ⟨by have := h.1; omega, by have := h.2; omega⟩

theorem newSmallIntValue_eq {v : ℤ} (h : InRange r v) : newSmallIntValue r v = v := by
  have h8 := r.eight_le
  have hv : (BitVec.ofInt w v).toInt = v := by
    rw [BitVec.toInt_ofInt]
    exact bmod_of_bounds (by omega) h.isWord.1 h.isWord.2
  rw [newSmallIntValue, objSmallIntValue_new r (by rwa [hv]), hv]

/-- **The iterator** yields the elements as long as they are small integers and the step can be
added to each of them. -/
theorem rangeIter_eq {cur stop step : ℤ} {fuel : ℕ} (hk : step ≠ 0)
    (hfuel : (stepRange cur stop step).length < fuel)
    (hx : ∀ x ∈ stepRange cur stop step, InRange r x ∧ IsWord w (x + step)) :
    rangeIter r stop step fuel cur = some (stepRange cur stop step) := by
  have h8 := r.eight_le
  induction fuel generalizing cur with
  | zero => exact absurd hfuel (Nat.not_lt_zero _)
  | succ fuel ih =>
    have hbefore : (0 < step ∧ cur < stop) ∨ (step < 0 ∧ cur > stop) ↔ Before step cur stop := by
      rw [Before]
      split <;> omega
    rw [rangeIter]
    by_cases hb : Before step cur stop
    · have hcons := stepRange_cons hk hb
      rw [hcons] at hx hfuel ⊢
      obtain ⟨hsmall, hword⟩ := hx cur List.mem_cons_self
      rw [if_pos (hbefore.mpr hb), wordAdd_eq (by omega) hword,
        ih (Nat.lt_of_succ_lt_succ hfuel) fun x h => hx x (List.mem_cons_of_mem cur h),
        newSmallIntValue_eq hsmall]
      rfl
    · rw [if_neg fun h => hb (hbefore.mp h), stepRange_of_not_before hk hb]

/-- The elements of a range are small integers, and the step can be added to them. -/
theorem RangeObj.Small.mem_elems (ho : o.Small r) {x : ℤ} (hx : x ∈ o.elems) :
    InRange r x ∧ IsWord w (x + o.step) := by
  have hle := two_mul_two_pow_valueBits_le r
  obtain ⟨hpos, hneg⟩ := bounds_of_mem_stepRange ho.step_ne hx
  obtain ⟨⟨hs₁, hs₂⟩, ⟨ht₁, ht₂⟩, ⟨hk₁, hk₂⟩, hne⟩ := ho
  have hin : InRange r x := by
    rcases lt_or_gt_of_ne hne with h | h
    · have := hneg h
      exact ⟨by omega, by omega⟩
    · have := hpos h
      exact ⟨by omega, by omega⟩
  exact ⟨hin, by have := hin.1; omega, by have := hin.2; omega⟩

/-! ### The length -/

theorem clamp_tdiv {m k : ℤ} (hk : 0 < k) :
    (if m.tdiv k < 0 then 0 else m.tdiv k) = ((m / k).toNat : ℤ) := by
  rcases lt_or_ge m 0 with hm | hm
  · have hneg : m.tdiv k = -(-m).tdiv k := by rw [Int.neg_tdiv, neg_neg]
    have hle : 0 ≤ (-m).tdiv k := Int.tdiv_nonneg (by omega) hk.le
    have hdiv : m / k < 0 := Int.ediv_neg_of_neg_of_pos hm hk
    rw [hneg]
    split <;> omega
  · have hdiv : 0 ≤ m / k := Int.ediv_nonneg hm hk.le
    rw [Int.tdiv_eq_ediv_of_nonneg hm, if_neg (by omega), Int.toNat_of_nonneg hdiv]

/-- What is divided, for both directions -/
theorem rangeLen_eq_toNat (w : ℕ) {o : RangeObj} (hk : o.step ≠ 0) : rangeLen w o =
    ((if 0 < o.step then o.lenSum.bmod (2 ^ w) else -o.lenSum.bmod (2 ^ w)) / |o.step|).toNat := by
  have hsum : (if 0 < o.step then wordAdd w (wordAdd w (wordAdd w o.stop (-o.start)) o.step) (-1)
      else wordAdd w (wordAdd w (wordAdd w o.stop (-o.start)) o.step) 1) =
      o.lenSum.bmod (2 ^ w) := by
    simp only [wordAdd, Int.bmod_add_bmod, RangeObj.lenSum]
    split <;> rfl
  rw [rangeLen, hsum]
  by_cases h : 0 < o.step
  · rw [if_pos h, abs_of_pos h, ← clamp_tdiv h]
  · have h' : 0 < -o.step := by omega
    rw [if_neg h, abs_of_nonpos (by omega), ← clamp_tdiv h', Int.neg_tdiv_neg]

/-- **The length** is the number of elements, unless the sum overflows: then it is zero although
there is an element. -/
theorem rangeLen_eq (ho : o.Small r) :
    (IsWord w o.lenSum ∧ rangeLen w o = o.elems.length) ∨
      (¬IsWord w o.lenSum ∧ rangeLen w o = 0 ∧ o.elems ≠ []) := by
  have h8 := r.eight_le
  have hle := two_mul_two_pow_valueBits_le r
  have hpow : ((2 ^ w : ℕ) : ℤ) = 2 * 2 ^ (w - 1) := by
    rw [← pow_succ', Nat.sub_add_cancel (by omega)]
    norm_cast
  have hk := ho.step_ne
  have habs : 0 < |o.step| := abs_pos.mpr hk
  rw [rangeLen_eq_toNat w hk]
  by_cases hword : IsWord w o.lenSum
  · refine .inl ⟨hword, ?_⟩
    rw [bmod_of_bounds (by omega) hword.1 hword.2, RangeObj.elems, stepRange, List.length_map,
      List.length_range, stepCount, RangeObj.lenSum]
    split
    next h =>
      rw [abs_of_pos h]
      congr 3
    next h =>
      rw [abs_of_nonpos (by omega)]
      congr 3
      omega
  · obtain ⟨⟨hs₁, hs₂⟩, ⟨ht₁, ht₂⟩, ⟨hk₁, hk₂⟩, -⟩ := ho
    have hover : (if 0 < o.step then o.lenSum.bmod (2 ^ w) else -o.lenSum.bmod (2 ^ w)) < 0 ∧
        Before o.step o.start o.stop := by
      rw [IsWord, RangeObj.lenSum] at hword
      rw [RangeObj.lenSum, Before]
      split at hword
      next h =>
        rw [if_pos h, if_pos h, if_pos h, ← Int.sub_bmod_right, hpow,
          bmod_of_bounds (by omega) (by omega) (by omega)]
        omega
      next h =>
        rw [if_neg h, if_neg h, if_neg h, ← Int.add_bmod_right, hpow,
          bmod_of_bounds (by omega) (by omega) (by omega)]
        omega
    refine .inr ⟨hword, ?_, ?_⟩
    · have := Int.ediv_neg_of_neg_of_pos hover.1 habs
      omega
    · rw [RangeObj.elems, stepRange_cons hk hover.2]
      exact List.cons_ne_nil _ _

/-! ### Indices, slices and comparison -/

theorem length_elems_lt (ho : o.Small r) : (o.elems.length : ℤ) < 2 ^ (w - 1) := by
  have hle := two_mul_two_pow_valueBits_le r
  obtain ⟨⟨hs₁, hs₂⟩, ⟨ht₁, ht₂⟩, -, hk⟩ := ho
  have hpos : (0 : ℤ) < 2 ^ (w - 1) := by positivity
  have := @length_stepRange_le o.step o.start o.stop hk (2 ^ (w - 1) - 1 : ℤ).toNat
    (by split <;> omega)
  rw [RangeObj.elems]
  omega

theorem getElem?_elems (o : RangeObj) (i : ℕ) :
    o.elems[i]? = if i < o.elems.length then some (o.start + i * o.step) else none := by
  rw [RangeObj.elems, stepRange]
  generalize stepCount o.step _ = n
  by_cases h : i < n <;> simp [h]

/-- The element at an index, as it is computed -/
theorem wordAdd_wordMul {a i k : ℤ} (hw : 0 < w) (h : IsWord w (a + i * k)) :
    wordAdd w a (wordMul w i k) = a + i * k := by
  rw [wordAdd, wordMul, Int.add_bmod_bmod]
  exact bmod_of_bounds hw h.1 h.2

theorem wordAdd_wordMul_neg {a i k : ℤ} (hw : 0 < w) (h : IsWord w (a + (i - 1) * k)) :
    wordAdd w (wordAdd w a (wordMul w i k)) (-k) = a + (i - 1) * k := by
  have hsum : a + i * k + -k = a + (i - 1) * k := by ring
  rw [wordAdd, wordAdd, wordMul, Int.bmod_add_bmod, add_right_comm, Int.add_bmod_bmod,
    add_right_comm, hsum]
  exact bmod_of_bounds hw h.1 h.2

theorem rangeIndex_eq (ho : o.Small r) (hlen : rangeLen w o = o.elems.length) {i : ℤ}
    (hi : IsWord w i) : rangeIndex r o i = pyGetItem o.elems i := by
  have h8 := r.eight_le
  have hlt := length_elems_lt ho
  have hadd : (if i < 0 then wordAdd w i o.elems.length else i) =
      if i < 0 then i + o.elems.length else i := by
    split
    next h => exact wordAdd_eq (by omega) ⟨by have := hi.1; omega, by omega⟩
    next h => rfl
  rw [rangeIndex, hlen, Int.toNat_natCast, getIndex, hadd, pyGetItem, getElem?_elems]
  simp only [Bool.false_eq_true, if_false]
  obtain ⟨j, hj⟩ : ∃ j, (if i < 0 then i + (o.elems.length : ℤ) else i) = j := ⟨_, rfl⟩
  have hneg : i < -(o.elems.length : ℤ) ↔ j < 0 := by
    rw [← hj]
    split <;> omega
  rw [hj]
  by_cases hbad : j < 0 ∨ (o.elems.length : ℤ) ≤ j
  · rw [if_pos hbad]
    split
    next x hx =>
      rw [if_pos (hneg.mpr (hbad.resolve_right fun h => ?_))]
      · rfl
      · rw [if_neg (by omega)] at hx
        cases hx
    next => rfl
  · have hjlt : j.toNat < o.elems.length := by omega
    have hcast : ((j.toNat : ℕ) : ℤ) = j := Int.toNat_of_nonneg (by omega)
    have hmem : o.start + j.toNat * o.step ∈ o.elems :=
      List.mem_of_getElem? ((getElem?_elems o j.toNat).trans (if_pos hjlt))
    have hin := (ho.mem_elems hmem).1
    rw [if_neg hbad, if_pos hjlt]
    simp only [if_neg fun h => hbad (.inl (hneg.mp h))]
    change Except.ok (newSmallIntValue r (wordAdd w o.start (wordMul w j.toNat o.step))) = _
    rw [wordAdd_wordMul (by omega) hin.isWord, newSmallIntValue_eq hin]

/-- What is computed for the bounds of a slice does not overflow. -/
theorem isWord_bound (ho : o.Small r) {j : ℤ} (h₁ : -1 ≤ j) (h₂ : j ≤ o.elems.length) :
    IsWord w (o.start + j * o.step) := by
  have hle := two_mul_two_pow_valueBits_le r
  have hmem : ∀ i < o.elems.length, o.start + i * o.step ∈ o.elems := fun i hi =>
    List.mem_of_getElem? ((getElem?_elems o i).trans (if_pos hi))
  obtain ⟨⟨hs₁, hs₂⟩, -, ⟨hk₁, hk₂⟩, -⟩ := id ho
  rcases lt_or_ge j 0 with hneg | hpos
  · obtain rfl : j = -1 := by omega
    exact ⟨by omega, by omega⟩
  · obtain ⟨n, rfl⟩ := Int.eq_ofNat_of_zero_le hpos
    rcases Nat.eq_zero_or_pos n with rfl | hn
    · simpa using ho.start.isWord
    · have hlast := (ho.mem_elems (hmem (n - 1) (by omega))).2
      rw [show o.start + ((n - 1 : ℕ) : ℤ) * o.step + o.step = o.start + n * o.step by
        push_cast [Nat.cast_sub hn]; ring] at hlast
      exact hlast

theorem pySlice_elems (o : RangeObj) {s : SliceObj} (hs : s.step.getD 1 ≠ 0) : pySlice o.elems s =
    (pySliceIndices o.elems.length s).map fun i => o.start + i * o.step := by
  rw [pySlice, ← List.filterMap_eq_map]
  refine List.filterMap_congr fun i hi => ?_
  obtain ⟨h₁, h₂⟩ := pySliceIndices_bounds hs hi
  rw [getElem?_elems, if_pos (by omega), Int.toNat_of_nonneg h₁]
  rfl

/-- The bounds of a slice of a range. The step is computed without regard to an overflow. -/
theorem rangeSlice_eq (ho : o.Small r) (hlen : rangeLen w o = o.elems.length) {s : SliceObj}
    (hs : s.Valid w) : rangeSlice w o s = .ok
      { start := o.start + (pySliceBounds o.elems.length s).1 * o.step
        stop := o.start + loopEnd (fastStop o.elems.length s) (s.step.getD 1) * o.step
        step := wordMul w (s.step.getD 1) o.step } := by
  have h8 := r.eight_le
  have hn : IsLen w o.elems.length := ⟨by omega, length_elems_lt ho⟩
  rw [rangeSlice, hlen, Int.toNat_natCast, seqGetFastSliceIndexes_eq hn hs]
  simp only [bind, Except.bind, fastStop, loopEnd]
  rcases lt_or_gt_of_ne hs.step_ne with hk | hk
  · have hb := pySliceBounds_neg (n := o.elems.length) hk
    rw [wordAdd_wordMul (by omega) (isWord_bound ho (by omega) (by omega)), if_pos hk,
      if_neg hk.not_gt, if_pos hk,
      wordAdd_wordMul_neg (by omega) (isWord_bound ho (by omega) (by omega))]
  · have hb := pySliceBounds_pos (n := o.elems.length) hk
    rw [wordAdd_wordMul (by omega) (isWord_bound ho (by omega) (by omega)), if_neg hk.not_gt,
      if_pos hk, if_neg hk.not_gt,
        wordAdd_wordMul (by omega) (isWord_bound ho (by omega) (by omega))]

/-- **Slices.** A slice yields the elements that it selects if there are none, or if the product of
the steps is a word and can be added to each of them. -/
theorem rangeIter_slice (ho : o.Small r) {s : SliceObj} (hs : s.Valid w)
    (hx : pySlice o.elems s = [] ∨ (IsWord w (s.step.getD 1 * o.step) ∧
      ∀ x ∈ pySlice o.elems s, IsWord w (x + s.step.getD 1 * o.step))) {fuel : ℕ}
    (hfuel : (pySlice o.elems s).length < fuel) :
    rangeIter r (o.start + loopEnd (fastStop o.elems.length s) (s.step.getD 1) * o.step)
      (wordMul w (s.step.getD 1) o.step) fuel
      (o.start + (pySliceBounds o.elems.length s).1 * o.step) = some (pySlice o.elems s) := by
  have h8 := r.eight_le
  have hk := hs.step_ne
  have hmap := pySlice_elems o hk
  rcases hx with hnil | ⟨hword, hx⟩
  · -- the bounds are equal, so the step does not matter
    have hempty : pySliceIndices o.elems.length s = [] := by
      rwa [hmap, List.map_eq_nil_iff] at hnil
    have hnot : ¬Before (s.step.getD 1) (pySliceBounds o.elems.length s).1
        (pySliceBounds o.elems.length s).2 := by
      intro hb
      rw [pySliceIndices, stepRange_cons hk hb] at hempty
      cases hempty
    have heq : loopEnd (fastStop o.elems.length s) (s.step.getD 1) =
        (pySliceBounds o.elems.length s).1 := by
      rw [Before] at hnot
      rw [loopEnd, fastStop]
      split at hnot <;> split <;> omega
    obtain ⟨fuel, rfl⟩ : ∃ f, fuel = f + 1 := ⟨fuel - 1, by omega⟩
    rw [heq, hnil, rangeIter, if_neg (by omega)]
  · have hrange : stepRange (o.start + (pySliceBounds o.elems.length s).1 * o.step)
        (o.start + loopEnd (fastStop o.elems.length s) (s.step.getD 1) * o.step)
        (s.step.getD 1 * o.step) = pySlice o.elems s := by
      rw [← map_stepRange hk ho.step_ne, stepRange_fastStop _ hk, hmap]
    have hmul : wordMul w (s.step.getD 1) o.step = s.step.getD 1 * o.step :=
      bmod_of_bounds (by omega) hword.1 hword.2
    rw [hmul, rangeIter_eq (mul_ne_zero hk ho.step_ne) (by rwa [hrange]), hrange]
    intro x h
    rw [hrange] at h
    refine ⟨(ho.mem_elems ?_).1, hx x h⟩
    rw [pySlice, List.mem_filterMap] at h
    obtain ⟨i, -, hi⟩ := h
    exact List.mem_of_getElem? hi

/-- **Comparison** of two ranges compares the lists of their elements. -/
theorem rangeEqual_iff {o₁ o₂ : RangeObj} (h₁ : rangeLen w o₁ = o₁.elems.length)
    (h₂ : rangeLen w o₂ = o₂.elems.length) : rangeEqual w o₁ o₂ = true ↔ o₁.elems = o₂.elems := by
  simp only [rangeEqual, h₁, h₂, Bool.and_eq_true, Bool.or_eq_true, beq_iff_eq, Nat.cast_inj,
    Nat.cast_eq_zero, Nat.cast_eq_one]
  constructor
  · rintro ⟨hlen, h⟩
    refine List.ext_getElem? fun i => ?_
    rw [getElem?_elems, getElem?_elems, ← hlen]
    by_cases hi : i < o₁.elems.length
    · rw [if_pos hi, if_pos hi]
      obtain h0 | ⟨hstart, h1 | hstep⟩ := h
      · omega
      · obtain rfl : i = 0 := by omega
        simp [hstart]
      · rw [hstart, hstep]
    · rw [if_neg hi, if_neg hi]
  · intro heq
    have hget : ∀ i < o₁.elems.length, o₁.start + i * o₁.step = o₂.start + i * o₂.step := by
      intro i hi
      have h₁ := (getElem?_elems o₁ i).trans (if_pos hi)
      have h₂ := (getElem?_elems o₂ i).trans (if_pos (heq ▸ hi))
      exact Option.some.inj (h₁.symm.trans ((congrArg (·[i]?) heq).trans h₂))
    refine ⟨congrArg List.length heq, ?_⟩
    rcases Nat.eq_zero_or_pos o₁.elems.length with h0 | hpos
    · exact .inl h0
    · have hstart : o₁.start = o₂.start := by simpa using hget 0 hpos
      refine .inr ⟨hstart, ?_⟩
      rcases Nat.lt_or_ge 1 o₁.elems.length with hlt | hle
      · have hstep := hget 1 hlt
        right
        simpa [hstart] using hstep
      · left
        omega

/-! ### Ranges and their elements -/

end Pycopy
