import Pycopy.Lib.StepRange
import Pycopy.Runtime.SmallInt

/-!
# Slices of Sequences

`mp_obj_slice_indices` of `py/objslice.c` turns the fields of a slice into a first index, a bound
and a step, and `mp_seq_extract_slice` of `py/sequence.c` collects the elements in a loop over them.
All of it is done in machine words. The bounds are clamped to the sequence and cannot overflow, but
the loop adds the step to the index once more after the last element: if the step is so large that
this overflows, the index becomes negative and the loop reads in front of the sequence.

## Main results

* `extract_slice_eq_iff`: which slices give the elements that they should.
-/

open StepRange

namespace Pycopy

/-! ### Machine words -/

/-- The integers of `mp_int_t` on a machine with words of `w` bits -/
def IsWord (w : ℕ) (v : ℤ) : Prop := -(2 : ℤ) ^ (w - 1) ≤ v ∧ v < 2 ^ (w - 1)

instance (w : ℕ) (v : ℤ) : Decidable (IsWord w v) := inferInstanceAs (Decidable (_ ∧ _))

/-- The sum of two words -/
def wordAdd (w : ℕ) (a b : ℤ) : ℤ := (a + b).bmod (2 ^ w)

/-- A length as a word -/
def wordOfLen (w : ℕ) (len : ℕ) : ℤ := (len : ℤ).bmod (2 ^ w)

/-- Errors of the sequence functions. A read outside of the sequence is not noticed by the code. -/
inductive SeqExc
  | valueError (msg : String)
  | notImplementedError (msg : String)
  | indexError
  | notSupported
  | badRead
  | timeout
  deriving DecidableEq, Repr

/-! ### The source -/

/-- A slice. A field is `None` or the word that `mp_obj_get_int` gives for it. -/
structure SliceObj where
  start : Option ℤ
  stop : Option ℤ
  step : Option ℤ
  deriving DecidableEq, Repr

/-- `mp_bound_slice_t` -/
structure BoundSlice where
  start : ℤ
  stop : ℤ
  step : ℤ
  deriving DecidableEq, Repr

/-- One bound of `mp_obj_slice_indices`, clamped to `lo` and `hi` -/
def sliceBound (w : ℕ) (length lo hi missing : ℤ) : Option ℤ → ℤ
  | none => missing
  | some i => min hi (max (if i < 0 then wordAdd w i length else i) lo)

/-- `mp_obj_slice_indices` -/
def sliceIndices (w : ℕ) (self : SliceObj) (length : ℤ) : Except SeqExc BoundSlice :=
  let step := self.step.getD 1
  if step = 0 then .error (.valueError "slice step can't be zero")
  else if 0 < step then
    .ok { start := sliceBound w length 0 length 0 self.start
          stop := sliceBound w length 0 length length self.stop
          step := step }
  else
    let last := wordAdd w length (-1)
    .ok { start := sliceBound w length (-1) last last self.start
          stop := sliceBound w length (-1) last (-1) self.stop
          step := step }

/-- `mp_seq_get_fast_slice_indexes`: the indices, and whether the step is one -/
def seqGetFastSliceIndexes (w len : ℕ) (slice : SliceObj) : Except SeqExc (Bool × BoundSlice) := do
  let ix ← sliceIndices w slice (wordOfLen w len)
  let stop := if ix.step < 0 then wordAdd w ix.stop 1 else ix.stop
  let stop :=
    if 0 < ix.step ∧ stop < ix.start then ix.start
    else if ix.step < 0 ∧ ix.start < stop then wordAdd w ix.start 1
    else stop
  .ok (decide (ix.step = 1), { ix with stop := stop })

variable {α : Type}

/-- `seq[i]` -/
def seqRead (seq : List α) (i : ℤ) : Except SeqExc α :=
  if 0 ≤ i then
    match seq[i.toNat]? with
    | some x => .ok x
    | none => .error .badRead
  else .error .badRead

/-- The loops of `mp_seq_extract_slice`, with fuel -/
def extractLoop (w : ℕ) (seq : List α) (stop step : ℤ) : ℕ → ℤ → List α → Except SeqExc (List α)
  | 0, _, _ => .error .timeout
  | fuel + 1, start, res =>
    if (if step < 0 then stop ≤ start else start < stop) then do
      let x ← seqRead seq start
      extractLoop w seq stop step fuel (wordAdd w start step) (res ++ [x])
    else .ok res

/-- `mp_seq_extract_slice`. An element is appended in every round but the last. -/
def seqExtractSlice (w : ℕ) (seq : List α) (indexes : BoundSlice) : Except SeqExc (List α) :=
  extractLoop w seq indexes.stop indexes.step (seq.length + 1) indexes.start []

/-- A slice of a sequence, element by element -/
def seqSlice (w : ℕ) (seq : List α) (slice : SliceObj) : Except SeqExc (List α) := do
  let (_, indexes) ← seqGetFastSliceIndexes w seq.length slice
  seqExtractSlice w seq indexes

/-! ### Python's rule -/

/-- A bound as Python reads it: from the end if it is negative, and then moved to `lo` or `hi`. -/
def pySliceBound (n lo hi missing : ℤ) : Option ℤ → ℤ
  | none => missing
  | some i => min hi (max (if i < 0 then i + n else i) lo)

/-- The bounds of a slice of a sequence of length `n`. The index `n` is the end in steps upwards,
and `-1` is the end in steps downwards. -/
def pySliceBounds (n : ℕ) (s : SliceObj) : ℤ × ℤ :=
  if 0 < s.step.getD 1 then (pySliceBound n 0 n 0 s.start, pySliceBound n 0 n n s.stop)
  else (pySliceBound n (-1) (n - 1) (n - 1) s.start, pySliceBound n (-1) (n - 1) (-1) s.stop)

/-- The indices that a slice selects, in order -/
def pySliceIndices (n : ℕ) (s : SliceObj) : List ℤ :=
  stepRange (pySliceBounds n s).1 (pySliceBounds n s).2 (s.step.getD 1)

/-- The elements that a slice selects -/
def pySlice (xs : List α) (s : SliceObj) : List α :=
  (pySliceIndices xs.length s).filterMap fun i => xs[i.toNat]?

/-- The fields of a slice are words, and its step is not zero. -/
structure SliceObj.Valid (w : ℕ) (s : SliceObj) : Prop where
  start : ∀ i ∈ s.start, IsWord w i
  stop : ∀ i ∈ s.stop, IsWord w i
  step : ∀ i ∈ s.step, IsWord w i
  step_ne : s.step.getD 1 ≠ 0

/-- A length is a word. -/
structure IsLen (w len : ℕ) : Prop where
  pos : 1 < w
  lt : (len : ℤ) < 2 ^ (w - 1)

/-- A sequence of `len` objects fits the memory, with one word for each of them. -/
def FitsMemory (w len : ℕ) : Prop := 16 ≤ w ∧ len * (w / 8) < 2 ^ w

theorem FitsMemory.isLen {w len : ℕ} (h : FitsMemory w len) : IsLen w len := by
  obtain ⟨hw, hlen⟩ := h
  refine ⟨by omega, ?_⟩
  have h2 : 2 ≤ w / 8 := by omega
  have hle : len * 2 ≤ len * (w / 8) := Nat.mul_le_mul_left len h2
  have hpow : 2 ^ w = 2 ^ (w - 1) * 2 := by rw [← pow_succ, Nat.sub_add_cancel (by omega)]
  have : len < 2 ^ (w - 1) := by omega
  exact_mod_cast this

/-! ### The indices -/

variable {a b : ℤ}

section Indices

variable {w n : ℕ} {s : SliceObj}

theorem wordAdd_eq (hw : 0 < w) (h : IsWord w (a + b)) : wordAdd w a b = a + b :=
  bmod_of_bounds hw h.1 h.2

theorem wordOfLen_eq (h : IsLen w n) : wordOfLen w n = n := by
  have hpow : (0 : ℤ) < 2 ^ (w - 1) := by positivity
  exact bmod_of_bounds (by have := h.pos; omega) (by omega) h.lt

theorem sliceBound_eq (h : IsLen w n) (lo hi missing : ℤ) {i : Option ℤ}
    (hi' : ∀ v ∈ i, IsWord w v) :
    sliceBound w n lo hi missing i = pySliceBound n lo hi missing i := by
  cases i with
  | none => rfl
  | some v =>
    rw [sliceBound, pySliceBound]
    split
    · next hneg =>
        obtain ⟨h1, h2⟩ := hi' v rfl
        have := h.lt
        rw [wordAdd_eq (by have := h.pos; omega) ⟨by omega, by omega⟩]
    · rfl

/-- The indices are the bounds of Python's rule. -/
theorem sliceIndices_eq (h : IsLen w n) (hs : s.Valid w) : sliceIndices w s n =
      .ok { start := (pySliceBounds n s).1, stop := (pySliceBounds n s).2
            step := s.step.getD 1 } := by
  have hlast : wordAdd w n (-1) = (n : ℤ) - 1 := by
    have := h.lt
    have hpos : (0 : ℤ) < 2 ^ (w - 1) := by positivity
    rw [wordAdd_eq (by have := h.pos; omega) ⟨by omega, by omega⟩]
    rfl
  rw [sliceIndices, if_neg hs.step_ne, pySliceBounds, hlast]
  split <;> simp only [sliceBound_eq h _ _ _ hs.start, sliceBound_eq h _ _ _ hs.stop]

/-- A clamped bound is between the ends. -/
theorem pySliceBound_bounds {n lo hi missing : ℤ} (hle : lo ≤ hi)
    (hm : lo ≤ missing ∧ missing ≤ hi) (i : Option ℤ) :
    lo ≤ pySliceBound n lo hi missing i ∧ pySliceBound n lo hi missing i ≤ hi := by
  cases i with
  | none => exact hm
  | some v => exact ⟨le_min hle (le_max_right _ _), min_le_left _ _⟩

theorem pySliceBounds_pos (h : 0 < s.step.getD 1) :
    (0 ≤ (pySliceBounds n s).1 ∧ (pySliceBounds n s).1 ≤ n) ∧
      0 ≤ (pySliceBounds n s).2 ∧ (pySliceBounds n s).2 ≤ n := by
  rw [pySliceBounds, if_pos h]
  exact ⟨pySliceBound_bounds (by omega) ⟨by omega, by omega⟩ _,
    pySliceBound_bounds (by omega) ⟨by omega, by omega⟩ _⟩

theorem pySliceBounds_neg (h : s.step.getD 1 < 0) :
    (-1 ≤ (pySliceBounds n s).1 ∧ (pySliceBounds n s).1 ≤ n - 1) ∧
      -1 ≤ (pySliceBounds n s).2 ∧ (pySliceBounds n s).2 ≤ n - 1 := by
  rw [pySliceBounds, if_neg (by omega)]
  exact ⟨pySliceBound_bounds (by omega) ⟨by omega, by omega⟩ _,
    pySliceBound_bounds (by omega) ⟨by omega, by omega⟩ _⟩

/-- **A slice selects indices of the sequence.** -/
theorem pySliceIndices_bounds (hs : s.step.getD 1 ≠ 0) {i : ℤ} (hi : i ∈ pySliceIndices n s) :
    0 ≤ i ∧ i < n := by
  obtain ⟨hpos, hneg⟩ := bounds_of_mem_stepRange hs hi
  rcases lt_or_gt_of_ne hs with hk | hk
  · have := pySliceBounds_neg (n := n) hk
    have := hneg hk
    omega
  · have := pySliceBounds_pos (n := n) hk
    have := hpos hk
    omega

/-- The bound for the loop: it is the last index in steps downwards. -/
def fastStop (n : ℕ) (s : SliceObj) : ℤ :=
  if 0 < s.step.getD 1 then max (pySliceBounds n s).1 (pySliceBounds n s).2
  else min ((pySliceBounds n s).1 + 1) ((pySliceBounds n s).2 + 1)

theorem seqGetFastSliceIndexes_eq (h : IsLen w n) (hs : s.Valid w) : seqGetFastSliceIndexes w n s =
      .ok (decide (s.step.getD 1 = 1),
        { start := (pySliceBounds n s).1, stop := fastStop n s, step := s.step.getD 1 }) := by
  have hw : 0 < w := by have := h.pos; omega
  have hpow : (0 : ℤ) < 2 ^ (w - 1) := by positivity
  have hlt := h.lt
  rw [seqGetFastSliceIndexes, wordOfLen_eq h, sliceIndices_eq h hs]
  simp only [bind, Except.bind, fastStop]
  rcases lt_or_gt_of_ne hs.step_ne with hk | hk
  · have hb := pySliceBounds_neg (n := n) hk
    rw [if_pos hk, if_neg (not_and.mpr fun h0 => absurd h0 (by omega)), if_neg (not_lt.mpr hk.le),
      wordAdd_eq hw ⟨by omega, by omega⟩, wordAdd_eq hw ⟨by omega, by omega⟩]
    congr 3
    split <;> omega
  · have hb := pySliceBounds_pos (n := n) hk
    rw [if_neg (not_lt.mpr hk.le), if_pos hk]
    congr 3
    split
    · omega
    · rw [if_neg (not_and.mpr fun h0 => absurd h0 (by omega))]
      omega

end Indices

/-! ### The loop -/

section Loop

variable {w : ℕ} {seq : List α}

theorem seqRead_of_bounds {i : ℤ} (h : 0 ≤ i ∧ i < seq.length) :
    ∃ x, seq[i.toNat]? = some x ∧ seqRead seq i = .ok x := by
  have hlt : i.toNat < seq.length := by omega
  refine ⟨seq[i.toNat], List.getElem?_eq_getElem hlt, ?_⟩
  rw [seqRead, if_pos h.1, List.getElem?_eq_getElem hlt]

/-- A word that overflows upwards becomes negative. -/
theorem wordAdd_neg_of_overflow (hw : 0 < w) (ha : IsWord w a) (hb : IsWord w b)
    (h : 2 ^ (w - 1) ≤ a + b) : wordAdd w a b < 0 := by
  obtain ⟨n, rfl⟩ : ∃ n, w = n + 1 := ⟨w - 1, by omega⟩
  rw [Nat.add_sub_cancel] at h
  obtain ⟨-, ha⟩ := ha
  obtain ⟨-, hb⟩ := hb
  rw [Nat.add_sub_cancel] at ha hb
  have hcast : ((2 ^ (n + 1) : ℕ) : ℤ) = 2 * 2 ^ n := by push_cast; ring
  have hsub : (a + b).bmod (2 ^ (n + 1)) = (a + b - (2 ^ (n + 1) : ℕ)).bmod (2 ^ (n + 1)) :=
    (Int.sub_bmod_right _ _).symm
  have hpow : (2 : ℤ) ^ (n + 1 - 1) = 2 ^ n := rfl
  rw [wordAdd, hsub, hcast, bmod_of_bounds hw (by omega) (by omega)]
  omega

/-- The end of the loop as the end of a progression -/
def loopEnd (stop step : ℤ) : ℤ := if step < 0 then stop - 1 else stop

theorem before_loopEnd_iff {stop step start : ℤ} (hk : step ≠ 0) :
    Before step start (loopEnd stop step) ↔ if step < 0 then stop ≤ start else start < stop := by
  rw [Before, loopEnd]
  rcases lt_or_gt_of_ne hk with h | h
  · rw [if_neg (not_lt.mpr h.le), if_pos h, if_pos h]
    omega
  · rw [if_pos h, if_neg (not_lt.mpr h.le), if_neg (not_lt.mpr h.le)]

/-- **The loop**: it collects the elements of a progression of indices, unless the word overflows
after one of them. Then it reads in front of the sequence. -/
theorem extractLoop_eq (hw : 0 < w) (hlen : (seq.length : ℤ) < 2 ^ (w - 1)) {stop step : ℤ}
    (hk : step ≠ 0) (hstep : IsWord w step) (fuel : ℕ) (start : ℤ) (res : List α)
    (hin : ∀ i ∈ stepRange start (loopEnd stop step) step, 0 ≤ i ∧ i < seq.length)
    (hfuel : (stepRange start (loopEnd stop step) step).length < fuel) :
    extractLoop w seq stop step fuel start res =
      if ∀ i ∈ stepRange start (loopEnd stop step) step, i + step < 2 ^ (w - 1) then
        .ok (res ++ (stepRange start (loopEnd stop step) step).filterMap fun i => seq[i.toNat]?)
      else .error .badRead := by
  induction fuel generalizing start res with
  | zero => exact absurd hfuel (Nat.not_lt_zero _)
  | succ fuel ih =>
    rw [extractLoop]
    by_cases hb : Before step start (loopEnd stop step)
    · rw [if_pos ((before_loopEnd_iff hk).mp hb)]
      rw [stepRange_cons hk hb] at hin hfuel ⊢
      have hstart := hin start List.mem_cons_self
      obtain ⟨x, hx, hread⟩ := seqRead_of_bounds hstart
      obtain ⟨hs1, hs2⟩ := hstep
      simp only [hread, bind, Except.bind, List.forall_mem_cons]
      by_cases hover : start + step < 2 ^ (w - 1)
      · rw [wordAdd_eq hw ⟨by omega, hover⟩,
          ih _ _ (fun i hi => hin i (List.mem_cons_of_mem _ hi)) (Nat.lt_of_succ_lt_succ hfuel)]
        simp only [hover, true_and, List.filterMap_cons, hx, List.append_assoc,
          List.singleton_append]
      · rw [if_neg fun h => hover h.1]
        -- the next index is negative, and the loop goes on to read there
        have hneg : wordAdd w start step < 0 :=
          wordAdd_neg_of_overflow hw ⟨by omega, by omega⟩ ⟨hs1, hs2⟩ (not_lt.mp hover)
        have hpos : ¬step < 0 := by omega
        have hlt : start < stop := by
          have := (before_loopEnd_iff hk).mp hb
          rwa [if_neg hpos] at this
        have hcont : if step < 0 then stop ≤ wordAdd w start step
            else wordAdd w start step < stop := by
          rw [if_neg hpos]
          omega
        obtain ⟨fuel, rfl⟩ : ∃ f, fuel = f + 1 :=
          ⟨fuel - 1, by rw [List.length_cons] at hfuel; omega⟩
        rw [extractLoop, if_pos hcont, seqRead, if_neg (not_le.mpr hneg)]
        rfl
    · rw [if_neg (mt (before_loopEnd_iff hk).mpr hb)]
      simp only [stepRange_of_not_before hk hb, List.not_mem_nil, false_implies, implies_true,
        if_true, List.filterMap_nil, List.append_nil]

end Loop

/-! ### Slices -/

section Slice

variable {w : ℕ} {seq : List α} {s : SliceObj}

/-- The loop runs over the indices of Python's rule. -/
theorem stepRange_fastStop (n : ℕ) (hk : s.step.getD 1 ≠ 0) :
    stepRange (pySliceBounds n s).1 (loopEnd (fastStop n s) (s.step.getD 1)) (s.step.getD 1) =
      pySliceIndices n s := by
  rw [pySliceIndices, fastStop]
  generalize pySliceBounds n s = b
  by_cases hb : Before (s.step.getD 1) b.1 b.2
  · congr 1
    rw [Before] at hb
    rw [loopEnd]
    split at hb <;> split <;> omega
  · rw [stepRange_of_not_before hk hb, stepRange_of_not_before hk]
    refine fun h => hb ?_
    rw [loopEnd] at h
    rw [Before] at h ⊢
    split at h <;> split at h <;> split <;> omega

/-- **Which slices are right**: those where the step can be added to every selected index. A slice
that is not right reads outside of the sequence. -/
theorem seqSlice_eq (h : FitsMemory w seq.length) (hs : s.Valid w) : seqSlice w seq s =
      if ∀ i ∈ pySliceIndices seq.length s, i + s.step.getD 1 < 2 ^ (w - 1) then
        .ok (pySlice seq s)
      else .error .badRead := by
  have hw : 0 < w := by have := h.1; omega
  have hk := hs.step_ne
  have hstep : IsWord w (s.step.getD 1) := by
    cases hst : s.step with
    | none =>
      have : (1 : ℤ) < 2 ^ (w - 1) := one_lt_pow₀ (by decide) (by have := h.1; omega)
      exact ⟨by rw [Option.getD_none]; omega, this⟩
    | some i => exact hs.step i hst
  rw [seqSlice, seqGetFastSliceIndexes_eq h.isLen hs]
  simp only [bind, Except.bind]
  rw [seqExtractSlice, extractLoop_eq hw h.isLen.lt hk hstep, stepRange_fastStop _ hk, pySlice,
    List.nil_append]
  · intro i hi
    rw [stepRange_fastStop _ hk] at hi
    exact pySliceIndices_bounds hk hi
  · rw [stepRange_fastStop _ hk, pySliceIndices]
    refine Nat.lt_succ_of_le (length_stepRange_le hk ?_)
    rcases lt_or_gt_of_ne hk with hneg | hpos
    · have := pySliceBounds_neg (n := seq.length) hneg
      rw [if_neg (not_lt.mpr hneg.le)]
      omega
    · have := pySliceBounds_pos (n := seq.length) hpos
      rw [if_pos hpos]
      omega

end Slice

end Pycopy
