import Mathlib.Algebra.Order.Ring.Abs
import Mathlib.Data.List.Range
import Mathlib.Tactic.Linarith
import Mathlib.Tactic.Ring

/-!
# Arithmetic Progressions Up to a Bound

The integers `a`, `a + k`, `a + 2 * k` and so on, up to `b` and without it, upwards or downwards
depending on the sign of `k`. A loop that counts in steps visits such a progression.

## Main results

* `mem_stepRange`: what is in the progression.
* `stepRange_cons`, `stepRange_of_not_before`: one step of a loop over it.
* `map_stepRange`: a progression of the indices of a progression.
-/

namespace StepRange

/-- A counter at `a` has not reached `b`, in the direction of `k`. -/
def Before (k a b : ℤ) : Prop := if 0 < k then a < b else b < a

instance (k a b : ℤ) : Decidable (Before k a b) := inferInstanceAs (Decidable (ite _ _ _))

/-- The number of steps of size `|k|` in a distance `d`, rounded up -/
def stepCount (k d : ℤ) : ℕ := ((d + |k| - 1) / |k|).toNat

/-- The progression from `a` to `b` in steps of `k` -/
def stepRange (a b k : ℤ) : List ℤ :=
  (List.range (stepCount k (if 0 < k then b - a else a - b))).map fun n : ℕ => a + n * k

variable {k : ℤ}

theorem lt_stepCount_iff (hk : k ≠ 0) (d : ℤ) (n : ℕ) : n < stepCount k d ↔ n * |k| < d := by
  have hpos : 0 < |k| := abs_pos.mpr hk
  rw [stepCount, Int.lt_toNat, ← Int.add_one_le_iff, Int.le_ediv_iff_mul_le hpos, add_mul, one_mul]
  constructor <;> intro h <;> linarith

variable {a b : ℤ}

/-- **What is in the progression**: all that is a number of steps away from `a` and before `b`. -/
theorem mem_stepRange (hk : k ≠ 0) (x : ℤ) :
    x ∈ stepRange a b k ↔ ∃ n : ℕ, x = a + n * k ∧ Before k x b := by
  simp only [stepRange, List.mem_map, List.mem_range, lt_stepCount_iff hk, Before]
  constructor
  · rintro ⟨n, hn, rfl⟩
    refine ⟨n, rfl, ?_⟩
    split at hn
    · next h =>
        rw [abs_of_pos h] at hn
        rw [if_pos h]
        linarith
    · next h =>
        rw [abs_of_nonpos (not_lt.mp h)] at hn
        rw [if_neg h]
        linarith
  · rintro ⟨n, rfl, hn⟩
    refine ⟨n, ?_, rfl⟩
    split at hn
    · next h =>
        rw [if_pos h, abs_of_pos h]
        linarith
    · next h =>
        rw [if_neg h, abs_of_nonpos (not_lt.mp h)]
        linarith

/-- What is in the progression is between its ends. -/
theorem bounds_of_mem_stepRange {x : ℤ} (hk : k ≠ 0) (hx : x ∈ stepRange a b k) :
    (0 < k → a ≤ x ∧ x < b) ∧ (k < 0 → b < x ∧ x ≤ a) := by
  obtain ⟨n, rfl, hb⟩ := (mem_stepRange hk x).mp hx
  have hn : (0 : ℤ) ≤ n := Int.natCast_nonneg n
  constructor
  · intro h
    rw [Before, if_pos h] at hb
    have := Int.mul_nonneg hn h.le
    exact ⟨by linarith, hb⟩
  · intro h
    rw [Before, if_neg h.not_gt] at hb
    have := Int.mul_nonneg hn (neg_nonneg.mpr h.le)
    exact ⟨hb, by linarith⟩

/-- A progression whose start is not before its end is empty. -/
theorem stepRange_of_not_before (hk : k ≠ 0) (h : ¬Before k a b) : stepRange a b k = [] := by
  refine List.eq_nil_iff_forall_not_mem.mpr fun x hx => h ?_
  obtain ⟨hpos, hneg⟩ := bounds_of_mem_stepRange hk hx
  rw [Before]
  split
  · next h0 => exact lt_of_le_of_lt (hpos h0).1 (hpos h0).2
  · next h0 =>
      have h0' : k < 0 := lt_of_le_of_ne (not_lt.mp h0) hk
      exact lt_of_lt_of_le (hneg h0').1 (hneg h0').2

/-- Otherwise it goes on after its start. -/
theorem stepRange_cons (hk : k ≠ 0) (h : Before k a b) :
    stepRange a b k = a :: stepRange (a + k) b k := by
  have hcount : stepCount k (if 0 < k then b - a else a - b) =
      stepCount k (if 0 < k then b - (a + k) else a + k - b) + 1 := by
    refine eq_of_forall_lt_iff fun n => ?_
    cases n with
    | zero =>
      rw [lt_stepCount_iff hk, Nat.cast_zero, zero_mul]
      refine iff_of_true ?_ (Nat.succ_pos _)
      rw [Before] at h
      split at h
      · next h0 =>
          rw [if_pos h0]
          linarith
      · next h0 =>
          rw [if_neg h0]
          linarith
    | succ n =>
      rw [Nat.succ_lt_succ_iff, lt_stepCount_iff hk, lt_stepCount_iff hk]
      push_cast
      split
      · next h0 =>
          rw [abs_of_pos h0]
          constructor <;> intro <;> linarith
      · next h0 =>
          rw [abs_of_nonpos (not_lt.mp h0)]
          constructor <;> intro <;> linarith
  rw [stepRange, hcount, List.range_succ_eq_map, List.map_cons, List.map_map, stepRange]
  congr 1
  · simp
  · refine List.map_congr_left fun n _ => ?_
    simp only [Function.comp_apply, Nat.cast_succ]
    ring

/-- A progression is no longer than the distance of its ends. -/
theorem length_stepRange_le (hk : k ≠ 0) {n : ℕ}
    (h : (if 0 < k then b - a else a - b) ≤ n) : (stepRange a b k).length ≤ n := by
  rw [stepRange, List.length_map, List.length_range]
  refine not_lt.mp fun hlt => ?_
  have hn := (lt_stepCount_iff hk _ n).mp hlt
  have hpos : 0 < |k| := abs_pos.mpr hk
  have := Int.mul_le_mul_of_nonneg_left (show (1 : ℤ) ≤ |k| by omega) (Int.natCast_nonneg n)
  linarith

/-- A progression of the indices of a progression is a progression. -/
theorem map_stepRange {m : ℤ} (hk : k ≠ 0) (hm : m ≠ 0) (s : ℤ) :
    (stepRange a b k).map (fun i => s + i * m) = stepRange (s + a * m) (s + b * m) (k * m) := by
  have hcount : stepCount (k * m) (if 0 < k * m then s + b * m - (s + a * m)
      else s + a * m - (s + b * m)) = stepCount k (if 0 < k then b - a else a - b) := by
    refine eq_of_forall_lt_iff fun n => ?_
    rw [lt_stepCount_iff (mul_ne_zero hk hm), lt_stepCount_iff hk, abs_mul, ← mul_assoc]
    have hdist : (if 0 < k * m then s + b * m - (s + a * m) else s + a * m - (s + b * m)) =
        (if 0 < k then b - a else a - b) * |m| := by
      rcases lt_or_gt_of_ne hm with h | h
      · rw [abs_of_neg h]
        rcases lt_or_gt_of_ne hk with h' | h'
        · rw [if_pos (mul_pos_of_neg_of_neg h' h), if_neg h'.not_gt]
          ring
        · rw [if_neg (mul_neg_of_pos_of_neg h' h).not_gt, if_pos h']
          ring
      · rw [abs_of_pos h]
        rcases lt_or_gt_of_ne hk with h' | h'
        · rw [if_neg (mul_neg_of_neg_of_pos h' h).not_gt, if_neg h'.not_gt]
          ring
        · rw [if_pos (mul_pos h' h), if_pos h']
          ring
    rw [hdist]
    exact mul_lt_mul_iff_of_pos_right (abs_pos.mpr hm)
  rw [stepRange, stepRange, hcount, List.map_map]
  refine List.map_congr_left fun n _ => ?_
  simp only [Function.comp_apply]
  ring

end StepRange
