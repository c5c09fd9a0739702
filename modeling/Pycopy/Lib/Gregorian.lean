import Mathlib.Data.Int.SuccPred
import Mathlib.Order.SuccPred.Basic
import Mathlib.Tactic.IntervalCases
import Mathlib.Tactic.SplitIfs

/-!
# The Gregorian Calendar

Dates of the calendar without a first year, and the day after a date. Months are also counted
through the years: `monthStart k` is the number of days from the first day of 2000 to the first day
of the month with the number `k`, which is month `k % 12 + 1` of year `k / 12`.

## Main results

* `monthStart_succ`: a month starts where the one before it ends.
* `Date.next_iterate_iff`: a date lies a number of days after another one.
-/

namespace Gregorian

/-- Every fourth year, but of the centuries only every fourth -/
def Leap (y : ℤ) : Prop := (y % 4 = 0 ∧ y % 100 ≠ 0) ∨ y % 400 = 0

instance (y : ℤ) : Decidable (Leap y) := inferInstanceAs (Decidable (_ ∨ _))

/-- The length of a month, from 1 to 12 -/
def daysInMonth (y m : ℤ) : ℤ :=
  if m = 2 then (if Leap y then 29 else 28) else if m = 4 ∨ m = 6 ∨ m = 9 ∨ m = 11 then 30 else 31

/-- A date of the calendar -/
@[ext]
structure Date where
  year : ℤ
  month : ℤ
  day : ℤ
  month_pos : 1 ≤ month
  month_le : month ≤ 12
  day_pos : 1 ≤ day
  day_le : day ≤ daysInMonth year month

/-! ### Months -/

/-- The days from the first day of 2000 to the first day of a year -/
def yearStart (y : ℤ) : ℤ := 365 * (y - 2000) + (y - 1997) / 4 - (y - 1901) / 100 + (y - 1601) / 400

/-- The days before a month in a year -/
def daysBefore (y m : ℤ) : ℤ :=
  (367 * m - 362) / 12 - if m ≤ 2 then 0 else if Leap y then 1 else 2

/-- The days from the first day of 2000 to the first day of a month, for a number of the month -/
def monthStart (k : ℤ) : ℤ := yearStart (k / 12) + daysBefore (k / 12) (k % 12 + 1)

/-- The length of a month, for a number of the month -/
def monthLength (k : ℤ) : ℤ := daysInMonth (k / 12) (k % 12 + 1)

/-- The leap years repeat after 400 years. -/
theorem leap_add_cycles (y k : ℤ) : Leap (y + 400 * k) ↔ Leap y := by
  rw [Leap, Leap]
  omega

theorem daysInMonth_bounds (y m : ℤ) : 28 ≤ daysInMonth y m ∧ daysInMonth y m ≤ 31 := by
  rw [daysInMonth]
  split_ifs <;> omega

theorem yearStart_succ (y : ℤ) : yearStart (y + 1) = yearStart y + if Leap y then 366 else 365 := by
  rw [yearStart, yearStart]
  split_ifs with h <;> rw [Leap] at h <;> omega

theorem daysBefore_succ {y m : ℤ} (hpos : 1 ≤ m) (hle : m ≤ 12) :
    daysBefore y (m + 1) = daysBefore y m + daysInMonth y m := by
  by_cases h : Leap y <;> interval_cases m <;> simp [daysBefore, daysInMonth, h]

theorem daysBefore_bounds (y : ℤ) {m : ℤ} (hpos : 1 ≤ m) (hle : m ≤ 12) :
    0 ≤ daysBefore y m ∧ daysBefore y m ≤ 335 := by
  by_cases h : Leap y <;> interval_cases m <;> simp [daysBefore, h]

/-- **A month starts where the one before it ends.** -/
theorem monthStart_succ (k : ℤ) : monthStart (k + 1) = monthStart k + monthLength k := by
  rw [monthStart, monthStart, monthLength]
  by_cases hlast : k % 12 = 11
  · have hyear : (k + 1) / 12 = k / 12 + 1 := by omega
    have hmonth : (k + 1) % 12 = 0 := by omega
    rw [hyear, hmonth, hlast, yearStart_succ, daysBefore, daysBefore, daysInMonth]
    split_ifs <;> omega
  · have hyear : (k + 1) / 12 = k / 12 := by omega
    have hmonth : (k + 1) % 12 + 1 = k % 12 + 1 + 1 := by omega
    rw [hyear, hmonth, daysBefore_succ (by omega) (by omega), add_assoc]

theorem monthLength_bounds (k : ℤ) : 28 ≤ monthLength k ∧ monthLength k ≤ 31 :=
  daysInMonth_bounds _ _

/-- Months start in their order. -/
theorem monthStart_lt_iff {k k' : ℤ} : monthStart k < monthStart k' ↔ k < k' := by
  refine (strictMono_int_of_lt_succ fun k => ?_).lt_iff_lt
  have := monthLength_bounds k
  rw [monthStart_succ]
  omega

/-- A month ends before every later one starts. -/
theorem monthStart_add_le {k k' : ℤ} (h : k < k') :
    monthStart k + monthLength k ≤ monthStart k' := by
  rw [← monthStart_succ]
  refine not_lt.mp fun hlt => ?_
  have := monthStart_lt_iff.mp hlt
  omega

/-- A day of a month lies before another month when its month does. -/
theorem lt_monthStart_iff {k k' day : ℤ} (hpos : 1 ≤ day) (hle : day ≤ monthLength k) :
    monthStart k + day - 1 < monthStart k' ↔ k < k' := by
  constructor
  · intro h
    rw [← monthStart_lt_iff]
    omega
  · intro h
    have := monthStart_add_le h
    omega

theorem monthStart_year (y : ℤ) : monthStart (12 * y) = yearStart y := by
  have hyear : 12 * y / 12 = y := by omega
  have hmonth : 12 * y % 12 = 0 := by omega
  rw [monthStart, hyear, hmonth]
  simp [daysBefore]

/-- The starts of the months of a year that starts in March -/
theorem monthStart_march (y : ℤ) {j : ℤ} (hpos : 0 ≤ j) (hle : j ≤ 11) :
    monthStart (12 * y + j + 2) = yearStart (y + 1) - 306 + (153 * j + 2) / 5 := by
  have hyear : (12 * y + j + 2) / 12 = if j ≤ 9 then y else y + 1 := by split_ifs <;> omega
  have hmonth : (12 * y + j + 2) % 12 = if j ≤ 9 then j + 2 else j - 10 := by split_ifs <;> omega
  rw [monthStart, hyear, hmonth, yearStart_succ]
  by_cases h : Leap y <;> interval_cases j <;> simp [daysBefore, h, yearStart_succ] <;> omega

/-! ### Dates -/

namespace Date

variable {d d' : Date}

/-- The number of the month of a date -/
def monthNumber (d : Date) : ℤ := 12 * d.year + d.month - 1

/-- **The days from the first day of 2000** to a date -/
def number (d : Date) : ℤ := monthStart d.monthNumber + d.day - 1

theorem monthNumber_ediv (d : Date) : d.monthNumber / 12 = d.year := by
  have := d.month_pos
  have := d.month_le
  rw [monthNumber]
  omega

theorem monthNumber_emod (d : Date) : d.monthNumber % 12 + 1 = d.month := by
  have := d.month_pos
  have := d.month_le
  rw [monthNumber]
  omega

theorem monthLength_monthNumber (d : Date) :
    monthLength d.monthNumber = daysInMonth d.year d.month := by
  rw [monthLength, d.monthNumber_ediv, d.monthNumber_emod]

theorem number_eq (d : Date) :
    d.number = yearStart d.year + daysBefore d.year d.month + d.day - 1 := by
  rw [number, monthStart, d.monthNumber_ediv, d.monthNumber_emod]

theorem lt_monthStart_iff (d : Date) {k : ℤ} : d.number < monthStart k ↔ d.monthNumber < k :=
  Gregorian.lt_monthStart_iff d.day_pos (d.monthLength_monthNumber ▸ d.day_le)

/-- The first day of a month -/
def first (y m : ℤ) (hpos : 1 ≤ m) (hle : m ≤ 12) : Date where
  year := y
  month := m
  day := 1
  month_pos := hpos
  month_le := hle
  day_pos := le_rfl
  day_le := (daysInMonth_bounds y m).1.trans' (by omega)

/-- The first day of a year -/
def newYear (y : ℤ) : Date := first y 1 le_rfl (by omega)

theorem number_newYear (y : ℤ) : (newYear y).number = yearStart y := by
  have hyear := (newYear y).monthNumber_ediv
  have hmonth := (newYear y).monthNumber_emod
  rw [number, monthStart, hyear, hmonth]
  simp [newYear, first, daysBefore]

/-- A day of a month, for a number of the month -/
def ofMonth (k day : ℤ) (hpos : 1 ≤ day) (hle : day ≤ monthLength k) : Date where
  year := k / 12
  month := k % 12 + 1
  day := day
  month_pos := by omega
  month_le := by omega
  day_pos := hpos
  day_le := hle

/-- The number of a day of a month -/
theorem number_ofMonth {k day : ℤ} (hpos : 1 ≤ day) (hle : day ≤ monthLength k) :
    (ofMonth k day hpos hle).number = monthStart k + day - 1 := by
  have hk : 12 * (k / 12) + (k % 12 + 1) - 1 = k := by omega
  rw [number, monthNumber, ofMonth, hk]

/-- The day after a date -/
def next (d : Date) : Date :=
  if h : d.day < daysInMonth d.year d.month then
    { d with
      day := d.day + 1
      day_pos := Int.le_add_one d.day_pos
      day_le := Int.add_one_le_of_lt h }
  else if h' : d.month < 12 then
    first d.year (d.month + 1) (Int.le_add_one d.month_pos) (Int.add_one_le_of_lt h')
  else first (d.year + 1) 1 le_rfl (by omega)

/-- The next day has the next number. -/
theorem number_next (d : Date) : d.next.number = d.number + 1 := by
  have hday := d.day_le
  have hmonth := d.month_le
  have hlength := d.monthLength_monthNumber
  have hsucc := monthStart_succ d.monthNumber
  rw [monthNumber] at hlength hsucc
  rw [next]
  split_ifs with h h'
  · simp only [number, monthNumber]
    omega
  · have hnumber : 12 * d.year + (d.month + 1) - 1 = 12 * d.year + d.month - 1 + 1 := by omega
    simp only [number, monthNumber, first, hnumber, hsucc, hlength]
    omega
  · have hnumber : 12 * (d.year + 1) + 1 - 1 = 12 * d.year + d.month - 1 + 1 := by omega
    simp only [number, monthNumber, first, hnumber, hsucc, hlength]
    omega

theorem number_next_iterate (d : Date) (n : ℕ) : (next^[n] d).number = d.number + n := by
  induction n with
  | zero => rw [Function.iterate_zero_apply, Int.natCast_zero, add_zero]
  | succ n ih => rw [Function.iterate_succ_apply', number_next, ih, Int.natCast_succ, add_assoc]

/-- A date is known by its number. -/
theorem number_injective : Function.Injective number := by
  intro d d' h
  have hday := d.day_le
  have hday' := d'.day_le
  have hpos := d.day_pos
  have hpos' := d'.day_pos
  rw [← monthLength_monthNumber] at hday hday'
  rw [number, number] at h
  have hmonth : d.monthNumber = d'.monthNumber := by
    rcases lt_trichotomy d.monthNumber d'.monthNumber with hlt | heq | hlt
    · have := monthStart_add_le hlt
      omega
    · exact heq
    · have := monthStart_add_le hlt
      omega
  ext
  · rw [← d.monthNumber_ediv, hmonth, d'.monthNumber_ediv]
  · rw [← d.monthNumber_emod, hmonth, d'.monthNumber_emod]
  · rw [hmonth] at h
    omega

/-- **A date lies a number of days after another one.** -/
theorem next_iterate_iff {n : ℕ} : next^[n] d = d' ↔ d'.number = d.number + n := by
  rw [← number_next_iterate]
  exact ⟨fun h => h ▸ rfl, fun h => number_injective h.symm⟩

end Date

end Gregorian
