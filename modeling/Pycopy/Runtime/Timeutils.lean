import Mathlib.Data.Int.ModEq
import Pycopy.Lib.Gregorian

/-!
# Dates and Seconds

`lib/timeutils/timeutils.c`: seconds since the first day of 2000 as a date and back, and `mktime`,
which takes fields outside of their ranges. Words have `w` bits; an `mp_uint_t` is reduced where it
is computed, and an `mp_int_t` is an integer, so that signed overflow is left to the statements.

`timeutils_seconds_since_2000_to_struct_time` counts in an `mp_int_t` from the first of March. In 32
bits this is negative for late times, and the date comes out 2 ^ 32 seconds too early.
`timeutils_mktime` walks through the months with an unsigned year, so the year must not wrap on the
way.

## Main results

* `toStructTime_right_iff`: the times with 32 bits that have the right date.
* `timeutilsMktime_right`: the seconds of a date with any fields.
-/

namespace Pycopy

open Gregorian

/-! ### The source -/

/-- A value as an `mp_uint_t` -/
def mpUint (w : ℕ) (x : ℤ) : ℤ := x % 2 ^ w

/-- A division that is corrected if the remainder is negative -/
def divCorrected (a b : ℤ) : ℤ × ℤ :=
  if a.tmod b < 0 then (a.tdiv b - 1, a.tmod b + b) else (a.tdiv b, a.tmod b)

/-- The table `days_since_jan1` -/
def daysSinceJan1 (i : ℤ) : ℤ :=
  [0, 31, 59, 90, 120, 151, 181, 212, 243, 273, 304, 334, 365].getD i.toNat 0

/-- `timeutils_is_leap_year` -/
def timeutilsIsLeapYear (year : ℤ) : Bool := (year % 4 = 0 ∧ year % 100 ≠ 0) ∨ year % 400 = 0

/-- `timeutils_days_in_month` -/
def timeutilsDaysInMonth (year month : ℤ) : ℤ :=
  let mdays := daysSinceJan1 month - daysSinceJan1 (month - 1)
  if month = 2 ∧ timeutilsIsLeapYear year then mdays + 1 else mdays

/-- `timeutils_year_day` -/
def timeutilsYearDay (w : ℕ) (year month date : ℤ) : ℤ :=
  let yday := daysSinceJan1 (month - 1) + date
  mpUint w (if month ≥ 3 ∧ timeutilsIsLeapYear year then yday + 1 else yday)

/-- `timeutils_struct_time_t` -/
structure StructTime where
  tmYear : ℤ
  tmMon : ℤ
  tmMday : ℤ
  tmHour : ℤ
  tmMin : ℤ
  tmSec : ℤ
  tmWday : ℤ
  tmYday : ℤ
deriving DecidableEq

/-- The years of a cycle: a division with a quotient of at most `n - 1` -/
def cycleDiv (days length n : ℤ) : ℤ × ℤ :=
  let cycles := days.tdiv length
  let cycles := if cycles = n then cycles - 1 else cycles
  (cycles, days - cycles * length)

/-- The loop over the months from March, or nothing if it leaves the table -/
def marchMonth : List ℤ → ℤ → ℤ → Option (ℤ × ℤ)
  | [], _, _ => none
  | length :: table, month, days =>
    if length ≤ days then marchMonth table (month + 1) (days - length) else some (month, days)

/-- The table `days_in_month`, from March -/
def marchTable : List ℤ := [31, 30, 31, 30, 31, 31, 30, 31, 30, 31, 31, 29]

/-- `timeutils_seconds_since_2000_to_struct_time`. The fields of a `timeutils_struct_time_t` have 8
bits, and `tm_year` and `tm_yday` 16. -/
def toStructTime (w : ℕ) (t : ℤ) : Option StructTime := do
  let seconds := (t - (31 + 29) * 86400).bmod (2 ^ w)
  let (days, seconds) := divCorrected seconds 86400
  let (_, wday) := divCorrected (days + 2) 7
  let (qcCycles, days) := divCorrected days (365 * 400 + 97)
  let (cCycles, days) := cycleDiv days (365 * 100 + 24) 4
  let (qCycles, days) := cycleDiv days (365 * 4 + 1) 25
  let (years, days) := cycleDiv days 365 4
  let tmYear := (2000 + years + 4 * qCycles + 100 * cCycles + 400 * qcCycles) % 2 ^ 16
  let (month, days) ← marchMonth marchTable 0 days
  let (tmYear, tmMon) :=
    if month + 2 ≥ 12 then ((tmYear + 1) % 2 ^ 16, month + 2 - 12) else (tmYear, month + 2)
  let tmMon := (tmMon + 1) % 2 ^ 8
  let tmMday := (days + 1) % 2 ^ 8
  some
    { tmYear, tmMon, tmMday
      tmHour := seconds.tdiv 3600 % 2 ^ 8
      tmMin := (seconds.tdiv 60).tmod 60 % 2 ^ 8
      tmSec := seconds.tmod 60 % 2 ^ 8
      tmWday := wday % 2 ^ 8
      tmYday := timeutilsYearDay w tmYear tmMon tmMday % 2 ^ 16 }

/-- `timeutils_seconds_since_2000` -/
def timeutilsSecondsSince2000 (w : ℕ) (year month date hour minute second : ℤ) : ℤ :=
  mpUint w (second + minute * 60 + hour * 3600 +
    (timeutilsYearDay w year month date - 1 + mpUint w (year - 2000 + 3) / 4 -
      mpUint w (year - 2000 + 99) / 100 + mpUint w (year - 2000 + 399) / 400) * 86400 +
    (year - 2000) * 31536000)

/-- The loop of `timeutils_mktime` for a day before its month -/
def mktimeBack (w : ℕ) : ℕ → ℤ → ℤ → ℤ → Option (ℤ × ℤ × ℤ)
  | 0, _, _, _ => none
  | fuel + 1, year, month, mday =>
    if mday < 1 then
      let (year, month) := if month - 1 = 0 then (mpUint w (year - 1), 12) else (year, month - 1)
      mktimeBack w fuel year month (mday + timeutilsDaysInMonth year month)
    else some (year, month, mday)

/-- The loop of `timeutils_mktime` for a day behind its month -/
def mktimeForward (w : ℕ) : ℕ → ℤ → ℤ → ℤ → Option (ℤ × ℤ × ℤ)
  | 0, _, _, _ => none
  | fuel + 1, year, month, mday =>
    if mpUint w mday > timeutilsDaysInMonth year month then
      let mday := mday - timeutilsDaysInMonth year month
      let (year, month) := if month + 1 = 13 then (mpUint w (year + 1), 1) else (year, month + 1)
      mktimeForward w fuel year month mday
    else some (year, month, mday)

/-- `timeutils_mktime` -/
def timeutilsMktime (w fuel : ℕ) (year month mday hours minutes seconds : ℤ) : Option ℤ := do
  let (carry, seconds) := divCorrected seconds 60
  let (carry, minutes) := divCorrected (minutes + carry) 60
  let (carry, hours) := divCorrected (hours + carry) 24
  let mday := mday + carry
  let (carry, month) := divCorrected (month - 1) 12
  let year := mpUint w (year + carry)
  let (year, month, mday) ← mktimeBack w fuel year (month + 1) mday
  let (year, month, mday) ← mktimeForward w fuel year month mday
  some (timeutilsSecondsSince2000 w year month mday hours minutes seconds)

/-! ### The tables and the divisions -/

theorem divCorrected_eq (a : ℤ) {b : ℤ} (hb : 0 < b) : divCorrected a b = (a / b, a % b) := by
  have hsum := Int.mul_tdiv_add_tmod a b
  have hlt := Int.tmod_lt_of_pos a hb
  have hgt := Int.lt_tmod_of_pos a hb
  rw [divCorrected]
  split_ifs with hneg
  · obtain ⟨hq, hr⟩ := (@Int.ediv_emod_unique a b (a.tmod b + b) (a.tdiv b - 1) hb).mpr
      ⟨by rw [Int.mul_sub, Int.mul_one]; omega, by omega, by omega⟩
    rw [hq, hr]
  · obtain ⟨hq, hr⟩ := (Int.ediv_emod_unique (a := a) (q := a.tdiv b) (r := a.tmod b) hb).mpr
      ⟨by omega, by omega, hlt⟩
    rw [hq, hr]

/-- A division with a bounded quotient: a remainder that is too great has the greatest quotient. -/
theorem cycleDiv_spec (length n : ℤ) {days : ℤ} (hdays : 0 ≤ days) (hlength : 0 < length)
    (hn : 0 < n) (hlt : days < length * (n + 1)) :
    ∃ q r, cycleDiv days length n = (q, r) ∧ days = q * length + r ∧ 0 ≤ q ∧ q < n ∧ 0 ≤ r ∧
      (r < length ∨ q = n - 1) := by
  have hq : days / length < n + 1 := Int.ediv_lt_of_lt_mul hlength (by rwa [Int.mul_comm])
  have hq0 := Int.ediv_nonneg hdays hlength.le
  have hsum := Int.mul_ediv_add_emod days length
  have hr0 := Int.emod_nonneg days hlength.ne'
  have hr := Int.emod_lt_of_pos days hlength
  rw [cycleDiv, Int.tdiv_eq_ediv_of_nonneg hdays]
  by_cases hfull : days / length = n
  · rw [if_pos hfull]
    refine ⟨_, _, rfl, by omega, by omega, by omega, ?_, .inr (by omega)⟩
    rw [Int.sub_mul, Int.one_mul, Int.mul_comm]
    omega
  · rw [if_neg hfull]
    rw [Int.mul_comm] at hsum
    exact ⟨_, _, rfl, by omega, hq0, by omega, by omega, .inl (by omega)⟩

theorem timeutilsIsLeapYear_iff (year : ℤ) : timeutilsIsLeapYear year = true ↔ Leap year := by
  rw [timeutilsIsLeapYear, decide_eq_true_iff, Leap]

theorem timeutilsDaysInMonth_eq (year : ℤ) {month : ℤ} (hpos : 1 ≤ month) (hle : month ≤ 12) :
    timeutilsDaysInMonth year month = daysInMonth year month := by
  simp only [timeutilsDaysInMonth, timeutilsIsLeapYear_iff]
  by_cases h : Leap year <;> interval_cases month <;> simp [daysSinceJan1, daysInMonth, h]

theorem timeutilsYearDay_eq (w : ℕ) (year month date : ℤ) (hpos : 1 ≤ month) (hle : month ≤ 12) :
    timeutilsYearDay w year month date = mpUint w (daysBefore year month + date) := by
  simp only [timeutilsYearDay, timeutilsIsLeapYear_iff]
  congr 1
  by_cases h : Leap year <;> interval_cases month <;> simp [daysSinceJan1, daysBefore, h] <;> omega

theorem mpUint_eq {w : ℕ} {x : ℤ} (hpos : 0 ≤ x) (hlt : x < 2 ^ w) : mpUint w x = x :=
  Int.emod_eq_of_lt hpos hlt

/-- **The seconds of a date**, for the years in which nothing wraps -/
theorem timeutilsSecondsSince2000_eq {w : ℕ} {year : ℤ} (hyear : 2000 ≤ year) (hlt : year < 2 ^ w)
    (month date hour minute second : ℤ) (hpos : 1 ≤ month) (hle : month ≤ 12) :
    timeutilsSecondsSince2000 w year month date hour minute second =
      mpUint w (86400 * (yearStart year + daysBefore year month + date - 1) + 3600 * hour +
        60 * minute + second) := by
  rw [timeutilsSecondsSince2000, timeutilsYearDay_eq w year month date hpos hle,
    mpUint_eq (x := year - 2000 + 3) (by omega) (by omega),
    mpUint_eq (x := year - 2000 + 99) (by omega) (by omega),
    mpUint_eq (x := year - 2000 + 399) (by omega) (by omega), mpUint, mpUint, mpUint]
  refine Int.ModEq.eq ?_
  calc second + minute * 60 + hour * 3600 +
        ((daysBefore year month + date) % 2 ^ w - 1 + (year - 2000 + 3) / 4 -
          (year - 2000 + 99) / 100 + (year - 2000 + 399) / 400) * 86400 + (year - 2000) * 31536000
    _ ≡ second + minute * 60 + hour * 3600 +
        (daysBefore year month + date - 1 + (year - 2000 + 3) / 4 - (year - 2000 + 99) / 100 +
          (year - 2000 + 399) / 400) * 86400 + (year - 2000) * 31536000 [ZMOD 2 ^ w] := by
      gcongr
      exact Int.mod_modEq _ _
    _ = 86400 * (yearStart year + daysBefore year month + date - 1) + 3600 * hour + 60 * minute +
        second := by
      rw [yearStart]
      omega

/-! ### The date of a time -/

/-- The loop over the months stops in the month of the day. -/
theorem marchMonth_eq (table : List ℤ) (month : ℤ) {days : ℤ} (hpos : 0 ≤ days)
    (hlt : days < table.sum) :
    ∃ i < table.length, marchMonth table month days = some (month + i, days - (table.take i).sum) ∧
      (table.take i).sum ≤ days ∧ days < (table.take (i + 1)).sum := by
  induction table generalizing month days with
  | nil => exact absurd hpos (not_le.mpr hlt)
  | cons length table ih =>
    rw [List.sum_cons] at hlt
    rw [marchMonth]
    by_cases hlength : length ≤ days
    · obtain ⟨i, hi, hloop, hle, hnext⟩ := ih (month + 1) (sub_nonneg.mpr hlength) (by omega)
      refine ⟨i + 1, Nat.succ_lt_succ hi, ?_, ?_, ?_⟩
      · rw [if_pos hlength, hloop, List.take_succ_cons, List.sum_cons, Int.sub_sub,
          Int.natCast_succ, Int.add_assoc, Int.add_comm 1]
      · rw [List.take_succ_cons, List.sum_cons]
        omega
      · rw [List.take_succ_cons, List.sum_cons]
        omega
    · rw [if_neg hlength]
      refine ⟨0, Nat.succ_pos _, ?_, hpos, ?_⟩
      · rw [List.take_zero, List.sum_nil, Int.natCast_zero, Int.add_zero, Int.sub_zero]
      · rw [List.take_succ_cons, List.sum_cons, List.take_zero, List.sum_nil]
        omega

/-- The loop over the months stays in the table. -/
theorem marchMonth_spec {days : ℤ} (hpos : 0 ≤ days) (hlt : days < 366) :
    ∃ j d, marchMonth marchTable 0 days = some (j, d) ∧ 0 ≤ j ∧ j ≤ 11 ∧ 0 ≤ d ∧
      days = (153 * j + 2) / 5 + d ∧ (j < 11 → days < (153 * (j + 1) + 2) / 5) := by
  obtain ⟨i, hi, hloop, hle, hnext⟩ := marchMonth_eq marchTable 0 hpos hlt
  have hi : i < 12 := hi
  have hsum : (marchTable.take i).sum = (153 * (i : ℤ) + 2) / 5 := by
    interval_cases i <;> rfl
  have hsum' : i < 11 → (marchTable.take (i + 1)).sum = (153 * ((i : ℤ) + 1) + 2) / 5 := by
    intro hi'
    interval_cases i <;> rfl
  refine ⟨_, _, hloop, by omega, by omega, by omega, by omega, fun hj => ?_⟩
  rw [Int.zero_add, ← hsum' (by omega)]
  exact hnext

/-- The day of a year that starts in March, in a cycle of 400 years -/
theorem cycles_spec {days : ℤ} (hpos : 0 ≤ days) (hlt : days < 146097) :
    ∃ c r₁ q r₂ y e, cycleDiv days (365 * 100 + 24) 4 = (c, r₁) ∧
      cycleDiv r₁ (365 * 4 + 1) 25 = (q, r₂) ∧
      cycleDiv r₂ 365 4 = (y, e) ∧ 0 ≤ y + 4 * q + 100 * c ∧ y + 4 * q + 100 * c < 400 ∧
      days = 365 * (y + 4 * q + 100 * c) + (y + 4 * q + 100 * c) / 4 -
        (y + 4 * q + 100 * c) / 100 + e ∧
      0 ≤ e ∧ e < 366 ∧ (e = 365 → Leap (y + 4 * q + 100 * c + 1)) := by
  obtain ⟨c, r₁, hc, hdays, hc0, hc4, hr₁, hcase₁⟩ :=
    cycleDiv_spec (365 * 100 + 24) 4 hpos (by omega) (by omega) (by omega)
  obtain ⟨q, r₂, hq, hdays₁, hq0, hq4, hr₂, hcase₂⟩ :=
    cycleDiv_spec (365 * 4 + 1) 25 hr₁ (by omega) (by omega) (by omega)
  obtain ⟨y, e, hy, hdays₂, hy0, hy4, he, hcase₃⟩ :=
    cycleDiv_spec 365 4 hr₂ (by omega) (by omega) (by omega)
  have hquads : (y + 4 * q + 100 * c) / 4 = q + 25 * c := by clear hcase₁ hcase₂ hcase₃; omega
  have hcenturies : (y + 4 * q + 100 * c) / 100 = c := by clear hcase₁ hcase₂ hcase₃; omega
  refine ⟨c, r₁, q, r₂, y, e, hc, hq, hy, by omega, by omega, ?_, he, by omega, fun hlast => ?_⟩
  · rw [hquads, hcenturies]
    omega
  · -- The last day of a cycle of 4 years, and of 100 years only at the end of the 400
    have hy : y = 3 := by omega
    have hq : q = 24 → c = 3 := by omega
    rw [Leap]
    omega

theorem march_day_le {y j d e : ℤ} (hj : 0 ≤ j) (hj' : j ≤ 11) (he : e = (153 * j + 2) / 5 + d)
    (hnext : j < 11 → e < (153 * (j + 1) + 2) / 5) (hlt : e < 366)
    (hleap : e = 365 → Leap (y + 1)) :
    d + 1 ≤ monthLength (12 * y + j + 2) := by
  by_cases hlast : j = 11
  · have hyear : (12 * y + j + 2) / 12 = y + 1 := by omega
    have hmonth : (12 * y + j + 2) % 12 + 1 = 2 := by omega
    rw [monthLength, hyear, hmonth, daysInMonth, if_pos rfl]
    split_ifs with h
    · omega
    · have : e ≠ 365 := fun he => h (hleap he)
      omega
  · have hsucc := monthStart_succ (12 * y + j + 2)
    have hnext := hnext (by omega)
    have hstart := monthStart_march y (j := j + 1) (by omega) (by omega)
    rw [show 12 * y + (j + 1) + 2 = 12 * y + j + 2 + 1 by omega] at hstart
    rw [monthStart_march y hj hj', hstart] at hsucc
    omega

/-- The year and the month of a month that is counted from March -/
theorem march_fields {Y j : ℤ} (hY : 0 ≤ Y) (hY' : Y < 65535) (hj : 0 ≤ j) (hj' : j ≤ 11) :
    (if j + 2 ≥ 12 then ((Y % 2 ^ 16 + 1) % 2 ^ 16, j + 2 - 12) else (Y % 2 ^ 16, j + 2)) =
      ((12 * Y + j + 2) / 12, (12 * Y + j + 2) % 12) := by
  split_ifs
  · rw [Prod.mk.injEq]
    omega
  · rw [Prod.mk.injEq]
    omega

/-- The start of a year in a cycle of 400 years -/
theorem yearStart_cycle {N : ℤ} (hN : 0 ≤ N) (hN' : N < 400) (k : ℤ) :
    yearStart (2000 + N + 400 * k + 1) = 146097 * k + 365 * N + N / 4 - N / 100 + 366 := by
  rw [yearStart]
  omega

/-- The fields of a date and a time -/
def structTimeOf (d : Date) (n : ℤ) : StructTime where
  tmYear := d.year
  tmMon := d.month
  tmMday := d.day
  tmHour := n % 86400 / 3600
  tmMin := n % 3600 / 60
  tmSec := n % 60
  tmWday := (5 + n / 86400) % 7
  tmYday := d.number - yearStart d.year + 1

/-- The seconds that the code counts, in 32 bits -/
theorem bmod_leapoch {t : ℕ} (ht : t < 2 ^ 32) :
    ((t : ℤ) - 5184000).bmod (2 ^ 32) + 5184000 =
      if t < 2 ^ 31 + (31 + 29) * 86400 then (t : ℤ) else t - 2 ^ 32 := by
  rw [Int.bmod_def]
  split_ifs <;> omega

/-- **The date of a time**, with the seconds that the code counts -/
theorem toStructTime_spec {t n : ℤ} (hn : (t - 5184000).bmod (2 ^ 32) + 5184000 = n) :
    ∃ d : Date, d.number = n / 86400 ∧ toStructTime 32 t = some (structTimeOf d n) := by
  have hlo := Int.le_bmod (x := t - 5184000) (m := 2 ^ 32) (by decide)
  have hhi := Int.bmod_lt (x := t - 5184000) (m := 2 ^ 32) (by decide)
  generalize hs : (t - 5184000).bmod (2 ^ 32) = s at hn hlo hhi
  have hlo : -2147483648 ≤ s := hlo
  have hhi : s < 2147483648 := hhi
  have hcycleDay : 0 ≤ s / 86400 % 146097 := by omega
  obtain ⟨c, r₁, q, r₂, y, e, hc, hq, hy, hN, hN', hdays, he, he', hleap⟩ :=
    cycles_spec hcycleDay (by omega)
  obtain ⟨j, d, hloop, hj, hj', hd, hed, hnext⟩ := marchMonth_spec he he'
  have hk := Int.mul_ediv_add_emod (s / 86400) 146097
  generalize hkeq : s / 86400 / 146097 = k at hk
  generalize hNeq : y + 4 * q + 100 * c = N at hN hN' hdays hleap
  have hyear : 2000 + y + 4 * q + 100 * c + 400 * k = 2000 + N + 400 * k := by omega
  have hstart := yearStart_cycle hN hN' k
  have hday : d + 1 ≤ monthLength (12 * (2000 + N + 400 * k) + j + 2) := by
    refine march_day_le hj hj' hed hnext he' fun hlast => ?_
    have hcycles : 2000 + N + 400 * k + 1 = N + 1 + 400 * (5 + k) := by omega
    rw [hcycles]
    exact (leap_add_cycles _ _).mpr (hleap hlast)
  have hnumber := Date.number_ofMonth (by omega) hday
  rw [monthStart_march _ hj hj', hstart] at hnumber
  generalize hY : 2000 + N + 400 * k = Y at hyear hday hnumber
  refine ⟨Date.ofMonth (12 * Y + j + 2) (d + 1) (by omega) hday, ?_, ?_⟩
  · rw [hnumber]
    omega
  have hfields := march_fields (Y := Y) (by omega) (by omega) hj hj'
  have hmon : ((12 * Y + j + 2) % 12 + 1) % 2 ^ 8 = (12 * Y + j + 2) % 12 + 1 := by omega
  have hmday : (d + 1) % 2 ^ 8 = d + 1 := by omega
  have hyday := timeutilsYearDay_eq 32 ((12 * Y + j + 2) / 12) ((12 * Y + j + 2) % 12 + 1) (d + 1)
    (by omega) (by omega)
  have hs' : (t - (31 + 29) * 86400).bmod (2 ^ 32) = s := hs
  have hdays₀ := divCorrected_eq s (b := 86400) (by omega)
  have hwday := divCorrected_eq (s / 86400 + 2) (b := 7) (by omega)
  have hcycle : divCorrected (s / 86400) (365 * 400 + 97) = (k, s / 86400 % 146097) := by
    rw [divCorrected_eq _ (by omega), ← hkeq]
    rfl
  simp only [toStructTime, hs', hdays₀, hwday, hcycle, hc, hq, hy, hyear, hloop, hfields, hmon,
    hmday, hyday, Option.bind_eq_bind, Option.bind_some]
  have hseconds : 0 ≤ s % 86400 := by omega
  have hminutes : 0 ≤ s % 86400 / 60 := by omega
  rw [Int.tdiv_eq_ediv_of_nonneg hseconds, Int.tdiv_eq_ediv_of_nonneg hseconds,
    Int.tmod_eq_emod_of_nonneg hseconds, Int.tmod_eq_emod_of_nonneg hminutes, structTimeOf,
    Option.some_inj, StructTime.mk.injEq]
  refine ⟨rfl, rfl, rfl, by omega, by omega, by omega, by omega, ?_⟩
  have hbefore := daysBefore_bounds ((12 * Y + j + 2) / 12)
    (m := (12 * Y + j + 2) % 12 + 1) (by omega) (by omega)
  have hlength := monthLength_bounds (12 * Y + j + 2)
  have hyearDay : (Date.ofMonth (12 * Y + j + 2) (d + 1) (by omega) hday).number =
      yearStart ((12 * Y + j + 2) / 12) + daysBefore ((12 * Y + j + 2) / 12)
        ((12 * Y + j + 2) % 12 + 1) + (d + 1) - 1 := Date.number_ofMonth _ hday
  rw [hyearDay, mpUint_eq (by omega) (by omega)]
  simp only [Date.ofMonth]
  omega

/-- **The date, the time, the weekday and the day of the year** that lie a number of seconds after
the start of 2000, which was a Saturday -/
def IsTimeAfter (t : ℕ) (tm : StructTime) : Prop :=
  ∃ (d : Date) (k : ℕ), Date.next^[t / 86400] (Date.newYear 2000) = d ∧
    Date.next^[k] (Date.newYear d.year) = d ∧
    tm = ⟨d.year, d.month, d.day, t % 86400 / 3600, t % 3600 / 60, t % 60, (5 + t / 86400) % 7,
      k + 1⟩

/-- **The times that have the right date**, in 32 bits: the loop over the months stays in its table,
and the way back gives the time again. -/
theorem toStructTime_right_iff (t : BitVec 32) :
    (∃ tm, toStructTime 32 t.toNat = some tm ∧ IsTimeAfter t.toNat tm ∧
      timeutilsSecondsSince2000 32 tm.tmYear tm.tmMon tm.tmMday tm.tmHour tm.tmMin tm.tmSec =
        t.toNat) ↔
      t.toNat < 2 ^ 31 + (31 + 29) * 86400 := by
  have ht : t.toNat < 2 ^ 32 := t.isLt
  generalize t.toNat = t at ht
  obtain ⟨d, hd, htm⟩ := toStructTime_spec (t := t) rfl
  rw [bmod_leapoch ht] at hd htm
  constructor
  · rintro ⟨tm, htm', ⟨d', k, hd', -, rfl⟩, -⟩
    by_contra hlate
    rw [if_neg hlate] at hd htm
    rw [htm, Option.some_inj, structTimeOf, StructTime.mk.injEq] at htm'
    obtain ⟨hyear, hmonth, hday, -⟩ := htm'
    have hsame : d = d' := Date.ext hyear hmonth hday
    rw [Date.next_iterate_iff, Date.number_newYear, ← hsame, hd] at hd'
    have : yearStart 2000 = 0 := rfl
    omega
  · intro hearly
    rw [if_pos hearly] at hd htm
    have hnumber := d.number_eq
    have hbefore := daysBefore_bounds d.year d.month_pos d.month_le
    have hday := d.day_pos
    have hyear : 2000 ≤ d.year := by
      have := d.lt_monthStart_iff (k := 12 * 2000)
      have hstart : monthStart (12 * 2000) = 0 := rfl
      rw [hstart, hd] at this
      have hmonth := d.monthNumber_ediv
      omega
    have hlt : d.year < 2 ^ 32 := by
      rw [yearStart] at hnumber
      omega
    have hsum : 86400 * ((t : ℤ) / 86400) + 3600 * (t % 86400 / 3600) + 60 * (t % 3600 / 60) +
        t % 60 = t := by
      omega
    have hstart : yearStart 2000 = 0 := rfl
    refine ⟨_, htm, ⟨d, (d.number - yearStart d.year).toNat, ?_, ?_, ?_⟩, ?_⟩
    · rw [Date.next_iterate_iff, Date.number_newYear, hstart, hd]
      omega
    · rw [Date.next_iterate_iff, Date.number_newYear]
      omega
    · rw [Int.toNat_of_nonneg (by omega)]
      rfl
    · simp only [structTimeOf]
      rw [timeutilsSecondsSince2000_eq hyear hlt _ _ _ _ _ d.month_pos d.month_le, ← hnumber, hd,
        hsum, mpUint_eq (Int.natCast_nonneg t) (by omega)]

theorem toStructTime_wrong :
    toStructTime 32 2152667648 = some ⟨1932, 2, 11, 20, 45, 52, 3, 42⟩ ∧
      ¬ IsTimeAfter 2152667648 ⟨1932, 2, 11, 20, 45, 52, 3, 42⟩ := by
  refine ⟨by decide +kernel, ?_⟩
  rintro ⟨d, k, hd, -, htm⟩
  rw [Date.next_iterate_iff, Date.number_newYear] at hd
  rw [StructTime.mk.injEq] at htm
  have hyear : d.year = 1932 := htm.1.symm
  have hbefore := daysBefore_bounds d.year d.month_pos d.month_le
  have hday := (daysInMonth_bounds d.year d.month).2
  have hle := d.day_le
  rw [d.number_eq, hyear] at hd
  rw [hyear] at hbefore hday hle
  have hstart : yearStart 1932 = -24837 := rfl
  have hstart' : yearStart 2000 = 0 := rfl
  omega

/-! ### The seconds of any fields -/

variable {w : ℕ}

/-- The month before a month, with an unsigned year -/
theorem month_back {k : ℤ} (hk : 1 ≤ k) (hlt : k < 12 * 2 ^ w) :
    (if k % 12 + 1 - 1 = 0 then (mpUint w (k / 12 - 1), 12) else (k / 12, k % 12 + 1 - 1)) =
      ((k - 1) / 12, (k - 1) % 12 + 1) := by
  split_ifs with h
  · rw [mpUint_eq (by omega) (by omega), Prod.mk.injEq]
    omega
  · rw [Prod.mk.injEq]
    omega

theorem month_forward {k : ℤ} (hk : 0 ≤ k) (hlt : k + 1 < 12 * 2 ^ w) :
    (if k % 12 + 1 + 1 = 13 then (mpUint w (k / 12 + 1), 1) else (k / 12, k % 12 + 1 + 1)) =
      ((k + 1) / 12, (k + 1) % 12 + 1) := by
  split_ifs with h
  · rw [mpUint_eq (by omega) (by omega), Prod.mk.injEq]
    omega
  · rw [Prod.mk.injEq]
    omega

theorem timeutilsDaysInMonth_month (k : ℤ) :
    timeutilsDaysInMonth (k / 12) (k % 12 + 1) = monthLength k :=
  timeutilsDaysInMonth_eq (k / 12) (by omega) (by omega)

/-- **The way back**: the day stays the same, in an earlier month. -/
theorem mktimeBack_spec (fuel : ℕ) {k mday : ℤ} (hk : 0 ≤ k) (hk' : k < 12 * 2 ^ w)
    (hn : 0 ≤ monthStart k + mday - 1) (hfuel : (1 - mday).toNat < fuel) :
    ∃ k' mday', mktimeBack w fuel (k / 12) (k % 12 + 1) mday = some (k' / 12, k' % 12 + 1, mday') ∧
      monthStart k' + mday' = monthStart k + mday ∧ 1 ≤ mday' ∧ mday' ≤ max mday 31 ∧
      0 ≤ k' ∧ k' < 12 * 2 ^ w := by
  induction fuel generalizing k mday with
  | zero => exact absurd hfuel (Nat.not_lt_zero _)
  | succ fuel ih =>
    rw [mktimeBack]
    by_cases hmday : mday < 1
    · have hstart : monthStart (12 * 2000) < monthStart k := by
        rw [monthStart_year]
        have : yearStart 2000 = 0 := rfl
        omega
      have hback := monthStart_lt_iff.mp hstart
      have hsucc := monthStart_succ (k - 1)
      rw [Int.sub_add_cancel] at hsucc
      have hlength := monthLength_bounds (k - 1)
      rw [if_pos hmday, month_back (by omega) hk']
      dsimp only
      rw [timeutilsDaysInMonth_month]
      have hprev : 0 ≤ k - 1 := by omega
      have hday : 0 ≤ monthStart (k - 1) + (mday + monthLength (k - 1)) - 1 := by omega
      obtain ⟨k', mday', hloop, hsum, hpos, hle, hk₀, hk₁⟩ :=
        ih hprev (by omega) hday (by omega)
      exact ⟨k', mday', hloop, by omega, hpos, by omega, hk₀, hk₁⟩
    · rw [if_neg hmday]
      exact ⟨k, mday, rfl, rfl, by omega, le_max_left _ _, hk, hk'⟩

/-- **The way forward**, to the month of the day -/
theorem mktimeForward_spec (fuel : ℕ) {k mday : ℤ} (hk : 0 ≤ k) (hk' : k < 12 * 2 ^ w)
    (hpos : 1 ≤ mday) (hlt : mday < 2 ^ w) (hn : monthStart k + mday - 1 < yearStart (2 ^ w))
    (hfuel : mday.toNat < fuel) :
    ∃ k' mday',
      mktimeForward w fuel (k / 12) (k % 12 + 1) mday = some (k' / 12, k' % 12 + 1, mday') ∧
      monthStart k' + mday' = monthStart k + mday ∧ 1 ≤ mday' ∧ mday' ≤ monthLength k' ∧
      k' < 12 * 2 ^ w := by
  induction fuel generalizing k mday with
  | zero => exact absurd hfuel (Nat.not_lt_zero _)
  | succ fuel ih =>
    rw [mktimeForward, timeutilsDaysInMonth_month, mpUint_eq (by omega) hlt]
    by_cases hmday : mday > monthLength k
    · have hsucc := monthStart_succ k
      have hlength := monthLength_bounds k
      have hstart : monthStart (k + 1) < monthStart (12 * 2 ^ w) := by
        rw [monthStart_year]
        omega
      have hforward := monthStart_lt_iff.mp hstart
      rw [if_pos hmday, month_forward hk hforward]
      dsimp only
      have hday : 1 ≤ mday - monthLength k := by omega
      obtain ⟨k', mday', hloop, hsum, hpos', hle, hk₁⟩ :=
        ih (by omega) hforward hday (by omega) (by omega) (by omega)
      exact ⟨k', mday', hloop, by omega, hpos', hle, hk₁⟩
    · rw [if_neg hmday]
      exact ⟨k, mday, rfl, rfl, hpos, by omega, hk'⟩

/-- The seconds from the start of 2000 to the time with some fields, in or out of their ranges -/
def mktimeTotal (year month mday hours minutes seconds : ℤ) : ℤ :=
  86400 * (monthStart (12 * year + month - 1) + mday - 1) + 3600 * hours + 60 * minutes + seconds

/-- A value of an `mp_int_t` -/
def FitsInt (w : ℕ) (x : ℤ) : Prop := -2 ^ (w - 1) ≤ x ∧ x < 2 ^ (w - 1)

instance (w : ℕ) (x : ℤ) : Decidable (FitsInt w x) := inferInstanceAs (Decidable (_ ∧ _))

/-- The signed fields do not overflow when they are carried. -/
def MktimeFits (w : ℕ) (month mday hours minutes seconds : ℤ) : Prop :=
  FitsInt w (month - 1) ∧ FitsInt w (minutes + seconds / 60) ∧
    FitsInt w (hours + (minutes + seconds / 60) / 60) ∧
    FitsInt w (mday + (hours + (minutes + seconds / 60) / 60) / 24)

instance (w : ℕ) (month mday hours minutes seconds : ℤ) :
    Decidable (MktimeFits w month mday hours minutes seconds) := inferInstanceAs (Decidable (_ ∧ _))

/-- The fields for which the year does not leave the range of an `mp_uint_t`, from the carried month
to the date, and the date is not before 2000 -/
structure MktimeDomain (w : ℕ) (year month mday hours minutes seconds : ℤ) : Prop where
  year_pos : 0 ≤ year
  year_lt : year < 2 ^ w
  fits : MktimeFits w month mday hours minutes seconds
  carried_pos : 0 ≤ year + (month - 1) / 12
  carried_lt : year + (month - 1) / 12 < 2 ^ w
  total_pos : 0 ≤ mktimeTotal year month mday hours minutes seconds
  total_lt : mktimeTotal year month mday hours minutes seconds / 86400 < yearStart (2 ^ w)

/-- The carries between the fields keep the time. -/
theorem mktimeTotal_carry (year month mday hours minutes seconds : ℤ) :
    mktimeTotal year month mday hours minutes seconds =
      86400 * (monthStart (12 * year + month - 1) +
          (mday + (hours + (minutes + seconds / 60) / 60) / 24) - 1) +
        3600 * ((hours + (minutes + seconds / 60) / 60) % 24) +
        60 * ((minutes + seconds / 60) % 60) + seconds % 60 := by
  rw [mktimeTotal]
  omega

theorem timeutilsMktime_eq {year month mday hours minutes seconds : ℤ}
    (h : MktimeDomain w year month mday hours minutes seconds) :
    ∃ n, ∀ fuel ≥ n, timeutilsMktime w fuel year month mday hours minutes seconds =
      some (mpUint w (mktimeTotal year month mday hours minutes seconds)) := by
  obtain ⟨-, -, hfits, hcarried, hcarried', htotal, htotal'⟩ := h
  have hmday := hfits.2.2.2.2
  rw [mktimeTotal_carry] at htotal htotal' ⊢
  have hminutes := divCorrected_eq seconds (b := 60) (by omega)
  have hhours := divCorrected_eq (minutes + seconds / 60) (b := 60) (by omega)
  have hdays := divCorrected_eq (hours + (minutes + seconds / 60) / 60) (b := 24) (by omega)
  have hmonths := divCorrected_eq (month - 1) (b := 12) (by omega)
  have hpow : (2 : ℤ) ^ (w - 1) ≤ 2 ^ w := by
    exact_mod_cast Nat.pow_le_pow_right (by omega) (Nat.sub_le w 1)
  generalize hm : minutes + seconds / 60 = minutes' at *
  generalize hh : hours + minutes' / 60 = hours' at *
  generalize hd : mday + hours' / 24 = mday' at *
  have hk : (12 * year + month - 1) / 12 = year + (month - 1) / 12 := by omega
  have hk' : (12 * year + month - 1) % 12 = (month - 1) % 12 := by omega
  have hyear : mpUint w (year + (month - 1) / 12) = (12 * year + month - 1) / 12 := by
    rw [mpUint_eq hcarried hcarried', hk]
  refine ⟨(1 - mday').toNat + (max mday' 31).toNat + 1, fun fuel hfuel => ?_⟩
  have hyears : (2000 : ℤ) < 2 ^ w := by
    have hpos : 0 < yearStart (2 ^ w) := by omega
    rw [yearStart] at hpos
    omega
  have hday : 0 ≤ monthStart (12 * year + month - 1) + mday' - 1 := by omega
  obtain ⟨k₁, mday₁, hback, hsum₁, hpos₁, hle₁, hk₁, hk₁'⟩ := mktimeBack_spec (w := w) fuel
    (by omega) (by omega) hday (by omega)
  obtain ⟨k₂, mday₂, hforward, hsum₂, hpos₂, hle₂, hk₂⟩ :=
    mktimeForward_spec (w := w) fuel hk₁ hk₁' hpos₁ (by omega) (by omega) (by omega)
  have hyear₂ : 2000 ≤ k₂ / 12 := by
    have hstart : monthStart (12 * 2000) = 0 := rfl
    have hbefore : monthStart k₂ + mday₂ - 1 < monthStart (12 * 2000) ↔ k₂ < 12 * 2000 :=
      lt_monthStart_iff hpos₂ hle₂
    omega
  have hseconds := timeutilsSecondsSince2000_eq (w := w)
    hyear₂ (by omega) (k₂ % 12 + 1) mday₂ (hours' % 24)
    (minutes' % 60) (seconds % 60) (by omega) (by omega)
  have hstart : yearStart (k₂ / 12) + daysBefore (k₂ / 12) (k₂ % 12 + 1) = monthStart k₂ := rfl
  rw [hstart, hsum₂, hsum₁] at hseconds
  simp only [timeutilsMktime, hminutes, hm, hhours, hh, hdays, hd, hmonths, hyear, ← hk', hback,
    hforward, hseconds, Option.bind_eq_bind, Option.bind_some]

/-- **The seconds of a date with any fields**, and what adding to the fields does -/
theorem timeutilsMktime_right {year month mday hours minutes seconds : ℤ}
    (h : MktimeDomain w year month mday hours minutes seconds) :
    (∃ n, ∀ fuel ≥ n, timeutilsMktime w fuel year month mday hours minutes seconds =
      some (mpUint w (mktimeTotal year month mday hours minutes seconds))) ∧
      ∀ mday' hours' minutes' seconds' : ℤ,
        MktimeDomain w year month (mday + mday') (hours + hours') (minutes + minutes')
          (seconds + seconds') →
        ∃ n, ∀ fuel ≥ n, ∃ t, timeutilsMktime w fuel year month mday hours minutes seconds =
          some t ∧
          timeutilsMktime w fuel year month (mday + mday') (hours + hours') (minutes + minutes')
            (seconds + seconds') =
            some (mpUint w (t + 86400 * mday' + 3600 * hours' + 60 * minutes' + seconds')) := by
  obtain ⟨n, hn⟩ := timeutilsMktime_eq h
  refine ⟨⟨n, hn⟩, fun mday' hours' minutes' seconds' h' => ?_⟩
  obtain ⟨n', hn'⟩ := timeutilsMktime_eq h'
  refine ⟨max n n', fun fuel hfuel => ⟨_, hn fuel (le_trans (le_max_left _ _) hfuel), ?_⟩⟩
  rw [hn' fuel (le_trans (le_max_right _ _) hfuel), mpUint, mpUint, mpUint, Int.add_assoc,
    Int.add_assoc, Int.add_assoc, Int.emod_add_emod, mktimeTotal, mktimeTotal]
  congr 2
  omega

theorem timeutilsMktime_right_february :
    ∃ n, ∀ fuel ≥ n, timeutilsMktime 32 fuel 1999 14 (-1) 47 (-60) 3600 = some 2674800 := by
  have hdomain : MktimeDomain 32 1999 14 (-1) 47 (-60) 3600 := by constructor <;> decide +kernel
  have htotal : mpUint 32 (mktimeTotal 1999 14 (-1) 47 (-60) 3600) = 2674800 := by decide +kernel
  rw [← htotal]
  exact (timeutilsMktime_right hdomain).1

/-- The year 4294967300 is taken for the year 4, which is a leap year. -/
theorem timeutilsMktime_wrong :
    MktimeFits 32 61 367 0 0 0 ∧ 0 ≤ mktimeTotal 4294967295 61 367 0 0 0 ∧
      timeutilsMktime 32 20 4294967295 61 367 0 0 0 = some 1468434048 ∧
      mpUint 32 (mktimeTotal 4294967295 61 367 0 0 0) = 1468520448 := by
  decide +kernel

end Pycopy
