import Mathlib.Algebra.BigOperators.Intervals
import Mathlib.Algebra.Order.BigOperators.Group.Finset
import Mathlib.Data.UInt
import Xv6.Framework.Words

namespace Xv6.Sysutil

open Xv6.Framework

/-- struct rtcdate. The year and the month are counted up from 1970 and 0, the seconds are a
remainder; only the day could be negative. -/
structure Rtcdate where
  year : Nat
  month : Nat
  day : Int
  hour : Nat
  minute : Nat
  second : Nat
  deriving DecidableEq

def leap (year : Nat) : Bool := year % 4 == 0 && (year % 100 != 0 || year % 400 == 0)

def daysInYear (year : Nat) : Nat := if leap year then 366 else 365

def daysInMonth (leap : Bool) : List Nat :=
  [31, if leap then 29 else 28, 31, 30, 31, 30, 31, 31, 30, 31, 30, 31]

def yearLoop (year : Nat) (days : Int) : Nat × Int :=
  if daysInYear year ≤ days then yearLoop (year + 1) (days - daysInYear year) else (year, days)
termination_by days.toNat
decreasing_by
  unfold daysInYear at *
  split_ifs at * <;> omega

/-- The loop that finds the month, from the entries of days_in_month still ahead. It has no result
if it reads past them. -/
def monthLoop : List Nat → Nat → Int → Option (Nat × Int)
  | [], _, _ => none
  | n :: ahead, month, days =>
    if n ≤ days then monthLoop ahead (month + 1) (days - n) else some (month, days)

def convertUnixTimeToRtcdate (unixTime : UInt64) : Option Rtcdate :=
  let days := (unixTime / 86400).toUInt32.toInt32.toInt
  let secsRemaining := unixTime.toNat % 86400
  let (year, days) := yearLoop 1970 days
  (monthLoop (daysInMonth (leap year)) 0 days).map fun (month, days) =>
    { year := year
      month := month + 1
      day := days + 1
      hour := secsRemaining / 3600
      minute := secsRemaining % 3600 / 60
      second := secsRemaining % 3600 % 60 }

/-! ### The proleptic Gregorian calendar -/

def LeapYear (year : Nat) : Prop := 4 ∣ year ∧ (100 ∣ year → 400 ∣ year)

instance (year : Nat) : Decidable (LeapYear year) := inferInstanceAs (Decidable (_ ∧ _))

def monthLength (year month : Nat) : Nat :=
  if month = 2 then if LeapYear year then 29 else 28
  else if month ∈ [4, 6, 9, 11] then 30 else 31

/-- The days of a year before a month. -/
def monthStart (year month : Nat) : Nat := ∑ m ∈ Finset.Ico 1 month, monthLength year m

/-- The days from 1970-01-01 to the first day of a year. -/
def yearStart (year : Nat) : Nat := ∑ y ∈ Finset.Ico 1970 year, monthStart y 13

namespace Rtcdate

structure Valid (r : Rtcdate) : Prop where
  month : 1 ≤ r.month ∧ r.month ≤ 12
  day : 1 ≤ r.day ∧ r.day ≤ monthLength r.year r.month
  hour : r.hour < 24
  minute : r.minute < 60
  second : r.second < 60

def seconds (r : Rtcdate) : Int :=
  (yearStart r.year + monthStart r.year r.month + (r.day - 1)) * 86400 + r.hour * 3600 +
    r.minute * 60 + r.second

/-- The order of dates, by year first. -/
def Before (r s : Rtcdate) : Prop :=
  r.year < s.year ∨ r.year = s.year ∧ (r.month < s.month ∨ r.month = s.month ∧
    (r.day < s.day ∨ r.day = s.day ∧ (r.hour < s.hour ∨ r.hour = s.hour ∧
      (r.minute < s.minute ∨ r.minute = s.minute ∧ r.second < s.second))))

end Rtcdate

theorem leap_iff (year : Nat) : leap year = true ↔ LeapYear year := by
  simp only [leap, LeapYear, Bool.and_eq_true, Bool.or_eq_true, beq_iff_eq, bne_iff_ne]
  omega

theorem daysInMonth_eq (year : Nat) :
    daysInMonth (leap year) = (List.range' 1 12).map (monthLength year) := by
  by_cases h : LeapYear year
  · simp [daysInMonth, (leap_iff year).mpr h, List.range', monthLength, h]
  · simp [daysInMonth, mt (leap_iff year).mp h, List.range', monthLength, h]

theorem monthStart_succ {month : Nat} (year : Nat) (h : 1 ≤ month) :
    monthStart year (month + 1) = monthStart year month + monthLength year month :=
  Finset.sum_Ico_succ_top h _

theorem monthStart_mono {m n : Nat} (year : Nat) (h : m ≤ n) :
    monthStart year m ≤ monthStart year n :=
  Finset.sum_le_sum_of_subset (Finset.Ico_subset_Ico_right h)

/-- A year is as long as its months. -/
theorem monthStart_end (year : Nat) : monthStart year 13 = daysInYear year := by
  by_cases h : LeapYear year
  · simp [monthStart, daysInYear, (leap_iff year).mpr h, Finset.sum_Ico_succ_top, monthLength, h]
  · simp [monthStart, daysInYear, mt (leap_iff year).mp h, Finset.sum_Ico_succ_top, monthLength, h]

theorem yearStart_succ {year : Nat} (h : 1970 ≤ year) :
    yearStart (year + 1) = yearStart year + daysInYear year := by
  rw [yearStart, Finset.sum_Ico_succ_top h, monthStart_end]
  rfl

theorem yearStart_mono {y z : Nat} (h : y ≤ z) : yearStart y ≤ yearStart z :=
  Finset.sum_le_sum_of_subset (Finset.Ico_subset_Ico_right h)

/-- What the year loop keeps is the day it stands for. -/
theorem yearLoop_spec (year : Nat) (days : Int) (hy : 1970 ≤ year) (hd : 0 ≤ days) :
    1970 ≤ (yearLoop year days).1 ∧ 0 ≤ (yearLoop year days).2 ∧
      (yearLoop year days).2 < daysInYear (yearLoop year days).1 ∧
      yearStart (yearLoop year days).1 + (yearLoop year days).2 = yearStart year + days ∧
      365 * (yearLoop year days).1 ≤ 365 * year + days := by
  fun_induction yearLoop year days with
  | case1 year days h ih =>
    have hlen : 365 ≤ daysInYear year := by
      unfold daysInYear
      split <;> omega
    have hnext := yearStart_succ hy
    omega
  | case2 year days h =>
    dsimp only
    omega

/-- So does the month loop, within the year. -/
theorem monthLoop_spec (year n : Nat) :
    ∀ (month : Nat) (days : Int), 0 ≤ days →
      monthStart year (month + 1) + days < monthStart year (month + 1 + n) →
      ∃ m d, monthLoop ((List.range' (month + 1) n).map (monthLength year)) month days =
          some (m, d) ∧ m < month + n ∧ 0 ≤ d ∧ d < monthLength year (m + 1) ∧
        monthStart year (m + 1) + d = monthStart year (month + 1) + days := by
  induction n with
  | zero =>
    intro month days hd h
    simp only [Nat.add_zero] at h
    omega
  | succ n ih =>
    intro month days hd h
    have hnext := monthStart_succ year (Nat.le_add_left 1 month)
    rw [List.range'_succ, List.map_cons, monthLoop]
    split
    · obtain ⟨m, d, hm, hlt, hd0, hdm, hsum⟩ := ih (month + 1) (days - monthLength year (month + 1))
        (by omega) (by rw [show month + 1 + 1 + n = month + 1 + (n + 1) by omega]; omega)
      exact ⟨m, d, hm, by omega, hd0, hdm, by omega⟩
    · exact ⟨month, days, rfl, by omega, hd, by omega, rfl⟩

theorem toInt_days {unixTime : UInt64} (h : unixTime.toNat < 86400 * 2 ^ 31) :
    (unixTime / 86400).toUInt32.toInt32.toInt = (unixTime.toNat / 86400 : Nat) := by
  have hnat : (unixTime / 86400).toUInt32.toNat = unixTime.toNat / 86400 := by
    refine Nat.mod_eq_of_lt (Nat.div_lt_of_lt_mul (h.trans_le ?_))
    decide
  rw [Words.toInt_toInt32, hnat]
  rw [hnat]
  exact Nat.div_lt_of_lt_mul h

theorem convert_spec {unixTime : UInt64} (h : unixTime.toNat < 86400 * 2 ^ 31) :
    ∃ r, convertUnixTimeToRtcdate unixTime = some r ∧ r.year < 2 ^ 31 ∧ r.Valid ∧
      1970 ≤ r.year ∧ r.seconds = unixTime.toNat := by
  rw [convertUnixTimeToRtcdate, toInt_days h]
  obtain ⟨hy, hd, hlen, hsum, hbound⟩ :=
    yearLoop_spec 1970 (unixTime.toNat / 86400 : Nat) le_rfl (by omega)
  generalize yearLoop 1970 (unixTime.toNat / 86400 : Nat) = yd at hy hd hlen hsum hbound ⊢
  obtain ⟨year, days⟩ := yd
  dsimp only at hy hd hlen hsum hbound ⊢
  have hzero : yearStart 1970 = 0 := rfl
  have hone : monthStart year (0 + 1) = 0 := rfl
  have hend : monthStart year (0 + 1 + 12) = daysInYear year := monthStart_end year
  obtain ⟨m, d, hm, hm12, hd0, hdm, hday⟩ := monthLoop_spec year 12 0 days hd (by omega)
  rw [daysInMonth_eq, hm]
  refine ⟨_, rfl, by dsimp only; omega, ⟨?_, ?_, ?_, ?_, ?_⟩, hy, ?_⟩
  all_goals dsimp only [Rtcdate.seconds]
  all_goals omega

/-- The day of a date is in its month, and the month in its year. -/
theorem Rtcdate.Valid.inside {r : Rtcdate} (h : r.Valid) :
    monthStart r.year r.month + r.day ≤ monthStart r.year (r.month + 1) ∧
      monthStart r.year (r.month + 1) ≤ daysInYear r.year := by
  have hm := h.month
  have hd := h.day
  have hnext := monthStart_succ r.year hm.1
  refine ⟨by omega, ?_⟩
  rw [← monthStart_end]
  exact monthStart_mono _ (by omega)

theorem Rtcdate.Valid.time {r : Rtcdate} (h : r.Valid) :
    r.hour * 3600 + r.minute * 60 + r.second < 86400 := by
  have := h.hour
  have := h.minute
  have := h.second
  omega

theorem Rtcdate.Valid.year_lt {r s : Rtcdate} (hr : r.Valid) (hs : s.Valid)
    (hy : 1970 ≤ r.year) (h : r.year < s.year) : r.seconds < s.seconds := by
  have hin := hr.inside
  have hnext := yearStart_succ hy
  have hmono := yearStart_mono (show r.year + 1 ≤ s.year from h)
  have hday := hs.day
  have htime := hr.time
  unfold seconds
  omega

theorem Rtcdate.Valid.month_lt {r s : Rtcdate} (hr : r.Valid) (hs : s.Valid)
    (hy : r.year = s.year) (h : r.month < s.month) : r.seconds < s.seconds := by
  have hin := hr.inside
  have hmono := monthStart_mono r.year (show r.month + 1 ≤ s.month from h)
  have hday := hs.day
  have htime := hr.time
  unfold seconds
  rw [← hy]
  omega

theorem Rtcdate.Valid.before {r s : Rtcdate} (hr : r.Valid) (hs : s.Valid)
    (hy : 1970 ≤ s.year) (h : r.seconds < s.seconds) : r.Before s := by
  rcases lt_trichotomy r.year s.year with hlt | heq | hgt
  · exact .inl hlt
  · refine .inr ⟨heq, ?_⟩
    rcases lt_trichotomy r.month s.month with hlt | hm | hgt
    · exact .inl hlt
    · refine .inr ⟨hm, ?_⟩
      have := hs.hour
      have := hs.minute
      have := hs.second
      unfold seconds at h
      rw [heq, hm] at h
      omega
    · exact absurd (hs.month_lt hr heq.symm hgt) h.not_gt
  · exact absurd (hs.year_lt hr hy hgt) h.not_gt

/-- The conversion is exact and strictly increasing. -/
theorem convert_unix_time_exact (unixTime : UInt64) (h : unixTime.toNat < 86400 * 2 ^ 31) :
    ∃ r, convertUnixTimeToRtcdate unixTime = some r ∧ r.year < 2 ^ 31 ∧ r.Valid ∧
      r.seconds = unixTime.toNat ∧
      ∀ earlier < unixTime, ∃ r₀, convertUnixTimeToRtcdate earlier = some r₀ ∧ r₀.Before r := by
  obtain ⟨r, hr, hyear, hv, hy, hs⟩ := convert_spec h
  refine ⟨r, hr, hyear, hv, hs, fun earlier hlt => ?_⟩
  have hlt : earlier.toNat < unixTime.toNat := hlt
  obtain ⟨r₀, hr₀, -, hv₀, -, hs₀⟩ := convert_spec (hlt.trans h)
  exact ⟨r₀, hr₀, hv₀.before hv hy (by omega)⟩

theorem convert_unix_time_leap_day :
    ∃ r, convertUnixTimeToRtcdate 951782400 = some r ∧ r.Valid ∧ r.seconds = 951782400 := by
  obtain ⟨r, hr, -, hv, hs, -⟩ := convert_unix_time_exact 951782400 (by decide)
  exact ⟨r, hr, hv, hs⟩

end Xv6.Sysutil
