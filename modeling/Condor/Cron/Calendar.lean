import Mathlib.Data.Int.Order.Basic
import Mathlib.Tactic.IntervalCases

/-!
# Dates

The day of the week is computed by a closed formula, of a year that begins in March.

* **`dayOfWeek_next`**.
-/

namespace Condor.Calendar

def isLeap (year : ℤ) : Bool := year.tmod 4 = 0 && year.tmod 100 ≠ 0 || year.tmod 400 = 0

def daysInMonth (month year : ℤ) : ℤ :=
  if 0 < month ∧ month ≤ 12 then
    [0, 31, 28, 31, 30, 31, 30, 31, 31, 30, 31, 30, 31].getD month.toNat 0 +
      if month = 2 ∧ isLeap year then 1 else 0
  else 0

/-- `dayOfWeek`. The quotients are integers, and `rint` keeps them. -/
def dayOfWeek (month day year : ℤ) : ℤ :=
  let m := if month < 3 then month + 12 else month
  let y := if month < 3 then year - 1 else year
  (day + 1 + 2 * m + (6 * (m + 1)).tdiv 10 + y + y.tdiv 4 - y.tdiv 100 + y.tdiv 400).tmod 7

/-- A date from 1 January of the year 1 on. -/
structure Date where
  month : ℤ
  day : ℤ
  year : ℤ
  month_mem : 1 ≤ month ∧ month ≤ 12
  day_mem : 1 ≤ day ∧ day ≤ daysInMonth month year
  year_pos : 1 ≤ year

theorem one_le_daysInMonth {month : ℤ} (h : 1 ≤ month ∧ month ≤ 12) (year : ℤ) :
    1 ≤ daysInMonth month year := by
  obtain ⟨h1, h2⟩ := h
  unfold daysInMonth
  interval_cases month <;> simp
  split_ifs <;> decide

/-- The following day. -/
def Date.next (d : Date) : Date :=
  if h : d.day < daysInMonth d.month d.year then
    ⟨d.month, d.day + 1, d.year, d.month_mem, by have := d.day_mem; omega, d.year_pos⟩
  else if h : d.month < 12 then
    have hm : 1 ≤ d.month + 1 ∧ d.month + 1 ≤ 12 := by have := d.month_mem; omega
    ⟨d.month + 1, 1, d.year, hm, ⟨le_rfl, one_le_daysInMonth hm _⟩, d.year_pos⟩
  else ⟨1, 1, d.year + 1, by decide,
    ⟨le_rfl, one_le_daysInMonth (by decide) _⟩, by have := d.year_pos; omega⟩

def Date.dayOfWeek (d : Date) : ℤ := Calendar.dayOfWeek d.month d.day d.year

/-- A leap year has one day more. -/
theorem leapDays_succ {year : ℤ} (hy : 1 ≤ year) : year / 4 - year / 100 + year / 400 =
    (year - 1) / 4 - (year - 1) / 100 + (year - 1) / 400 + if isLeap year then 1 else 0 := by
  have hmod (b : ℤ) : year.tmod b = year % b := Int.tmod_eq_emod_of_nonneg (by omega)
  simp only [isLeap, hmod, Bool.or_eq_true, Bool.and_eq_true, decide_eq_true_eq]
  split_ifs <;> omega

/-- After the year 0 the truncated quotients are floors. -/
theorem dayOfWeek_eq {month day year : ℤ} (hm : 1 ≤ month) (hd : 1 ≤ day) (hy : 1 ≤ year) :
    dayOfWeek month day year =
      let m := if month < 3 then month + 12 else month
      let y := if month < 3 then year - 1 else year
      (day + 1 + 2 * m + 6 * (m + 1) / 10 + y + y / 4 - y / 100 + y / 400) % 7 := by
  have hfloor (a b : ℤ) (ha : 0 ≤ a) : a.tdiv b = a / b := Int.tdiv_eq_ediv_of_nonneg ha
  dsimp only [dayOfWeek]
  split_ifs <;>
    rw [hfloor _ 10 (by omega), hfloor _ 4 (by omega), hfloor _ 100 (by omega),
      hfloor _ 400 (by omega), Int.tmod_eq_emod_of_nonneg (by omega)]

theorem dayOfWeek_month {month year : ℤ} (hm : 1 ≤ month ∧ month < 12) (hy : 1 ≤ year) :
    dayOfWeek (month + 1) 1 year = (dayOfWeek month (daysInMonth month year) year + 1) % 7 := by
  obtain ⟨hm1, hm2⟩ := hm
  rw [dayOfWeek_eq (by omega) le_rfl hy,
    dayOfWeek_eq hm1 (one_le_daysInMonth ⟨hm1, hm2.le⟩ year) hy]
  have hleap := leapDays_succ hy
  simp only [daysInMonth]
  interval_cases month <;> simp <;> omega

/-- **The day of the week** of the following day is the following one. -/
theorem dayOfWeek_next : (∀ d : Date, d.next.dayOfWeek = (d.dayOfWeek + 1) % 7) ∧
    dayOfWeek 1 1 1970 = 4 := by
  refine ⟨fun d => ?_, by decide⟩
  obtain ⟨month, day, year, hm, ⟨hd1, hd2⟩, hy⟩ := d
  unfold Date.next
  dsimp only
  split_ifs with hday hmonth
  · simp only [Date.dayOfWeek]
    rw [dayOfWeek_eq hm.1 (by omega) hy, dayOfWeek_eq hm.1 hd1 hy]
    dsimp only
    omega
  · obtain rfl : day = daysInMonth month year := by omega
    exact dayOfWeek_month ⟨hm.1, hmonth⟩ hy
  · obtain rfl : month = 12 := by omega
    obtain rfl : day = 31 := by simp [daysInMonth] at hday hd2; omega
    simp only [Date.dayOfWeek]
    rw [dayOfWeek_eq le_rfl le_rfl (by omega), dayOfWeek_eq hm.1 hd1 hy]
    simp
    omega

end Condor.Calendar
