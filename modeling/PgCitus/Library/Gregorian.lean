import PgCitus.Library.Periods

/-!
# The Gregorian calendar

Days are numbered through, in both directions; day 0 is the first of January of the year
0, which is 1 BC. Months are numbered through as well: month `12 * y + m` is the one with
number `m`, counted from zero, of the year `y`. Where years and months start is written
down, and which year and month a day is in is found from that (`year_gc`, `month_gc`).

Weeks are those of ISO 8601: they start on Mondays, and belong to the year that their
Thursday is in, of which they are numbered through. A year and a number of a week give
the week back (`week_eq_iff`).
-/

namespace Gregorian

open Periods

/-! ## Years -/

/-- **Leap years.** -/
def IsLeap (y : ℤ) : Prop := y % 4 = 0 ∧ (y % 100 ≠ 0 ∨ y % 400 = 0)

instance : DecidablePred IsLeap := fun y =>
  inferInstanceAs (Decidable (y % 4 = 0 ∧ (y % 100 ≠ 0 ∨ y % 400 = 0)))

/-- The leap day of a year. -/
def leapDay (y : ℤ) : ℤ := if IsLeap y then 1 else 0

/-- **The first day of a year**: there are as many leap days before it as there are leap
years. -/
def yearStart (y : ℤ) : ℤ := 365 * y + (y + 3) / 4 - (y + 99) / 100 + (y + 399) / 400

theorem yearStart_succ (y : ℤ) : yearStart (y + 1) = yearStart y + 365 + leapDay y := by
  unfold yearStart leapDay
  by_cases hleap : IsLeap y
  · rw [if_pos hleap]
    unfold IsLeap at hleap
    omega
  · rw [if_neg hleap]
    unfold IsLeap at hleap
    omega

/-- On average a year has 146097 / 400 days. -/
theorem yearStart_mem (y : ℤ) :
    146097 * y - 396 ≤ 400 * yearStart y ∧ 400 * yearStart y ≤ 146097 * y + 699 := by
  unfold yearStart
  omega

theorem leapDay_mem (y : ℤ) : 0 ≤ leapDay y ∧ leapDay y ≤ 1 := by
  unfold leapDay
  split <;> decide

theorem yearStart_mono : Monotone yearStart := by
  refine monotone_int_of_le_succ fun y => ?_
  have hleap := leapDay_mem y
  rw [yearStart_succ]
  omega

/-- The year of a day: 400 years have 146097 days, and an estimate from that is out by one
at most. -/
def year (d : ℤ) : ℤ :=
  let y := 400 * d / 146097
  if d < yearStart y then y - 1 else if d < yearStart (y + 1) then y else y + 1

theorem year_gc : GaloisConnection yearStart year := by
  refine gc_of_mem yearStart_mono fun d => ?_
  unfold year
  dsimp only
  generalize hy : 400 * d / 146097 = y
  have hbefore := yearStart_mem (y - 1)
  have hafter := yearStart_mem (y + 1 + 1)
  split_ifs with hlt hge
  · rw [Int.sub_add_cancel]
    exact ⟨by omega, hlt⟩
  · exact ⟨Int.le_of_not_gt hlt, hge⟩
  · exact ⟨Int.le_of_not_gt hge, by omega⟩

/-- The day of the year, counted from zero. -/
theorem dayOfYear_mem (d : ℤ) :
    0 ≤ d - yearStart (year d) ∧ d - yearStart (year d) < 365 + leapDay (year d) := by
  obtain ⟨hle, hlt⟩ := (index_eq_iff year_gc).mp (rfl : year d = year d)
  rw [yearStart_succ] at hlt
  omega

/-! ## Months -/

/-- The days of a year before its month `m`, counted from zero. From March on, they are
those of five months that have 153 days together, over and over. -/
def daysBefore (leap m : ℤ) : ℤ :=
  if m < 2 then 31 * m else 59 + leap + (153 * (m - 2) + 2) / 5

/-- **The first day of a month.** -/
def monthStart (k : ℤ) : ℤ := yearStart (k / 12) + daysBefore (leapDay (k / 12)) (k % 12)

/-- The twelfth month is followed by the next year. -/
theorem monthStart_eq (y : ℤ) {m : ℤ} (h0 : 0 ≤ m) (hm : m ≤ 12) :
    monthStart (12 * y + m) = yearStart y + daysBefore (leapDay y) m := by
  unfold monthStart
  by_cases hlast : m = 12
  · rw [show (12 * y + m) / 12 = y + 1 by omega, show (12 * y + m) % 12 = 0 by omega, hlast,
      yearStart_succ]
    unfold daysBefore
    rw [if_pos (by decide), if_neg (by decide)]
    omega
  · rw [show (12 * y + m) / 12 = y by omega, show (12 * y + m) % 12 = m by omega]

/-- A year starts with its first month. -/
theorem monthStart_january (y : ℤ) : monthStart (12 * y) = yearStart y := by
  have hzero := monthStart_eq y (m := 0) le_rfl (by decide)
  rw [Int.add_zero] at hzero
  rw [hzero]
  exact Int.add_zero (yearStart y)

/-- Months have between 28 and 31 days. -/
theorem monthStart_succ (k : ℤ) :
    monthStart k + 28 ≤ monthStart (k + 1) ∧ monthStart (k + 1) ≤ monthStart k + 31 := by
  obtain ⟨y, m, h0, hm, rfl⟩ : ∃ y m : ℤ, 0 ≤ m ∧ m < 12 ∧ k = 12 * y + m :=
    ⟨k / 12, k % 12, by omega, by omega, by omega⟩
  have hleap := leapDay_mem y
  rw [Int.add_assoc, monthStart_eq y h0 hm.le, monthStart_eq y (by omega) (by omega)]
  unfold daysBefore
  split_ifs <;> omega

theorem monthStart_mono : Monotone monthStart :=
  monotone_int_of_le_succ fun k => by
    have hk := (monthStart_succ k).1
    omega

/-- The month that a day of a year is in, counted from zero. -/
def monthOf (leap r : ℤ) : ℤ :=
  if r < 31 then 0 else if r < 59 + leap then 1 else (5 * (r - 59 - leap) + 2) / 153 + 2

theorem daysBefore_monthOf {leap r : ℤ} (h0 : 0 ≤ r) (hr : r < 365 + leap) :
    (0 ≤ monthOf leap r ∧ monthOf leap r < 12) ∧
      daysBefore leap (monthOf leap r) ≤ r ∧ r < daysBefore leap (monthOf leap r + 1) := by
  unfold monthOf
  split
  · next h => exact ⟨by decide, h0, h⟩
  · next h₁ =>
    split
    · next h₂ =>
      refine ⟨by decide, ?_, ?_⟩
      · exact Int.le_of_not_gt h₁
      · exact h₂.trans_le (by show _ ≤ 59 + leap + _; omega)
    · next h₂ =>
      unfold daysBefore
      refine ⟨by omega, ?_, ?_⟩
      · split_ifs <;> omega
      · split_ifs <;> omega

/-- **The month of a day.** -/
def month (d : ℤ) : ℤ := 12 * year d + monthOf (leapDay (year d)) (d - yearStart (year d))

theorem month_gc : GaloisConnection monthStart month := by
  refine gc_of_mem monthStart_mono fun d => ?_
  obtain ⟨h0, hr⟩ := dayOfYear_mem d
  obtain ⟨⟨h0, hm⟩, hstart, hend⟩ := daysBefore_monthOf h0 hr
  unfold month
  rw [Int.add_assoc, monthStart_eq _ h0 hm.le, monthStart_eq _ (by omega) (by omega)]
  omega

/-- The year of a month. -/
theorem month_ediv (d : ℤ) : month d / 12 = year d := by
  obtain ⟨h0, hr⟩ := dayOfYear_mem d
  have hm := (daysBefore_monthOf h0 hr).1
  unfold month
  omega

/-- Quarters are three months. -/
theorem quarter_gc : GaloisConnection (fun k => monthStart (k * 3)) (fun d => month d / 3) :=
  (gc_ediv (by decide)).compose month_gc

/-! ## Days -/

/-- The day of the month, counted from zero. -/
def dayOf (d : ℤ) : ℤ := d - monthStart (month d)

theorem dayOf_mem (d : ℤ) : 0 ≤ dayOf d ∧ dayOf d < 31 := by
  obtain ⟨hle, hlt⟩ := (index_eq_iff month_gc).mp (rfl : month d = month d)
  have hlen := (monthStart_succ (month d)).2
  unfold dayOf
  omega

/-- **A day is given by its month and its day of the month.** -/
theorem day_eq_iff {d d' : ℤ} : d = d' ↔ month d = month d' ∧ dayOf d = dayOf d' := by
  refine ⟨fun h => h ▸ ⟨rfl, rfl⟩, fun ⟨hm, hday⟩ => ?_⟩
  unfold dayOf at hday
  rw [hm] at hday
  omega

/-! ## Weeks -/

/-- **The week of a day.** Day 2 is a Monday. -/
def week (d : ℤ) : ℤ := (d - 2) / 7

/-- The Thursday of a week. -/
def thursday (w : ℤ) : ℤ := 7 * w + 5

theorem week_gc : GaloisConnection (fun k => k * 7 + 2) week := fun k d => by
  show k * 7 + 2 ≤ d ↔ k ≤ (d - 2) / 7
  omega

/-- The year that a week belongs to. -/
def isoYear (d : ℤ) : ℤ := year (thursday (week d))

/-- The number of a week in its year. -/
def isoWeek (d : ℤ) : ℤ := (thursday (week d) - yearStart (isoYear d)) / 7 + 1

theorem isoWeek_mem (d : ℤ) : 1 ≤ isoWeek d ∧ isoWeek d ≤ 53 := by
  have hr := dayOfYear_mem (thursday (week d))
  have hleap := leapDay_mem (isoYear d)
  unfold isoWeek isoYear at *
  omega

/-- **A week is given by its year and its number.** -/
theorem week_eq_iff {d d' : ℤ} :
    week d = week d' ↔ isoYear d = isoYear d' ∧ isoWeek d = isoWeek d' := by
  constructor
  · intro h
    unfold isoWeek isoYear
    rw [h]
    exact ⟨rfl, rfl⟩
  · rintro ⟨hy, hw⟩
    unfold isoWeek thursday at hw
    rw [hy] at hw
    omega

end Gregorian
