import PgCitus.Library.Gregorian
import PgCitus.TimePartitions

/-!
# The periods that partitions are named after

The name of a partition shows in which period its range starts: in which second, minute,
day, week, month, quarter or year. Which of these it is depends on how long the interval
is, months being counted as thirty days (`nameUnit`), while the periods are those of the
calendar. So it is not clear that adding the interval leads out of the period a range
starts in.

It does so from every time if it does so from where the periods start (`leaves_iff`), and
from this follows for which intervals it does (`leaves_iff_leadsOut`): for all that are
shorter than thirty days, and for those that have a whole period in months. Of the others
it takes more than they may have: thirty days do not lead out of a month of 31, nor do
ninety days, or two months and thirty days, lead out of every quarter, though they compare
equal to three months.

Times are local here: their days start at midnight.
-/

namespace TimePartitions

open Periods

/-! ## Units -/

/-- What a name shows of a time. -/
inductive NameUnit where
  | year
  | quarter
  | month
  | week
  | day
  | minute
  | second
deriving DecidableEq, Repr

/-- What the names of partitions show, for an interval. -/
def nameUnit (iv : Interval) : NameUnit :=
  if iv.cmpValue = quarter.cmpValue then .quarter
  else if iv.cmpValue = week.cmpValue then .week
  else if iv.cmpValue < minute.cmpValue then .second
  else if iv.cmpValue < day.cmpValue then .minute
  else if iv.cmpValue < month.cmpValue then .day
  else if iv.cmpValue < year.cmpValue then .month
  else .year

/-- The number of the first day of 2000, in the calendar. -/
def epochDay : ℤ := 730485

/-- The day of a time, in the calendar. -/
def dayNumber (t : ℤ) : ℤ := t / usecsPerDay + epochDay

/-- The start of a day. -/
def midnight (d : ℤ) : ℤ := (d - epochDay) * usecsPerDay

theorem day_gc : GaloisConnection midnight dayNumber := fun d t => by
  unfold midnight dayNumber usecsPerDay
  omega

/-- **Where the periods start**, seconds, minutes and days being numbered from 2000 on. -/
def NameUnit.start : NameUnit → ℤ → ℤ
  | .year, k => midnight (Gregorian.yearStart k)
  | .quarter, k => midnight (Gregorian.monthStart (k * 3))
  | .month, k => midnight (Gregorian.monthStart k)
  | .week, k => midnight (k * 7 + 2)
  | .day, k => k * usecsPerDay
  | .minute, k => k * usecsPerMinute
  | .second, k => k * 1000000

/-- **The period of a time.** -/
def NameUnit.index : NameUnit → ℤ → ℤ
  | .year, t => Gregorian.year (dayNumber t)
  | .quarter, t => Gregorian.month (dayNumber t) / 3
  | .month, t => Gregorian.month (dayNumber t)
  | .week, t => Gregorian.week (dayNumber t)
  | .day, t => t / usecsPerDay
  | .minute, t => t / usecsPerMinute
  | .second, t => t / 1000000

theorem NameUnit.gc : (u : NameUnit) → GaloisConnection u.start u.index
  | .year => Gregorian.year_gc.compose day_gc
  | .quarter => Gregorian.quarter_gc.compose day_gc
  | .month => Gregorian.month_gc.compose day_gc
  | .week => Gregorian.week_gc.compose day_gc
  | .day => gc_ediv (by decide)
  | .minute => gc_ediv (by decide)
  | .second => gc_ediv (by decide)

/-! ## Adding an interval -/

/-- A day so many months later: the same day of the month, or the last one there is. -/
def dayMonthsLater (n d : ℤ) : ℤ :=
  min (Gregorian.monthStart (Gregorian.month d + n) + Gregorian.dayOf d)
    (Gregorian.monthStart (Gregorian.month d + n + 1) - 1)

/-- A time so many months later, at the same time of the day. -/
def monthsLater (n t : ℤ) : ℤ := midnight (dayMonthsLater n (dayNumber t)) + t % usecsPerDay

/-- **A local time, and an interval later**: months come first. -/
def addInterval (iv : Interval) (t : ℤ) : ℤ :=
  monthsLater iv.month t + iv.day * usecsPerDay + iv.time

/-- Of the first day of a month this is a first day again. -/
theorem dayMonthsLater_monthStart (n k : ℤ) :
    dayMonthsLater n (Gregorian.monthStart k) = Gregorian.monthStart (k + n) := by
  have hk := (Gregorian.monthStart_succ k).1
  have hkn := (Gregorian.monthStart_succ (k + n)).1
  have hmonth : Gregorian.month (Gregorian.monthStart k) = k :=
    (index_eq_iff Gregorian.month_gc).mpr ⟨le_rfl, by omega⟩
  unfold dayMonthsLater Gregorian.dayOf
  rw [hmonth, Int.sub_self, Int.add_zero]
  exact min_eq_left (by omega)

/-- Later days do not come earlier. -/
theorem dayMonthsLater_mono (n : ℤ) : Monotone (dayMonthsLater n) := by
  intro d d' h
  rcases lt_or_eq_of_le (Gregorian.month_gc.monotone_u h) with hlt | heq
  · have hnext : Gregorian.month d + n + 1 ≤ Gregorian.month d' + n := by omega
    have hstart := Gregorian.monthStart_mono hnext
    have hlen := (Gregorian.monthStart_succ (Gregorian.month d' + n)).1
    have hday := (Gregorian.dayOf_mem d').1
    unfold dayMonthsLater
    omega
  · unfold dayMonthsLater Gregorian.dayOf
    rw [heq]
    omega

theorem dayMonthsLater_zero (d : ℤ) : dayMonthsLater 0 d = d := by
  have hmem := (index_eq_iff Gregorian.month_gc).mp (rfl : Gregorian.month d = Gregorian.month d)
  unfold dayMonthsLater Gregorian.dayOf
  rw [Int.add_zero]
  omega

/-- Without months, it is the length that is added. -/
theorem addInterval_of_month_eq_zero {iv : Interval} (hm : iv.month = 0) (t : ℤ) :
    addInterval iv t = t + iv.cmpValue := by
  unfold addInterval monthsLater Interval.cmpValue
  rw [hm, dayMonthsLater_zero]
  unfold midnight dayNumber usecsPerDay
  omega

/-- From the start of a month, so many months later is the start of a month. -/
theorem addInterval_monthStart (iv : Interval) (k : ℤ) :
    addInterval iv (midnight (Gregorian.monthStart k)) =
      midnight (Gregorian.monthStart (k + iv.month)) + iv.day * usecsPerDay + iv.time := by
  have hday : dayNumber (midnight (Gregorian.monthStart k)) = Gregorian.monthStart k := by
    unfold midnight dayNumber usecsPerDay
    omega
  have hmod : midnight (Gregorian.monthStart k) % usecsPerDay = 0 := Int.mul_emod_left _ _
  unfold addInterval monthsLater
  rw [hday, hmod, dayMonthsLater_monthStart, Int.add_zero]

/-- **Nowhere does it lead less far than from the start of the period.** -/
theorem addInterval_start_le (iv : Interval) (u : NameUnit) (t : ℤ) :
    addInterval iv (u.start (u.index t)) ≤ addInterval iv t := by
  have hle : u.start (u.index t) ≤ t := u.gc.l_u_le t
  have hday := dayMonthsLater_mono iv.month (day_gc.monotone_u hle)
  -- periods start at midnight, or on the day of the time
  have hzero : ∀ d, d * usecsPerDay % usecsPerDay ≤ t % usecsPerDay := fun d => by
    rw [Int.mul_emod_left]
    exact Int.emod_nonneg t (by decide)
  have hmod : u.start (u.index t) % usecsPerDay ≤ t % usecsPerDay := by
    cases u with
    | minute =>
      show t / 60000000 * 60000000 % 86400000000 ≤ t % 86400000000
      omega
    | second =>
      show t / 1000000 * 1000000 % 86400000000 ≤ t % 86400000000
      omega
    | _ => exact hzero _
  unfold addInterval monthsLater
  unfold midnight usecsPerDay at *
  omega

/-- **An interval leads out of every period** if and only if it does so from where they
start. -/
theorem leaves_iff (iv : Interval) (u : NameUnit) :
    (∀ t, u.index t < u.index (addInterval iv t)) ↔
      ∀ k, u.start (k + 1) ≤ addInterval iv (u.start k) :=
  Periods.leaves_iff u.gc (addInterval_start_le iv u)

/-! ## The intervals that do -/

/-- What an interval has besides months. -/
def Interval.rest (iv : Interval) : ℤ := iv.day * usecsPerDay + iv.time

/-- **The interval leads out of the periods that names show.** Of what it has besides
months it takes thirty-one days, for months, and for years what is left of a leap year
after the months. -/
def Interval.LeadsOut (iv : Interval) : Prop :=
  match nameUnit iv with
  | .month => 1 ≤ iv.month ∨ 31 * usecsPerDay ≤ iv.rest
  | .quarter => iv.month = 3
  | .year => 12 ≤ iv.month ∨ (366 - Gregorian.daysBefore 1 iv.month) * usecsPerDay ≤ iv.rest
  | _ => True

/-- What it takes, from where months start. -/
theorem start_le_addInterval_iff (iv : Interval) (j k : ℤ) :
    midnight (Gregorian.monthStart j) ≤ addInterval iv (midnight (Gregorian.monthStart k)) ↔
      (Gregorian.monthStart j - Gregorian.monthStart (k + iv.month)) * usecsPerDay ≤ iv.rest := by
  rw [addInterval_monthStart]
  unfold midnight Interval.rest usecsPerDay
  omega

section Classes

variable {iv : Interval} (hmonth : 0 ≤ iv.month) (hrest : 0 ≤ iv.rest)
include hmonth hrest

theorem leaves_months :
    (∀ k, NameUnit.month.start (k + 1) ≤ addInterval iv (NameUnit.month.start k)) ↔
      1 ≤ iv.month ∨ 31 * usecsPerDay ≤ iv.rest := by
  refine Iff.trans (forall_congr' fun k => start_le_addInterval_iff iv (k + 1) k) ?_
  constructor
  · intro h
    by_cases hm : 1 ≤ iv.month
    · exact .inl hm
    · -- January has 31 days
      have hzero := h 0
      rw [show iv.month = 0 by omega] at hzero
      exact .inr hzero
  · rintro h k
    rcases h with hm | hlong
    · have hmono := Gregorian.monthStart_mono (show k + 1 ≤ k + iv.month by omega)
      unfold usecsPerDay
      omega
    · have hmono := Gregorian.monthStart_mono (show k ≤ k + iv.month by omega)
      have hlen := (Gregorian.monthStart_succ k).2
      unfold usecsPerDay at *
      omega

theorem leaves_quarters (hquarter : iv.cmpValue = quarter.cmpValue) :
    (∀ k, NameUnit.quarter.start (k + 1) ≤ addInterval iv (NameUnit.quarter.start k)) ↔
      iv.month = 3 := by
  have hcmp : iv.rest + iv.month * (30 * 86400000000) = 90 * 86400000000 := by
    have hvalue : iv.time + (iv.month * 30 + iv.day) * 86400000000 = 90 * 86400000000 := hquarter
    unfold Interval.rest usecsPerDay
    omega
  refine Iff.trans (forall_congr' fun k =>
    start_le_addInterval_iff iv ((k + 1) * 3) (k * 3)) ?_
  constructor
  · intro h
    -- the first and the third quarter are too long
    have hfirst := h 0
    have hthird := h 2
    have hm : iv.month = 0 ∨ iv.month = 1 ∨ iv.month = 2 ∨ iv.month = 3 := by omega
    rcases hm with hm | hm | hm | hm
    · rw [hm] at hthird hcmp
      exact absurd (show 92 * 86400000000 ≤ iv.rest from hthird) (by omega)
    · rw [hm] at hthird hcmp
      exact absurd (show 61 * 86400000000 ≤ iv.rest from hthird) (by omega)
    · rw [hm] at hfirst hcmp
      exact absurd (show 31 * 86400000000 ≤ iv.rest from hfirst) (by omega)
    · exact hm
  · intro hm k
    rw [hm, show (k + 1) * 3 = k * 3 + 3 by omega, Int.sub_self, Int.zero_mul]
    exact hrest

theorem leaves_years :
    (∀ k, NameUnit.year.start (k + 1) ≤ addInterval iv (NameUnit.year.start k)) ↔
      12 ≤ iv.month ∨ (366 - Gregorian.daysBefore 1 iv.month) * usecsPerDay ≤ iv.rest := by
  have hstart : ∀ k, NameUnit.year.start (k + 1) ≤ addInterval iv (NameUnit.year.start k) ↔
      (Gregorian.yearStart (k + 1) - Gregorian.monthStart (12 * k + iv.month)) * usecsPerDay
        ≤ iv.rest := fun k => by
    rw [← Gregorian.monthStart_january (k + 1), ← start_le_addInterval_iff,
      Gregorian.monthStart_january, Gregorian.monthStart_january]
    rfl
  refine Iff.trans (forall_congr' hstart) ?_
  by_cases hm : 12 ≤ iv.month
  · refine iff_of_true (fun k => ?_) (.inl hm)
    have hmono := Gregorian.monthStart_mono (show 12 * (k + 1) ≤ 12 * k + iv.month by omega)
    rw [Gregorian.monthStart_january] at hmono
    unfold usecsPerDay
    omega
  · have hk : ∀ k, Gregorian.yearStart (k + 1) - Gregorian.monthStart (12 * k + iv.month) =
        365 + Gregorian.leapDay k - Gregorian.daysBefore (Gregorian.leapDay k) iv.month :=
      fun k => by
        rw [Gregorian.yearStart_succ, Gregorian.monthStart_eq k hmonth (by omega)]
        omega
    constructor
    · intro h
      -- the year 0 is a leap year
      have hzero := h 0
      rw [hk] at hzero
      exact .inr hzero
    · intro h k
      have hlong := h.resolve_left hm
      have hleap := Gregorian.leapDay_mem k
      rw [hk]
      unfold Gregorian.daysBefore usecsPerDay at *
      split_ifs at * <;> omega

end Classes

/-- **The intervals that lead out of the periods.** -/
theorem leaves_iff_leadsOut {iv : Interval} (hmonth : 0 ≤ iv.month) (hday : 0 ≤ iv.day)
    (htime : 0 ≤ iv.time) (hpos : 1000000 ≤ iv.cmpValue) :
    (∀ t, (nameUnit iv).index t < (nameUnit iv).index (addInterval iv t)) ↔ iv.LeadsOut := by
  have hrest : 0 ≤ iv.rest := by
    unfold Interval.rest usecsPerDay
    omega
  have hcmp : iv.rest + iv.month * (30 * 86400000000) = iv.cmpValue := by
    show iv.day * 86400000000 + iv.time + _ = iv.time + (iv.month * 30 + iv.day) * 86400000000
    omega
  -- shorter than a month, an interval has no months, and periods are of equal length
  have hshort : iv.cmpValue < month.cmpValue → ∀ {u : NameUnit} {n : ℤ},
      (∀ k, u.start (k + 1) = u.start k + n) → n ≤ iv.cmpValue →
        ((∀ k, u.start (k + 1) ≤ addInterval iv (u.start k)) ↔ True) := by
    intro hlt u n hu hn
    have hmonth0 : iv.month = 0 := by
      have hlt : iv.cmpValue < 30 * 86400000000 := hlt
      omega
    refine iff_true_intro fun k => ?_
    rw [hu, addInterval_of_month_eq_zero hmonth0]
    omega
  rw [leaves_iff]
  unfold Interval.LeadsOut nameUnit
  split_ifs with hquarter hweek hminute hday' hmonth' hyear
  · exact leaves_quarters hmonth hrest hquarter
  · refine hshort (hweek ▸ by decide) (n := 7 * 86400000000) (fun k => ?_) (hweek ▸ by decide)
    show ((k + 1) * 7 + 2 - epochDay) * 86400000000 = (k * 7 + 2 - epochDay) * 86400000000 + _
    omega
  · refine hshort (hminute.trans (by decide)) (fun k => Int.add_mul k 1 1000000) hpos
  · refine hshort (hday'.trans (by decide)) (fun k => Int.add_mul k 1 usecsPerMinute) ?_
    exact le_trans (by decide) (le_of_not_gt hminute)
  · refine hshort hmonth' (fun k => Int.add_mul k 1 usecsPerDay) ?_
    exact le_trans (by decide) (le_of_not_gt hday')
  · exact leaves_months hmonth hrest
  · exact leaves_years hmonth hrest

end TimePartitions
