import PgCitus.Library.Decimal
import PgCitus.TimePartitionsMissing
import PgCitus.TimePartitionsPeriods

/-!
# The names of the missing partitions

The name of a partition is that of its table and what `to_char` shows of the start of its
range: the year it is in, and for shorter intervals the quarter, month, week, day or time
as well. Names are never too long, and what is shown can be read off them: two ranges get
the same name if and only if they start in the same period (`partitionName_eq_iff`), but
for the eras, which `to_char` does not show.

Whether the names that one call returns are distinct is then a question of the calendar
(`names_distinct_iff`): whether two missing ranges start in the same period. With an
interval that leads out of every period they do not, in years after Christ
(`nodup_of_leadsOut`). With thirty days they may: a month may have 31 days, and it is
months that are shown.
-/

namespace TimePartitions

open Periods

/-! ## What `to_char` shows -/

/-- The formats. -/
def NameUnit.format : NameUnit → String
  | .year => "YYYY"
  | .quarter => "YYYY\"q\"Q"
  | .month => "YYYY_MM"
  | .week => "IYYY\"w\"IW"
  | .day => "YYYY_MM_DD"
  | .minute => "YYYY_MM_DD_HH24MI"
  | .second => "YYYY_MM_DD_HH24MISS"

theorem partitionNameFormat_eq (iv : Interval) :
    partitionNameFormat iv = (nameUnit iv).format := by
  have hmd : minute.cmpValue ≤ day.cmpValue := by decide
  have hdm : day.cmpValue ≤ month.cmpValue := by decide
  have hmy : month.cmpValue ≤ year.cmpValue := by decide
  unfold partitionNameFormat nameUnit
  generalize iv.cmpValue = v
  split_ifs
  all_goals first | rfl | decide | (exfalso; omega)

/-- `ADJUST_YEAR`: years before Christ are counted from one too. -/
def adjustYear (y : ℤ) : ℕ := if y ≤ 0 then (1 - y).toNat else y.toNat

/-- **`to_char`**, of a local time; in the text between quotes there are no patterns. -/
def formatCalendar (t : ℤ) : Bool → List Char → List Char
  | true, '"' :: cs => formatCalendar t false cs
  | true, c :: cs => c :: formatCalendar t true cs
  | false, '"' :: cs => formatCalendar t true cs
  | false, 'Y' :: 'Y' :: 'Y' :: 'Y' :: cs =>
    Decimal.padded 4 (adjustYear (Gregorian.year (dayNumber t))) ++ formatCalendar t false cs
  | false, 'I' :: 'Y' :: 'Y' :: 'Y' :: cs =>
    Decimal.padded 4 (adjustYear (Gregorian.isoYear (dayNumber t))) ++ formatCalendar t false cs
  | false, 'I' :: 'W' :: cs =>
    twoDigits (Gregorian.isoWeek (dayNumber t)).toNat ++ formatCalendar t false cs
  | false, 'Q' :: cs =>
    Nat.digitChar (Gregorian.month (dayNumber t) % 12 / 3 + 1).toNat :: formatCalendar t false cs
  | false, 'M' :: 'M' :: cs =>
    twoDigits (Gregorian.month (dayNumber t) % 12 + 1).toNat ++ formatCalendar t false cs
  | false, 'D' :: 'D' :: cs =>
    twoDigits (Gregorian.dayOf (dayNumber t) + 1).toNat ++ formatCalendar t false cs
  | false, 'H' :: 'H' :: '2' :: '4' :: cs =>
    twoDigits (t / usecsPerHour % 24).toNat ++ formatCalendar t false cs
  | false, 'M' :: 'I' :: cs =>
    twoDigits (t / usecsPerMinute % 60).toNat ++ formatCalendar t false cs
  | false, 'S' :: 'S' :: cs => twoDigits (t / 1000000 % 60).toNat ++ formatCalendar t false cs
  | false, c :: cs => c :: formatCalendar t false cs
  | _, [] => []

/-- What is shown of a time for a unit. -/
def NameUnit.text (u : NameUnit) (t : ℤ) : List Char := formatCalendar t false u.format.toList

/-- The year that a period belongs to. -/
def NameUnit.yearOf : NameUnit → ℤ → ℤ
  | .week, t => Gregorian.isoYear (dayNumber t)
  | _, t => Gregorian.year (dayNumber t)

/-- The numbers of a period in its year. -/
def NameUnit.partOfYear : NameUnit → ℤ → List ℕ
  | .year, _ => []
  | .quarter, t => [(Gregorian.month (dayNumber t) % 12 / 3 + 1).toNat]
  | .month, t => [(Gregorian.month (dayNumber t) % 12 + 1).toNat]
  | .week, t => [(Gregorian.isoWeek (dayNumber t)).toNat]
  | .day, t =>
    [(Gregorian.month (dayNumber t) % 12 + 1).toNat, (Gregorian.dayOf (dayNumber t) + 1).toNat]
  | .minute, t =>
    [(Gregorian.month (dayNumber t) % 12 + 1).toNat, (Gregorian.dayOf (dayNumber t) + 1).toNat,
      (t / usecsPerHour % 24).toNat, (t / usecsPerMinute % 60).toNat]
  | .second, t =>
    [(Gregorian.month (dayNumber t) % 12 + 1).toNat, (Gregorian.dayOf (dayNumber t) + 1).toNat,
      (t / usecsPerHour % 24).toNat, (t / usecsPerMinute % 60).toNat, (t / 1000000 % 60).toNat]

/-- How these are written. -/
def NameUnit.parts : NameUnit → List ℕ → List Char
  | .quarter, [q] => ['q', Nat.digitChar q]
  | .month, [m] => '_' :: twoDigits m
  | .week, [w] => 'w' :: twoDigits w
  | .day, [m, d] => '_' :: twoDigits m ++ '_' :: twoDigits d
  | .minute, [m, d, h, n] =>
    '_' :: twoDigits m ++ '_' :: twoDigits d ++ '_' :: twoDigits h ++ twoDigits n
  | .second, [m, d, h, n, s] =>
    '_' :: twoDigits m ++ '_' :: twoDigits d ++ '_' :: twoDigits h ++ twoDigits n ++ twoDigits s
  | _, _ => []

theorem NameUnit.text_eq (u : NameUnit) (t : ℤ) :
    u.text t = Decimal.padded 4 (adjustYear (u.yearOf t)) ++ u.parts (u.partOfYear t) := by
  cases u
  all_goals rfl

/-! ## What is shown can be read -/

theorem digitChar_inj {m n : ℕ} (hm : m < 10) (hn : n < 10) :
    Nat.digitChar m = Nat.digitChar n ↔ m = n := by
  refine ⟨fun h => ?_, fun h => h ▸ rfl⟩
  rw [← Nat.toNat_digitChar_sub_48_of_lt_ten hm, h, Nat.toNat_digitChar_sub_48_of_lt_ten hn]

theorem twoDigits_inj {m n : ℕ} (hm : m < 100) (hn : n < 100) :
    twoDigits m = twoDigits n ↔ m = n := by
  refine ⟨fun h => ?_, fun h => h ▸ rfl⟩
  obtain ⟨htens, hrest⟩ := List.cons.inj h
  have htens' := (digitChar_inj (Nat.mod_lt _ (by decide)) (Nat.mod_lt _ (by decide))).mp htens
  have hones := (digitChar_inj (Nat.mod_lt _ (by decide)) (Nat.mod_lt _ (by decide))).mp
    (List.cons.inj hrest).1
  omega

/-- The numbers shown have room. -/
structure NameUnit.Fits (t : ℤ) : Prop where
  quarter : (Gregorian.month (dayNumber t) % 12 / 3 + 1).toNat < 10
  month : (Gregorian.month (dayNumber t) % 12 + 1).toNat < 100
  week : (Gregorian.isoWeek (dayNumber t)).toNat < 100
  day : (Gregorian.dayOf (dayNumber t) + 1).toNat < 100
  hour : (t / usecsPerHour % 24).toNat < 100
  minute : (t / usecsPerMinute % 60).toNat < 100
  second : (t / 1000000 % 60).toNat < 100

theorem NameUnit.fits (t : ℤ) : NameUnit.Fits t := by
  have hweek := Gregorian.isoWeek_mem (dayNumber t)
  have hday := Gregorian.dayOf_mem (dayNumber t)
  constructor
  all_goals omega

/-- How the parts are written says how long the text of them is. -/
theorem NameUnit.length_parts (u : NameUnit) (t t' : ℤ) :
    (u.parts (u.partOfYear t)).length = (u.parts (u.partOfYear t')).length := by
  cases u
  all_goals rfl

theorem NameUnit.parts_inj (u : NameUnit) {t t' : ℤ}
    (h : u.parts (u.partOfYear t) = u.parts (u.partOfYear t')) :
    u.partOfYear t = u.partOfYear t' := by
  have ht := NameUnit.fits t
  have ht' := NameUnit.fits t'
  have hmark : ∀ {c : Char} {m n : ℕ}, m < 100 → n < 100 → c :: twoDigits m = c :: twoDigits n →
      m = n := fun hm hn h => (twoDigits_inj hm hn).mp (List.cons.inj h).2
  cases u with
  | year => rfl
  | quarter =>
    have hq := (digitChar_inj ht.quarter ht'.quarter).mp (List.cons.inj (List.cons.inj h).2).1
    exact congrArg (fun q => [q]) hq
  | month => exact congrArg (fun m => [m]) (hmark ht.month ht'.month h)
  | week => exact congrArg (fun w => [w]) (hmark ht.week ht'.week h)
  | day =>
    obtain ⟨h, hd⟩ := List.append_inj' h rfl
    show [_, _] = [_, _]
    rw [hmark ht.month ht'.month h, hmark ht.day ht'.day hd]
  | minute =>
    obtain ⟨h, hn⟩ := List.append_inj' h rfl
    obtain ⟨h, hh⟩ := List.append_inj' h rfl
    obtain ⟨h, hd⟩ := List.append_inj' h rfl
    show [_, _, _, _] = [_, _, _, _]
    rw [hmark ht.month ht'.month h, hmark ht.day ht'.day hd, hmark ht.hour ht'.hour hh,
      (twoDigits_inj ht.minute ht'.minute).mp hn]
  | second =>
    obtain ⟨h, hs⟩ := List.append_inj' h rfl
    obtain ⟨h, hn⟩ := List.append_inj' h rfl
    obtain ⟨h, hh⟩ := List.append_inj' h rfl
    obtain ⟨h, hd⟩ := List.append_inj' h rfl
    show [_, _, _, _, _] = [_, _, _, _, _]
    rw [hmark ht.month ht'.month h, hmark ht.day ht'.day hd, hmark ht.hour ht'.hour hh,
      (twoDigits_inj ht.minute ht'.minute).mp hn, (twoDigits_inj ht.second ht'.second).mp hs]

theorem adjustYear_eq_iff {y y' : ℤ} : adjustYear y = adjustYear y' ↔ y = y' ∨ y + y' = 1 := by
  unfold adjustYear
  split <;> split <;> omega

/-- **A number shown of a time**: of the units of which `n` make a larger one, the time is
in the same if it is in the same larger one, and the same number is shown. -/
theorem ediv_eq_iff_shown {unit n larger : ℤ} (hunit : 0 ≤ unit) (hn : 0 < n)
    (hlarger : unit * n = larger) (t t' : ℤ) :
    t / unit = t' / unit ↔
      t / larger = t' / larger ∧ (t / unit % n).toNat = (t' / unit % n).toNat := by
  rw [← hlarger, ← Int.ediv_ediv_of_nonneg hunit, ← Int.ediv_ediv_of_nonneg hunit]
  constructor
  · intro h
    rw [h]
    exact ⟨rfl, rfl⟩
  · rintro ⟨hdiv, hmod⟩
    have hmod : t / unit % n = t' / unit % n := by
      rw [← Int.toNat_of_nonneg (Int.emod_nonneg (t / unit) hn.ne'), hmod,
        Int.toNat_of_nonneg (Int.emod_nonneg (t' / unit) hn.ne')]
    rw [← Int.mul_ediv_add_emod (t / unit) n, hdiv, hmod, Int.mul_ediv_add_emod]

/-- **A period is given by its year and the numbers in it.** -/
theorem NameUnit.index_eq_iff (u : NameUnit) {t t' : ℤ} :
    u.index t = u.index t' ↔ u.yearOf t = u.yearOf t' ∧ u.partOfYear t = u.partOfYear t' := by
  have hyear := Gregorian.month_ediv (dayNumber t)
  have hyear' := Gregorian.month_ediv (dayNumber t')
  have hdayOf := Gregorian.dayOf_mem (dayNumber t)
  have hdayOf' := Gregorian.dayOf_mem (dayNumber t')
  -- the day, by its year, month and day of the month
  have hday : t / 86400000000 = t' / 86400000000 ↔
      Gregorian.year (dayNumber t) = Gregorian.year (dayNumber t') ∧
        (Gregorian.month (dayNumber t) % 12 + 1).toNat
          = (Gregorian.month (dayNumber t') % 12 + 1).toNat ∧
        (Gregorian.dayOf (dayNumber t) + 1).toNat = (Gregorian.dayOf (dayNumber t') + 1).toNat := by
    have hd : dayNumber t = dayNumber t' ↔ t / 86400000000 = t' / 86400000000 :=
      Int.add_left_inj epochDay
    rw [← hd, Gregorian.day_eq_iff]
    omega
  have hminute : t / 60000000 = t' / 60000000 ↔ t / 86400000000 = t' / 86400000000 ∧
      (t / 3600000000 % 24).toNat = (t' / 3600000000 % 24).toNat ∧
        (t / 60000000 % 60).toNat = (t' / 60000000 % 60).toNat := by
    have hhour := ediv_eq_iff_shown (n := 24) (by decide) (by decide)
      (show 3600000000 * 24 = 86400000000 by rfl) t t'
    rw [ediv_eq_iff_shown (n := 60) (by decide) (by decide)
      (show 60000000 * 60 = 3600000000 by rfl), hhour, and_assoc]
  cases u with
  | year => exact (and_iff_left rfl).symm
  | quarter =>
    simp only [index, yearOf, partOfYear, List.cons.injEq, and_true]
    omega
  | month =>
    simp only [index, yearOf, partOfYear, List.cons.injEq, and_true]
    omega
  | week =>
    have hweek := Gregorian.isoWeek_mem (dayNumber t)
    have hweek' := Gregorian.isoWeek_mem (dayNumber t')
    simp only [index, yearOf, partOfYear, List.cons.injEq, and_true, Gregorian.week_eq_iff]
    omega
  | day =>
    simp only [index, yearOf, partOfYear, List.cons.injEq, and_true]
    exact hday
  | minute =>
    simp only [index, yearOf, partOfYear, List.cons.injEq, and_true]
    refine hminute.trans ?_
    rw [hday, and_assoc, and_assoc]
    rfl
  | second =>
    simp only [index, yearOf, partOfYear, List.cons.injEq, and_true]
    rw [ediv_eq_iff_shown (n := 60) (by decide) (by decide)
      (show 1000000 * 60 = 60000000 by rfl), hminute, hday, and_assoc, and_assoc, and_assoc,
      and_assoc]
    rfl

/-- **Two times are in the same period**, or in the same one of two years that have the same
number in different eras: the year `y` after Christ, and the year `1 - y`, are that. -/
def NameUnit.SamePeriod (u : NameUnit) (t t' : ℤ) : Prop :=
  u.index t = u.index t' ∨ u.yearOf t + u.yearOf t' = 1 ∧ u.partOfYear t = u.partOfYear t'

/-- **The same is shown of times in the same period**, and of no others. -/
theorem NameUnit.text_eq_iff (u : NameUnit) {t t' : ℤ} :
    u.text t = u.text t' ↔ u.SamePeriod t t' := by
  have hsame : u.text t = u.text t' ↔
      adjustYear (u.yearOf t) = adjustYear (u.yearOf t') ∧ u.partOfYear t = u.partOfYear t' := by
    rw [u.text_eq, u.text_eq]
    refine ⟨fun h => ?_, fun h => by rw [h.1, h.2]⟩
    obtain ⟨hyear, hparts⟩ := List.append_inj' h (u.length_parts t t')
    exact ⟨Decimal.padded_inj.mp hyear, u.parts_inj hparts⟩
  rw [hsame, adjustYear_eq_iff, or_and_right, ← u.index_eq_iff]
  rfl

theorem digitChar_ne_p {n : ℕ} (hn : n < 10) : Nat.digitChar n ≠ 'p' := fun h => by
  have hdigit : (Nat.digitChar n).isDigit = true :=
    Nat.isDigit_digitChar.trans (decide_eq_true hn)
  rw [h] at hdigit
  exact absurd hdigit (by decide)

/-- There is no `p` in it. -/
theorem NameUnit.p_notMem_text (u : NameUnit) (t : ℤ) : 'p' ∉ u.text t := by
  have htwo : ∀ n, 'p' ∉ twoDigits n := fun n h => by
    rcases List.mem_cons.mp h with h | h
    · exact digitChar_ne_p (Nat.mod_lt _ (by decide)) h.symm
    · exact digitChar_ne_p (Nat.mod_lt _ (by decide)) (List.mem_singleton.mp h).symm
  have hquarter := (digitChar_ne_p (NameUnit.fits t).quarter).symm
  rw [u.text_eq, List.mem_append]
  rintro (h | h)
  · exact absurd (Decimal.isDigit_of_mem_padded h) (by decide)
  · cases u
    all_goals simp [parts, partOfYear, htwo, hquarter] at h

/-- `timestamptz`'s `-infinity`. -/
def minusInfinity : Timestamptz := -9223372036854775808

/-- `timestamptz`'s `infinity`. -/
def infinity : Timestamptz := 9223372036854775807

/-- The finite times: from 4714 BC to 294276 AD. -/
def IsFinite (t : Timestamptz) : Prop := -211813488000000000 ≤ t ∧ t < 9223371331200000000

instance : DecidablePred IsFinite := fun t =>
  inferInstanceAs (Decidable (-211813488000000000 ≤ t ∧ t < 9223371331200000000))

/-- The values of `timestamptz`. -/
def IsTime (t : Timestamptz) : Prop := t = minusInfinity ∨ IsFinite t ∨ t = infinity

/-- **A server in a time zone without daylight saving**, that is ahead of UTC by the same
time always: what is documented of it. -/
structure InZone (srv : Server) (zone : ℤ) : Prop where
  zone_mem : -usecsPerDay ≤ zone ∧ zone ≤ usecsPerDay
  toChar : ∀ (u : NameUnit) t, IsFinite t →
    srv.toChar t u.format = String.ofList (formatCalendar (t + zone) false u.format.toList)
  plus : ∀ t iv t', IsTime t → srv.plus t iv = some t' → IsTime t'
  minus : ∀ t iv t', IsTime t → srv.minus t iv = some t' → IsTime t'
  dateTrunc : ∀ u t t', IsTime t → srv.dateTrunc u t = some t' → IsTime t'
  plus_minusInfinity : ∀ iv, srv.plus minusInfinity iv = some minusInfinity
  maxIdentifierLength : srv.maxIdentifierLength = 63

variable {srv : Server} {zone : ℤ} {table : PartitionedTable} {iv : Interval}
  {toValue fromValue a b s x y : Timestamptz} {rs : List MissingRange}

/-- **What a name is.** -/
theorem partitionName_eq (hz : InZone srv zone) (hx : IsFinite x) :
    partitionName srv table iv x = substring table.relname 0
        (63 - ((nameUnit iv).text (x + zone)).length - 1) ++ "_p" ++
      String.ofList ((nameUnit iv).text (x + zone)) := by
  unfold partitionName
  dsimp only
  rw [partitionNameFormat_eq, hz.toChar _ x hx, hz.maxIdentifierLength, String.length_ofList]
  rfl

/-- **Two names are the same** if and only if they are of times in the same period. -/
theorem partitionName_eq_iff (hz : InZone srv zone) (hx : IsFinite x) (hy : IsFinite y) :
    partitionName srv table iv x = partitionName srv table iv y ↔
      (nameUnit iv).SamePeriod (x + zone) (y + zone) := by
  rw [partitionName_eq hz hx, partitionName_eq hz hy, ← NameUnit.text_eq_iff]
  refine ⟨fun h => ?_, fun h => by rw [h]⟩
  have hlist := congrArg String.toList h
  simp only [String.toList_append, String.toList_ofList] at hlist
  rw [show "_p".toList = ['_'] ++ ['p'] from rfl, ← List.append_assoc, ← List.append_assoc] at hlist
  exact Decimal.eq_of_append_mark (NameUnit.p_notMem_text _ _) (NameUnit.p_notMem_text _ _) hlist

/-! ## The ranges of a call -/

/-- **The `k`-th range of the grid is missing**: it starts at `x`, it and the ones before
start before the end of the time asked for, and it is no partition. -/
def MissingAt (srv : Server) (table : PartitionedTable) (iv : Interval) (toValue s : Timestamptz)
    (k : ℕ) (x : Timestamptz) : Prop :=
  plusN srv iv k s = some x ∧ (∀ j ≤ k, ∀ t, plusN srv iv j s = some t → t < toValue) ∧
    ∃ y, srv.plus x iv = some y ∧ ¬ IsPartition table.partitions x y

theorem missingAt_zero (hab : srv.plus a iv = some b) :
    MissingAt srv table iv toValue a 0 x ↔
      a = x ∧ a < toValue ∧ ¬ IsPartition table.partitions a b := by
  constructor
  · rintro ⟨hx, hlt, y, hy, hpart⟩
    have hax : a = x := Option.some.inj hx
    subst hax
    exact ⟨rfl, hlt 0 le_rfl a rfl, Option.some.inj (hy.symm.trans hab) ▸ hpart⟩
  · rintro ⟨rfl, hlt, hpart⟩
    refine ⟨rfl, fun j hj t ht => ?_, b, hab, hpart⟩
    rw [Nat.le_zero.mp hj] at ht
    exact Option.some.inj ht ▸ hlt

theorem missingAt_succ (hab : srv.plus a iv = some b) {k : ℕ} :
    MissingAt srv table iv toValue a (k + 1) x ↔
      a < toValue ∧ MissingAt srv table iv toValue b k x := by
  unfold MissingAt
  rw [plusN_succ hab]
  constructor
  · rintro ⟨hx, hlt, hmiss⟩
    refine ⟨hlt 0 (Nat.zero_le _) a rfl, hx, fun j hj t ht => ?_, hmiss⟩
    exact hlt (j + 1) (Nat.succ_le_succ hj) t (by rw [plusN_succ hab]; exact ht)
  · rintro ⟨ha, hx, hlt, hmiss⟩
    refine ⟨hx, fun j hj t ht => ?_, hmiss⟩
    cases j with
    | zero => exact Option.some.inj ht ▸ ha
    | succ j =>
      rw [plusN_succ hab] at ht
      exact hlt j (Nat.le_of_succ_le_succ hj) t ht

/-- **The missing ranges are returned**, and no others. -/
theorem Lays.exists_iff (h : Lays srv table iv toValue a b rs) (hab : srv.plus a iv = some b) :
    (∃ r ∈ rs, r.rangeFrom = x) ↔ ∃ k, MissingAt srv table iv toValue a k x := by
  induction h with
  | stop hge =>
    refine ⟨fun ⟨r, hr, _⟩ => (nomatch hr), fun ⟨k, _, hlt, _⟩ => ?_⟩
    exact absurd (hlt 0 (Nat.zero_le k) _ rfl) (not_lt_of_ge hge)
  | @skip a b c rs hlt hall hpart hc hrest ih =>
    rw [ih hc]
    constructor
    · rintro ⟨k, hk⟩
      exact ⟨k + 1, (missingAt_succ hab).mpr ⟨hlt, hk⟩⟩
    · rintro ⟨k, hk⟩
      cases k with
      | zero => exact absurd hpart ((missingAt_zero hab).mp hk).2.2
      | succ k => exact ⟨k, ((missingAt_succ hab).mp hk).2⟩
  | @add a b c rs hlt hall hpart hno htype hc hrest ih =>
    constructor
    · rintro ⟨r, hr, rfl⟩
      rcases List.mem_cons.mp hr with rfl | hr
      · exact ⟨0, (missingAt_zero hab).mpr ⟨rfl, hlt, hpart⟩⟩
      · obtain ⟨k, hk⟩ := (ih hc).mp ⟨r, hr, rfl⟩
        exact ⟨k + 1, (missingAt_succ hab).mpr ⟨hlt, hk⟩⟩
    · rintro ⟨k, hk⟩
      cases k with
      | zero => exact ⟨_, List.mem_cons_self, ((missingAt_zero hab).mp hk).1⟩
      | succ k =>
        obtain ⟨r, hr, hrx⟩ := (ih hc).mpr ⟨k, ((missingAt_succ hab).mp hk).2⟩
        exact ⟨r, List.mem_cons_of_mem _ hr, hrx⟩

/-- **They are returned in order.** -/
theorem Lays.pairwise_iff {R : Timestamptz → Timestamptz → Prop}
    (h : Lays srv table iv toValue a b rs) (hab : srv.plus a iv = some b) :
    rs.Pairwise (fun r r' => R r.rangeFrom r'.rangeFrom) ↔
      ∀ i j x y, i < j → MissingAt srv table iv toValue a i x →
        MissingAt srv table iv toValue a j y → R x y := by
  induction h with
  | stop hge =>
    refine ⟨fun _ i j x y _ hx _ => ?_, fun _ => .nil⟩
    exact absurd (hx.2.1 0 (Nat.zero_le i) _ rfl) (not_lt_of_ge hge)
  | @skip a b c rs hlt hall hpart hc hrest ih =>
    rw [ih hc]
    constructor
    · intro h i j x y hij hx hy
      cases i with
      | zero => exact absurd hpart ((missingAt_zero hab).mp hx).2.2
      | succ i =>
        obtain ⟨j, rfl⟩ := Nat.exists_eq_succ_of_ne_zero (Nat.ne_zero_of_lt hij)
        exact h i j x y (Nat.lt_of_succ_lt_succ hij) ((missingAt_succ hab).mp hx).2
          ((missingAt_succ hab).mp hy).2
    · intro h i j x y hij hx hy
      exact h (i + 1) (j + 1) x y (Nat.succ_lt_succ hij) ((missingAt_succ hab).mpr ⟨hlt, hx⟩)
        ((missingAt_succ hab).mpr ⟨hlt, hy⟩)
  | @add a b c rs hlt hall hpart hno htype hc hrest ih =>
    rw [List.pairwise_cons, ih hc]
    constructor
    · rintro ⟨hfirst, h⟩ i j x y hij hx hy
      obtain ⟨j, rfl⟩ := Nat.exists_eq_succ_of_ne_zero (Nat.ne_zero_of_lt hij)
      have hy := ((missingAt_succ hab).mp hy).2
      cases i with
      | zero =>
        obtain ⟨r, hr, hry⟩ := (hrest.exists_iff hc).mpr ⟨j, hy⟩
        exact ((missingAt_zero hab).mp hx).1 ▸ hry ▸ hfirst r hr
      | succ i =>
        exact h i j x y (Nat.lt_of_succ_lt_succ hij) ((missingAt_succ hab).mp hx).2 hy
    · intro h
      refine ⟨fun r hr => ?_, fun i j x y hij hx hy => ?_⟩
      · obtain ⟨k, hk⟩ := (hrest.exists_iff hc).mp ⟨r, hr, rfl⟩
        exact h 0 (k + 1) a r.rangeFrom (Nat.succ_pos k)
          ((missingAt_zero hab).mpr ⟨rfl, hlt, hpart⟩) ((missingAt_succ hab).mpr ⟨hlt, hk⟩)
      · exact h (i + 1) (j + 1) x y (Nat.succ_lt_succ hij) ((missingAt_succ hab).mpr ⟨hlt, hx⟩)
          ((missingAt_succ hab).mpr ⟨hlt, hy⟩)

/-! ## They start at finite times -/

/-- From `-infinity` the grid does not get on. -/
theorem Lays.le_minusInfinity (hz : InZone srv zone) (h : Lays srv table iv toValue a b rs)
    (hab : srv.plus a iv = some b) (ha : a = minusInfinity) : toValue ≤ minusInfinity := by
  have hstays : ∀ {a b : Timestamptz}, srv.plus a iv = some b → a = minusInfinity →
      b = minusInfinity := fun hab ha => by
    rw [ha, hz.plus_minusInfinity] at hab
    exact (Option.some.inj hab).symm
  induction h with
  | stop hge => exact ha ▸ hge
  | skip _ _ _ hc _ ih => exact ih hc (hstays hab ha)
  | add _ _ _ _ _ hc _ ih => exact ih hc (hstays hab ha)

/-- Where the main loop goes on is a finite time. -/
theorem Lays.isFinite_start (hz : InZone srv zone) (hto : IsTime toValue)
    (h : Lays srv table iv toValue a b rs) (hab : srv.plus a iv = some b) (ha : IsTime a)
    (hlt : a < toValue) : IsFinite a := by
  rcases ha with ha | ha | ha
  · exact absurd hlt (not_lt_of_ge (ha ▸ h.le_minusInfinity hz hab ha))
  · exact ha
  · have hle : toValue ≤ infinity := by
      rcases hto with hto | hto | hto
      · exact hto ▸ (by decide)
      · exact le_of_lt (hto.2.trans (by decide))
      · exact le_of_eq hto
    exact absurd hlt (not_lt_of_ge (ha ▸ hle))

theorem Lays.isFinite (hz : InZone srv zone) (hto : IsTime toValue)
    (h : Lays srv table iv toValue a b rs) (hab : srv.plus a iv = some b) (ha : IsTime a)
    {r : MissingRange} (hr : r ∈ rs) : IsFinite r.rangeFrom := by
  induction h with
  | stop => cases hr
  | skip _ _ _ hc _ ih => exact ih hc (hz.plus _ _ _ ha hab) hr
  | @add a b c rs hlt hall hpart hno htype hc hrest ih =>
    rcases List.mem_cons.mp hr with rfl | hr
    · exact (Lays.add hlt hall hpart hno htype hc hrest).isFinite_start hz hto hab ha hlt
    · exact ih hc (hz.plus _ _ _ ha hab) hr

/-- The grid starts at a time. -/
theorem GridStart.isTime (hz : InZone srv zone) (hfrom : IsTime fromValue)
    (hparts : ∀ p ∈ ranges table.partitions, IsTime p.1)
    (h : GridStart srv table.partitions iv fromValue s) : IsTime s := by
  have hiter : ∀ {f : Timestamptz → Option Timestamptz},
      (∀ t t', IsTime t → f t = some t' → IsTime t') → ∀ {n : ℕ} {p s : Timestamptz}, IsTime p →
        Loop.iter f n p = some s → IsTime s := by
    intro f hf n
    induction n with
    | zero => exact fun hp hs => Option.some.inj hs ▸ hp
    | succ n ih =>
      intro p s hp hs
      obtain ⟨q, hq, hs⟩ := Option.bind_eq_some_iff.mp hs
      exact ih (hf p q hp hq) hs
  cases h with
  | truncated h hs => exact hz.dateTrunc _ _ _ hfrom hs
  | forward h hp hn hs hfirst =>
    exact hiter (fun t t' => hz.plus t iv t') (hparts _ (firstRange_eq_some h).1) hn
  | backward h hp hn hs hfirst =>
    exact hiter (fun t t' => hz.minus t iv t') (hparts _ (firstRange_eq_some h).1) hn

/-! ## Distinct names -/

/-- A returned range is named after its start. -/
theorem Lays.partitionName_eq (h : Lays srv table iv toValue a b rs) {r : MissingRange}
    (hr : r ∈ rs) : r.partitionName = partitionName srv table iv r.rangeFrom := by
  induction h with
  | stop => cases hr
  | skip _ _ _ _ _ ih => exact ih hr
  | add _ _ _ _ _ _ _ ih =>
    rcases List.mem_cons.mp hr with rfl | hr
    · rfl
    · exact ih hr

/-- **The names of one call** are distinct if no two of the ranges start in the same
period. -/
theorem Lays.nodup_iff (hz : InZone srv zone) (hto : IsTime toValue)
    (h : Lays srv table iv toValue a b rs) (hab : srv.plus a iv = some b) (ha : IsTime a) :
    (rs.map MissingRange.partitionName).Nodup ↔ rs.Pairwise fun r r' =>
      ¬ (nameUnit iv).SamePeriod (r.rangeFrom + zone) (r'.rangeFrom + zone) := by
  refine List.pairwise_map.trans (List.Pairwise.iff_of_mem fun {r r'} hr hr' => ?_)
  rw [h.partitionName_eq hr, h.partitionName_eq hr']
  exact not_congr (partitionName_eq_iff hz (h.isFinite hz hto hab ha hr)
    (h.isFinite hz hto hab ha hr'))

/-- Where every step leads to a later period, the ranges start in later and later ones. -/
theorem Lays.pairwise_index (hz : InZone srv zone) (hto : IsTime toValue) {f : ℤ → ℤ}
    (hstep : ∀ t t', IsFinite t → srv.plus t iv = some t' → f t < f t')
    (h : Lays srv table iv toValue a b rs) (hab : srv.plus a iv = some b) (ha : IsTime a) :
    (∀ r ∈ rs, f a ≤ f r.rangeFrom) ∧ rs.Pairwise fun r r' => f r.rangeFrom < f r'.rangeFrom := by
  induction h with
  | stop => exact ⟨fun r hr => (nomatch hr), .nil⟩
  | @skip a b c rs hlt hall hpart hc hrest ih =>
    have hfin := (Lays.skip hlt hall hpart hc hrest).isFinite_start hz hto hab ha hlt
    obtain ⟨hle, hpair⟩ := ih hc (hz.plus _ _ _ ha hab)
    exact ⟨fun r hr => (hstep a b hfin hab).le.trans (hle r hr), hpair⟩
  | @add a b c rs hlt hall hpart hno htype hc hrest ih =>
    have hfin := (Lays.add hlt hall hpart hno htype hc hrest).isFinite_start hz hto hab ha hlt
    obtain ⟨hle, hpair⟩ := ih hc (hz.plus _ _ _ ha hab)
    have hlt' : ∀ r ∈ rs, f a < f r.rangeFrom :=
      fun r hr => (hstep a b hfin hab).trans_le (hle r hr)
    refine ⟨fun r hr => ?_, .cons hlt' hpair⟩
    rcases List.mem_cons.mp hr with rfl | hr
    · exact le_rfl
    · exact (hlt' r hr).le

/-- **Intervals that lead out of the periods have distinct names**, in years after Christ,
whatever is asked for. -/
theorem nodup_of_leadsOut (hz : InZone srv zone) (hmonth : 0 ≤ iv.month) (hday : 0 ≤ iv.day)
    (htime : 0 ≤ iv.time) (hpos : 1000000 ≤ iv.cmpValue) (hleads : iv.LeadsOut)
    (hplus : ∀ t t', IsFinite t → srv.plus t iv = some t' →
      t' + zone = addInterval iv (t + zone))
    (hparts : ∀ p ∈ ranges table.partitions, IsTime p.1) (hto : IsTime toValue)
    (hfrom : IsTime fromValue) (hret : Returns srv table iv toValue fromValue rs)
    (hera : ∀ r ∈ rs, 1 ≤ (nameUnit iv).yearOf (r.rangeFrom + zone)) :
    (rs.map MissingRange.partitionName).Nodup := by
  obtain ⟨_, s, b, hs, hb, hlays⟩ := returns_iff.mp hret
  have hstart : IsTime s := hs.isTime hz hfrom hparts
  have hindex := hlays.pairwise_index hz hto (f := fun t => (nameUnit iv).index (t + zone))
    (fun t t' ht htt' => by
      show (nameUnit iv).index (t + zone) < (nameUnit iv).index (t' + zone)
      rw [hplus t t' ht htt']
      exact (leaves_iff_leadsOut hmonth hday htime hpos).mpr hleads (t + zone)) hb hstart
  refine (hlays.nodup_iff hz hto hb hstart).mpr (hindex.2.imp_of_mem fun {r r'} hr hr' hlt => ?_)
  rintro (hsame | ⟨hyears, _⟩)
  · exact absurd hsame (ne_of_lt hlt)
  · have hr := hera r hr
    have hr' := hera r' hr'
    omega

/-! ## A server with months -/

/-- The start of the unit that a time is in. -/
def truncCalendar (t : Timestamptz) : TruncUnit → Timestamptz
  | .minute => floorUtc usecsPerMinute 0 t
  | .hour => floorUtc usecsPerHour 0 t
  | .day => floorUtc usecsPerDay 0 t
  -- 2000-01-03 is a Monday
  | .week => floorUtc (7 * usecsPerDay) (2 * usecsPerDay) t
  | .month =>
    midnight (Gregorian.monthStart (Gregorian.month (dayNumber t)))
  | .quarter =>
    midnight (Gregorian.monthStart (Gregorian.month (dayNumber t) / 3 * 3))
  | .year => midnight (Gregorian.yearStart (Gregorian.year (dayNumber t)))

/-- Months are added first, then days, then the time. -/
def plusCalendar (t : Timestamptz) (iv : Interval) : Option Timestamptz :=
  (plusUtc t (monthsLater iv.month t - t)).bind fun t =>
    (plusUtc t (iv.day * usecsPerDay)).bind fun t => plusUtc t iv.time

/-- **A server in UTC**, with months. -/
def calendarServer : Server :=
  { utcServer with
    plus := plusCalendar
    minus := fun t iv => plusCalendar t ⟨-iv.time, -iv.day, -iv.month⟩
    dateTrunc := fun u t => plusUtc t (truncCalendar t u - t)
    toChar := fun t format => String.ofList (formatCalendar t false format.toList) }

theorem isTime_plusUtc {t d t' : ℤ} (ht : IsTime t) (h : plusUtc t d = some t') : IsTime t' := by
  unfold plusUtc at h
  split at h
  · exact Option.some.inj h ▸ ht
  · split at h
    case isTrue hrange => exact .inr (.inl (Option.some.inj h ▸ hrange))
    case isFalse => cases h

theorem isTime_plusCalendar {t t' : ℤ} (ht : IsTime t) (h : plusCalendar t iv = some t') :
    IsTime t' := by
  obtain ⟨u, hu, h⟩ := Option.bind_eq_some_iff.mp h
  obtain ⟨v, hv, h⟩ := Option.bind_eq_some_iff.mp h
  exact isTime_plusUtc (isTime_plusUtc (isTime_plusUtc ht hu) hv) h

/-- Its additions are those of the calendar. -/
theorem plus_calendarServer {t t' : ℤ} (ht : IsFinite t)
    (h : calendarServer.plus t iv = some t') : t' = addInterval iv t := by
  have hplus : ∀ {t d t' : ℤ}, IsFinite t → plusUtc t d = some t' → t' = t + d ∧ IsFinite t' := by
    intro t d t' ht h
    unfold plusUtc at h
    rw [if_neg (by rintro (rfl | rfl) <;> exact absurd ht (by decide))] at h
    split at h
    case isTrue hrange => exact ⟨(Option.some.inj h).symm, Option.some.inj h ▸ hrange⟩
    case isFalse => cases h
  obtain ⟨u, hu, h⟩ := Option.bind_eq_some_iff.mp h
  obtain ⟨v, hv, h⟩ := Option.bind_eq_some_iff.mp h
  obtain ⟨hu, hfin⟩ := hplus ht hu
  obtain ⟨hv, hfin⟩ := hplus hfin hv
  rw [(hplus hfin h).1, hv, hu]
  unfold addInterval
  omega

theorem inZone_calendarServer : InZone calendarServer 0 where
  zone_mem := by decide
  toChar _ t _ := by
    rw [Int.add_zero]
    rfl
  plus _ _ _ := isTime_plusCalendar
  minus _ _ _ := isTime_plusCalendar
  dateTrunc _ _ _ := isTime_plusUtc
  plus_minusInfinity _ := rfl
  maxIdentifierLength := rfl

/-- On this server, intervals that lead out of the periods have distinct names. -/
theorem nodup_calendarServer (hmonth : 0 ≤ iv.month) (hday : 0 ≤ iv.day) (htime : 0 ≤ iv.time)
    (hpos : 1000000 ≤ iv.cmpValue) (hleads : iv.LeadsOut)
    (hparts : ∀ p ∈ ranges table.partitions, IsTime p.1) (hto : IsTime toValue)
    (hfrom : IsTime fromValue) (hret : Returns calendarServer table iv toValue fromValue rs)
    (hera : ∀ r ∈ rs, 1 ≤ (nameUnit iv).yearOf r.rangeFrom) :
    (rs.map MissingRange.partitionName).Nodup := by
  refine nodup_of_leadsOut inZone_calendarServer hmonth hday htime hpos hleads
    (fun t t' ht h => ?_) hparts hto hfrom hret (fun r hr => ?_)
  · rw [Int.add_zero, Int.add_zero]
    exact plus_calendarServer ht h
  · rw [Int.add_zero]
    exact hera r hr

end TimePartitions
