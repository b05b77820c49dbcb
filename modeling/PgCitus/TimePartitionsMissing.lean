import PgCitus.TimePartitionsGrid

/-!
# What the missing ranges cover, and what they overlap

Two things one would expect of the ranges that `get_missing_time_partition_ranges`
returns, and when they are so.

Together with the partitions there are, the ranges should cover the time asked for.
They cover it from the start of the grid on (`Lays.covers`). Where the grid is stepped
forward from the first partition, that start is the first grid point that is *not
before* the time asked for – not the last one that is not after it, as when it is
stepped backward, or rounded – so what lies between is covered only if a partition
happens to do it (`covers_iff`).

And the ranges should not overlap a partition; where one would, the function should
refuse. It looks for a partition that one of the two ends of the range lies in. A
partition that lies within the range, and starts after it, has neither in it
(`overlapTest_iff`), and so goes unnoticed where all that meet the grid lie like this
(`aligned_iff`).
-/

namespace TimePartitions

variable {srv : Server} {table : PartitionedTable} {partitions : List TimePartition}
  {iv : Interval} {toValue fromValue a b c d s : Timestamptz} {rs : List MissingRange}

/-- A returned range holds an instant. -/
def MissingRange.Holds (r : MissingRange) (t : Timestamptz) : Prop :=
  r.rangeFrom ≤ t ∧ t < r.rangeTo

/-! ## What the main loop covers -/

/-- **The ranges and the partitions cover everything from the start of the grid on.** -/
theorem Lays.covers (h : Lays srv table iv toValue a b rs) {t : Timestamptz} (ha : a ≤ t)
    (ht : t < toValue) : Held table.partitions t ∨ ∃ r ∈ rs, r.Holds t := by
  induction h with
  | stop hge => exact absurd (lt_of_lt_of_le ht hge) (not_lt_of_ge ha)
  | @skip a b c rs hlt hall hpart hc hrest ih =>
    by_cases htb : t < b
    · exact .inl ⟨(a, b), isPartition_iff.mp hpart, ha, htb⟩
    · exact ih (le_of_not_gt htb)
  | @add a b c rs hlt hall hpart hno htype hc hrest ih =>
    by_cases htb : t < b
    · exact .inr ⟨_, List.mem_cons_self, ha, htb⟩
    · refine (ih (le_of_not_gt htb)).imp_right ?_
      rintro ⟨r, hr, hrt⟩
      exact ⟨r, List.mem_cons_of_mem _ hr, hrt⟩

/-- **A returned range is one of the grid**, and no partition; nothing of it is found
misaligned. -/
theorem Lays.mem (h : Lays srv table iv toValue a b rs) (hab : srv.plus a iv = some b)
    {r : MissingRange} (hr : r ∈ rs) :
    (∃ k, plusN srv iv k a = some r.rangeFrom) ∧ srv.plus r.rangeFrom iv = some r.rangeTo ∧
      r.rangeFrom < toValue ∧ ¬ IsPartition table.partitions r.rangeFrom r.rangeTo := by
  have hnext : ∀ {a b : Timestamptz} {r : MissingRange}, srv.plus a iv = some b →
      (∃ k, plusN srv iv k b = some r.rangeFrom) → ∃ k, plusN srv iv k a = some r.rangeFrom := by
    rintro a b r hab ⟨k, hk⟩
    refine ⟨k + 1, ?_⟩
    show (srv.plus a iv).bind (plusN srv iv k) = some r.rangeFrom
    rw [hab]
    exact hk
  induction h with
  | stop hge => cases hr
  | skip hlt hall hpart hc hrest ih => exact (ih hc hr).imp_left (hnext hab)
  | add hlt hall hpart hno htype hc hrest ih =>
    rcases List.mem_cons.mp hr with rfl | hr
    · exact ⟨⟨0, rfl⟩, hab, hlt, hpart⟩
    · exact (ih hc hr).imp_left (hnext hab)

/-- No returned range starts before the grid does. -/
theorem Lays.le_rangeFrom (hadv : Advances srv iv) (h : Lays srv table iv toValue a b rs)
    (hab : srv.plus a iv = some b) {r : MissingRange} (hr : r ∈ rs) : a ≤ r.rangeFrom := by
  obtain ⟨⟨k, hk⟩, _⟩ := h.mem hab hr
  exact Loop.le_of_iter hadv hk

/-- **The main loop comes to its end**: for some number `n` of ranges, the grid has come
to the end of the time asked for, while the ranges before start earlier and none of
them is found misaligned. -/
def Completes (srv : Server) (table : PartitionedTable) (iv : Interval)
    (toValue s : Timestamptz) : Prop :=
  ∃ n, (∃ x y, plusN srv iv n s = some x ∧ srv.plus x iv = some y ∧ toValue ≤ x) ∧
    ∀ k < n, ∃ x y, plusN srv iv k s = some x ∧ srv.plus x iv = some y ∧ x < toValue ∧
      AllRanges table.partitions ∧ ¬ Misaligned table.partitions x y

theorem not_misaligned_iff : ¬ Misaligned partitions a b ↔
    IsPartition partitions a b ∨ ∀ tp ∈ partitions, overlapTest a b tp = false := by
  unfold Misaligned
  rw [not_and_or, not_not]
  simp only [not_exists, not_and, Bool.not_eq_true]

theorem plusN_succ (hab : srv.plus a iv = some b) (k : ℕ) :
    plusN srv iv (k + 1) a = plusN srv iv k b := by
  show (srv.plus a iv).bind (plusN srv iv k) = plusN srv iv k b
  rw [hab]
  rfl

/-- A grid that comes to a range has a first one. -/
theorem exists_plus {n : ℕ} {x y : Timestamptz} (hn : plusN srv iv n a = some x)
    (hxy : srv.plus x iv = some y) : ∃ b, srv.plus a iv = some b := by
  cases n with
  | zero => exact ⟨y, (show a = x from Option.some.inj hn) ▸ hxy⟩
  | succ n =>
    obtain ⟨b, hb, _⟩ := Option.bind_eq_some_iff.mp hn
    exact ⟨b, hb⟩

theorem Completes.exists_plus (h : Completes srv table iv toValue s) :
    ∃ b, srv.plus s iv = some b := by
  obtain ⟨n, ⟨x, y, hn, hxy, _⟩, _⟩ := h
  exact TimePartitions.exists_plus hn hxy

/-- At the end of the time asked for, the loop has come to its end. -/
theorem Completes.stop (hab : srv.plus a iv = some b) (hge : toValue ≤ a) :
    Completes srv table iv toValue a :=
  ⟨0, ⟨a, b, rfl, hab, hge⟩, fun k hk => absurd hk (Nat.not_lt_zero k)⟩

/-- From a range that is passed, it comes to its end if it does so from the next one. -/
theorem Completes.step (hab : srv.plus a iv = some b) (hlt : a < toValue)
    (hall : AllRanges table.partitions) (hmis : ¬ Misaligned table.partitions a b)
    (h : Completes srv table iv toValue b) : Completes srv table iv toValue a := by
  obtain ⟨n, hend, hbefore⟩ := h
  refine ⟨n + 1, by rw [plusN_succ hab]; exact hend, fun k hk => ?_⟩
  cases k with
  | zero => exact ⟨a, b, rfl, hab, hlt, hall, hmis⟩
  | succ k =>
    rw [plusN_succ hab]
    exact hbefore k (Nat.lt_of_succ_lt_succ hk)

/-- **Exactly then it returns.** -/
theorem exists_lays_iff (htype : table.atttypid ≠ .other) (hab : srv.plus a iv = some b) :
    (∃ rs, Lays srv table iv toValue a b rs) ↔ Completes srv table iv toValue a := by
  constructor
  · rintro ⟨rs, h⟩
    induction h with
    | stop hge => exact .stop hab hge
    | skip hlt hall hpart hc hrest ih => exact .step hab hlt hall (fun h => h.1 hpart) (ih hc)
    | add hlt hall hpart hno htype' hc hrest ih =>
      exact .step hab hlt hall (not_misaligned_iff.mpr (.inr hno)) (ih hc)
  · rintro ⟨n, hend, hbefore⟩
    induction n generalizing a b with
    | zero =>
      obtain ⟨x, y, hx, _, hge⟩ := hend
      exact ⟨[], .stop ((Option.some.inj hx) ▸ hge)⟩
    | succ n ih =>
      obtain ⟨x, y, hx, hxy, hlt, hall, hmis⟩ := hbefore 0 (Nat.succ_pos n)
      have hxa : a = x := Option.some.inj hx
      subst hxa
      have hby : b = y := Option.some.inj (hab.symm.trans hxy)
      subst hby
      rw [plusN_succ hab] at hend
      have hbefore' : ∀ k < n, ∃ x y, plusN srv iv k b = some x ∧ srv.plus x iv = some y ∧
          x < toValue ∧ AllRanges table.partitions ∧ ¬ Misaligned table.partitions x y := by
        intro k hk
        rw [← plusN_succ hab]
        exact hbefore (k + 1) (Nat.succ_lt_succ hk)
      obtain ⟨c, hc⟩ := Completes.exists_plus ⟨n, hend, hbefore'⟩
      obtain ⟨rs, hrs⟩ := ih hc hend hbefore'
      rcases not_misaligned_iff.mp hmis with hpart | hno
      · exact ⟨rs, .skip hlt hall hpart hc hrs⟩
      · by_cases hpart : IsPartition table.partitions a b
        · exact ⟨rs, .skip hlt hall hpart hc hrs⟩
        · exact ⟨_, .add hlt hall hpart hno htype hc hrs⟩

/-- **When the time asked for is covered.** Of every call that returns, the returned
ranges and the partitions cover the time asked for if and only if, wherever the main
loop comes to its end, the partitions cover what of that time lies before the start of
the grid. -/
theorem covers_iff (hadv : Advances srv iv) (table : PartitionedTable)
    (toValue fromValue : Timestamptz) :
    (∀ rs, Returns srv table iv toValue fromValue rs → ∀ t, fromValue ≤ t → t < toValue →
      Held table.partitions t ∨ ∃ r ∈ rs, r.Holds t) ↔
    (∀ s, Accepted table iv → GridStart srv table.partitions iv fromValue s →
      Completes srv table iv toValue s → ∀ t, fromValue ≤ t → t < toValue → t < s →
        Held table.partitions t) := by
  constructor
  · intro h s hacc hs hcomp t hft htt hts
    obtain ⟨b, hb⟩ := hcomp.exists_plus
    obtain ⟨rs, hrs⟩ := (exists_lays_iff hacc.type hb).mpr hcomp
    refine (h rs (returns_iff.mpr ⟨hacc, s, b, hs, hb, hrs⟩) t hft htt).resolve_right ?_
    rintro ⟨r, hr, hrt⟩
    exact not_lt_of_ge (le_trans (hrs.le_rangeFrom hadv hb hr) hrt.1) hts
  · intro h rs hret t hft htt
    obtain ⟨hacc, s, b, hs, hb, hlays⟩ := returns_iff.mp hret
    by_cases hts : t < s
    · exact .inl (h s hacc hs ((exists_lays_iff hacc.type hb).mp ⟨rs, hlays⟩) t hft htt hts)
    · exact hlays.covers (le_of_not_gt hts) htt

/-- With the partition of hours zero to two, and two hours asked for from hour two on,
the condition is met. -/
theorem covers_iff_hours : Advances utcServer twoHours ∧
    ((∀ rs, Returns utcServer eventsUntilTwo twoHours (hours 4) (hours 2) rs →
        ∀ t, hours 2 ≤ t → t < hours 4 →
        Held eventsUntilTwo.partitions t ∨ ∃ r ∈ rs, r.Holds t) ↔
      (∀ s, Accepted eventsUntilTwo twoHours →
        GridStart utcServer eventsUntilTwo.partitions twoHours (hours 2) s →
        Completes utcServer eventsUntilTwo twoHours (hours 4) s →
        ∀ t, hours 2 ≤ t → t < hours 4 → t < s → Held eventsUntilTwo.partitions t)) :=
  ⟨advances_utcServer (by decide) (by decide),
    covers_iff (advances_utcServer (by decide) (by decide)) eventsUntilTwo (hours 4) (hours 2)⟩

/-- **Hour three is left out.** From the partition of hours zero to two, the grid is
stepped forward to hour four when hour three is asked for. -/
theorem forward_leaves_gap : ∃ rs,
    Returns utcServer eventsUntilTwo twoHours (hours 6) (hours 3) rs ∧
    ¬ (Held eventsUntilTwo.partitions (hours 3) ∨ ∃ r ∈ rs, r.Holds (hours 3)) := by
  refine ⟨[missingRange utcServer eventsUntilTwo twoHours (hours 4) (hours 6)], ⟨5, rfl⟩, ?_⟩
  rintro (⟨p, hp, hpt⟩ | ⟨r, hr, hrt⟩)
  · rw [List.mem_singleton.mp hp] at hpt
    exact absurd hpt.2 (by decide)
  · rw [List.mem_singleton.mp hr] at hrt
    exact absurd hrt.1 (show ¬ hours 4 ≤ hours 3 by decide)

/-! ## What the alignment check finds -/

/-- A partition meets a range: it holds its start, or starts within it. -/
def Meets (p : Timestamptz × Timestamptz) (a b : Timestamptz) : Prop :=
  (p.1 ≤ a ∧ a < p.2) ∨ (a < p.1 ∧ p.1 < b)

/-- A partition lies within a range, and starts after it. -/
def LiesWithin (p : Timestamptz × Timestamptz) (a b : Timestamptz) : Prop :=
  a < p.1 ∧ p.2 ≤ b

/-- **The partitions the check finds**: those that meet the range, except for the ones that
lie within it. -/
theorem overlapTest_iff {name : String} {p : Timestamptz × Timestamptz} (hab : a ≤ b) :
    overlapTest a b ⟨name, some p⟩ = true ↔ Meets p a b ∧ ¬ LiesWithin p a b := by
  unfold overlapTest Meets LiesWithin
  simp only [ge_iff_le, gt_iff_lt, Bool.or_eq_true, Bool.and_eq_true, decide_eq_true_eq, not_and,
    not_le]
  constructor
  · rintro (⟨hstart, hend⟩ | ⟨hstart, hend⟩)
    · exact ⟨.inl ⟨hstart, hend⟩, fun h => absurd h (not_lt_of_ge hstart)⟩
    · refine ⟨?_, fun _ => hend⟩
      rcases le_or_gt p.1 a with h | h
      · exact .inl ⟨h, lt_of_le_of_lt hab hend⟩
      · exact .inr ⟨h, hstart⟩
  · rintro ⟨⟨hstart, hend⟩ | ⟨hstart, hend⟩, hout⟩
    · exact .inl ⟨hstart, hend⟩
    · exact .inr ⟨hend, hout hstart⟩

/-- **A range is found misaligned** if it is not a partition and meets one that does not lie
within it. -/
theorem misaligned_iff (hab : a ≤ b) : Misaligned partitions a b ↔
    ¬ IsPartition partitions a b ∧ ∃ p ∈ ranges partitions, Meets p a b ∧ ¬ LiesWithin p a b := by
  refine and_congr_right fun _ => ?_
  constructor
  · rintro ⟨⟨name, bounds⟩, htp, htest⟩
    cases bounds with
    | none => cases htest
    | some p => exact ⟨p, mem_ranges.mpr ⟨_, htp, rfl⟩, (overlapTest_iff hab).mp htest⟩
  · rintro ⟨p, hp, hmeets⟩
    obtain ⟨⟨name, bounds⟩, htp, rfl⟩ := mem_ranges.mp hp
    exact ⟨_, htp, (overlapTest_iff hab).mpr hmeets⟩

/-- Where the main loop raises, it has come to a misaligned range of the grid. -/
theorem exists_misaligned {k : Cursor} {tp : TimePartition}
    (h : Loop.Ends (mainBody srv table iv toValue) k (.error (.notAligned tp)))
    (hab : srv.plus k.currentRangeFromValue iv = some k.currentRangeToValue) :
    ∃ n x y, plusN srv iv n k.currentRangeFromValue = some x ∧ srv.plus x iv = some y ∧
      x < toValue ∧ Misaligned table.partitions x y := by
  generalize hres : (Except.error (.notAligned tp) : Except Error (List MissingRange)) = res at h
  induction h with
  | @done k _ h =>
    have hpass := pass_mainBody srv table iv toValue k
    rw [h] at hpass
    subst hres
    cases hpass with
    | misaligned hlt _ hmis => exact ⟨0, _, _, rfl, hab, hlt, hmis⟩
  | @next k k' _ h _ ih =>
    have hpass := pass_mainBody srv table iv toValue k
    rw [h] at hpass
    have hnext : srv.plus k'.currentRangeFromValue iv = some k'.currentRangeToValue ∧
        k'.currentRangeFromValue = k.currentRangeToValue := by
      cases hpass with
      | skip _ _ _ hx => exact ⟨hx, rfl⟩
      | add _ _ _ _ _ hx => exact ⟨hx, rfl⟩
    obtain ⟨n, x, y, hn, hxy, hlt, hmis⟩ := ih hnext.1 hres
    refine ⟨n + 1, x, y, ?_, hxy, hlt, hmis⟩
    rw [plusN_succ hab, ← hnext.2]
    exact hn

/-- **A misaligned range of the grid makes the main loop raise**, there or before. -/
theorem ends_notAligned (hadv : Advances srv iv) (hall : AllRanges table.partitions)
    (htype : table.atttypid ≠ .other) {n : ℕ} {x y : Timestamptz}
    (hab : srv.plus a iv = some b) (hn : plusN srv iv n a = some x)
    (hxy : srv.plus x iv = some y) (hlt : x < toValue) (hmis : Misaligned table.partitions x y)
    (out : List MissingRange) :
    ∃ tp, Loop.Ends (mainBody srv table iv toValue) ⟨a, b, out⟩ (.error (.notAligned tp)) := by
  induction n generalizing a b out with
  | zero =>
    have hax : a = x := Option.some.inj hn
    subst hax
    have hby : b = y := Option.some.inj (hab.symm.trans hxy)
    subst hby
    have hpass := pass_mainBody srv table iv toValue ⟨a, b, out⟩
    generalize hm : mainBody srv table iv toValue ⟨a, b, out⟩ = m at hpass
    cases hpass with
    | stop hge => exact absurd hlt (not_lt_of_ge hge)
    | default _ hno => exact absurd hall hno
    | skip _ _ hpart _ => exact absurd hpart hmis.1
    | misaligned => exact ⟨_, .done hm⟩
    | badType hother => exact absurd hother htype
    | add _ _ _ hno _ _ => exact absurd hmis (not_misaligned_iff.mpr (.inr hno))
    | overflow hno _ => exact absurd hmis hno
  | succ n ih =>
    rw [plusN_succ hab] at hn
    have hle : b ≤ x := Loop.le_of_iter hadv hn
    have halt : a < toValue := lt_of_le_of_lt (le_trans (hadv a b hab) hle) hlt
    obtain ⟨c, hc⟩ := exists_plus hn hxy
    have hpass := pass_mainBody srv table iv toValue ⟨a, b, out⟩
    generalize hm : mainBody srv table iv toValue ⟨a, b, out⟩ = m at hpass
    have hgo : ∀ {z : Timestamptz} {out' : List MissingRange}, srv.plus b iv = some z →
        mainBody srv table iv toValue ⟨a, b, out⟩ = .next ⟨b, z, out'⟩ →
        ∃ tp, Loop.Ends (mainBody srv table iv toValue) ⟨a, b, out⟩ (.error (.notAligned tp)) := by
      intro z out' hz hm
      obtain ⟨tp, htp⟩ := ih hz hn out'
      exact ⟨tp, .next hm htp⟩
    cases hpass with
    | stop hge => exact absurd halt (not_lt_of_ge hge)
    | default _ hno => exact absurd hall hno
    | skip _ _ _ hz => exact hgo hz hm
    | misaligned => exact ⟨_, .done hm⟩
    | badType hother => exact absurd hother htype
    | add _ _ _ _ _ hz => exact hgo hz hm
    | overflow _ hz => cases hz.symm.trans hc

/-- **When the alignment error is raised**: a range of the grid below the end of the
time asked for is found misaligned. -/
theorem raises_notAligned_iff (hadv : Advances srv iv) (hall : AllRanges table.partitions) :
    (∃ tp, Raises srv table iv toValue fromValue (.notAligned tp)) ↔
      Accepted table iv ∧ ∃ a b, GridRange srv table.partitions iv fromValue a b ∧ a < toValue ∧
        Misaligned table.partitions a b := by
  constructor
  · rintro ⟨tp, fuel, h⟩
    obtain ⟨hacc, s, b, hs, hb, hends⟩ :=
      main_of_call h (fun e he => Except.error.inj he ▸ trivial)
    obtain ⟨n, x, y, hn, hxy, hlt, hmis⟩ := exists_misaligned hends hb
    exact ⟨hacc, x, y, ⟨s, n, hs, hn, hxy⟩, hlt, hmis⟩
  · rintro ⟨hacc, x, y, ⟨s, n, hs, hn, hxy⟩, hlt, hmis⟩
    obtain ⟨b, hb⟩ := exists_plus hn hxy
    obtain ⟨tp, hends⟩ := ends_notAligned hadv hall hacc.type hb hn hxy hlt hmis []
    exact ⟨tp, call_of_main hacc hs hb hends⟩

/-- **The returned ranges do not overlap each other.** -/
theorem Lays.pairwise (hadv : Advances srv iv) (h : Lays srv table iv toValue a b rs) :
    rs.Pairwise fun r r' => ∀ t, ¬ (r.Holds t ∧ r'.Holds t) := by
  induction h with
  | stop hge => exact List.Pairwise.nil
  | skip hlt hall hpart hc hrest ih => exact ih
  | @add a b c rs hlt hall hpart hno htype hc hrest ih =>
    refine List.Pairwise.cons (fun r hr t => ?_) ih
    rintro ⟨hrange, hrt⟩
    exact not_lt_of_ge (le_trans (hrest.le_rangeFrom hadv hc hr) hrt.1) hrange.2

/-- A range of the grid overlaps a partition other than by being equal to it. -/
def Overlaps (partitions : List TimePartition) (a b : Timestamptz) : Prop :=
  ∃ p ∈ ranges partitions, p ≠ (a, b) ∧ ∃ t, (a ≤ t ∧ t < b) ∧ p.1 ≤ t ∧ t < p.2

/-- **When overlaps are kept out.** That the ranges a call returns overlap neither each
other nor a partition, and that a call raises the alignment error wherever a range of
the grid below the end of the time asked for overlaps a partition without being equal
to it: this is so if and only if no such range overlaps a partition, or one that is no
partition itself meets a partition that does not lie within it. -/
theorem aligned_iff (hadv : Advances srv iv) (hall : AllRanges table.partitions)
    (toValue fromValue : Timestamptz) :
    ((∀ rs, Returns srv table iv toValue fromValue rs →
        rs.Pairwise (fun r r' => ∀ t, ¬ (r.Holds t ∧ r'.Holds t)) ∧
        ∀ r ∈ rs, ∀ t, r.Holds t → ¬ Held table.partitions t) ∧
      ((∃ a b, GridRange srv table.partitions iv fromValue a b ∧ a < toValue ∧
          Overlaps table.partitions a b) →
        ∃ tp, Raises srv table iv toValue fromValue (.notAligned tp))) ↔
    (¬ ∃ a b, GridRange srv table.partitions iv fromValue a b ∧ a < toValue ∧
        Overlaps table.partitions a b) ∨
      Accepted table iv ∧ ∃ a b, GridRange srv table.partitions iv fromValue a b ∧ a < toValue ∧
        ¬ IsPartition table.partitions a b ∧
        ∃ p ∈ ranges table.partitions, Meets p a b ∧ ¬ LiesWithin p a b := by
  have hraises : (∃ tp, Raises srv table iv toValue fromValue (.notAligned tp)) ↔
      Accepted table iv ∧ ∃ a b, GridRange srv table.partitions iv fromValue a b ∧ a < toValue ∧
        ¬ IsPartition table.partitions a b ∧
        ∃ p ∈ ranges table.partitions, Meets p a b ∧ ¬ LiesWithin p a b := by
    rw [raises_notAligned_iff hadv hall]
    refine and_congr_right fun _ => exists_congr fun a => exists_congr fun b =>
      and_congr_right fun hgrid => and_congr_right fun _ => ?_
    obtain ⟨_, _, _, _, hab⟩ := hgrid
    exact misaligned_iff (hadv a b hab)
  rw [← hraises, or_comm]
  constructor
  · rintro ⟨_, hraise⟩
    by_cases hover : ∃ a b, GridRange srv table.partitions iv fromValue a b ∧ a < toValue ∧
        Overlaps table.partitions a b
    · exact .inl (hraise hover)
    · exact .inr hover
  · rintro (⟨tp, fuel, hraise⟩ | hno)
    · refine ⟨fun rs hret => ?_, fun _ => ⟨tp, fuel, hraise⟩⟩
      -- a call that raises does not return
      obtain ⟨_, s, b, hs, hb, hends⟩ :=
        main_of_call hraise (fun e he => Except.error.inj he ▸ trivial)
      obtain ⟨_, s', b', hs', hb', hlays⟩ := returns_iff.mp hret
      have hss := hs.unique hs'
      subst hss
      have hbb : b = b' := Option.some.inj (hb.symm.trans hb')
      subst hbb
      cases hends.unique (ends_of_lays hlays [])
    · refine ⟨fun rs hret => ?_, fun hover => absurd hover hno⟩
      obtain ⟨_, s, b, hs, hb, hlays⟩ := returns_iff.mp hret
      refine ⟨hlays.pairwise hadv, fun r hr t hrt => ?_⟩
      rintro ⟨p, hp, hpt⟩
      obtain ⟨⟨k, hk⟩, hto, hlt, hpart⟩ := hlays.mem hb hr
      refine hno ⟨r.rangeFrom, r.rangeTo, ⟨s, k, hs, hk, hto⟩, hlt, p, hp, ?_, t, hrt, hpt⟩
      rintro rfl
      exact hpart (isPartition_iff.mpr hp)

/-- A table of events with the partitions of hours zero to two, and three to five. -/
def eventsShifted : PartitionedTable :=
  eventsTable [⟨"p", some (hours 0, hours 2)⟩, ⟨"q", some (hours 3, hours 5)⟩]

/-- With hours two to four asked for, the range meets a partition that goes on after it, and
the theorem says that this is noticed. -/
theorem aligned_iff_hours :
    (∀ rs, Returns utcServer eventsShifted twoHours (hours 4) (hours 2) rs →
        rs.Pairwise (fun r r' => ∀ t, ¬ (r.Holds t ∧ r'.Holds t)) ∧
        ∀ r ∈ rs, ∀ t, r.Holds t → ¬ Held eventsShifted.partitions t) ∧
      ((∃ a b, GridRange utcServer eventsShifted.partitions twoHours (hours 2) a b ∧
          a < hours 4 ∧ Overlaps eventsShifted.partitions a b) →
        ∃ tp, Raises utcServer eventsShifted twoHours (hours 4) (hours 2) (.notAligned tp)) := by
  have hall : AllRanges eventsShifted.partitions := by
    unfold AllRanges
    decide
  refine (aligned_iff (advances_utcServer (by decide) (by decide)) hall (hours 4) (hours 2)).mpr
    (.inr ⟨rfl, hours 2, hours 4, ⟨hours 2, 0, ?_, rfl, rfl⟩, by decide, ?_, ?_⟩)
  · refine .forward (p := hours 0) (q := hours 2) (n := 1) rfl (by decide) rfl le_rfl ?_
    intro m hm x hx
    rw [Nat.lt_one_iff.mp hm] at hx
    exact (show hours 0 = x from Option.some.inj hx) ▸ (by decide)
  · unfold IsPartition
    decide
  · refine ⟨(hours 3, hours 5), List.mem_cons_of_mem _ (List.mem_singleton_self _), ?_⟩
    unfold Meets LiesWithin
    decide

/-- **A shorter partition goes unnoticed.** The range of hours two to four is returned,
although there is a partition of hours three to four. -/
theorem short_partition_overlapped : ∃ rs,
    Returns utcServer (eventsTable [⟨"p", some (hours 0, hours 2)⟩, ⟨"q", some (hours 3, hours 4)⟩])
      twoHours (hours 4) (hours 2) rs ∧
    ∃ r ∈ rs, ∃ t, r.Holds t ∧
      Held [⟨"p", some (hours 0, hours 2)⟩, ⟨"q", some (hours 3, hours 4)⟩] t := by
  refine ⟨[missingRange utcServer (eventsTable [⟨"p", some (hours 0, hours 2)⟩,
    ⟨"q", some (hours 3, hours 4)⟩]) twoHours (hours 2) (hours 4)], ⟨5, rfl⟩,
    _, List.mem_singleton_self _, hours 3, ?_, (hours 3, hours 4), ?_, ?_⟩
  · exact show hours 2 ≤ hours 3 ∧ hours 3 < hours 4 by decide
  · exact List.mem_cons_of_mem _ (List.mem_singleton_self _)
  · exact show hours 3 ≤ hours 3 ∧ hours 3 < hours 4 by decide

end TimePartitions
