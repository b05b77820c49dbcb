import PgCitus.TimePartitionsMissing

/-!
# Creating the partitions again

Once `create_time_partitions` has succeeded, calling it again has nothing left to do.
The second call may anchor its grid elsewhere, though. Where the first one went back
from the first partition, or had none and rounded, it created the range that its grid
starts with, which no partition was in front of (`exists_firstRange`); that range is
the first partition now, and the second call goes *forward* from it, to a grid point
that the first call came by (`Lays.forward`). Where the first call went forward itself,
what it created does not come before the first partition, and the second call starts
where the first one did.

Either way the second call lays ranges that are all partitions by then (`Lays.relaid`).

That a rounded time is not after the time itself is not up to this function, however. Where
clocks are set back at the beginning of a day, the hour after midnight comes twice, and a
time of the first one is rounded to the second midnight. The first call then starts after
the time asked for, and the second one finds that and goes *back* from what the first one
created (`create_again_iff`, `havana_creates_again`).
-/

namespace TimePartitions

variable {srv : Server} {table table' : PartitionedTable} {iv : Interval}
  {toValue fromValue endAt startFrom a b s : Timestamptz} {rs : List MissingRange}

/-- **`CREATE TABLE` adds the range it is given**, among the partitions that there are,
and changes nothing else. -/
def AddsExactly (srv : Server) : Prop :=
  ∀ table r table', srv.createTable table r = some table' → ∃ name l₁ l₂,
    table.partitions = l₁ ++ l₂ ∧
      table' = { table with
        partitions := l₁ ++ ⟨name, some (r.rangeFrom, r.rangeTo)⟩ :: l₂ }

/-- The server in UTC adds partitions like this: at the end. -/
theorem addsExactly_utcServer : AddsExactly utcServer := by
  intro table r table' h
  change (if table.partitions.any _ then none else if (ranges table.partitions).any _ then none
    else if r.rangeTo ≤ r.rangeFrom then none else some _) = some table' at h
  split at h
  · cases h
  · split at h
    · cases h
    · split at h
      · cases h
      · exact ⟨r.partitionName, table.partitions, [], (List.append_nil _).symm,
          (Option.some.inj h).symm⟩

/-- A call succeeds, and says whether it created any partitions. -/
def Creates (srv : Server) (table : Option PartitionedTable) (iv : Interval)
    (endAt startFrom : Timestamptz) (created : Bool) (table' : Option PartitionedTable) : Prop :=
  ∃ fuel, createTimePartitions srv fuel table iv endAt startFrom = some (.ok (created, table'))

/-! ## What creating partitions changes -/

/-- **A table with partitions added**, one for each of the ranges. -/
structure Extended (table table' : PartitionedTable) (rs : List MissingRange) : Prop where
  same : table' = { table with partitions := table'.partitions }
  mem_iff : ∀ p, p ∈ ranges table'.partitions ↔
    p ∈ ranges table.partitions ∨ ∃ r ∈ rs, (r.rangeFrom, r.rangeTo) = p
  all : AllRanges table.partitions → AllRanges table'.partitions

/-- One statement adds one partition. -/
theorem AddsExactly.extended (hcreate : AddsExactly srv) {r : MissingRange}
    (h : srv.createTable table r = some table') : Extended table table' [r] := by
  obtain ⟨name, l₁, l₂, hparts, rfl⟩ := hcreate table r table' h
  refine ⟨rfl, fun p => ?_, fun hall tp htp => ?_⟩
  · have hnew : ranges (⟨name, some (r.rangeFrom, r.rangeTo)⟩ :: l₂) =
        (r.rangeFrom, r.rangeTo) :: ranges l₂ := rfl
    have happ : ∀ l l' : List TimePartition, ranges (l ++ l') = ranges l ++ ranges l' :=
      fun l l' => List.filterMap_append
    rw [happ, hnew, hparts, happ]
    simp only [List.mem_append, List.mem_cons, List.not_mem_nil, or_false, exists_eq_left]
    rw [eq_comm, or_left_comm, or_comm]
  · rw [AllRanges, hparts] at hall
    rcases List.mem_append.mp htp with htp | htp
    · exact hall tp (List.mem_append_left l₂ htp)
    · rcases List.mem_cons.mp htp with rfl | htp
      · rfl
      · exact hall tp (List.mem_append_right l₁ htp)

/-- **All statements add all partitions.** -/
theorem createAll_extended (hcreate : AddsExactly srv) (h : createAll srv rs table = .ok table') :
    Extended table table' rs := by
  induction rs generalizing table with
  | nil =>
    rw [← Except.ok.inj h]
    exact ⟨rfl, fun p => (or_iff_left (fun h => by simp at h)).symm, id⟩
  | cons r rs ih =>
    rw [createAll] at h
    split at h
    case h_2 => cases h
    case h_1 t ht =>
      obtain ⟨hsame₁, hmem₁, hall₁⟩ := hcreate.extended ht
      obtain ⟨hsame₂, hmem₂, hall₂⟩ := ih h
      refine ⟨?_, fun p => ?_, hall₂ ∘ hall₁⟩
      · rw [hsame₂, hsame₁]
      · rw [hmem₂, hmem₁, or_assoc]
        simp only [List.mem_cons, List.not_mem_nil, or_false, exists_eq_left, exists_eq_or_imp]

/-- The checks do not look at the partitions. -/
theorem Extended.accepted (hext : Extended table table' rs) (hacc : Accepted table iv) :
    Accepted table' iv := by
  rw [hext.same]
  unfold Accepted checkTable at hacc ⊢
  simp only at hacc ⊢
  split at hacc
  · cases hacc
  · next hatts =>
    rw [if_neg hatts]
    split at hacc
    · cases hacc
    · next htype =>
      rw [if_neg htype]
      split at hacc
      · cases hacc
      · next hday => exact if_neg hday

/-! ## The second call -/

/-- The first partition starts where all others do, or before. -/
theorem exists_firstRange {ps : List (Timestamptz × Timestamptz)} (hmem : (a, b) ∈ ps)
    (hmin : ∀ p ∈ ps, a ≤ p.1) : ∃ q, firstRange ps = some (a, q) := by
  cases hfirst : firstRange ps with
  | none =>
    rw [firstRange_eq_none.mp hfirst] at hmem
    cases hmem
  | some r =>
    obtain ⟨hr, hle⟩ := firstRange_eq_some hfirst
    have hra : r.1 = a := le_antisymm (hle _ hmem) (hmin r hr)
    exact ⟨r.2, by rw [← hra]⟩

/-- **What was missing is there.** Laid over the extended table, the same ranges are all
partitions. -/
theorem Lays.relaid (hext : Extended table table' rs) {rs₀ : List MissingRange}
    (h : Lays srv table iv toValue a b rs₀) (hsub : ∀ r ∈ rs₀, r ∈ rs) :
    Lays srv table' iv toValue a b [] := by
  have hpart' : ∀ {a b}, (a, b) ∈ ranges table.partitions ∨
      (∃ r ∈ rs, (r.rangeFrom, r.rangeTo) = (a, b)) → IsPartition table'.partitions a b :=
    fun h => isPartition_iff.mpr ((hext.mem_iff _).mpr h)
  induction h with
  | stop hge => exact .stop hge
  | skip hlt hall hpart hc hrest ih =>
    exact .skip hlt (hext.all hall) (hpart' (.inl (isPartition_iff.mp hpart))) hc (ih hsub)
  | add hlt hall hpart hno htype hc hrest ih =>
    have hnew := hsub _ List.mem_cons_self
    exact .skip hlt (hext.all hall) (hpart' (.inr ⟨_, hnew, rfl⟩)) hc
      (ih fun r hr => hsub r (List.mem_cons_of_mem _ hr))

/-- **Going forward from `a` leads to where nothing is missing**: to the first grid point
that is not before the time asked for, from where on all ranges are partitions. -/
def LeadsOn (srv : Server) (table : PartitionedTable) (iv : Interval)
    (toValue fromValue a : Timestamptz) : Prop :=
  ∃ n s c, plusN srv iv n a = some s ∧ fromValue ≤ s ∧
    (∀ m < n, ∀ x, plusN srv iv m a = some x → x < fromValue) ∧
    srv.plus s iv = some c ∧ Lays srv table iv toValue s c []

theorem LeadsOn.here (hab : srv.plus a iv = some b) (hle : fromValue ≤ a)
    (h : Lays srv table iv toValue a b []) : LeadsOn srv table iv toValue fromValue a :=
  ⟨0, a, b, rfl, hle, fun m hm => absurd hm (Nat.not_lt_zero m), hab, h⟩

/-- The walk from `a` is one step, to `b`, and then the walk from there. -/
theorem LeadsOn.step (hab : srv.plus a iv = some b) (hlt : a < fromValue)
    (h : LeadsOn srv table iv toValue fromValue b) : LeadsOn srv table iv toValue fromValue a := by
  obtain ⟨n, s, c, hn, hs, hbefore, hrest⟩ := h
  refine ⟨n + 1, s, c, (plusN_succ hab n).trans hn, hs, fun m hm x hx => ?_, hrest⟩
  cases m with
  | zero => exact (show a = x from Option.some.inj hx) ▸ hlt
  | succ m => exact hbefore m (Nat.lt_of_succ_lt_succ hm) x ((plusN_succ hab m).symm.trans hx)

/-- **Going forward over what the first call laid** leads to a range of it, from where on
nothing is missing. -/
theorem Lays.forward (hext : Extended table table' rs) {rs₀ : List MissingRange}
    (h : Lays srv table iv toValue a b rs₀) (hsub : ∀ r ∈ rs₀, r ∈ rs) (hlt : fromValue < toValue)
    (hab : srv.plus a iv = some b) : LeadsOn srv table' iv toValue fromValue a := by
  induction h with
  | stop hge => exact .here hab (le_trans (le_of_lt hlt) hge) (.stop hge)
  | @skip a b c rs₀ hat hall hpart hc hrest ih =>
    rcases le_or_gt fromValue a with hle | hgt
    · exact .here hab hle ((Lays.skip hat hall hpart hc hrest).relaid hext hsub)
    · exact .step hab hgt (ih hsub hc)
  | @add a b c rs₀ hat hall hpart hno htype hc hrest ih =>
    rcases le_or_gt fromValue a with hle | hgt
    · exact .here hab hle ((Lays.add hat hall hpart hno htype hc hrest).relaid hext hsub)
    · exact .step hab hgt (ih (fun r hr => hsub r (List.mem_cons_of_mem _ hr)) hc)

/-- **From a start in front of all partitions**, the first call creates the range there,
and the second call goes forward from it. -/
theorem Lays.again_of_front (hadv : Advances srv iv) (hext : Extended table table' rs)
    (h : Lays srv table iv toValue s b rs) (hb : srv.plus s iv = some b)
    (hlt : fromValue < toValue) (hs : s ≤ fromValue)
    (hfront : ∀ p ∈ ranges table.partitions, fromValue < p.1) :
    ∃ s' b', GridStart srv table'.partitions iv fromValue s' ∧ srv.plus s' iv = some b' ∧
      Lays srv table' iv toValue s' b' [] := by
  have hmem : (s, b) ∈ ranges table'.partitions := by
    refine (hext.mem_iff _).mpr (.inr ?_)
    cases h with
    | stop hge => exact absurd (lt_of_le_of_lt hs hlt) (not_lt_of_ge hge)
    | skip _ _ hpart _ _ => exact absurd hs (not_le_of_gt (hfront _ (isPartition_iff.mp hpart)))
    | add => exact ⟨_, List.mem_cons_self, rfl⟩
  have hmin : ∀ p ∈ ranges table'.partitions, s ≤ p.1 := by
    intro p hp
    rcases (hext.mem_iff p).mp hp with hp | ⟨r, hr, rfl⟩
    · exact le_trans hs (le_of_lt (hfront p hp))
    · exact h.le_rangeFrom hadv hb hr
  obtain ⟨q, hfirst⟩ := exists_firstRange hmem hmin
  obtain ⟨n, s', b', hn, hs', hbefore, hb', hrest⟩ := h.forward hext (fun r hr => hr) hlt hb
  exact ⟨s', b', .forward hfirst hs hn hs' hbefore, hb', hrest⟩

/-- **A first partition that the grid does not start before stays the first one.** -/
theorem Lays.firstRange_kept (hadv : Advances srv iv) (hext : Extended table table' rs)
    (h : Lays srv table iv toValue s b rs) (hb : srv.plus s iv = some b) {p q : Timestamptz}
    (hfirst : firstRange (ranges table.partitions) = some (p, q)) (hp : p ≤ s) :
    ∃ q', firstRange (ranges table'.partitions) = some (p, q') := by
  obtain ⟨hmem, hle⟩ := firstRange_eq_some hfirst
  refine exists_firstRange ((hext.mem_iff _).mpr (.inl hmem)) fun p' hp' => ?_
  rcases (hext.mem_iff p').mp hp' with hp' | ⟨r, hr, rfl⟩
  · exact hle p' hp'
  · exact le_trans hp (h.le_rangeFrom hadv hb hr)

/-- **The grid does not start at a rounded time between the times asked for**: there are
partitions to start from, or the rounded time is not after the start of the time asked for,
or not before its end. -/
def RoundsDown (srv : Server) (partitions : List TimePartition) (iv : Interval)
    (toValue fromValue : Timestamptz) : Prop :=
  ranges partitions = [] → ∀ s, srv.dateTrunc (truncUnit iv) fromValue = some s →
    s ≤ fromValue ∨ toValue ≤ s

/-- **Nothing is missing from the extended table**, unless its grid was rounded up. -/
theorem returns_nil (hadv : Advances srv iv) (hext : Extended table table' rs)
    (hlt : fromValue < toValue) (hround : RoundsDown srv table.partitions iv toValue fromValue)
    (h : Returns srv table iv toValue fromValue rs) : Returns srv table' iv toValue fromValue [] := by
  obtain ⟨hacc, s, b, hs, hb, hlays⟩ := returns_iff.mp h
  refine returns_iff.mpr ⟨hext.accepted hacc, ?_⟩
  cases hs with
  | truncated hnone htr =>
    have hempty := firstRange_eq_none.mp hnone
    rcases hround hempty s htr with hle | hge
    · refine hlays.again_of_front hadv hext hb hlt hle fun p hp => ?_
      rw [hempty] at hp
      cases hp
    · -- the first call created nothing either
      have hrs : rs = [] := by
        cases hlays with
        | stop => rfl
        | skip hlt' => exact absurd hlt' (not_lt_of_ge hge)
        | add hlt' => exact absurd hlt' (not_lt_of_ge hge)
      subst hrs
      have hempty' : ranges table'.partitions = [] := by
        refine List.eq_nil_iff_forall_not_mem.mpr fun p hp => ?_
        have hold := (hext.mem_iff p).mp hp
        simp [hempty] at hold
      exact ⟨s, b, .truncated (firstRange_eq_none.mpr hempty') htr, hb, .stop hge⟩
  | backward hfirst hp hn hs _ =>
    exact hlays.again_of_front hadv hext hb hlt hs fun p' hp' =>
      lt_of_lt_of_le hp ((firstRange_eq_some hfirst).2 p' hp')
  | forward hfirst hp hn hs hbefore =>
    obtain ⟨q', hfirst'⟩ := hlays.firstRange_kept hadv hext hb hfirst (le_trans hp hs)
    exact ⟨s, b, .forward hfirst' hp hn hs hbefore, hb, hlays.relaid hext fun r hr => hr⟩

/-- **After a grid that was rounded up, something is missing**: the range that the second call
goes back to. -/
theorem roundsDown_of_returns_nil (hadv : Advances srv iv) (hext : Extended table table' rs)
    (hlt : fromValue < toValue) (h : Returns srv table iv toValue fromValue rs)
    (hnil : Returns srv table' iv toValue fromValue []) :
    RoundsDown srv table.partitions iv toValue fromValue := by
  intro hempty s htr
  by_contra hno
  rw [not_or, not_le, not_le] at hno
  obtain ⟨hafter, hbefore⟩ := hno
  obtain ⟨_, s₀, b, hs₀, hb, hlays⟩ := returns_iff.mp h
  obtain rfl := hs₀.unique (.truncated (firstRange_eq_none.mpr hempty) htr)
  -- the first call creates the range that starts there, and it is the first partition then
  have hmem : (s₀, b) ∈ ranges table'.partitions := by
    refine (hext.mem_iff _).mpr (.inr ?_)
    cases hlays with
    | stop hge => exact absurd hbefore (not_lt_of_ge hge)
    | skip _ _ hpart _ _ =>
      have hpart := isPartition_iff.mp hpart
      rw [hempty] at hpart
      cases hpart
    | add => exact ⟨_, List.mem_cons_self, rfl⟩
  have hmin : ∀ p ∈ ranges table'.partitions, s₀ ≤ p.1 := by
    intro p hp
    rcases (hext.mem_iff p).mp hp with hp | ⟨r, hr, rfl⟩
    · rw [hempty] at hp
      cases hp
    · exact hlays.le_rangeFrom hadv hb hr
  obtain ⟨q, hfirst⟩ := exists_firstRange hmem hmin
  -- from there the second call goes back to a range in front of all partitions
  obtain ⟨_, s', b', hs', _, hlays'⟩ := returns_iff.mp hnil
  have hle : s' ≤ fromValue := by
    cases hs' with
    | truncated hnone => cases hnone.symm.trans hfirst
    | forward hfirst' hp =>
      obtain rfl := congrArg Prod.fst (Option.some.inj (hfirst.symm.trans hfirst'))
      exact absurd hafter (not_lt_of_ge hp)
    | backward _ _ _ hs' _ => exact hs'
  cases hlays' with
  | stop hge => exact absurd (lt_of_le_of_lt hle hlt) (not_lt_of_ge hge)
  | skip _ _ hpart _ _ =>
    exact absurd (hmin _ (isPartition_iff.mp hpart)) (not_le_of_gt (lt_of_le_of_lt hle hafter))

/-- A call returns the same rows every time. -/
theorem Returns.unique {rs' : List MissingRange} (h : Returns srv table iv toValue fromValue rs)
    (h' : Returns srv table iv toValue fromValue rs') : rs = rs' := by
  obtain ⟨_, s, b, hs, hb, hlays⟩ := returns_iff.mp h
  obtain ⟨_, s', b', hs', hb', hlays'⟩ := returns_iff.mp h'
  obtain rfl := hs.unique hs'
  obtain rfl := Option.some.inj (hb.symm.trans hb')
  exact Except.ok.inj ((ends_of_lays hlays []).unique (ends_of_lays hlays' []))

/-- **When a call succeeds.** -/
theorem creates_iff {t t' : Option PartitionedTable} {created : Bool} :
    Creates srv t iv endAt startFrom created t' ↔
      startFrom < endAt ∧ ∃ table rs table', t = some table ∧ t' = some table' ∧
        Returns srv table iv endAt startFrom rs ∧ createAll srv rs table = .ok table' ∧
        created = !rs.isEmpty := by
  constructor
  · rintro ⟨fuel, h⟩
    unfold createTimePartitions at h
    split at h
    case isTrue => cases h
    case isFalse hlt =>
      refine ⟨lt_of_not_ge hlt, ?_⟩
      split at h
      case h_1 => cases h
      case h_2 => cases h
      case h_3 rs hrs =>
        cases t with
        | none => cases hrs
        | some table =>
          simp only at h
          split at h
          · cases h
          · next table' hcreate =>
            rw [Option.some.injEq, Except.ok.injEq, Prod.mk.injEq] at h
            exact ⟨table, rs, table', rfl, h.2.symm, ⟨fuel, hrs⟩, hcreate, h.1.symm⟩
  · rintro ⟨hlt, table, rs, table', rfl, rfl, ⟨fuel, hret⟩, hcreate, rfl⟩
    refine ⟨fuel, ?_⟩
    unfold createTimePartitions
    rw [if_neg (not_le_of_gt hlt)]
    simp only [hret, hcreate]

/-- A call does the same every time. -/
theorem Creates.unique {t t' t'' : Option PartitionedTable} {created created' : Bool}
    (h : Creates srv t iv endAt startFrom created t')
    (h' : Creates srv t iv endAt startFrom created' t'') : created = created' ∧ t' = t'' := by
  obtain ⟨_, table, rs, table', rfl, rfl, hret, hall, rfl⟩ := creates_iff.mp h
  obtain ⟨_, _, rs', table'', heq, rfl, hret', hall', rfl⟩ := creates_iff.mp h'
  obtain rfl := Option.some.inj heq
  obtain rfl := hret.unique hret'
  exact ⟨rfl, congrArg some (Except.ok.inj (hall.symm.trans hall'))⟩

/-- **When creating again creates nothing.** After a call that succeeded, the same call
succeeds, says that no partition was created, and leaves the table as it is, if and only if
the grid of the first call was not rounded up. -/
theorem create_again_iff (hadv : Advances srv iv) (hcreate : AddsExactly srv)
    {created : Bool} {t' : Option PartitionedTable}
    (h : Creates srv (some table) iv endAt startFrom created t') :
    Creates srv t' iv endAt startFrom false t' ↔
      RoundsDown srv table.partitions iv endAt startFrom := by
  obtain ⟨hlt, _, rs, table', htable, rfl, hret, hall, rfl⟩ := creates_iff.mp h
  obtain rfl := Option.some.inj htable
  have hext := createAll_extended hcreate hall
  constructor
  · intro hagain
    obtain ⟨_, _, rs', _, htable', _, hret', _, hfalse⟩ := creates_iff.mp hagain
    obtain rfl := Option.some.inj htable'
    obtain rfl : rs' = [] := List.isEmpty_iff.mp (by simpa using hfalse)
    exact roundsDown_of_returns_nil hadv hext hlt hret hret'
  · intro hround
    exact creates_iff.mpr
      ⟨hlt, table', [], table', rfl, rfl, returns_nil hadv hext hlt hround hret, rfl, rfl⟩

/-- The table of events with a partition of hours six to eight, after two hours each from
hour three to hour ten have been asked for. -/
def eventsCreated : PartitionedTable :=
  eventsTable [⟨"p", some (hours 6, hours 8)⟩,
    ⟨"events_p2000_01_01_0200", some (hours 2, hours 4)⟩,
    ⟨"events_p2000_01_01_0400", some (hours 4, hours 6)⟩,
    ⟨"events_p2000_01_01_0800", some (hours 8, hours 10)⟩]

/-- The first call goes back from hour six to hour two, and the second one forward from
there to hour four. -/
theorem create_again_iff_hours :
    Creates utcServer (some (eventsTable [⟨"p", some (hours 6, hours 8)⟩])) twoHours (hours 10)
      (hours 3) true (some eventsCreated) ∧
    Creates utcServer (some eventsCreated) twoHours (hours 10) (hours 3) false
      (some eventsCreated) :=
  have hfirst : Creates utcServer (some (eventsTable [⟨"p", some (hours 6, hours 8)⟩])) twoHours
      (hours 10) (hours 3) true (some eventsCreated) := ⟨8, by decide +kernel⟩
  ⟨hfirst, (create_again_iff (advances_utcServer (by decide) (by decide))
    addsExactly_utcServer hfirst).mpr fun hempty => nomatch hempty⟩

/-! ## Clocks that are set back at midnight -/

/-- When clocks were set back in Havana, from one o'clock to midnight of 2021-11-07. -/
def setBack : Timestamptz := hours (7981 * 24 + 5)

/-- The time that clocks there show, in the winter before or the summer after. -/
def toLocal (t : Timestamptz) : ℤ := if t < setBack then t - hours 4 else t - hours 5

/-- `DetermineTimeZoneOffset`: of two times that clocks show the same at, the later one. -/
def ofLocal (l : ℤ) : Timestamptz := if l < setBack - hours 5 then l + hours 4 else l + hours 5

/-- A time that is neither of the infinite ones. -/
def Finite (t : Timestamptz) : Prop := t ≠ -9223372036854775808 ∧ t ≠ 9223372036854775807

/-- `IS_VALID_TIMESTAMP`. -/
def validTimestamp (t : ℤ) : Option Timestamptz :=
  if -211813488000000000 ≤ t ∧ t < 9223371331200000000 then some t else none

/-- Days are added to what clocks show, the rest to the time; infinite times stay. -/
def plusHavana (t : Timestamptz) (days time : ℤ) : Option Timestamptz :=
  if t = -9223372036854775808 ∨ t = 9223372036854775807 then some t
  else
    (validTimestamp (if days = 0 then t else ofLocal (toLocal t + days * usecsPerDay))).bind
      fun t => validTimestamp (t + time)

/-- **A server in the time zone America/Havana**, in 2021. -/
def havanaServer : Server :=
  { utcServer with
    plus := fun t iv => if iv.month ≠ 0 then none else plusHavana t iv.day iv.time
    minus := fun t iv => if iv.month ≠ 0 then none else plusHavana t (-iv.day) (-iv.time)
    dateTrunc := fun
      | .day, t => some (ofLocal (floorUtc usecsPerDay 0 (toLocal t)))
      | .week, t => some (ofLocal (floorUtc (7 * usecsPerDay) (2 * usecsPerDay) (toLocal t)))
      | u, t => utcServer.dateTrunc u t
    toChar := fun t format => utcServer.toChar (toLocal t) format
    text := fun
      | .timestamptz, t => String.ofList (formatUtc (toLocal t) "YYYY-MM-DD HH24:MI:SS".toList
          ++ if t < setBack then "-04".toList else "-05".toList)
      | typ, t => utcServer.text typ (toLocal t) }

theorem eq_of_validTimestamp {t t' : ℤ} (h : validTimestamp t = some t') : t = t' := by
  unfold validTimestamp at h
  split at h
  · exact Option.some.inj h
  · cases h

theorem lt_ofLocal_day (t : ℤ) : t < ofLocal (toLocal t + 1 * usecsPerDay) := by
  have hofLocal : ∀ l, l + hours 4 ≤ ofLocal l := by
    intro l
    unfold ofLocal hours usecsPerHour
    split
    · exact le_rfl
    · omega
  refine lt_of_lt_of_le ?_ (hofLocal _)
  unfold toLocal hours usecsPerHour usecsPerDay
  split
  · omega
  · omega

/-- A day later is always later. -/
theorem lt_plus_day {t t' : Timestamptz} (ht : Finite t) (h : havanaServer.plus t day = some t') :
    t < t' := by
  obtain ⟨u, hu, hu'⟩ := Option.bind_eq_some_iff.mp
    ((if_neg (not_or.mpr ht)).symm.trans (show plusHavana t 1 0 = some t' from h))
  rw [← eq_of_validTimestamp hu', ← eq_of_validTimestamp hu, Int.add_zero]
  exact lt_ofLocal_day t

/-- The table of events, after the day of 2021-11-07 in Havana has been asked for, from half
an hour into it. -/
def eventsHavana : PartitionedTable :=
  eventsTable [⟨"events_p2021_11_07", some (setBack, setBack + hours 24)⟩]

/-- **The second call creates the day before.** The first one has started at the second
midnight, half an hour after the time asked for. -/
theorem havana_creates_again :
    (∀ t t', Finite t → havanaServer.plus t day = some t' → t < t') ∧ AddsExactly havanaServer ∧
    Creates havanaServer (some (eventsTable [])) day (setBack + hours 24)
      (setBack - 30 * usecsPerMinute) true (some eventsHavana) ∧
    ¬ Creates havanaServer (some eventsHavana) day (setBack + hours 24)
      (setBack - 30 * usecsPerMinute) false (some eventsHavana) ∧
    Creates havanaServer (some eventsHavana) day (setBack + hours 24)
      (setBack - 30 * usecsPerMinute) true (some { eventsHavana with
        partitions := eventsHavana.partitions ++
          [⟨"events_p2021_11_06", some (setBack - hours 25, setBack)⟩] }) := by
  have hagain : Creates havanaServer (some eventsHavana) day (setBack + hours 24)
      (setBack - 30 * usecsPerMinute) true (some { eventsHavana with
        partitions := eventsHavana.partitions ++
          [⟨"events_p2021_11_06", some (setBack - hours 25, setBack)⟩] }) :=
    ⟨8, by decide +kernel⟩
  refine ⟨fun t t' => lt_plus_day, addsExactly_utcServer, ⟨8, by decide +kernel⟩, fun h => ?_,
    hagain⟩
  exact Bool.false_ne_true (h.unique hagain).1

end TimePartitions
