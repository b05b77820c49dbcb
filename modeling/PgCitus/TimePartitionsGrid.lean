import PgCitus.TimePartitions

/-!
# The grid of time ranges

What the loops of `get_missing_time_partition_ranges` come to, without the loops. The
start of the grid is the first time, counted in intervals from the first partition,
that is not before the time asked for – or not after it, where the count goes back
(`GridStart`). From there the ranges follow one another (`GridRange`), and the main
loop goes through those that start before the end of the time asked for: it skips the
ones that are partitions, returns the others (`Lays`), and raises when one of these
fails the alignment check.

Adding the interval is any operation of the server that does not lead back
(`Advances`); months may be of different lengths, and infinite times may stay.
-/

namespace TimePartitions

variable {srv : Server} {table : PartitionedTable} {partitions : List TimePartition}
  {iv : Interval} {toValue fromValue a b c s : Timestamptz}

/-- **Adding the interval never leads back.** -/
def Advances (srv : Server) (iv : Interval) : Prop :=
  ∀ t t', srv.plus t iv = some t' → t ≤ t'

/-- The server in UTC is one of these, with every interval that does not lead back. -/
theorem advances_utcServer (hday : 0 ≤ iv.day) (htime : 0 ≤ iv.time) : Advances utcServer iv := by
  have hplus : ∀ {t d t' : ℤ}, 0 ≤ d → plusUtc t d = some t' → t ≤ t' := by
    intro t d t' hd h
    unfold plusUtc at h
    split at h
    · exact le_of_eq (Option.some.inj h)
    · split at h
      · have ht : t + d = t' := Option.some.inj h
        exact ht ▸ Int.le_add_of_nonneg_right hd
      · cases h
  intro t t' h
  change (if iv.month ≠ 0 then none
    else (plusUtc t (iv.day * usecsPerDay)).bind fun t => plusUtc t iv.time) = some t' at h
  split at h
  · cases h
  · obtain ⟨u, hu, h⟩ := Option.bind_eq_some_iff.mp h
    have hpos : 0 ≤ iv.day * usecsPerDay := Int.mul_nonneg hday (by decide)
    exact le_trans (hplus hpos hu) (hplus htime h)

/-- The interval added `k` times. -/
def plusN (srv : Server) (iv : Interval) (k : ℕ) (t : Timestamptz) : Option Timestamptz :=
  Loop.iter (fun t => srv.plus t iv) k t

/-- The interval subtracted `k` times. -/
def minusN (srv : Server) (iv : Interval) (k : ℕ) (t : Timestamptz) : Option Timestamptz :=
  Loop.iter (fun t => srv.minus t iv) k t

/-- **The start of the grid.** Without partitions, the rounded time; with a first one,
which starts at `p`, the first step forward from `p` that is not before the time asked
for, or the first step backward that is not after it. -/
inductive GridStart (srv : Server) (partitions : List TimePartition) (iv : Interval)
    (fromValue : Timestamptz) : Timestamptz → Prop where
  | truncated {s : Timestamptz} (h : firstRange (ranges partitions) = none)
      (hs : srv.dateTrunc (truncUnit iv) fromValue = some s) :
      GridStart srv partitions iv fromValue s
  | forward {p q s : Timestamptz} {n : ℕ} (h : firstRange (ranges partitions) = some (p, q))
      (hp : p ≤ fromValue) (hn : plusN srv iv n p = some s) (hs : fromValue ≤ s)
      (hfirst : ∀ m < n, ∀ x, plusN srv iv m p = some x → x < fromValue) :
      GridStart srv partitions iv fromValue s
  | backward {p q s : Timestamptz} {n : ℕ} (h : firstRange (ranges partitions) = some (p, q))
      (hp : fromValue < p) (hn : minusN srv iv n p = some s) (hs : s ≤ fromValue)
      (hfirst : ∀ m < n, ∀ x, minusN srv iv m p = some x → fromValue < x) :
      GridStart srv partitions iv fromValue s

/-- **The ranges of the grid**, from its start on. -/
def GridRange (srv : Server) (partitions : List TimePartition) (iv : Interval)
    (fromValue a b : Timestamptz) : Prop :=
  ∃ s k, GridStart srv partitions iv fromValue s ∧ plusN srv iv k s = some a ∧
    srv.plus a iv = some b

/-- A range is a partition. -/
def IsPartition (partitions : List TimePartition) (a b : Timestamptz) : Prop :=
  ∃ tp ∈ partitions, tp.bounds = some (a, b)

/-- **A range is found misaligned**: it is not a partition, and the test finds one that
it overlaps. -/
def Misaligned (partitions : List TimePartition) (a b : Timestamptz) : Prop :=
  ¬ IsPartition partitions a b ∧ ∃ tp ∈ partitions, overlapTest a b tp = true

/-- There is no default partition. -/
def AllRanges (partitions : List TimePartition) : Prop :=
  ∀ tp ∈ partitions, tp.bounds.isSome

/-- A partition holds an instant. -/
def Held (partitions : List TimePartition) (t : Timestamptz) : Prop :=
  ∃ p ∈ ranges partitions, p.1 ≤ t ∧ t < p.2

/-- A call returns rows. -/
def Returns (srv : Server) (table : PartitionedTable) (iv : Interval)
    (toValue fromValue : Timestamptz) (rs : List MissingRange) : Prop :=
  ∃ fuel, getMissingTimePartitionRanges srv fuel (some table) iv toValue fromValue = some (.ok rs)

/-- A call raises an error. -/
def Raises (srv : Server) (table : PartitionedTable) (iv : Interval)
    (toValue fromValue : Timestamptz) (e : Error) : Prop :=
  ∃ fuel,
    getMissingTimePartitionRanges srv fuel (some table) iv toValue fromValue = some (.error e)

/-! ## The first partition -/

theorem mem_ranges {r : Timestamptz × Timestamptz} :
    r ∈ ranges partitions ↔ ∃ tp ∈ partitions, tp.bounds = some r := List.mem_filterMap

theorem isPartition_iff : IsPartition partitions a b ↔ (a, b) ∈ ranges partitions :=
  mem_ranges.symm

theorem firstRange_eq_none {rs : List (Timestamptz × Timestamptz)} :
    firstRange rs = none ↔ rs = [] := by
  cases rs with
  | nil => exact ⟨fun _ => rfl, fun _ => rfl⟩
  | cons r rs =>
    refine ⟨fun h => ?_, fun h => nomatch h⟩
    rw [firstRange] at h
    split at h
    · cases h
    · split at h <;> cases h

/-- **The first range is one of them, and none starts before it.** -/
theorem firstRange_eq_some {rs : List (Timestamptz × Timestamptz)}
    {r : Timestamptz × Timestamptz} (h : firstRange rs = some r) :
    r ∈ rs ∧ ∀ q ∈ rs, r.1 ≤ q.1 := by
  induction rs generalizing r with
  | nil => cases h
  | cons x rs ih =>
    rw [firstRange] at h
    split at h
    case h_1 hnone =>
      have hx : x = r := Option.some.inj h
      rw [firstRange_eq_none.mp hnone, hx]
      exact ⟨List.mem_singleton_self r, fun q hq => (List.mem_singleton.mp hq) ▸ le_rfl⟩
    case h_2 q hq =>
      obtain ⟨hmem, hmin⟩ := ih hq
      split at h
      case isTrue hle =>
        have hx : x = r := Option.some.inj h
        subst hx
        refine ⟨List.mem_cons_self, fun y hy => ?_⟩
        rcases List.mem_cons.mp hy with rfl | hy
        · exact le_rfl
        · exact le_trans hle (hmin y hy)
      case isFalse hle =>
        have hx : q = r := Option.some.inj h
        subst hx
        refine ⟨List.mem_cons_of_mem x hmem, fun y hy => ?_⟩
        rcases List.mem_cons.mp hy with rfl | hy
        · exact le_of_not_ge hle
        · exact hmin y hy

/-! ## The start of the grid -/

/-- **Both loops step a time** by `f` as long as `cond` holds of it. -/
def stepBody (cond : Timestamptz → Prop) [DecidablePred cond]
    (f : Timestamptz → Option Timestamptz) (current : Timestamptz) :
    Loop.Step Timestamptz (Except Error Timestamptz) :=
  if cond current then
    match f current with
    | some current => .next current
    | none => .done (.error .timestampOutOfRange)
  else .done (.ok current)

theorem forwardBody_eq : forwardBody srv iv fromValue =
    stepBody (· < fromValue) fun t => srv.plus t iv := rfl

theorem backwardBody_eq : backwardBody srv iv fromValue =
    stepBody (· > fromValue) fun t => srv.minus t iv := rfl

section StepBody

variable {cond : Timestamptz → Prop} [DecidablePred cond] {f : Timestamptz → Option Timestamptz}

theorem stepBody_stop {t : Timestamptz} (h : ¬ cond t) : stepBody cond f t = .done (.ok t) :=
  if_neg h

theorem stepBody_next {t t' : Timestamptz} (h : cond t) (ht : f t = some t') :
    stepBody cond f t = .next t' := (if_pos h).trans (by rw [ht])

theorem stepBody_fail {t : Timestamptz} (h : cond t) (ht : f t = none) :
    stepBody cond f t = .done (.error .timestampOutOfRange) := (if_pos h).trans (by rw [ht])

/-- Such a loop finds the first time that the condition does not hold of. -/
theorem stepBody_ends_iff {p : Timestamptz} : Loop.Ends (stepBody cond f) p (.ok s) ↔
    ∃ n, Loop.iter f n p = some s ∧ ¬ cond s ∧ ∀ m < n, ∀ x, Loop.iter f m p = some x → cond x :=
  Loop.ends_iter_iff cond f (fun _ h => stepBody_stop h) (fun _ _ h ht => stepBody_next h ht)
    fun _ h ht => ⟨.timestampOutOfRange, stepBody_fail h ht⟩

/-- The only error it raises is that times come to an end. -/
theorem stepBody_error {t : Timestamptz} {e : Error}
    (h : stepBody cond f t = .done (.error e)) : e = .timestampOutOfRange := by
  by_cases hc : cond t
  · cases hf : f t with
    | none => exact (Except.error.inj (Loop.Step.done.inj
        ((stepBody_fail hc hf).symm.trans h))).symm
    | some t' => cases (stepBody_next hc hf).symm.trans h
  · cases (stepBody_stop hc).symm.trans h

end StepBody

theorem forward_ends_iff {p : Timestamptz} :
    Loop.Ends (forwardBody srv iv fromValue) p (.ok s) ↔
      ∃ n, plusN srv iv n p = some s ∧ fromValue ≤ s ∧
        ∀ m < n, ∀ x, plusN srv iv m p = some x → x < fromValue := by
  rw [forwardBody_eq, stepBody_ends_iff]
  simp only [not_lt]
  rfl

theorem backward_ends_iff {p : Timestamptz} :
    Loop.Ends (backwardBody srv iv fromValue) p (.ok s) ↔
      ∃ n, minusN srv iv n p = some s ∧ s ≤ fromValue ∧
        ∀ m < n, ∀ x, minusN srv iv m p = some x → fromValue < x := by
  rw [backwardBody_eq, stepBody_ends_iff]
  simp only [gt_iff_lt, not_lt]
  rfl

/-- **The loops find the start of the grid.** -/
theorem gridStart_iff :
    (∃ fuel, gridStart srv fuel partitions iv fromValue = some (.ok s)) ↔
      GridStart srv partitions iv fromValue s := by
  unfold gridStart
  constructor
  · rintro ⟨fuel, h⟩
    split at h
    case h_1 hnone =>
      split at h
      case h_1 x hx =>
        rw [Option.some.injEq, Except.ok.injEq] at h
        exact .truncated hnone (h ▸ hx)
      case h_2 => cases h
    case h_2 p q hfirst =>
      split at h
      case isTrue hp =>
        obtain ⟨n, hn, hs, hbefore⟩ := forward_ends_iff.mp (Loop.ends_iff.mpr ⟨fuel, h⟩)
        exact .forward hfirst hp hn hs hbefore
      case isFalse hp =>
        obtain ⟨n, hn, hs, hbefore⟩ := backward_ends_iff.mp (Loop.ends_iff.mpr ⟨fuel, h⟩)
        exact .backward hfirst (lt_of_not_ge hp) hn hs hbefore
  · intro h
    cases h with
    | truncated h hs => exact ⟨0, by rw [h, hs]⟩
    | forward h hp hn hs hfirst =>
      obtain ⟨fuel, hfuel⟩ := Loop.ends_iff.mp (forward_ends_iff.mpr ⟨_, hn, hs, hfirst⟩)
      refine ⟨fuel, ?_⟩
      rw [h]
      exact (if_pos hp).trans hfuel
    | backward h hp hn hs hfirst =>
      obtain ⟨fuel, hfuel⟩ := Loop.ends_iff.mp (backward_ends_iff.mpr ⟨_, hn, hs, hfirst⟩)
      refine ⟨fuel, ?_⟩
      rw [h]
      exact (if_neg (not_le_of_gt hp)).trans hfuel

/-! ## One pass of the main loop -/

theorem any_isNone_iff : (partitions.any fun tp => tp.bounds.isNone) = true ↔
    ¬ AllRanges partitions := by
  unfold AllRanges
  simp [List.any_eq_true, Option.isSome_iff_ne_none]

theorem any_bounds_iff : (partitions.any fun tp => tp.bounds == some (a, b)) = true ↔
    IsPartition partitions a b := by
  unfold IsPartition
  simp [List.any_eq_true]

/-- **What a pass of the main loop does.** -/
inductive Pass (srv : Server) (table : PartitionedTable) (iv : Interval) (toValue : Timestamptz)
    (c : Cursor) : Loop.Step Cursor (Except Error (List MissingRange)) → Prop where
  /-- The ranges have reached the end of the time asked for. -/
  | stop (h : toValue ≤ c.currentRangeFromValue) : Pass srv table iv toValue c (.done (.ok c.returned))
  /-- A default partition has no bounds to compare with. -/
  | default (hlt : c.currentRangeFromValue < toValue) (hall : ¬ AllRanges table.partitions) :
      Pass srv table iv toValue c (.done (.error .invalidSyntax))
  /-- The range is a partition already. -/
  | skip {x : Timestamptz} (hlt : c.currentRangeFromValue < toValue)
      (hall : AllRanges table.partitions)
      (hpart : IsPartition table.partitions c.currentRangeFromValue c.currentRangeToValue)
      (hx : srv.plus c.currentRangeToValue iv = some x) :
      Pass srv table iv toValue c (.next ⟨c.currentRangeToValue, x, c.returned⟩)
  /-- The range does not align with a partition. -/
  | misaligned {tp : TimePartition} (hlt : c.currentRangeFromValue < toValue)
      (hall : AllRanges table.partitions)
      (hmis : Misaligned table.partitions c.currentRangeFromValue c.currentRangeToValue) :
      Pass srv table iv toValue c (.done (.error (.notAligned tp)))
  /-- The partition column has no time type. -/
  | badType (htype : table.atttypid = .other) :
      Pass srv table iv toValue c (.done (.error .unsupportedType))
  /-- The range is missing. -/
  | add {x : Timestamptz} (hlt : c.currentRangeFromValue < toValue)
      (hall : AllRanges table.partitions)
      (hpart : ¬ IsPartition table.partitions c.currentRangeFromValue c.currentRangeToValue)
      (hno : ∀ tp ∈ table.partitions,
        overlapTest c.currentRangeFromValue c.currentRangeToValue tp = false)
      (htype : table.atttypid ≠ .other) (hx : srv.plus c.currentRangeToValue iv = some x) :
      Pass srv table iv toValue c (.next ⟨c.currentRangeToValue, x, c.returned ++
        [missingRange srv table iv c.currentRangeFromValue c.currentRangeToValue]⟩)
  /-- There is no next range. -/
  | overflow
      (hmis : ¬ Misaligned table.partitions c.currentRangeFromValue c.currentRangeToValue)
      (hx : srv.plus c.currentRangeToValue iv = none) :
      Pass srv table iv toValue c (.done (.error .timestampOutOfRange))

variable (srv table iv toValue) in
theorem pass_mainBody (c : Cursor) :
    Pass srv table iv toValue c (mainBody srv table iv toValue c) := by
  unfold mainBody
  split
  case isFalse h => exact .stop (le_of_not_gt h)
  case isTrue hlt =>
    split
    case isTrue hnone => exact .default hlt (any_isNone_iff.mp hnone)
    case isFalse hnone =>
      have hall : AllRanges table.partitions :=
        Classical.byContradiction fun h => hnone (any_isNone_iff.mpr h)
      split
      case isTrue hpart =>
        unfold nextRange
        split
        · next x hx => exact .skip hlt hall (any_bounds_iff.mp hpart) hx
        · next hx => exact .overflow (fun h => h.1 (any_bounds_iff.mp hpart)) hx
      case isFalse hpart =>
        have hpart' := fun h => hpart (any_bounds_iff.mpr h)
        split
        case h_1 tp htp =>
          exact .misaligned hlt hall
            ⟨hpart', tp, List.mem_of_find?_eq_some htp, List.find?_some htp⟩
        case h_2 hfind =>
          split
          case isTrue htype => exact .badType htype
          case isFalse htype =>
            have hno : ∀ tp ∈ table.partitions,
                overlapTest c.currentRangeFromValue c.currentRangeToValue tp = false :=
              fun tp htp => Bool.eq_false_iff.mpr (List.find?_eq_none.mp hfind tp htp)
            unfold nextRange
            split
            · next x hx => exact .add hlt hall hpart' hno htype hx
            · next hx =>
              refine .overflow (fun h => ?_) hx
              obtain ⟨tp, htp, htest⟩ := h.2
              exact Bool.false_ne_true ((hno tp htp).symm.trans htest)

/-! ## All passes -/

/-- **What the main loop returns**, from the range that starts at `a` and ends at `b`. -/
inductive Lays (srv : Server) (table : PartitionedTable) (iv : Interval) (toValue : Timestamptz) :
    Timestamptz → Timestamptz → List MissingRange → Prop where
  | stop {a b : Timestamptz} (h : toValue ≤ a) : Lays srv table iv toValue a b []
  | skip {a b c : Timestamptz} {rs : List MissingRange} (hlt : a < toValue)
      (hall : AllRanges table.partitions) (hpart : IsPartition table.partitions a b)
      (hc : srv.plus b iv = some c) (hrest : Lays srv table iv toValue b c rs) :
      Lays srv table iv toValue a b rs
  | add {a b c : Timestamptz} {rs : List MissingRange} (hlt : a < toValue)
      (hall : AllRanges table.partitions) (hpart : ¬ IsPartition table.partitions a b)
      (hno : ∀ tp ∈ table.partitions, overlapTest a b tp = false)
      (htype : table.atttypid ≠ .other) (hc : srv.plus b iv = some c)
      (hrest : Lays srv table iv toValue b c rs) :
      Lays srv table iv toValue a b (missingRange srv table iv a b :: rs)

theorem lays_of_ends {c : Cursor} {r : List MissingRange}
    (h : Loop.Ends (mainBody srv table iv toValue) c (.ok r)) :
    ∃ rs, r = c.returned ++ rs ∧
      Lays srv table iv toValue c.currentRangeFromValue c.currentRangeToValue rs := by
  generalize hres : (Except.ok r : Except Error (List MissingRange)) = res at h
  induction h with
  | @done c _ h =>
    have hpass := pass_mainBody srv table iv toValue c
    rw [h] at hpass
    subst hres
    cases hpass with
    | stop hge => exact ⟨[], (List.append_nil _).symm, .stop hge⟩
  | @next c c' _ h _ ih =>
    have hpass := pass_mainBody srv table iv toValue c
    rw [h] at hpass
    obtain ⟨rs, hr, hlays⟩ := ih hres
    cases hpass with
    | skip hlt hall hpart hx => exact ⟨rs, hr, .skip hlt hall hpart hx hlays⟩
    | add hlt hall hpart hno htype hx =>
      exact ⟨_, hr.trans (List.append_assoc ..), .add hlt hall hpart hno htype hx hlays⟩

theorem ends_of_lays {rs : List MissingRange} (h : Lays srv table iv toValue a b rs)
    (out : List MissingRange) :
    Loop.Ends (mainBody srv table iv toValue) ⟨a, b, out⟩ (.ok (out ++ rs)) := by
  induction h generalizing out with
  | stop h =>
    rw [List.append_nil]
    exact .done (if_neg (not_lt_of_ge h))
  | skip hlt hall hpart hc _ ih =>
    refine .next ?_ (ih out)
    unfold mainBody nextRange
    rw [if_pos hlt, if_neg (fun h => any_isNone_iff.mp h hall), if_pos (any_bounds_iff.mpr hpart),
      hc]
  | @add a b c rs hlt hall hpart hno htype hc _ ih =>
    have hfind : table.partitions.find? (overlapTest a b) = none :=
      List.find?_eq_none.mpr fun tp htp => Bool.eq_false_iff.mp (hno tp htp)
    have hends := ih (out ++ [missingRange srv table iv a b])
    rw [List.append_assoc] at hends
    refine .next ?_ hends
    unfold mainBody nextRange
    rw [if_pos hlt, if_neg (fun h => any_isNone_iff.mp h hall),
      if_neg (fun h => hpart (any_bounds_iff.mp h))]
    simp only [hfind, if_neg htype, hc]

/-! ## The function as a whole -/

/-- **The table and its partition interval are accepted.** -/
def Accepted (table : PartitionedTable) (iv : Interval) : Prop :=
  checkTable (some table) iv = .ok table

theorem checkTable_eq_ok {t : PartitionedTable} (h : checkTable (some table) iv = .ok t) :
    t = table ∧ Accepted table iv ∧ table.atttypid ≠ .other := by
  have hall : ∀ {P : Prop} [Decidable P] {e : Error} {x : Except Error PartitionedTable},
      (if P then .error e else x) = .ok t → ¬ P ∧ x = .ok t := by
    intro P _ e x h
    by_cases hP : P
    · rw [if_pos hP] at h
      cases h
    · rw [if_neg hP] at h
      exact ⟨hP, h⟩
  unfold Accepted
  have h' := h
  unfold checkTable at h
  obtain ⟨_, h⟩ := hall h
  obtain ⟨htype, h⟩ := hall h
  obtain ⟨_, h⟩ := hall h
  have ht : table = t := Except.ok.inj h
  subst ht
  exact ⟨rfl, h', htype⟩

theorem Accepted.type (h : Accepted table iv) : table.atttypid ≠ .other := (checkTable_eq_ok h).2.2

/-- More fuel finds the same start. -/
theorem gridStart_mono {fuel fuel' : ℕ} (hle : fuel ≤ fuel') {r : Except Error Timestamptz}
    (h : gridStart srv fuel partitions iv fromValue = some r) :
    gridStart srv fuel' partitions iv fromValue = some r := by
  unfold gridStart at h ⊢
  split at h
  case h_1 => exact h
  case h_2 p q hfirst =>
    split at h
    case isTrue hp => exact (if_pos hp).trans (Loop.run_mono hle h)
    case isFalse hp => exact (if_neg hp).trans (Loop.run_mono hle h)

/-- **A call of an accepted table is the main loop**, from the start of the grid. -/
theorem call_of_main (hacc : Accepted table iv)
    (hs : GridStart srv table.partitions iv fromValue s) (hb : srv.plus s iv = some b)
    {res : Except Error (List MissingRange)}
    (h : Loop.Ends (mainBody srv table iv toValue) ⟨s, b, []⟩ res) :
    ∃ fuel,
      getMissingTimePartitionRanges srv fuel (some table) iv toValue fromValue = some res := by
  obtain ⟨fuel₁, h₁⟩ := gridStart_iff.mpr hs
  obtain ⟨fuel₂, h₂⟩ := Loop.ends_iff.mp h
  refine ⟨max fuel₁ fuel₂, ?_⟩
  unfold Accepted at hacc
  unfold getMissingTimePartitionRanges
  simp only [hacc, gridStart_mono (Nat.le_max_left fuel₁ fuel₂) h₁, hb]
  exact Loop.run_mono (Nat.le_max_right fuel₁ fuel₂) h₂

/-- An error that is raised in the main loop only. -/
def MainError : Error → Prop
  | .notAligned _ | .invalidSyntax => True
  | _ => False

/-- Neither way of stepping the grid raises such an error. -/
theorem gridStart_ne_mainError {fuel : ℕ} {e : Error} (he : MainError e) :
    gridStart srv fuel partitions iv fromValue ≠ some (.error e) := by
  have hne : Error.timestampOutOfRange ≠ e := fun h => by
    rw [← h] at he
    exact he
  have hstep : ∀ {cond : Timestamptz → Prop} [DecidablePred cond]
      {f : Timestamptz → Option Timestamptz} {t : Timestamptz} {r : Except Error Timestamptz},
      stepBody cond f t = .done r → r ≠ .error e := fun ht hr =>
    hne (stepBody_error (hr ▸ ht)).symm
  unfold gridStart
  split
  · split
    · intro h
      cases h
    · exact fun h => hne (Except.error.inj (Option.some.inj h))
  · split
    · exact fun h => (Loop.ends_iff.mpr ⟨fuel, h⟩).result (Q := (· ≠ .error e))
        (fun t r ht => hstep (forwardBody_eq ▸ ht)) rfl
    · exact fun h => (Loop.ends_iff.mpr ⟨fuel, h⟩).result (Q := (· ≠ .error e))
        (fun t r ht => hstep (backwardBody_eq ▸ ht)) rfl

/-- Neither do the checks on the table. -/
theorem checkTable_ne_mainError {t : Option PartitionedTable} {e : Error} (he : MainError e) :
    checkTable t iv ≠ .error e := by
  have hne : ∀ {e' : Error}, ¬ MainError e' →
      (.error e' : Except Error PartitionedTable) ≠ .error e :=
    fun h' h => h' (Except.error.inj h ▸ he)
  unfold checkTable
  split
  · exact hne id
  · split
    · exact hne id
    · split
      · exact hne id
      · split
        · exact hne id
        · exact fun h => nomatch h

/-- **A call that returns, or that raises an error of the main loop**, has come to it. -/
theorem main_of_call {fuel : ℕ} {res : Except Error (List MissingRange)}
    (h : getMissingTimePartitionRanges srv fuel (some table) iv toValue fromValue = some res)
    (hres : ∀ e, res = .error e → MainError e) :
    Accepted table iv ∧ ∃ s b, GridStart srv table.partitions iv fromValue s ∧
      srv.plus s iv = some b ∧ Loop.Ends (mainBody srv table iv toValue) ⟨s, b, []⟩ res := by
  unfold getMissingTimePartitionRanges at h
  split at h
  case h_1 e he =>
    exact absurd he (checkTable_ne_mainError (hres e (Option.some.inj h).symm))
  case h_2 t ht =>
    obtain ⟨rfl, hacc, _⟩ := checkTable_eq_ok ht
    refine ⟨hacc, ?_⟩
    split at h
    case h_1 => cases h
    case h_2 e he =>
      exact absurd he (gridStart_ne_mainError (hres e (Option.some.inj h).symm))
    case h_3 s hs =>
      split at h
      case h_1 => exact (hres _ (Option.some.inj h).symm).elim
      case h_2 b hb =>
        exact ⟨s, b, gridStart_iff.mp ⟨fuel, hs⟩, hb, Loop.ends_iff.mpr ⟨fuel, h⟩⟩

/-- **A call returns what the main loop lays**, from the start of the grid. -/
theorem returns_iff {rs : List MissingRange} :
    Returns srv table iv toValue fromValue rs ↔
      Accepted table iv ∧ ∃ s b, GridStart srv table.partitions iv fromValue s ∧
        srv.plus s iv = some b ∧ Lays srv table iv toValue s b rs := by
  constructor
  · rintro ⟨fuel, h⟩
    obtain ⟨hacc, s, b, hs, hb, hends⟩ := main_of_call h (fun e he => nomatch he)
    obtain ⟨rs', hrs, hlays⟩ := lays_of_ends hends
    exact ⟨hacc, s, b, hs, hb, hrs ▸ hlays⟩
  · rintro ⟨hacc, s, b, hs, hb, hlays⟩
    exact call_of_main hacc hs hb (ends_of_lays hlays [])

/-- A grid has one start. -/
theorem GridStart.unique {s' : Timestamptz} (h : GridStart srv partitions iv fromValue s)
    (h' : GridStart srv partitions iv fromValue s') : s = s' := by
  obtain ⟨fuel, hfuel⟩ := gridStart_iff.mpr h
  obtain ⟨fuel', hfuel'⟩ := gridStart_iff.mpr h'
  have hmax := gridStart_mono (Nat.le_max_left fuel fuel') hfuel
  rw [gridStart_mono (Nat.le_max_right fuel fuel') hfuel', Option.some.injEq,
    Except.ok.injEq] at hmax
  exact hmax.symm

end TimePartitions
