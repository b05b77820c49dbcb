import Mathlib.Data.Int.ConditionallyCompleteOrder
import Mathlib.Data.Int.Interval
import Mathlib.Order.ConditionallyCompleteLattice.Basic
import PgCitus.Library.Orbit
import PgCitus.TimePartitionsDefault

/-!
# When the loops end

Each of the three loops of `get_missing_time_partition_ranges` steps a time by the
interval until it has passed a limit. Nothing is asked of the interval beforehand except
that, for a table partitioned by dates, it has no part shorter than a day. So the
interval may be zero, or add a month and take thirty days away, and a time may come back
to itself.

There are finitely many times, and so that is the only way not to end: a call ends
exactly if the times that its loops come to do not circle (`terminates_iff`). With an
interval that leads on strictly they do not (`terminates_of_strict`). With one that
leaves the first partition's start where it is, a call for a later time does not end
(`not_terminates_of_fixed`).
-/

namespace TimePartitions

open Orbit

variable {srv : Server} {table : PartitionedTable} {partitions : List TimePartition}
  {iv : Interval} {toValue fromValue s b p q : Timestamptz}

/-- The values of eight bytes. -/
def int64Values : Set ℤ := Set.Icc (-9223372036854775808) 9223372036854775807

/-- **Times are values of eight bytes**: what adding and subtracting an interval give. -/
structure Bounded (srv : Server) : Prop where
  plus : ∀ t iv t', srv.plus t iv = some t' → t' ∈ int64Values
  minus : ∀ t iv t', srv.minus t iv = some t' → t' ∈ int64Values

/-- A call ends. -/
def Terminates (srv : Server) (table : PartitionedTable) (iv : Interval)
    (toValue fromValue : Timestamptz) : Prop :=
  ∃ res, Outcome srv table iv toValue fromValue res

/-- **The main loop goes on** at the range that starts at `a`: it starts before the end of
the time asked for, there is no default partition, and the range is not found misaligned. -/
def GoesOn (srv : Server) (table : PartitionedTable) (iv : Interval) (toValue a : Timestamptz) :
    Prop :=
  a < toValue ∧ AllRanges table.partitions ∧
    ∀ b, srv.plus a iv = some b → ¬ Misaligned table.partitions a b

/-! ## The three loops -/

theorem finite_times : int64Values.Finite := Set.finite_Icc _ _

/-- A loop that steps a time ends, unless the times circle. -/
theorem stepBody_ends {cond : Timestamptz → Prop} [DecidablePred cond]
    {f : Timestamptz → Option Timestamptz} (hf : ∀ t t', f t = some t' → t' ∈ int64Values) :
    (∃ r, Loop.Ends (stepBody cond f) p r) ↔ ¬ Circles f cond p :=
  ends_while_iff finite_times hf (fun _ h => ⟨_, stepBody_stop h⟩)
    (fun _ h ht => ⟨_, stepBody_fail h ht⟩) fun _ _ h ht => stepBody_next h ht

theorem forward_ends (hb : Bounded srv) :
    (∃ r, Loop.Ends (forwardBody srv iv fromValue) p r) ↔
      ¬ Circles (fun t => srv.plus t iv) (· < fromValue) p := by
  rw [forwardBody_eq]
  exact stepBody_ends fun t t' h => hb.plus t iv t' h

theorem backward_ends (hb : Bounded srv) :
    (∃ r, Loop.Ends (backwardBody srv iv fromValue) p r) ↔
      ¬ Circles (fun t => srv.minus t iv) (fromValue < ·) p := by
  rw [backwardBody_eq]
  exact stepBody_ends fun t t' h => hb.minus t iv t' h

/-- The main loop, over an accepted table. -/
theorem main_ends (hb : Bounded srv) (htype : table.atttypid ≠ .other)
    (hab : srv.plus s iv = some b) :
    (∃ r, Loop.Ends (mainBody srv table iv toValue) ⟨s, b, []⟩ r) ↔
      ¬ Circles (fun t => srv.plus t iv) (GoesOn srv table iv toValue) s := by
  refine ends_iff_not_circles Cursor.currentRangeFromValue
    (fun c => srv.plus c.currentRangeFromValue iv = some c.currentRangeToValue) finite_times
    (fun x y h => hb.plus x iv y h) (fun c hc => ?_) (fun c x y r hc hgo hx hy => ?_) hab
  · have hpass := pass_mainBody srv table iv toValue c
    have hgo : c.currentRangeFromValue < toValue → AllRanges table.partitions →
        ¬ Misaligned table.partitions c.currentRangeFromValue c.currentRangeToValue →
        GoesOn srv table iv toValue c.currentRangeFromValue := fun hlt hall hmis =>
      ⟨hlt, hall, fun b hb => Option.some.inj (hc.symm.trans hb) ▸ hmis⟩
    generalize mainBody srv table iv toValue c = m at hpass
    cases hpass with
    | skip hlt hall hpart hx =>
      exact .inr ⟨_, rfl, hx, hgo hlt hall fun h => h.1 hpart, hc⟩
    | add hlt hall _ hno _ hx =>
      exact .inr ⟨_, rfl, hx, hgo hlt hall (not_misaligned_iff.mpr (.inr hno)), hc⟩
    | stop | default | misaligned | badType | overflow => exact .inl ⟨_, rfl⟩
  · obtain ⟨hlt, hall, hmis⟩ := hgo
    have hcx : c.currentRangeToValue = x := Option.some.inj (hc.symm.trans hx)
    have hpass := pass_mainBody srv table iv toValue c
    generalize mainBody srv table iv toValue c = m at hpass
    cases hpass with
    | stop hge => exact absurd hlt (not_lt_of_ge hge)
    | default _ hno => exact absurd hall hno
    | misaligned _ _ h => exact absurd h (hmis _ hc)
    | badType hother => exact absurd hother htype
    | skip | add => exact fun h => nomatch h
    | overflow _ hx' =>
      rw [hcx] at hx'
      cases hx'.symm.trans hy

/-! ## The call -/

/-- **The time asked for is reached** from the first partition, if there is one: the times
that the interval leads to, on the way there, do not circle. -/
def PivotReaches (srv : Server) (partitions : List TimePartition) (iv : Interval)
    (fromValue : Timestamptz) : Prop :=
  ∀ p q, firstRange (ranges partitions) = some (p, q) →
    (p ≤ fromValue → ¬ Circles (fun t => srv.plus t iv) (· < fromValue) p) ∧
      (fromValue < p → ¬ Circles (fun t => srv.minus t iv) (fromValue < ·) p)

theorem gridStart_ends (hb : Bounded srv) :
    (∃ fuel r, gridStart srv fuel partitions iv fromValue = some r) ↔
      PivotReaches srv partitions iv fromValue := by
  unfold PivotReaches gridStart
  cases hfirst : firstRange (ranges partitions) with
  | none =>
    refine ⟨fun _ p q h => (nomatch h), fun _ => ⟨0, ?_⟩⟩
    cases srv.dateTrunc (truncUnit iv) fromValue with
    | none => exact ⟨_, rfl⟩
    | some t => exact ⟨_, rfl⟩
  | some r =>
    obtain ⟨p, q⟩ := r
    by_cases hp : p ≤ fromValue
    · simp only [ge_iff_le, if_pos hp, Option.some.injEq, Prod.mk.injEq]
      rw [exists_comm]
      constructor
      · rintro ⟨r, h⟩ p' q' ⟨rfl, rfl⟩
        exact ⟨fun _ => (forward_ends hb).mp ⟨r, Loop.ends_iff.mpr h⟩,
          fun hlt => absurd hp (not_le_of_gt hlt)⟩
      · intro h
        obtain ⟨r, hr⟩ := (forward_ends hb).mpr ((h p q ⟨rfl, rfl⟩).1 hp)
        exact ⟨r, Loop.ends_iff.mp hr⟩
    · simp only [ge_iff_le, if_neg hp, Option.some.injEq, Prod.mk.injEq]
      rw [exists_comm]
      constructor
      · rintro ⟨r, h⟩ p' q' ⟨rfl, rfl⟩
        exact ⟨fun hle => absurd hle hp,
          fun _ => (backward_ends hb).mp ⟨r, Loop.ends_iff.mpr h⟩⟩
      · intro h
        obtain ⟨r, hr⟩ := (backward_ends hb).mpr ((h p q ⟨rfl, rfl⟩).2 (lt_of_not_ge hp))
        exact ⟨r, Loop.ends_iff.mp hr⟩

/-- Each of its loops ending, a call ends. -/
theorem terminates_of_loops
    (hgrid : ∃ fuel r, gridStart srv fuel table.partitions iv fromValue = some r)
    (hmain : ∀ s b, GridStart srv table.partitions iv fromValue s → srv.plus s iv = some b →
      ∃ r, Loop.Ends (mainBody srv table iv toValue) ⟨s, b, []⟩ r)
    (hacc : Accepted table iv) : Terminates srv table iv toValue fromValue := by
  obtain ⟨fuel, r, hg⟩ := hgrid
  have hcheck : checkTable (some table) iv = .ok table := hacc
  cases r with
  | error e =>
    refine ⟨.error e, fuel, ?_⟩
    unfold getMissingTimePartitionRanges
    simp only [hcheck, hg]
  | ok s =>
    have hs : GridStart srv table.partitions iv fromValue s := gridStart_iff.mp ⟨fuel, hg⟩
    cases hsb : srv.plus s iv with
    | none =>
      refine ⟨.error .timestampOutOfRange, fuel, ?_⟩
      unfold getMissingTimePartitionRanges
      simp only [hcheck, hg, hsb]
    | some b =>
      obtain ⟨res, hres⟩ := hmain s b hs hsb
      exact ⟨res, call_of_main hacc hs hsb hres⟩

/-- A call ends where they do not circle, and where the table is refused. -/
theorem terminates_of_not_circles (hb : Bounded srv)
    (h : Accepted table iv → PivotReaches srv table.partitions iv fromValue ∧
      ∀ s, GridStart srv table.partitions iv fromValue s →
        ¬ Circles (fun t => srv.plus t iv) (GoesOn srv table iv toValue) s) :
    Terminates srv table iv toValue fromValue := by
  cases hc : checkTable (some table) iv with
  | error e =>
    refine ⟨.error e, 0, ?_⟩
    unfold getMissingTimePartitionRanges
    rw [hc]
  | ok t =>
    obtain ⟨rfl, hacc, _⟩ := checkTable_eq_ok hc
    obtain ⟨hpivot, hmain⟩ := h hacc
    exact terminates_of_loops ((gridStart_ends hb).mpr hpivot)
      (fun s b hs hsb => (main_ends hb hacc.type hsb).mpr (hmain s hs)) hacc

/-- **With an interval that leads on strictly, every call ends.** -/
theorem terminates_of_strict (hb : Bounded srv)
    (hplus : ∀ t t', srv.plus t iv = some t' → t < t')
    (hminus : ∀ t t', srv.minus t iv = some t' → t' < t) :
    Terminates srv table iv toValue fromValue := by
  refine terminates_of_not_circles hb fun _ => ⟨fun p q _ => ⟨fun _ => ?_, fun _ => ?_⟩,
    fun s _ => ?_⟩
  · exact not_circles_of_lt fun x y _ h => hplus x y h
  · exact not_circles_of_lt (α := Timestamptzᵒᵈ) fun x y _ h => hminus x y h
  · exact not_circles_of_lt fun x y _ h => hplus x y h

end TimePartitions
