import PgCitus.SimpleHashIterate

/-!
# Iterating over a simplehash table from a given bucket on

`SH_START_ITERATE_AT` starts at the bucket its caller names, and there need not
be an empty one. `SH_ITERATE` is the same function for both starts, so what it
promises of deletions – that the entry just returned may be deleted without
another one being skipped – holds from a given bucket on exactly where no run
crosses that bucket: when it is empty, or no entry in the bucket after it is
away from its optimal bucket. Otherwise deleting the entry of the start moves
the next one into a bucket that the iteration has left behind.
-/

namespace SimpleHash

open Circ RobinHood

variable {κ ν : Type*} {T : ShTemplate κ ν} {tb : ShHash κ ν}

/-- **An iteration from bucket `start` on**, with a choice after each entry: the
entries returned, or `none` if it does not end. -/
def shWalkAllAt (T : ShTemplate κ ν) (choices : ℕ → ShChoice) (tb : ShHash κ ν)
    (start : ℕ) : Option (List (ShElement κ ν)) :=
  Loop.run (shWalkStep T choices) (tb.size + 1) ⟨tb, shStartIterateAt tb start, []⟩

/-- **Iteration from `start` on is right**: whatever the caller chooses, it ends,
and returns every entry of the table exactly once. -/
def IteratesAllFrom (T : ShTemplate κ ν) (tb : ShHash κ ν) (start : ℕ) : Prop :=
  ∀ choices : ℕ → ShChoice, ∃ out, shWalkAllAt T choices tb start = some out ∧
    out.Nodup ∧ ∀ e, e ∈ out ↔ tb.Holds e

/-- **What decides whether iteration from `start` on is right**: the bucket it
starts at is empty, or the next one is, or holds an entry at its optimal
bucket. -/
def IterSafeFrom (T : ShTemplate κ ν) (tb : ShHash κ ν) (start : ℕ) : Prop :=
  (tb.data (start &&& tb.sizemask)).status = .empty ∨
    (tb.data (shNext tb (start &&& tb.sizemask))).status = .empty ∨
    shInitialBucket tb
        (T.shEntryHash (tb.data (shNext tb (start &&& tb.sizemask))))
      = shNext tb (start &&& tb.sizemask)

/-- The bucket an iteration is started at is one of the table. -/
theorem Sized.and_mask_lt (h : Sized tb) (start : ℕ) :
    start &&& tb.sizemask < tb.size := by
  have h₂ := h.two_le
  rw [h.and_mask]
  exact Nat.mod_lt _ (by omega)

/-- On the circle of slots, the condition is that no run crosses the start. -/
theorem iterSafeFrom_iff_startsWell (h : Sized tb) (start : ℕ) :
    IterSafeFrom T tb start ↔
      StartsWell T tb.size (shSlot tb.data) (start &&& tb.sizemask) := by
  unfold IterSafeFrom StartsWell
  rw [shNext_eq h (h.and_mask_lt start), shInitialBucket_home h, shSlot_eq_none]
  refine or_congr_right ⟨?_, fun hhome => ?_⟩
  · rintro (hempty | hhome) b hb
    · rw [shSlot_eq_none.mpr hempty] at hb
      exact absurd hb (by simp)
    · obtain ⟨-, rfl⟩ := shSlot_eq_some.mp hb
      exact hhome
  · cases hst : (tb.data (next tb.size (start &&& tb.sizemask))).status with
    | empty => exact Or.inl rfl
    | inUse => exact Or.inr (hhome _ (shSlot_of_inUse hst))

/-- Where the condition fails, the entry of the bucket after the start is
missed when the first one returned is deleted. -/
theorem not_iteratesAllFrom (h : ShRep T tb) {start : ℕ}
    (hun : ¬ IterSafeFrom T tb start) : ¬ IteratesAllFrom T tb start := by
  intro hall
  have hc := h.sized.and_mask_lt start
  unfold IterSafeFrom at hun
  push Not at hun
  obtain ⟨hin, hnext, haway⟩ := hun
  rw [shNext_eq h.sized hc] at hnext haway
  have hx := shSlot_of_inUse (status_ne_empty.mp hnext)
  rw [shInitialBucket_home h.sized] at haway
  obtain ⟨out, hout, -, hmem⟩ :=
    hall (fun k => if k = 0 then .deleteItem else .keep)
  exact shWalk_misses h hc (status_ne_empty.mp hin) hx haway hout
    ((hmem _).mpr ⟨_, next_lt hc, hx⟩)

/-- **Iterating from a given bucket on while deleting is right if and only if**
that bucket is empty, or the bucket after it is empty or holds an entry at its
optimal bucket. -/
theorem iteratesAllFrom_iff (h : ShRep T tb) (start : ℕ) :
    IteratesAllFrom T tb start ↔ IterSafeFrom T tb start := by
  refine ⟨fun hall => ?_, fun hsafe choices => ?_⟩
  · by_contra hun
    exact not_iteratesAllFrom h hun hall
  · exact shWalk_of_startsWell h (h.sized.and_mask_lt start)
      ((iterSafeFrom_iff_startsWell h.sized start).mp hsafe) choices

/-! ## A table where the start matters -/

/-- The keys one and two, both with bucket one for their optimal bucket: in a
table of four buckets they are in buckets one and two. -/
theorem iteratesAllFrom_straddled : ∃ h tb, ShRun (numberTemplate (fun _ => 1)) h tb ∧
    tb.size = 4 ∧ (tb.data 1).key = 1 ∧ (tb.data 2).key = 2 ∧
    IteratesAllFrom (numberTemplate (fun _ => 1)) tb 0 := by
  obtain ⟨tb, hrun, hsize, h₁, h₂, h₀⟩ : ∃ tb, ShRun (numberTemplate (fun _ => 1))
      [(.insert 2, .inserted false ⟨2, 0, .inUse, 0⟩),
        (.insert 1, .inserted false ⟨1, 0, .inUse, 0⟩)] tb ∧ tb.size = 4 ∧
      (tb.data 1).key = 1 ∧ (tb.data 2).key = 2 ∧
      (tb.data (0 &&& tb.sizemask)).status = .empty :=
    ⟨_, .step (.step (.create 3 _ rfl) trivial rfl) trivial rfl, rfl, rfl, rfl, rfl⟩
  exact ⟨_, tb, hrun, hsize, h₁, h₂,
    (iteratesAllFrom_iff hrun.inv.1.rep 0).mpr (Or.inl h₀)⟩

/-- **From bucket one on, the key two is missed** when the key one is deleted as
it is returned. -/
theorem straddled_key_missed : ∃ h tb, ShRun (numberTemplate (fun _ => 1)) h tb ∧
    ShRep (numberTemplate (fun _ => 1)) tb ∧
    tb.Holds ⟨2, 0, .inUse, 0⟩ ∧
    (shWalkAllAt (numberTemplate (fun _ => 1))
      (fun k => if k = 0 then .deleteItem else .keep) tb 1).map (List.map ShElement.key)
      = some [1] ∧
    ¬ IteratesAllFrom (numberTemplate (fun _ => 1)) tb 1 := by
  obtain ⟨tb, hrun, hholds, hwalk⟩ : ∃ tb, ShRun (numberTemplate (fun _ => 1))
      [(.insert 2, .inserted false ⟨2, 0, .inUse, 0⟩),
        (.insert 1, .inserted false ⟨1, 0, .inUse, 0⟩)] tb ∧
      tb.Holds ⟨2, 0, .inUse, 0⟩ ∧
      (shWalkAllAt (numberTemplate (fun _ => 1))
        (fun k => if k = 0 then .deleteItem else .keep) tb 1).map
          (List.map ShElement.key) = some [1] :=
    ⟨_, .step (.step (.create 3 _ rfl) trivial rfl) trivial rfl,
      ⟨2, by decide, rfl⟩, by decide +kernel⟩
  refine ⟨_, tb, hrun, hrun.inv.1.rep, hholds, hwalk, fun hall => ?_⟩
  obtain ⟨out, hout, -, hmem⟩ := hall (fun k => if k = 0 then .deleteItem else .keep)
  rw [hout, Option.map_some, Option.some.injEq] at hwalk
  have hkey : 2 ∈ out.map ShElement.key := List.mem_map.mpr ⟨_, (hmem _).mpr hholds, rfl⟩
  rw [hwalk] at hkey
  exact absurd hkey (by decide)

end SimpleHash
