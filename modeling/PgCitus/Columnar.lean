import Mathlib
import PgCitus.Library.RowTrigger

/-!
# First row numbers of columnar stripes

Columnar tables have their rows in stripes, and from 10.2 on a stripe says where its row
numbers begin. The migration sets this for all stripes there are. It gives every stripe of
every table the same room, that of the largest one, so that a stripe ends before the next
one of its table begins, whatever their numbers and sizes are (`RowNumbersAssigned`).

Numbers begin at different places only if that room is not empty. A later script makes this
a constraint, and it is met if any stripe at all has a row (`stripe_migration`).
-/

namespace Columnar

/-- What a migration may raise. -/
inductive Error
  | bigintOutOfRange
  | uniqueViolation
  deriving DecidableEq

/-- The result of an operator on `bigint`, which raises an error where it is none. -/
def bigint (x : ℤ) : Except Error ℤ :=
  if -9223372036854775808 ≤ x ∧ x ≤ 9223372036854775807 then .ok x else .error .bigintOutOfRange

theorem bigint_eq_ok {x y : ℤ} (h : bigint x = .ok y) : y = x := by
  unfold bigint at h
  split at h
  · exact (Except.ok.inj h).symm
  · cases h

/-! ## The migration -/

/-- A row of `columnar.stripe`. -/
structure OldStripe where
  storageId : ℤ
  stripeNum : ℤ
  rowCount : ℤ
  deriving DecidableEq

/-- `PRIMARY KEY (storage_id, stripe_num)`. -/
def OldStripe.primaryKey (s : OldStripe) : ℤ × ℤ := (s.storageId, s.stripeNum)

/-- The same with the column that 10.2-1 adds. -/
structure Stripe extends OldStripe where
  firstRowNumber : Option ℤ
  deriving DecidableEq

/-- `COLUMNAR_FIRST_ROW_NUMBER`. -/
def columnarFirstRowNumber : ℤ := 1

/-- `SELECT MAX(row_count) INTO max_row_count`, which is NULL if there is no stripe. -/
def maxRowCount (stripes : List OldStripe) : Option ℤ := (stripes.map OldStripe.rowCount).max?

/-- `COLUMNAR_FIRST_ROW_NUMBER + (stripe_num - 1) * max_row_count`. -/
def firstRowNumber (maxRowCount : Option ℤ) (stripeNum : ℤ) : Except Error (Option ℤ) := do
  let before ← bigint (stripeNum - 1)
  if let some room := maxRowCount then
    let rows ← bigint (before * room)
    let first ← bigint (columnarFirstRowNumber + rows)
    return some first
  else
    return none

/-- What `UPDATE` makes of one row. -/
def populate (maxRowCount : Option ℤ) (s : OldStripe) : Except Error Stripe := do
  let first ← firstRowNumber maxRowCount s.stripeNum
  return ⟨s, first⟩

/-- **The migration to 10.2-1**, on the stripes of all tables. -/
def migrate (stripes : List OldStripe) : Except Error (List Stripe) :=
  stripes.mapM (populate (maxRowCount stripes))

/-- `UNIQUE (storage_id, first_row_number)`, where NULLs are different from each other. -/
def stripeFirstRowNumberIdx : Rows.Constraint Stripe :=
  (Rows.unique fun s => (s.storageId, s.firstRowNumber)).onlyFor fun s => s.firstRowNumber.isSome

/-- **The migration to 10.2-3**, which adds the constraint. -/
def addStripeFirstRowNumberIdx (stripes : List Stripe) : Except Error (List Stripe) :=
  if stripeFirstRowNumberIdx.ok stripes = true then .ok stripes else .error .uniqueViolation

/-! ## What the migration leaves -/

/-- The row numbers of a stripe. -/
def Stripe.rowNumbers (s : Stripe) : Set ℤ :=
  {n | ∃ first, s.firstRowNumber = some first ∧ n ∈ Set.Ico first (first + s.rowCount)}

/-- **One stripe before another**: it ends where the other begins, or earlier. -/
def Stripe.Before (s t : Stripe) : Prop :=
  ∃ first first', s.firstRowNumber = some first ∧ t.firstRowNumber = some first' ∧
    first + s.rowCount ≤ first'

/-- **Row numbers as they should be** in every table. -/
structure RowNumbersAssigned (stripes : List Stripe) : Prop where
  start : ∀ s ∈ stripes, ∃ first, s.firstRowNumber = some first ∧ 1 ≤ first
  ordered : ∀ s ∈ stripes, ∀ t ∈ stripes, s.storageId = t.storageId →
    s.stripeNum < t.stripeNum → s.Before t
  disjoint : stripes.Pairwise fun s t =>
    s.storageId = t.storageId → Disjoint s.rowNumbers t.rowNumbers

/-- A row with its number, if there is room for `room` rows. -/
def OldStripe.assigned (room : ℤ) (s : OldStripe) : Stripe :=
  ⟨s, some (columnarFirstRowNumber + (s.stripeNum - 1) * room)⟩

theorem populate_eq_ok {room : ℤ} (s : OldStripe) (t : Stripe)
    (h : populate (some room) s = .ok t) : t = s.assigned room := by
  obtain ⟨first, hfirst, h⟩ := Rows.bind_eq_ok.mp h
  obtain ⟨before, hbefore, hfirst⟩ := Rows.bind_eq_ok.mp hfirst
  obtain ⟨rows, hrows, hfirst⟩ := Rows.bind_eq_ok.mp hfirst
  obtain ⟨sum, hsum, hfirst⟩ := Rows.bind_eq_ok.mp hfirst
  obtain rfl := bigint_eq_ok hbefore
  obtain rfl := bigint_eq_ok hrows
  obtain rfl := bigint_eq_ok hsum
  obtain rfl := Except.ok.inj hfirst
  exact (Except.ok.inj h).symm

/-- **What the migration does that does not raise**: all stripes have the room of the
largest one. -/
theorem migrate_eq_ok {stripes : List OldStripe} {stripes' : List Stripe}
    (h : migrate stripes = .ok stripes') :
    ∃ room, (∀ s ∈ stripes, s.rowCount ≤ room) ∧
      ((∃ s ∈ stripes, s.rowCount = room) ∨ stripes = []) ∧
      stripes' = stripes.map (OldStripe.assigned room) := by
  unfold migrate maxRowCount at h
  cases hmax : (stripes.map OldStripe.rowCount).max? with
  | none =>
    obtain rfl := List.map_eq_nil_iff.mp (List.max?_eq_none_iff.mp hmax)
    exact ⟨0, fun _ hs => absurd hs List.not_mem_nil, Or.inr rfl, (Except.ok.inj h).symm⟩
  | some room =>
    rw [hmax] at h
    obtain ⟨hmem, hle⟩ := List.max?_eq_some_iff.mp hmax
    obtain ⟨s, hs, hroom⟩ := List.mem_map.mp hmem
    exact ⟨room, fun t ht => hle _ (List.mem_map_of_mem ht), Or.inl ⟨s, hs, hroom⟩,
      Rows.mapM_eq_ok populate_eq_ok h⟩

/-- **A stripe is over where one with a greater number begins**, as each has the room of all
rows of any. -/
theorem assigned_before {room : ℤ} {s t : OldStripe} (hs : s.rowCount ≤ room)
    (hroom : 0 ≤ room) (hlt : s.stripeNum < t.stripeNum) :
    (s.assigned room).Before (t.assigned room) := by
  refine ⟨_, _, rfl, rfl, ?_⟩
  have hstep : (s.stripeNum - 1 + 1) * room ≤ (t.stripeNum - 1) * room :=
    Int.mul_le_mul_of_nonneg_right (by omega) hroom
  calc columnarFirstRowNumber + (s.stripeNum - 1) * room + s.rowCount
      ≤ columnarFirstRowNumber + (s.stripeNum - 1) * room + room := Int.add_le_add_left hs _
    _ = columnarFirstRowNumber + (s.stripeNum - 1 + 1) * room := by
      rw [Int.add_assoc, Int.add_mul (s.stripeNum - 1) 1, Int.one_mul]
    _ ≤ columnarFirstRowNumber + (t.stripeNum - 1) * room := Int.add_le_add_left hstep _

/-- Stripes one before another have no row number in common. -/
theorem Stripe.Before.disjoint {s t : Stripe} (h : s.Before t) :
    Disjoint s.rowNumbers t.rowNumbers := by
  obtain ⟨first, first', hs, ht, hle⟩ := h
  rw [Set.disjoint_left]
  rintro n ⟨f, hf, hn⟩ ⟨f', hf', hn'⟩
  obtain rfl := Option.some.inj (hs.symm.trans hf)
  obtain rfl := Option.some.inj (ht.symm.trans hf')
  exact absurd (hn.2.trans_le hle) (not_lt.mpr hn'.1)

/-- Different stripes of a table have different numbers. -/
theorem stripeNum_ne_of_nodup {stripes : List OldStripe}
    (hkey : (stripes.map OldStripe.primaryKey).Nodup) :
    stripes.Pairwise fun s t => s.storageId = t.storageId → s.stripeNum ≠ t.stripeNum :=
  (List.pairwise_map.mp hkey).imp fun hne hid hnum => hne (Prod.ext hid hnum)

/-- **All stripes with the room of the largest one** have row numbers as they should be. -/
theorem rowNumbersAssigned_map {stripes : List OldStripe} {room : ℤ}
    (hkey : (stripes.map OldStripe.primaryKey).Nodup) (hnum : ∀ s ∈ stripes, 1 ≤ s.stripeNum)
    (hle : ∀ s ∈ stripes, s.rowCount ≤ room) (hroom : 0 ≤ room) :
    RowNumbersAssigned (stripes.map (OldStripe.assigned room)) where
  start := by
    intro s hs
    obtain ⟨t, ht, rfl⟩ := List.mem_map.mp hs
    have hprod : 0 ≤ (t.stripeNum - 1) * room :=
      Int.mul_nonneg (Int.sub_nonneg_of_le (hnum t ht)) hroom
    exact ⟨_, rfl, Int.le_add_of_nonneg_right hprod⟩
  ordered := by
    intro s hs t ht _ hlt
    obtain ⟨s, hs', rfl⟩ := List.mem_map.mp hs
    obtain ⟨t, _, rfl⟩ := List.mem_map.mp ht
    exact assigned_before (hle s hs') hroom hlt
  disjoint := by
    rw [List.pairwise_map]
    refine (stripeNum_ne_of_nodup hkey).imp_of_mem fun {s t} hs ht hne hid => ?_
    rcases lt_or_gt_of_ne (hne hid) with hlt | hgt
    · exact (assigned_before (hle s hs) hroom hlt).disjoint
    · exact (assigned_before (hle t ht) hroom hgt).disjoint.symm

/-- With room for any row at all, stripes of a table begin at different places. -/
theorem nodup_map_assigned {stripes : List OldStripe} {room : ℤ}
    (hkey : (stripes.map OldStripe.primaryKey).Nodup) (hroom : 0 < room) :
    ((stripes.map (OldStripe.assigned room)).map fun s => (s.storageId, s.firstRowNumber)).Nodup := by
  rw [List.map_map]
  refine List.pairwise_map.mpr ((stripeNum_ne_of_nodup hkey).imp fun {s t} hne heq => ?_)
  obtain ⟨hid, hfirst⟩ := Prod.ext_iff.mp heq
  have hprod : (s.stripeNum - 1) * room = (t.stripeNum - 1) * room :=
    Int.add_left_cancel (Option.some.inj hfirst)
  have hsub := Int.eq_of_mul_eq_mul_right (ne_of_gt hroom) hprod
  exact hne hid (by omega)

/-- **The migration, and the constraint that comes after it.** -/
theorem stripe_migration {stripes : List OldStripe} {stripes' : List Stripe}
    (hkey : (stripes.map OldStripe.primaryKey).Nodup)
    (hnum : ∀ s ∈ stripes, 1 ≤ s.stripeNum) (hcount : ∀ s ∈ stripes, 0 ≤ s.rowCount)
    (h : migrate stripes = .ok stripes') :
    stripes'.map Stripe.toOldStripe = stripes ∧ RowNumbersAssigned stripes' ∧
    ((∃ s ∈ stripes, 0 < s.rowCount) →
      (stripes'.map fun s => (s.storageId, s.firstRowNumber)).Nodup ∧
      addStripeFirstRowNumberIdx stripes' = .ok stripes') := by
  obtain ⟨room, hle, hex, rfl⟩ := migrate_eq_ok h
  refine ⟨?_, ?_, ?_⟩
  · rw [List.map_map]
    exact List.map_id stripes
  · rcases hex with ⟨s, hs, rfl⟩ | rfl
    · exact rowNumbersAssigned_map hkey hnum hle (hcount s hs)
    · exact ⟨fun _ hs => absurd hs List.not_mem_nil, fun _ hs => absurd hs List.not_mem_nil,
        List.Pairwise.nil⟩
  · rintro ⟨s, hs, hpos⟩
    have hnodup := nodup_map_assigned hkey (hpos.trans_le (hle s hs))
    refine ⟨hnodup, if_pos (decide_eq_true ?_)⟩
    exact hnodup.sublist (List.filter_sublist.map _)

/-- Two tables, with gaps between the numbers of their stripes. -/
def someStripes : List OldStripe := [⟨1, 1, 3⟩, ⟨2, 1, 5⟩, ⟨1, 4, 2⟩]

theorem stripe_migration_gaps :
    RowNumbersAssigned [⟨⟨1, 1, 3⟩, some 1⟩, ⟨⟨2, 1, 5⟩, some 1⟩, ⟨⟨1, 4, 2⟩, some 16⟩] ∧
    addStripeFirstRowNumberIdx
        [⟨⟨1, 1, 3⟩, some 1⟩, ⟨⟨2, 1, 5⟩, some 1⟩, ⟨⟨1, 4, 2⟩, some 16⟩] =
      .ok [⟨⟨1, 1, 3⟩, some 1⟩, ⟨⟨2, 1, 5⟩, some 1⟩, ⟨⟨1, 4, 2⟩, some 16⟩] :=
  have hok : migrate someStripes =
    .ok [⟨⟨1, 1, 3⟩, some 1⟩, ⟨⟨2, 1, 5⟩, some 1⟩, ⟨⟨1, 4, 2⟩, some 16⟩] := rfl
  have h := stripe_migration (by decide) (by decide) (by decide) hok
  ⟨h.2.1, (h.2.2 (by decide)).2⟩

end Columnar
