import PgCitus.SimpleHashIterate
import Mathlib.Data.Multiset.Defs

/-!
# What growing a simplehash table keeps

Where a table can be grown, the grown one has its members and its entries, and
is in robin-hood order at every moment of the copying (`shGrow_copies`).

An insertion that finds no way to grow the table raises an error, and there are
three of them. Two leave the table as it was but for the threshold, or as an
earlier restart of the same insertion has grown it: the test for the maximal
size comes first in `SH_INSERT_HASH_INTERNAL`, and `SH_COMPUTE_PARAMETERS` tests
the size of the array before it sets anything. The third is raised by
`SH_ALLOCATE`, after `SH_GROW` has let `SH_COMPUTE_PARAMETERS` set the size, the
mask and the threshold of a table whose `data` is still the old array. The
functions that raise are modelled here once more, with what they leave behind.
-/

namespace SimpleHash

open Circ RobinHood

variable {κ ν : Type*} {T : ShTemplate κ ν} {tb tb' : ShHash κ ν}

/-! ## Growing -/

/-- **`SH_GROW` where its parameters can be computed.** The start bucket exists, and holds
nothing or an entry at its optimal bucket. Whatever state the copying comes to, the new
array is in robin-hood order: with the number of entries copied so far it is a table. In
the end it has the members and the entries of the old one. -/
theorem shGrow_copies (h : ShRep T tb) {newsize : ℕ} (hlt : tb.size < newsize)
    (hmax : newsize ≤ 2 ^ 32) {tb₁ : ShHash κ ν}
    (hparams : shComputeParameters T tb newsize = .ok tb₁) :
    ∃ start newdata,
      shGrowStart T tb₁ tb.data tb.size = some start ∧ start < tb.size ∧
      ((tb.data start).status = .inUse →
        shInitialBucket tb (T.shEntryHash (tb.data start)) = start) ∧
      (∀ i copyelem copied,
        Loop.Reached (shGrowCopyPass T tb₁ tb.data tb.size) (0, start, fun _ => T.zeroElement)
          (i, copyelem, copied) →
        ∃ members, ShRep T { tb₁ with data := copied, members := members }) ∧
      shGrow T tb newsize = some (.ok { tb₁ with data := newdata }) ∧
      ShRep T { tb₁ with data := newdata } ∧
      newsize ≤ tb₁.size ∧ tb₁.growThreshold = shGrowThreshold tb₁.size ∧
      tb₁.members = tb.members ∧
      ∀ e, ({ tb₁ with data := newdata } : ShHash κ ν).Holds e ↔ tb.Holds e := by
  obtain ⟨hsz, hle, ht, hm, -⟩ := shComputeParameters_ok hmax hparams
  have hlt' : tb.size < tb₁.size := by omega
  have hdvd := h.sized.dvd_of_lt hsz hlt'
  obtain ⟨s, newdata, hs, hsn, hstart, hgrow, hre⟩ := shGrow_rehashed h hlt hmax hparams
  obtain ⟨hrep, hholds⟩ := rep_of_rehashed_all h hsz hlt' hm hre
  refine ⟨s, newdata, hs, hsn, fun hin => ?_, fun i copyelem copied hr => ?_, hgrow, hrep, hle,
    ht, hm, hholds⟩
  · rw [shInitialBucket_home h.sized]
    exact hstart _ (shSlot_of_inUse hin)
  · have hinv := hr.invariant (I := Copied T tb tb₁ s)
      (fun st hst => (shGrowCopyPass_meets h hsz hlt' hdvd hsn hstart st hst).mono
        (fun _ h => h) (fun _ h => h.1)) (copied_start hsz hsn)
    exact ⟨_, rep_of_rehashed h hsz hlt' hinv.rehashed⟩

/-- Three keys that have one optimal bucket in four, and wrap around the end, get two of them
in eight. -/
theorem shGrow_copies_split : ∃ tb tb₈,
    ShRep modEight tb ∧ tb.size = 4 ∧ [3, 0, 1].map (fun i => (tb.data i).key) = [3, 7, 11] ∧
    shGrow modEight tb 8 = some (.ok tb₈) ∧
    ShRep modEight tb₈ ∧ 8 ≤ tb₈.size ∧ tb₈.members = 3 ∧ (∀ e, tb₈.Holds e ↔ tb.Holds e) ∧
    [3, 4, 7].map (fun i => (tb₈.data i).key) = [3, 11, 7] := by
  obtain ⟨tb, tb₁, hrun, hsize, hkeys, hmem, hparams, hsplit⟩ : ∃ tb tb₁,
      ShRun modEight threeInserted tb ∧
      tb.size = 4 ∧ [3, 0, 1].map (fun i => (tb.data i).key) = [3, 7, 11] ∧ tb.members = 3 ∧
      shComputeParameters modEight tb 8 = .ok tb₁ ∧
      ∀ tb₈, shGrow modEight tb 8 = some (.ok tb₈) →
        [3, 4, 7].map (fun i => (tb₈.data i).key) = [3, 11, 7] :=
    ⟨_, _, .step (.step (.step (.create 3 _ rfl) trivial rfl) trivial rfl) trivial rfl, rfl, rfl,
      rfl, rfl, fun tb₈ h => by
        cases Option.some.inj h
        rfl⟩
  have hrep := hrun.inv.1.rep
  obtain ⟨start, newdata, -, -, -, -, hgrow, hrep', hle, -, hm, hholds⟩ :=
    shGrow_copies hrep (by rw [hsize]; omega) (by omega) hparams
  exact ⟨tb, _, hrep, hsize, hkeys, hgrow, hrep', hle, hm.trans hmem, hholds, hsplit _ hgrow⟩

/-! ## Insertions that raise -/

/-- What is raised: an error of `sh_error`, or that of an allocation. -/
inductive ShRaise where
  | error (e : ShError)
  | allocate
  deriving DecidableEq, Repr

/-- **What an error leaves behind**: the table as it is then, and the length of the array
its `data` points to. -/
structure ShRaised (κ ν : Type*) where
  raise : ShRaise
  table : ShHash κ ν
  allocated : ℕ

/-- `SH_GROW`, where it may raise. `granted` says of how many elements `SH_ALLOCATE` hands
out an array; otherwise it raises an error of its own. -/
def shGrowRaises (T : ShTemplate κ ν) (granted : ℕ → Bool) (tb : ShHash κ ν) (newsize : ℕ) :
    Option (Except (ShRaised κ ν) (ShHash κ ν)) :=
  match shComputeParameters T tb newsize with
  | .error e => some (.error ⟨.error e, tb, tb.size⟩)
  | .ok tb' =>
    if granted tb'.size then
      match shGrowStart T tb' tb.data tb.size with
      | none => none
      | some startelem =>
        match shGrowCopy T tb' tb.data tb.size startelem (fun _ => T.zeroElement) with
        | none => none
        | some newdata => some (.ok { tb' with data := newdata })
    else some (.error ⟨.allocate, tb', tb.size⟩)

/-- A pass of `SH_INSERT_HASH_INTERNAL`, from the label `restart` to the next
`goto restart`, where it may raise. -/
def shInsertPass (T : ShTemplate κ ν) (granted : ℕ → Bool) (key : κ) (hash : UInt32)
    (tb : ShHash κ ν) : Loop.Step (ShHash κ ν) (Except (ShRaised κ ν) (ShInserted κ ν)) :=
  if tb.growThreshold ≤ tb.members then
    if tb.size = shMaxSize then .done (.error ⟨.error .sizeExceeded, tb, tb.size⟩)
    else
      match shGrowRaises T granted tb (tb.size * 2) with
      | none => .stuck
      | some (.error r) => .done (.error r)
      | some (.ok tb') => (shInsertAttempt T tb' key hash).map id
          (Except.mapError fun e => ⟨.error e, tb', tb'.size⟩)
  else (shInsertAttempt T tb key hash).map id
    (Except.mapError fun e => ⟨.error e, tb, tb.size⟩)

/-- `SH_INSERT_HASH`, where it may raise. -/
def shInsertHashRaises (T : ShTemplate κ ν) (granted : ℕ → Bool) (tb : ShHash κ ν) (key : κ)
    (hash : UInt32) : Option (Except (ShRaised κ ν) (ShInserted κ ν)) :=
  Loop.run (shInsertPass T granted key hash) 65 tb

/-- Where every array is handed out, growing is that of `SimpleHash`, and raises its errors
before anything is set. -/
theorem shGrowRaises_granted (T : ShTemplate κ ν) (tb : ShHash κ ν) (newsize : ℕ) :
    shGrowRaises T (fun _ => true) tb newsize
      = (shGrow T tb newsize).map (Except.mapError fun e => ⟨.error e, tb, tb.size⟩) := by
  unfold shGrowRaises shGrow
  cases shComputeParameters T tb newsize with
  | error e => rfl
  | ok tb' =>
    dsimp only
    rw [if_pos rfl]
    cases shGrowStart T tb' tb.data tb.size with
    | none => rfl
    | some startelem =>
      dsimp only
      cases shGrowCopy T tb' tb.data tb.size startelem (fun _ => T.zeroElement) <;> rfl

/-- **Where every array is handed out, inserting is that of `SimpleHash`.** -/
theorem shInsertHashRaises_granted (T : ShTemplate κ ν) (tb : ShHash κ ν) (key : κ)
    (hash : UInt32) :
    (shInsertHashRaises T (fun _ => true) tb key hash).map (Except.mapError ShRaised.raise)
      = (shInsertHash T tb key hash).map (Except.mapError ShRaise.error) := by
  have hattempt : ∀ s : ShHash κ ν,
      ((shInsertAttempt T s key hash).map id
          (Except.mapError fun e => (⟨.error e, s, s.size⟩ : ShRaised κ ν))).map id
        (Except.mapError ShRaised.raise)
      = (shInsertAttempt T s key hash).map id (Except.mapError ShRaise.error) := by
    intro s
    cases shInsertAttempt T s key hash with
    | done r => cases r <;> rfl
    | next s' => rfl
    | stuck => rfl
  have hraises : Loop.run (fun s => (shInsertPass T (fun _ => true) key hash s).map id
        (Except.mapError ShRaised.raise)) 65 tb
      = (shInsertHashRaises T (fun _ => true) tb key hash).map (Except.mapError ShRaised.raise) :=
    Loop.run_map id _ (fun _ => rfl) 65 tb
  rw [← hraises]
  unfold shInsertHash shInsertHashInternal
  refine Loop.run_map id _ (fun s => ?_) 65 tb
  show (shInsertPass T (fun _ => true) key hash s).map id _ = _
  unfold shInsertPass
  by_cases hfull : s.growThreshold ≤ s.members
  · rw [if_pos hfull, if_pos hfull]
    by_cases hmax : s.size = shMaxSize
    · rw [if_pos hmax, if_pos hmax]
      rfl
    · rw [if_neg hmax, if_neg hmax, shGrowRaises_granted]
      cases shGrow T s (s.size * 2) with
      | none => rfl
      | some r =>
        cases r with
        | error e => rfl
        | ok tb' => exact hattempt tb'
  · rw [if_neg hfull, if_neg hfull]
    exact hattempt s

/-! ## What is done with a table later -/

/-- A later call: of `SH_LOOKUP`, of `SH_DELETE`, or of `SH_DELETE_ITEM` with the element a
lookup finds. -/
inductive ShUse (κ : Type*) where
  | lookup (key : κ)
  | delete (key : κ)
  | deleteItem (key : κ)

/-- What a later call gives: the element found, or whether there was one to delete. -/
inductive ShSeen (κ ν : Type*) where
  | looked (entry : Option (ShElement κ ν))
  | deleted (present : Bool)

def shUse (T : ShTemplate κ ν) (tb : ShHash κ ν) : ShUse κ → Option (ShSeen κ ν × ShHash κ ν)
  | .lookup key => (shLookup T tb key).map fun r => (.looked (r.map tb.data), tb)
  | .delete key => (shDelete T tb key).map fun r => (.deleted r.1, r.2)
  | .deleteItem key =>
    match shLookup T tb key with
    | none => none
    | some none => some (.deleted false, tb)
    | some (some entry) => (shDeleteItem T tb entry).map fun tb' => (.deleted true, tb')

/-- Several later calls, with what each gives and the table after the last. -/
def shUses (T : ShTemplate κ ν) :
    ShHash κ ν → List (ShUse κ) → Option (List (ShSeen κ ν) × ShHash κ ν)
  | tb, [] => some ([], tb)
  | tb, use :: uses =>
    match shUse T tb use with
    | none => none
    | some (seen, tb') => (shUses T tb' uses).map fun r => (seen :: r.1, r.2)

/-- The entries an iteration returns, in whatever order the buckets have them. -/
def shEntries (T : ShTemplate κ ν) (choices : ℕ → ShChoice) (tb : ShHash κ ν) :
    Option (Multiset (ShElement κ ν)) :=
  (shWalkAll T choices tb).map (Quotient.mk _)

/-- **An error has done a table no harm**: its array is as long as its size says, the
representation invariant holds, and any lookups and deletions later on, and an iteration
after them, whatever is deleted on its way, give what they would have given before. -/
structure Unharmed (T : ShTemplate κ ν) (tb : ShHash κ ν) (r : ShRaised κ ν) : Prop where
  allocated_eq : r.allocated = r.table.size
  rep : ShRep T r.table
  later : ∀ uses : List (ShUse κ), ∃ seen left left',
    shUses T tb uses = some (seen, left) ∧ shUses T r.table uses = some (seen, left') ∧
    ∀ choices, shEntries T choices left' = shEntries T choices left

/-- **Deleting the element a lookup finds** is deleting the key. -/
theorem shUse_deleteItem (T : ShTemplate κ ν) (tb : ShHash κ ν) (key : κ) :
    shUse T tb (.deleteItem key) = shUse T tb (.delete key) := by
  unfold shUse shDelete shLookup
  dsimp only
  rw [shDeleteFind_eq]
  cases shLookupHashInternal T tb key (T.hashKey key) with
  | none => rfl
  | some r =>
    cases r with
    | none => rfl
    | some entry =>
      dsimp only
      unfold shDeleteItem
      cases shRemove T tb entry <;> rfl

/-! ### The threshold -/

theorem shRemove_withThreshold (T : ShTemplate κ ν) (g : ℕ) (tb : ShHash κ ν) (p : ℕ) :
    shRemove T (tb.withThreshold g) p = (shRemove T tb p).map (ShHash.withThreshold g) := by
  unfold shRemove
  rw [show shShiftBackward T (tb.withThreshold g) p = shShiftBackward T tb p from rfl]
  cases shShiftBackward T tb p <;> rfl

theorem shDelete_withThreshold (T : ShTemplate κ ν) (g : ℕ) (tb : ShHash κ ν) (key : κ) :
    shDelete T (tb.withThreshold g) key
      = (shDelete T tb key).map fun r => (r.1, r.2.withThreshold g) := by
  unfold shDelete
  rw [show shDeleteFind T (tb.withThreshold g) key (T.hashKey key)
    = shDeleteFind T tb key (T.hashKey key) from rfl]
  cases shDeleteFind T tb key (T.hashKey key) with
  | none => rfl
  | some r =>
    cases r with
    | none => rfl
    | some p =>
      dsimp only
      rw [shRemove_withThreshold]
      cases shRemove T tb p <;> rfl

theorem apply_withThreshold (T : ShTemplate κ ν) (g : ℕ) (tb : ShHash κ ν) (p : ℕ)
    (choice : ShChoice) :
    choice.apply T (tb.withThreshold g) p
      = (choice.apply T tb p).map (ShHash.withThreshold g) := by
  cases choice with
  | keep => rfl
  | delete =>
    unfold ShChoice.apply
    rw [show ((tb.withThreshold g).data p).key = (tb.data p).key from rfl,
      shDelete_withThreshold, Option.map_map, Option.map_map]
    rfl
  | deleteItem => exact shRemove_withThreshold T g tb p

/-- **An iteration does not read the threshold.** -/
theorem shWalkAll_withThreshold (T : ShTemplate κ ν) (choices : ℕ → ShChoice) (g : ℕ)
    (tb : ShHash κ ν) : shWalkAll T choices (tb.withThreshold g) = shWalkAll T choices tb := by
  have hstep : ∀ w : ShWalk κ ν,
      shWalkStep T choices { w with table := w.table.withThreshold g }
        = (shWalkStep T choices w).map
            (fun w => { w with table := w.table.withThreshold g }) id := by
    intro w
    unfold shWalkStep
    rw [show shIterate (w.table.withThreshold g) w.iter = shIterate w.table w.iter from rfl]
    rcases shIterate w.table w.iter with _ | ⟨_ | p, iter⟩
    · rfl
    · rfl
    · dsimp only
      rw [apply_withThreshold]
      cases (choices w.returned.length).apply T w.table p <;> rfl
  unfold shWalkAll
  rw [show shStartIterate (tb.withThreshold g) = shStartIterate tb from rfl]
  cases shStartIterate tb with
  | none => rfl
  | some iter =>
    refine (Loop.run_map _ id hstep (tb.size + 1) ⟨tb, iter, []⟩).trans ?_
    rw [Option.map_id_fun, id]

/-! ### Tables that are used alike -/

/-- A table with no other entries has no more members. -/
theorem members_le_of_holds (h : ShRep T tb) (h' : ShRep T tb')
    (hsub : ∀ e, tb'.Holds e → tb.Holds e) : tb'.members ≤ tb.members := by
  have hle : {e | ∃ key, shAbs T tb' key = some e}.encard
      ≤ {e | ∃ key, shAbs T tb key = some e}.encard := by
    refine Set.encard_le_encard (fun e he => ?_)
    obtain ⟨key, hkey⟩ := he
    obtain ⟨hholds, hequal⟩ := (shAbs_eq_some h').mp hkey
    exact ⟨key, (shAbs_eq_some h).mpr ⟨hsub e hholds, hequal⟩⟩
  rw [encard_shAbs h, encard_shAbs h'] at hle
  exact_mod_cast hle

/-- Up to `2 ^ 31` members leave one of the first `2 ^ 31` buckets empty. -/
theorem iterSafe_of_members (h : ShRep T tb) (hm : tb.members < 2 ^ 31) : IterSafe T tb := by
  left
  by_contra hc
  push Not at hc
  have hsub : Finset.range (min tb.size (2 ^ 31)) ⊆ (Finset.range tb.size).filter
      (fun i => (tb.data i).status = .inUse) := by
    intro i hi
    rw [Finset.mem_range, lt_min_iff] at hi
    rw [Finset.mem_filter, Finset.mem_range]
    exact ⟨hi.1, status_ne_empty.mp (hc i hi.1 hi.2)⟩
  have hcard := Finset.card_le_card hsub
  rw [Finset.card_range, ← h.members_eq] at hcard
  have hlt := h.members_lt
  omega

/-- **A table is used as another one**: it is that one but for the threshold, or has its
entries, and these are too few for an iteration to go wrong in either. -/
structure Alike (T : ShTemplate κ ν) (tb tb' : ShHash κ ν) : Prop where
  rep : ShRep T tb
  rep' : ShRep T tb'
  holds_iff : ∀ e, tb'.Holds e ↔ tb.Holds e
  same : (∃ g, tb' = tb.withThreshold g) ∨ tb.members < 2 ^ 31

namespace Alike

theorem refl (h : ShRep T tb) : Alike T tb tb :=
  ⟨h, h, fun _ => Iff.rfl, Or.inl ⟨tb.growThreshold, rfl⟩⟩

theorem withThreshold (h : Alike T tb tb') (g : ℕ) : Alike T tb (tb'.withThreshold g) := by
  refine ⟨h.rep, h.rep'.withThreshold g, h.holds_iff, ?_⟩
  rcases h.same with ⟨g', rfl⟩ | hm
  · exact Or.inl ⟨g, rfl⟩
  · exact Or.inr hm

theorem members_eq (h : Alike T tb tb') : tb'.members = tb.members :=
  le_antisymm (members_le_of_holds h.rep h.rep' fun e => (h.holds_iff e).mp)
    (members_le_of_holds h.rep' h.rep fun e => (h.holds_iff e).mpr)

/-- A table that has been grown is used as it was before. -/
theorem grown (h : Alike T tb tb') (hmax : tb'.size ≠ shMaxSize) {tb₁ : ShHash κ ν}
    (hgrow : shGrow T tb' (tb'.size * 2) = some (.ok tb₁)) : Alike T tb tb₁ := by
  have h₂ := h.rep'.sized.two_le
  have hle := h.rep'.sized.double_le hmax
  have hlt := h.rep'.members_lt
  obtain ⟨r, hr, hok⟩ := shGrow_rep h.rep' (by omega) hle
  rw [hgrow, Option.some.injEq] at hr
  obtain ⟨hrep, -, -, -, hholds⟩ := hok tb₁ hr.symm
  refine ⟨h.rep, hrep, fun e => (hholds e).trans (h.holds_iff e), Or.inr ?_⟩
  rw [← h.members_eq]
  omega

/-- **The iterations return the same entries.** -/
theorem entries (h : Alike T tb tb') (choices : ℕ → ShChoice) :
    shEntries T choices tb' = shEntries T choices tb := by
  rcases h.same with ⟨g, rfl⟩ | hm
  · unfold shEntries
    rw [shWalkAll_withThreshold]
  · obtain ⟨out, hout, hnodup, hmem⟩ :=
      (iterSafe_of_members h.rep hm).iteratesAll h.rep choices
    obtain ⟨out', hout', hnodup', hmem'⟩ :=
      (iterSafe_of_members h.rep' (h.members_eq ▸ hm)).iteratesAll h.rep' choices
    have hperm : out'.Perm out := (List.perm_ext_iff_of_nodup hnodup' hnodup).mpr fun e => by
      rw [hmem, hmem', h.holds_iff]
    unfold shEntries
    rw [hout, hout']
    exact congrArg some (Quotient.sound hperm)

/-- **The same element is found.** -/
theorem lookup (h : Alike T tb tb') (key : κ) :
    ∃ seen, shUse T tb (.lookup key) = some (seen, tb) ∧
      shUse T tb' (.lookup key) = some (seen, tb') := by
  obtain ⟨r, hr, hf⟩ := shLookupHashInternal_finds h.rep key
  obtain ⟨r', hr', hf'⟩ := shLookupHashInternal_finds h.rep' key
  refine ⟨.looked (shAbs T tb key), ?_, ?_⟩
  · unfold shUse shLookup
    dsimp only
    rw [hr, Option.map_some, Finds.map_data h.rep hf]
  · unfold shUse shLookup
    dsimp only
    rw [hr', Option.map_some, Finds.map_data h.rep' hf', shAbs_congr h.rep h.rep' h.holds_iff]

/-- **The same keys are there to delete**, and the tables are alike afterwards. -/
theorem delete (h : Alike T tb tb') (key : κ) :
    ∃ seen left left', shUse T tb (.delete key) = some (seen, left) ∧
      shUse T tb' (.delete key) = some (seen, left') ∧ Alike T left left' := by
  obtain ⟨found, left, hd, hrep, -, -, hfound, hholds⟩ := shDelete_removed h.rep key
  obtain ⟨found', left', hd', hrep', -, -, hfound', hholds'⟩ := shDelete_removed h.rep' key
  have heq : found' = found := by
    rw [Bool.eq_iff_iff, hfound, hfound']
    exact exists_congr fun e => and_congr_left fun _ => h.holds_iff e
  refine ⟨.deleted found, left, left', ?_, ?_, hrep, hrep', fun e => ?_, ?_⟩
  · unfold shUse
    dsimp only
    rw [hd]
    rfl
  · unfold shUse
    dsimp only
    rw [hd', ← heq]
    rfl
  · rw [hholds, hholds', h.holds_iff]
  · rcases h.same with ⟨g, rfl⟩ | hm
    · rw [shDelete_withThreshold, hd] at hd'
      cases hd'
      exact Or.inl ⟨g, rfl⟩
    · right
      have hle := members_le_of_holds h.rep hrep fun e he => ((hholds e).mp he).1
      omega

theorem use (h : Alike T tb tb') (use : ShUse κ) :
    ∃ seen left left', shUse T tb use = some (seen, left) ∧
      shUse T tb' use = some (seen, left') ∧ Alike T left left' := by
  cases use with
  | lookup key =>
    obtain ⟨seen, hs, hs'⟩ := h.lookup key
    exact ⟨seen, tb, tb', hs, hs', h⟩
  | delete key => exact h.delete key
  | deleteItem key =>
    rw [shUse_deleteItem, shUse_deleteItem]
    exact h.delete key

/-- **Whatever is called gives the same**, and the tables are alike after every call. -/
theorem uses (h : Alike T tb tb') (uses : List (ShUse κ)) :
    ∃ seen left left', shUses T tb uses = some (seen, left) ∧
      shUses T tb' uses = some (seen, left') ∧ Alike T left left' := by
  induction uses generalizing tb tb' with
  | nil => exact ⟨[], tb, tb', rfl, rfl, h⟩
  | cons use uses ih =>
    obtain ⟨seen, left, left', hs, hs', halike⟩ := h.use use
    obtain ⟨seens, last, last', hl, hl', hlast⟩ := ih halike
    refine ⟨seen :: seens, last, last', ?_, ?_, hlast⟩
    · rw [shUses, hs]
      dsimp only
      rw [hl]
      rfl
    · rw [shUses, hs']
      dsimp only
      rw [hl']
      rfl

end Alike

/-! ## The three errors -/

/-- **The allocation a pass comes to fails**: the table is to be grown, can be as far as its
size goes, and `SH_ALLOCATE` does not hand out the larger array. -/
def AllocationFails (T : ShTemplate κ ν) (granted : ℕ → Bool) (tb : ShHash κ ν) : Prop :=
  tb.growThreshold ≤ tb.members ∧ tb.size ≠ shMaxSize ∧
    ∃ tb₁, shComputeParameters T tb (tb.size * 2) = .ok tb₁ ∧ granted tb₁.size = false

/-- An attempt ends with an element, or only sets the threshold to zero. -/
theorem shInsertAttempt_cases (T : ShTemplate κ ν) (tb : ShHash κ ν) (key : κ) (hash : UInt32) :
    (∃ ins, shInsertAttempt T tb key hash = .done (.ok ins)) ∨
      shInsertAttempt T tb key hash = .next (tb.withThreshold 0) ∨
      shInsertAttempt T tb key hash = .stuck := by
  unfold shInsertAttempt
  cases shInsertProbe T tb key hash with
  | none => exact Or.inr (Or.inr rfl)
  | some p =>
    cases p with
    | unused c => exact Or.inl ⟨_, rfl⟩
    | found c => exact Or.inl ⟨_, rfl⟩
    | restart => exact Or.inr (Or.inl rfl)
    | displace c =>
      dsimp only
      rcases shInsertFindEmpty T tb c with _ | _ | e
      · exact Or.inr (Or.inr rfl)
      · exact Or.inr (Or.inl rfl)
      · dsimp only
        cases shShiftForward tb c e with
        | none => exact Or.inr (Or.inr rfl)
        | some data => exact Or.inl ⟨_, rfl⟩

/-- What a growth that may raise does. -/
theorem shGrowRaises_cases (h : ShRep T tb) (granted : ℕ → Bool) (hmax : tb.size ≠ shMaxSize) :
    (∃ e, shComputeParameters T tb (tb.size * 2) = .error e ∧
      shGrowRaises T granted tb (tb.size * 2) = some (.error ⟨.error e, tb, tb.size⟩)) ∨
    (∃ tb₁, shComputeParameters T tb (tb.size * 2) = .ok tb₁ ∧ granted tb₁.size = false ∧
      tb.size < tb₁.size ∧
      shGrowRaises T granted tb (tb.size * 2) = some (.error ⟨.allocate, tb₁, tb.size⟩)) ∨
    ∃ tb₁ tb', shComputeParameters T tb (tb.size * 2) = .ok tb₁ ∧ granted tb₁.size = true ∧
      shGrow T tb (tb.size * 2) = some (.ok tb') ∧
      shGrowRaises T granted tb (tb.size * 2) = some (.ok tb') := by
  have h₂ := h.sized.two_le
  have hle := h.sized.double_le hmax
  cases hparams : shComputeParameters T tb (tb.size * 2) with
  | error e =>
    refine Or.inl ⟨e, rfl, ?_⟩
    unfold shGrowRaises
    rw [hparams]
  | ok tb₁ =>
    obtain ⟨-, hsize, -⟩ := shComputeParameters_ok hle hparams
    cases hg : granted tb₁.size with
    | false =>
      refine Or.inr (Or.inl ⟨tb₁, rfl, hg, by omega, ?_⟩)
      unfold shGrowRaises
      rw [hparams]
      dsimp only
      rw [hg, if_neg (by decide)]
    | true =>
      obtain ⟨start, newdata, hstart, -, -, hgrow, -⟩ := shGrow_rehashed h (by omega) hle hparams
      refine Or.inr (Or.inr ⟨tb₁, _, rfl, hg, hgrow, ?_⟩)
      -- the same copying, by what both come to where every array is handed out
      have hall := shGrowRaises_granted T tb (tb.size * 2)
      rw [hgrow] at hall
      rw [Option.map_some] at hall
      refine Eq.trans ?_ hall
      unfold shGrowRaises
      rw [hparams]
      dsimp only
      rw [hg]

/-- What a pass does that the allocator does not stop: an error that leaves everything as it
is, an element, or another pass. -/
def PassGoesOn (T : ShTemplate κ ν) (tb s : ShHash κ ν)
    (pass : Loop.Step (ShHash κ ν) (Except (ShRaised κ ν) (ShInserted κ ν))) : Prop :=
  (∃ e, pass = .done (.error ⟨.error e, s, s.size⟩)) ∨ (∃ ins, pass = .done (.ok ins)) ∨
    (∃ s', pass = .next s' ∧ Alike T tb s') ∨ pass = .stuck

theorem passGoesOn_attempt {s s₁ : ShHash κ ν} (h : Alike T tb s₁) (key : κ) (hash : UInt32) :
    PassGoesOn T tb s ((shInsertAttempt T s₁ key hash).map id
      (Except.mapError fun e => ⟨.error e, s₁, s₁.size⟩)) := by
  rcases shInsertAttempt_cases T s₁ key hash with ⟨ins, hins⟩ | hnext | hstuck
  · rw [hins]
    exact Or.inr (Or.inl ⟨ins, rfl⟩)
  · rw [hnext]
    exact Or.inr (Or.inr (Or.inl ⟨_, rfl, h.withThreshold 0⟩))
  · rw [hstuck]
    exact Or.inr (Or.inr (Or.inr rfl))

/-- **A pass of an insertion**: it is stopped by the allocator, with the size of a table set
for an array that is not there, or goes on. -/
theorem shInsertPass_cases {s : ShHash κ ν} (h : Alike T tb s) (granted : ℕ → Bool) (key : κ)
    (hash : UInt32) :
    (AllocationFails T granted s ∧ ∃ tb₁, s.size < tb₁.size ∧
      shInsertPass T granted key hash s = .done (.error ⟨.allocate, tb₁, s.size⟩)) ∨
    (¬ AllocationFails T granted s ∧
      PassGoesOn T tb s (shInsertPass T granted key hash s)) := by
  unfold shInsertPass
  by_cases hfull : s.growThreshold ≤ s.members
  · rw [if_pos hfull]
    by_cases hmax : s.size = shMaxSize
    · rw [if_pos hmax]
      exact Or.inr ⟨fun hf => hf.2.1 hmax, Or.inl ⟨.sizeExceeded, rfl⟩⟩
    · rw [if_neg hmax]
      rcases shGrowRaises_cases h.rep' granted hmax with ⟨e, hparams, hr⟩ |
        ⟨tb₁, hparams, hg, hlt, hr⟩ | ⟨tb₁, tb', hparams, hg, hgrow, hr⟩
      · rw [hr]
        refine Or.inr ⟨fun hf => ?_, Or.inl ⟨e, rfl⟩⟩
        obtain ⟨tb₁, hok, -⟩ := hf.2.2
        rw [hparams] at hok
        cases hok
      · rw [hr]
        exact Or.inl ⟨⟨hfull, hmax, tb₁, hparams, hg⟩, tb₁, hlt, rfl⟩
      · rw [hr]
        refine Or.inr ⟨fun hf => ?_, passGoesOn_attempt (h.grown hmax hgrow) key hash⟩
        obtain ⟨tb₂, hok, hno⟩ := hf.2.2
        rw [hparams] at hok
        cases hok
        rw [hg] at hno
        cases hno
  · rw [if_neg hfull]
    exact Or.inr ⟨fun hf => hfull hf.1, passGoesOn_attempt h key hash⟩

/-- Every table an insertion comes to is used as the one it was called for. -/
theorem alike_of_reached (h : ShRep T tb) {granted : ℕ → Bool} {key : κ} {hash : UInt32}
    {s : ShHash κ ν} (hr : Loop.Reached (shInsertPass T granted key hash) tb s) :
    Alike T tb s := by
  induction hr with
  | start => exact .refl h
  | pass _ hnext ih =>
    rcases shInsertPass_cases ih granted key hash with ⟨-, tb₁, -, hdone⟩ | ⟨-, hon⟩
    · cases hnext.symm.trans hdone
    · rcases hon with ⟨e, hdone⟩ | ⟨ins, hdone⟩ | ⟨s', hs', halike⟩ | hstuck
      · cases hnext.symm.trans hdone
      · cases hnext.symm.trans hdone
      · cases hnext.symm.trans hs'
        exact halike
      · cases hnext.symm.trans hstuck

/-- **An insertion that raises an error has done no harm if and only if** it does not come to
an allocation that fails: what the other errors leave is the table, or one it has been grown
to, with its array; what a failed allocation leaves is a table with the size of an array that
is not there. -/
theorem shInsertHash_unharmed_iff (h : ShRep T tb) (granted : ℕ → Bool) (key : κ) (hash : UInt32)
    {r : ShRaised κ ν} (hr : shInsertHashRaises T granted tb key hash = some (.error r)) :
    Unharmed T tb r ↔ ∀ s, Loop.Reached (shInsertPass T granted key hash) tb s →
      ¬ AllocationFails T granted s := by
  have hends := Loop.ends_iff.mpr ⟨65, hr⟩
  constructor
  · intro hun s hs hfails
    rcases shInsertPass_cases (alike_of_reached h hs) granted key hash with
      ⟨-, tb₁, hlt, hdone⟩ | ⟨hno, -⟩
    · -- the error is that of this pass
      have hraised := hends.unique (Loop.ends_iff_reached.mpr ⟨s, hs, hdone⟩)
      obtain rfl := Except.error.inj hraised
      exact absurd hun.allocated_eq hlt.ne
    · exact hno hfails
  · intro hnever
    obtain ⟨s, hs, hdone⟩ := Loop.ends_iff_reached.mp hends
    have halike := alike_of_reached h hs
    rcases shInsertPass_cases halike granted key hash with ⟨hfails, -⟩ | ⟨-, hon⟩
    · exact absurd hfails (hnever s hs)
    · rcases hon with ⟨e, he⟩ | ⟨ins, hins⟩ | ⟨s', hs', -⟩ | hstuck
      · cases hdone.symm.trans he
        refine ⟨rfl, halike.rep', fun uses => ?_⟩
        obtain ⟨seen, left, left', hl, hl', hleft⟩ := halike.uses uses
        exact ⟨seen, left, left', hl, hl', hleft.entries⟩
      · cases hdone.symm.trans hins
      · cases hdone.symm.trans hs'
      · cases hdone.symm.trans hstuck

/-! ## A table of two buckets that cannot be grown -/

/-- The template of `numberTemplate` with elements so large that an array of four is too
large, and one of two is not. -/
def largeTemplate : ShTemplate ℕ ℕ :=
  { numberTemplate (fun _ => 3) with elementSize := 2 ^ 61 }

/-- Inserting a second key raises "hash table too large", and does no harm. -/
theorem shInsertHash_unharmed_large : ∃ tb r, ShRep largeTemplate tb ∧
    tb.Holds ⟨7, 0, .inUse, 0⟩ ∧
    shInsertHashRaises largeTemplate (fun _ => true) tb 8 3 = some (.error r) ∧
    r.raise = .error .tooLarge ∧ Unharmed largeTemplate tb r := by
  obtain ⟨tb, r, hrun, hholds, hraises, hlarge⟩ : ∃ tb r,
      ShRun largeTemplate [(.insert 7, .inserted false ⟨7, 0, .inUse, 0⟩)] tb ∧
      tb.Holds ⟨7, 0, .inUse, 0⟩ ∧
      shInsertHashRaises largeTemplate (fun _ => true) tb 8 3 = some (.error r) ∧
      r.raise = .error .tooLarge :=
    ⟨_, _, .step (.create 1 _ rfl) trivial rfl, ⟨1, by decide, rfl⟩, rfl, rfl⟩
  refine ⟨tb, r, hrun.inv.1.rep, hholds, hraises, hlarge,
    (shInsertHash_unharmed_iff hrun.inv.1.rep _ 8 3 hraises).mpr fun s _ hfails => ?_⟩
  obtain ⟨tb₁, -, hno⟩ := hfails.2.2
  cases hno

/-- **Where the larger array cannot be allocated**, the table has four buckets afterwards and
an array of two, and a lookup of the key it holds starts outside of that. -/
theorem failed_allocation_harms : ∃ tb r, ShRep (numberTemplate (fun _ => 3)) tb ∧
    tb.Holds ⟨7, 0, .inUse, 0⟩ ∧
    shInsertHashRaises (numberTemplate (fun _ => 3)) (fun _ => false) tb 8 3
      = some (.error r) ∧
    r.raise = .allocate ∧ r.table.size = 4 ∧ r.allocated = 2 ∧
    shInitialBucket r.table 3 = 3 ∧ ¬ Unharmed (numberTemplate (fun _ => 3)) tb r := by
  obtain ⟨tb, r, hrun, hholds, hraises, hraise, hsize, halloc, hbucket⟩ : ∃ tb r,
      ShRun (numberTemplate (fun _ => 3)) [(.insert 7, .inserted false ⟨7, 0, .inUse, 0⟩)] tb ∧
      tb.Holds ⟨7, 0, .inUse, 0⟩ ∧
      shInsertHashRaises (numberTemplate (fun _ => 3)) (fun _ => false) tb 8 3
        = some (.error r) ∧
      r.raise = .allocate ∧ r.table.size = 4 ∧ r.allocated = 2 ∧
      shInitialBucket r.table 3 = 3 :=
    ⟨_, _, .step (.create 1 _ rfl) trivial rfl, ⟨1, by decide, rfl⟩, rfl, rfl, rfl, rfl, rfl⟩
  refine ⟨tb, r, hrun.inv.1.rep, hholds, hraises, hraise, hsize, halloc, hbucket, fun hun => ?_⟩
  have heq := hun.allocated_eq
  rw [halloc, hsize] at heq
  cases heq

end SimpleHash
