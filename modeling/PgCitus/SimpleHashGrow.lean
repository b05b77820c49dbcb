import PgCitus.SimpleHashInvariant

/-!
# Creating, resetting and growing a simplehash table

`SH_GROW` copies the entries of the old array into a larger one, each to the
first empty bucket from its new optimal bucket on, without the robin-hood
displacement `SH_INSERT` does. The result satisfies the representation
invariant all the same, because the old array is gone through from a bucket
that is empty or whose entry is at its optimal position: `Library.Rehash` has
the argument, and this module shows that the loops of `SH_GROW` perform the
move it describes.

Note that the search for that start bucket masks hashes with the *new* mask. An
entry whose new optimal bucket is the bucket it is in has that bucket for its
old optimal one too, so what the search accepts is a start; and an empty bucket
is accepted in any case, so the search succeeds.
-/

namespace SimpleHash

open Circ RobinHood PgBitutils

variable {κ ν : Type*} {T : ShTemplate κ ν} {tb tb' : ShHash κ ν}

/-! ## Sizing parameters -/

/-- What `SH_COMPUTE_PARAMETERS` leaves in a table, when it raises no error. -/
theorem shComputeParameters_ok {newsize : ℕ} (hnew : newsize ≤ 2 ^ 32)
    (h : shComputeParameters T tb newsize = .ok tb') :
    Sized tb' ∧ newsize ≤ tb'.size ∧
      tb'.growThreshold = shGrowThreshold tb'.size ∧
      tb'.members = tb.members ∧ tb'.data = tb.data := by
  have hpow : pgNextpower2_64 (max newsize 2) = 2 ^ Nat.clog 2 (max newsize 2) :=
    pgNextpower2_64_eq (by omega) (by omega)
  have hk₁ : 1 ≤ Nat.clog 2 (max newsize 2) :=
    Nat.clog_pos (by omega) (by omega)
  have hk₂ : Nat.clog 2 (max newsize 2) ≤ 32 :=
    Nat.clog_le_of_le_pow (by omega)
  have hle : max newsize 2 ≤ 2 ^ Nat.clog 2 (max newsize 2) :=
    Nat.le_pow_clog (by omega) _
  have hmax : 2 ^ Nat.clog 2 (max newsize 2) ≤ 2 ^ 32 :=
    Nat.pow_le_pow_right (by omega) hk₂
  unfold shComputeParameters at h
  simp only [hpow] at h
  split_ifs at h
  cases h
  refine ⟨⟨⟨_, hk₁, hk₂, rfl⟩, ?_⟩, (Nat.le_max_left _ _).trans hle, rfl, rfl, rfl⟩
  exact Nat.mod_eq_of_lt (by omega)

/-- A table without entries is sound. -/
theorem sound_of_empty {n : ℕ} (hn : 0 < n) {data : ℕ → ShElement κ ν}
    (h : ∀ i < n, shSlot data i = none) : Sound T n data where
  ordered := ⟨fun _ => Nat.mod_lt _ hn, fun i hi a ha => by
    rw [h _ (next_lt hi)] at ha
    exact absurd ha (by simp)⟩
  distinct := fun i hi _ _ _ _ ha => by
    rw [h i hi] at ha
    exact absurd ha (by simp)
  hashed := fun i hi _ ha => by
    rw [h i hi] at ha
    exact absurd ha (by simp)

/-- A table without entries satisfies the invariant when its member count is
zero. -/
theorem rep_of_empty (hsz : Sized tb) (hm : tb.members = 0)
    (h : ∀ i < tb.size, shSlot tb.data i = none) : ShRep T tb := by
  have h₂ := hsz.two_le
  refine (sound_of_empty (by omega) h).rep hsz ?_ ⟨0, by omega, h 0 (by omega)⟩
  rw [hm, eq_comm, Finset.card_eq_zero]
  refine Finset.eq_empty_of_forall_notMem (fun i hi => ?_)
  rw [mem_occupied] at hi
  rw [h i hi.1] at hi
  exact absurd hi.2 (by simp)

theorem shSlot_zero (T : ShTemplate κ ν) (i : ℕ) :
    shSlot (fun _ => T.zeroElement) i = none :=
  shSlot_eq_none.mpr T.zero_status

/-- **`SH_CREATE` makes an empty table.** -/
theorem shCreate_rep {nelements : UInt32} (h : shCreate T nelements = .ok tb) :
    ShRep T tb ∧ tb.growThreshold = shGrowThreshold tb.size ∧
      ∀ e, ¬ tb.Holds e := by
  obtain ⟨hsz, -, ht, hm, hd⟩ :=
    shComputeParameters_ok (Nat.min_le_left (2 ^ 32) _) h
  have hempty : ∀ i < tb.size, shSlot tb.data i = none := fun i _ => by
    rw [hd]
    exact shSlot_zero T i
  refine ⟨rep_of_empty hsz hm hempty, ht, fun e ⟨i, hi, he⟩ => ?_⟩
  rw [hempty i hi] at he
  exact absurd he (by simp)

/-- **`SH_RESET` makes the table empty.** -/
theorem shReset_rep (h : ShRep T tb) :
    ShRep T (shReset T tb) ∧ ∀ e, ¬ (shReset T tb).Holds e := by
  have hempty : ∀ i < (shReset T tb).size,
      shSlot (shReset T tb).data i = none := fun i hi => by
    rw [shSlot_eq_none]
    simp only [shReset] at hi ⊢
    rw [if_pos hi]
    exact T.zero_status
  refine ⟨rep_of_empty ⟨h.sized.size_eq, h.sized.sizemask_eq⟩ rfl hempty,
    fun e ⟨i, hi, he⟩ => ?_⟩
  rw [hempty i hi] at he
  exact absurd he (by simp)

/-! ## The loops of `SH_GROW` -/

/-- Storing an in-use element into a bucket. -/
theorem shSlot_update {n p : ℕ} (hp : p < n) (data : ℕ → ShElement κ ν)
    {e : ShElement κ ν} (he : e.status = .inUse) :
    shSlot (Function.update data p e) = insertAt n (shSlot data) p 0 e := by
  funext i
  by_cases hi : i = p
  · subst hi
    rw [insertAt_self, shSlot_eq_some, Function.update_self]
    exact ⟨he, rfl⟩
  · have hd : 0 < gap n p i := by
      rcases Nat.eq_zero_or_pos (gap n p i) with h₀ | h₀
      · exact absurd ((gap_eq_zero hp).mp h₀).symm hi
      · exact h₀
    rw [insertAt_of_lt hd, shSlot, shSlot, Function.update_of_ne hi]

/-- The homes among the buckets of a larger table agree with the old ones. -/
theorem home_mod {n m : ℕ} (hdvd : n ∣ m) (T : ShTemplate κ ν)
    (e : ShElement κ ν) : T.home m e % n = T.home n e :=
  Nat.mod_mod_of_dvd _ hdvd

/-- **The start `SH_GROW` looks for exists**, and is one. -/
theorem shGrowStart_startsRun (h : ShRep T tb) (hsz : Sized tb')
    (hlt : tb.size < tb'.size) (hdvd : tb.size ∣ tb'.size) :
    ∃ s, shGrowStart T tb' tb.data tb.size = some s ∧ s < tb.size ∧
      StartsRun (T.home tb.size) (shSlot tb.data) s := by
  obtain ⟨e, he, hempty⟩ := h.exists_empty
  have hmax := hsz.le_max
  refine Loop.run_total
    (fun i => i ≤ tb.size ∧ ∀ j < i, (tb.data j).status = .inUse)
    (fun i => tb.size - i) (fun i ⟨hi, hall⟩ => ?_)
    ⟨Nat.zero_le _, fun j hj => absurd hj (by omega)⟩ (by omega)
  by_cases hin : i < tb.size
  · rw [if_pos hin]
    dsimp only
    split_ifs with hst hopt
    · refine ⟨hin, fun a ha => ?_⟩
      exact absurd (shSlot_eq_some.mp ha).1 hst
    · refine ⟨hin, fun a ha => ?_⟩
      obtain ⟨-, rfl⟩ := shSlot_eq_some.mp ha
      rw [shInitialBucket_home hsz] at hopt
      rw [← home_mod hdvd, hopt]
      exact Nat.mod_eq_of_lt hin
    · rw [not_not] at hst
      have hu : u32 (i + 1) = i + 1 := Nat.mod_eq_of_lt (by omega)
      rw [hu, Loop.Step.meets_next]
      refine ⟨⟨by omega, fun j hj => ?_⟩, by omega⟩
      rcases Nat.lt_or_ge j i with hlt' | hge
      · exact hall j hlt'
      · rw [show j = i by omega]
        exact hst
  · have := hall e (by omega)
    rw [hempty] at this
    exact absurd this (by simp)

/-- **The search for an empty bucket ends at the first one.** -/
theorem shGrowFindEmpty_first (hsz : Sized tb') {newdata : ℕ → ShElement κ ν}
    {start e : ℕ} (hs : start < tb'.size) (he : e < tb'.size)
    (hempty : shSlot newdata e = none) :
    ∃ p, shGrowFindEmpty tb' newdata start = some p ∧ p < tb'.size ∧
      shSlot newdata p = none ∧
      ∀ q < tb'.size, gap tb'.size start q < gap tb'.size start p →
        (shSlot newdata q).isSome := by
  refine Loop.run_total
    (fun cur => Scanned tb'.size (shSlot newdata) (fun _ _ => True) start cur)
    (fun cur => tb'.size - 1 - gap tb'.size start cur) (fun cur hcur => ?_)
    (Scanned.refl _ _ _ hs) (by omega)
  split_ifs with hst
  · refine ⟨hcur.lt, shSlot_eq_none.mpr hst, fun q hq hlt => ?_⟩
    obtain ⟨b, hb, -⟩ := hcur.before q hq hlt
    rw [hb]
    rfl
  · have hslot : shSlot newdata cur = some (newdata cur) := by
      rw [shSlot_eq_some]
      cases hc : (newdata cur).status
      · exact absurd hc hst
      · exact ⟨rfl, rfl⟩
    have hlt := hcur.gap_succ_lt hs he hempty hslot
    rw [Loop.Step.meets_next, shNext_eq hsz hcur.lt]
    refine ⟨hcur.next hs hlt hslot trivial, ?_⟩
    rw [gap_next_of_lt hs hcur.lt hlt]
    omega

/-- A pass of the copying loop of `SH_GROW`. -/
def shGrowCopyPass (T : ShTemplate κ ν) (tb : ShHash κ ν) (olddata : ℕ → ShElement κ ν)
    (oldsize : ℕ) :
    ℕ × ℕ × (ℕ → ShElement κ ν) →
      Loop.Step (ℕ × ℕ × (ℕ → ShElement κ ν)) (ℕ → ShElement κ ν) :=
  fun (i, copyelem, newdata) =>
    if i < oldsize then
      let oldentry := olddata copyelem
      let copyelem' :=
        if oldsize ≤ u32 (copyelem + 1) then 0 else u32 (copyelem + 1)
      if oldentry.status = .inUse then
        match shGrowFindEmpty tb newdata
            (shInitialBucket tb (T.shEntryHash oldentry)) with
        | some newelem =>
          .next (u32 (i + 1), copyelem',
            Function.update newdata newelem oldentry)
        | none => .stuck
      else .next (u32 (i + 1), copyelem', newdata)
    else .done newdata

/-- Where the copying is after some passes: it has gone through as many buckets from `s` on,
and moved what it found there. -/
structure Copied (T : ShTemplate κ ν) (tb tb' : ShHash κ ν) (s : ℕ)
    (st : ℕ × ℕ × (ℕ → ShElement κ ν)) : Prop where
  le : st.1 ≤ tb.size
  copyelem_eq : st.2.1 = shift tb.size s st.1
  rehashed : Rehashed tb.size tb'.size s (T.home tb.size) (T.home tb'.size) T.SameKey
    (shSlot tb.data) (shSlot st.2.2) st.1

theorem copied_start (hsz : Sized tb') {s : ℕ} (hs : s < tb.size) :
    Copied T tb tb' s (0, s, fun _ => T.zeroElement) := by
  have hm := hsz.two_le
  have hzero : shSlot (fun _ => T.zeroElement) = fun _ => none :=
    funext (shSlot_zero T)
  refine ⟨Nat.zero_le _, (shift_zero hs).symm, ?_⟩
  dsimp only
  rw [hzero]
  exact rehashed_zero (fun e => Nat.mod_lt _ (by omega))

/-- **A pass of the copying loop** moves one entry as `Library.Rehash` has it. -/
theorem shGrowCopyPass_meets (h : ShRep T tb) (hsz : Sized tb')
    (hlt : tb.size < tb'.size) (hdvd : tb.size ∣ tb'.size) {s : ℕ}
    (hs : s < tb.size) (hstart : StartsRun (T.home tb.size) (shSlot tb.data) s)
    (st : ℕ × ℕ × (ℕ → ShElement κ ν)) (hinv : Copied T tb tb' s st) :
    (shGrowCopyPass T tb' tb.data tb.size st).Meets
      (fun newdata => Rehashed tb.size tb'.size s (T.home tb.size) (T.home tb'.size) T.SameKey
        (shSlot tb.data) (shSlot newdata) tb.size)
      (fun st' => Copied T tb tb' s st' ∧ tb.size - st'.1 < tb.size - st.1) := by
  have hsound := h.sound
  have hmax := hsz.le_max
  obtain ⟨i, c, newdata⟩ := st
  obtain ⟨hi, hc, hre⟩ := hinv
  unfold shGrowCopyPass
  dsimp only at hi hc hre ⊢
  by_cases hin : i < tb.size
  · have hcn : c < tb.size := by rw [hc]; exact shift_lt hs hin
    have hdc : gap tb.size s c = i := by rw [hc, gap_shift hs hin]
    have hu : u32 (i + 1) = i + 1 := Nat.mod_eq_of_lt (by omega)
    have hu' : u32 (c + 1) = c + 1 := Nat.mod_eq_of_lt (by omega)
    have hnext : (if tb.size ≤ c + 1 then 0 else c + 1)
        = shift tb.size s (i + 1) := by
      rw [hc]
      unfold shift
      split_ifs <;> omega
    rw [if_pos hin, hu, hu', hnext]
    by_cases hst : (tb.data c).status = .inUse
    · -- an entry goes to the first empty bucket from its new home on
      have hslot : shSlot tb.data c = some (tb.data c) :=
        shSlot_of_inUse hst
      have hm : 0 < tb'.size := by omega
      obtain ⟨e, he, hempty, -⟩ := hre.room hsound.ordered hs hstart hdvd hm
        (home_mod hdvd T) hcn hdc hslot
      obtain ⟨p, hp, hpn, hpe, hfirst⟩ := shGrowFindEmpty_first hsz
        (hre.ordered.home_lt (tb.data c)) he hempty
      rw [if_pos hst, shInitialBucket_home hsz, hp, Loop.Step.meets_next]
      refine ⟨⟨hin, rfl, ?_⟩, by dsimp only; omega⟩
      dsimp only
      rw [shSlot_update hpn newdata hst]
      exact hre.place hsound.ordered hsound.distinct hs hstart hdvd hm
        (home_mod hdvd T) hcn hdc hslot hpn hpe hfirst
    · rw [if_neg hst, Loop.Step.meets_next]
      refine ⟨⟨hin, rfl, hre.skip hs hcn hdc ?_⟩, by dsimp only; omega⟩
      rw [shSlot_eq_none]
      cases hc' : (tb.data c).status
      · rfl
      · exact absurd hc' hst
  · rw [if_neg hin, Loop.Step.meets_done]
    rwa [show i = tb.size by omega] at hre

/-- **The copying loop performs the move** of `Library.Rehash`. -/
theorem shGrowCopy_rehashed (h : ShRep T tb) (hsz : Sized tb')
    (hlt : tb.size < tb'.size) (hdvd : tb.size ∣ tb'.size) {s : ℕ}
    (hs : s < tb.size) (hstart : StartsRun (T.home tb.size) (shSlot tb.data) s) :
    ∃ newdata, shGrowCopy T tb' tb.data tb.size s (fun _ => T.zeroElement)
        = some newdata ∧
      Rehashed tb.size tb'.size s (T.home tb.size) (T.home tb'.size) T.SameKey
        (shSlot tb.data) (shSlot newdata) tb.size :=
  Loop.run_total (Copied T tb tb' s) (fun st => tb.size - st.1)
    (shGrowCopyPass_meets h hsz hlt hdvd hs hstart) (copied_start hsz hs) (by dsimp only; omega)

/-- **What has been moved is a table**, at any point of the move. -/
theorem rep_of_rehashed (h : ShRep T tb) (hsz : Sized tb') (hlt : tb.size < tb'.size) {s x : ℕ}
    {newdata : ℕ → ShElement κ ν}
    (hre : Rehashed tb.size tb'.size s (T.home tb.size) (T.home tb'.size) T.SameKey
      (shSlot tb.data) (shSlot newdata) x) :
    ShRep T { tb' with
      data := newdata
      members := (occupied tb'.size (shSlot newdata)).card } := by
  have hsound : Sound T tb'.size newdata := by
    refine ⟨hre.ordered, hre.distinct, fun i hi e he => ?_⟩
    obtain ⟨j, hj, -, he', -⟩ := hre.placed i hi e he
    exact h.sound.hashed j hj e he'
  refine Sound.rep hsound ⟨hsz.size_eq, hsz.sizemask_eq⟩ rfl (exists_slot_empty ?_)
  have hle : (occupied tb'.size (shSlot newdata)).card ≤ tb.members := by
    rw [hre.card, h.members_card]
    exact Finset.card_filter_le _ _
  have := h.members_lt
  show (occupied tb'.size (shSlot newdata)).card < tb'.size
  omega

/-! ## `SH_GROW` -/

theorem Sized.dvd_of_lt (h : Sized tb) (h' : Sized tb') (hlt : tb.size < tb'.size) :
    tb.size ∣ tb'.size := by
  obtain ⟨k, -, -, hk⟩ := h.size_eq
  obtain ⟨k', -, -, hk'⟩ := h'.size_eq
  rw [hk, hk'] at hlt ⊢
  exact Nat.pow_dvd_pow 2 ((Nat.pow_lt_pow_iff_right (by omega)).mp hlt).le

/-- **`SH_GROW` where its parameters can be computed**: the start exists, and the array it
leaves is that of the finished move. -/
theorem shGrow_rehashed (h : ShRep T tb) {newsize : ℕ} (hlt : tb.size < newsize)
    (hmax : newsize ≤ 2 ^ 32) {tb₁ : ShHash κ ν}
    (hparams : shComputeParameters T tb newsize = .ok tb₁) :
    ∃ start newdata, shGrowStart T tb₁ tb.data tb.size = some start ∧ start < tb.size ∧
      StartsRun (T.home tb.size) (shSlot tb.data) start ∧
      shGrow T tb newsize = some (.ok { tb₁ with data := newdata }) ∧
      Rehashed tb.size tb₁.size start (T.home tb.size) (T.home tb₁.size) T.SameKey
        (shSlot tb.data) (shSlot newdata) tb.size := by
  obtain ⟨hsz, hle, -, -, -⟩ := shComputeParameters_ok hmax hparams
  have hlt' : tb.size < tb₁.size := by omega
  have hdvd := h.sized.dvd_of_lt hsz hlt'
  obtain ⟨s, hs, hsn, hstart⟩ := shGrowStart_startsRun h hsz hlt' hdvd
  obtain ⟨newdata, hcopy, hre⟩ := shGrowCopy_rehashed h hsz hlt' hdvd hsn hstart
  refine ⟨s, newdata, hs, hsn, hstart, ?_, hre⟩
  unfold shGrow
  rw [hparams]
  dsimp only
  rw [hs]
  dsimp only
  rw [hcopy]

/-- **What the finished move leaves** is a table with the members and the entries of the
old one. -/
theorem rep_of_rehashed_all (h : ShRep T tb) {tb₁ : ShHash κ ν} (hsz : Sized tb₁)
    (hlt : tb.size < tb₁.size) (hm : tb₁.members = tb.members) {s : ℕ}
    {newdata : ℕ → ShElement κ ν}
    (hre : Rehashed tb.size tb₁.size s (T.home tb.size) (T.home tb₁.size) T.SameKey
      (shSlot tb.data) (shSlot newdata) tb.size) :
    ShRep T { tb₁ with data := newdata } ∧
      ∀ e, ({ tb₁ with data := newdata } : ShHash κ ν).Holds e ↔ tb.Holds e := by
  obtain ⟨hholds, hcard⟩ := hre.finish
  have hmembers : tb₁.members = (occupied tb₁.size (shSlot newdata)).card := by
    rw [hm, hcard, h.members_card]
  have hrep := rep_of_rehashed h hsz hlt hre
  rw [← hmembers] at hrep
  exact ⟨hrep, hholds⟩

/-- **`SH_GROW` ends, and where it raises no error it keeps the invariant and
the entries.** -/
theorem shGrow_rep (h : ShRep T tb) {newsize : ℕ} (hlt : tb.size < newsize)
    (hmax : newsize ≤ 2 ^ 32) :
    ∃ r, shGrow T tb newsize = some r ∧ ∀ tb', r = .ok tb' →
      ShRep T tb' ∧ tb'.growThreshold = shGrowThreshold tb'.size ∧
        tb'.members = tb.members ∧ newsize ≤ tb'.size ∧
        ∀ e, tb'.Holds e ↔ tb.Holds e := by
  cases hcp : shComputeParameters T tb newsize with
  | error e =>
    refine ⟨.error e, ?_, fun tb' hc => nomatch hc⟩
    unfold shGrow
    rw [hcp]
  | ok tb₁ =>
    obtain ⟨hsz, hle, ht, hm, -⟩ := shComputeParameters_ok hmax hcp
    obtain ⟨s, newdata, -, -, -, hgrow, hre⟩ := shGrow_rehashed h hlt hmax hcp
    obtain ⟨hrep, hholds⟩ := rep_of_rehashed_all h hsz (by omega) hm hre
    refine ⟨_, hgrow, fun tb' htb => ?_⟩
    obtain rfl := Except.ok.inj htb
    exact ⟨hrep, ht, hm, hle, hholds⟩

end SimpleHash
