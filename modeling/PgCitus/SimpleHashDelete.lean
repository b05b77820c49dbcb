import PgCitus.SimpleHashSearch

/-!
# Deleting from a simplehash table

`SH_DELETE` and `SH_DELETE_ITEM` close the hole a removed entry leaves: the
following entries move back by one bucket, up to an empty bucket or an entry at
its optimal position. This is `RobinHood.eraseAt`, and the loop ends because an
empty bucket lies ahead.
-/

namespace SimpleHash

open Circ RobinHood

variable {κ ν : Type*} {T : ShTemplate κ ν} {tb : ShHash κ ν}

/-- **A run that can be shifted back**: the `L` buckets after `p` hold entries
away from their optimal buckets, and the bucket after them does not. -/
structure ShiftsBack (T : ShTemplate κ ν) (tb : ShHash κ ν) (p L : ℕ) : Prop where
  lt : L + 1 < tb.size
  run : ∀ i < tb.size, 0 < gap tb.size p i → gap tb.size p i ≤ L →
    ∃ b, shSlot tb.data i = some b ∧ T.home tb.size b ≠ i
  ends : ∀ i < tb.size, gap tb.size p i = L + 1 →
    ∀ b, shSlot tb.data i = some b → T.home tb.size b = i

/-- **The backward shift on its way**: the run from `p` up to `cur` has moved back by one
bucket, all but the entry of `cur`, and its entries were away from home. -/
structure ShiftingBack (T : ShTemplate κ ν) (tb : ShHash κ ν) (p cur : ℕ)
    (data : ℕ → ShElement κ ν) : Prop where
  cur_lt : cur < tb.size
  run : ∀ i < tb.size, 0 < gap tb.size p i → gap tb.size p i ≤ gap tb.size p cur →
    ∃ b, shSlot tb.data i = some b ∧ T.home tb.size b ≠ i
  data_eq : ∀ i < tb.size, data i =
    if gap tb.size p i < gap tb.size p cur then tb.data (next tb.size i)
    else tb.data i

namespace ShiftingBack

variable {p cur : ℕ} {data : ℕ → ShElement κ ν}

/-- Nothing has moved yet. -/
theorem start (hp : p < tb.size) : ShiftingBack T tb p p tb.data := by
  refine ⟨hp, fun i _ hd hle => ?_, fun i _ => ?_⟩
  · rw [gap_self] at hle
    omega
  · rw [if_neg (by rw [gap_self]; omega)]

/-- The empty bucket lies ahead, so the shift does not come full circle. -/
theorem gap_succ_lt (hs : ShiftingBack T tb p cur data) (h : ShRep T tb)
    (hp : p < tb.size) (hin : (tb.data p).status = .inUse) :
    gap tb.size p cur + 1 < tb.size := by
  obtain ⟨e, he, hempty⟩ := h.slot_empty
  have hahead : gap tb.size p cur < gap tb.size p e := by
    by_contra hc
    rcases Nat.eq_zero_or_pos (gap tb.size p e) with h₀ | h₀
    · rw [← (gap_eq_zero hp).mp h₀, shSlot_eq_none, hin] at hempty
      exact absurd hempty (by simp)
    · obtain ⟨b, hb, -⟩ := hs.run e he h₀ (by omega)
      rw [hempty] at hb
      exact absurd hb (by simp)
  have := gap_lt (n := tb.size) (a := p) he
  omega

/-- Emptying the current bucket leaves the slots of `eraseAt`. -/
theorem erase (hs : ShiftingBack T tb p cur data) (hp : p < tb.size) {i : ℕ}
    (hi : i < tb.size) :
    shSlot (Function.update data cur { data cur with status := .empty }) i
      = eraseAt tb.size (shSlot tb.data) p (gap tb.size p cur) i := by
  by_cases hic : i = cur
  · subst hic
    rw [eraseAt_of_eq rfl, shSlot_eq_none, Function.update_self]
  · have hne : gap tb.size p i ≠ gap tb.size p cur := fun hd =>
      hic (eq_of_gap_eq hp hi hs.cur_lt hd)
    rw [shSlot, Function.update_of_ne hic, hs.data_eq i hi, eraseAt, if_neg hne,
      ← apply_ite tb.data, ← apply_ite (shSlot tb.data), shSlot]

/-- The run ends where the next entry, if there is one, is at home. -/
theorem shiftsBack (hs : ShiftingBack T tb p cur data) (hp : p < tb.size)
    (hlt : gap tb.size p cur + 1 < tb.size)
    (hend : ∀ b, shSlot tb.data (next tb.size cur) = some b →
      T.home tb.size b = next tb.size cur) :
    ShiftsBack T tb p (gap tb.size p cur) := by
  refine ⟨hlt, hs.run, fun i hi hd b hib => ?_⟩
  have hnext := gap_next_of_lt hp hs.cur_lt hlt
  have hi' := eq_of_gap_eq hp hi (next_lt hs.cur_lt) (by omega)
  rw [hi'] at hib ⊢
  exact hend b hib

/-- One more entry is moved. -/
theorem step (hs : ShiftingBack T tb p cur data) (hp : p < tb.size)
    (hlt : gap tb.size p cur + 1 < tb.size) {b : ShElement κ ν}
    (hb : shSlot tb.data (next tb.size cur) = some b)
    (haway : T.home tb.size b ≠ next tb.size cur) :
    ShiftingBack T tb p (next tb.size cur) (Function.update data cur b) := by
  have hcur := hs.cur_lt
  have hnext := next_lt hcur
  have hdist := gap_next_of_lt hp hcur hlt
  refine ⟨hnext, fun i hi hd hle => ?_, fun i hi => ?_⟩
  · rcases Nat.lt_or_ge (gap tb.size p cur) (gap tb.size p i) with hgt | hge
    · rw [eq_of_gap_eq hp hi hnext (by omega)]
      exact ⟨b, hb, haway⟩
    · exact hs.run i hi hd hge
  · by_cases hic : i = cur
    · subst hic
      rw [Function.update_self, if_pos (by omega)]
      exact (shSlot_eq_some.mp hb).2.symm
    · have hne : gap tb.size p i ≠ gap tb.size p cur := fun hd =>
        hic (eq_of_gap_eq hp hi hcur hd)
      rw [Function.update_of_ne hic, hs.data_eq i hi]
      refine if_congr ?_ rfl rfl
      omega

end ShiftingBack

/-- **The backward shift closes the hole at `p`.** -/
theorem shShiftBackward_eraseAt (h : ShRep T tb) {p : ℕ} (hp : p < tb.size)
    (hin : (tb.data p).status = .inUse) :
    ∃ data, shShiftBackward T tb p = some data ∧ ∃ L, ShiftsBack T tb p L ∧
      ∀ i < tb.size, shSlot data i = eraseAt tb.size (shSlot tb.data) p L i := by
  have h₂ := h.sized.two_le
  refine Loop.run_total
    (fun s : ℕ × ℕ × (ℕ → ShElement κ ν) => s.2.1 = s.1 ∧ ShiftingBack T tb p s.1 s.2.2)
    (fun s => tb.size - 1 - gap tb.size p s.1) (fun s hinv => ?_)
    ⟨rfl, .start hp⟩ (by rw [gap_self]; omega)
  obtain ⟨cur, last, data⟩ := s
  obtain ⟨hlast, hs⟩ := hinv
  dsimp only at hlast hs ⊢
  subst hlast
  have hlt := hs.gap_succ_lt h hp hin
  have hdist := gap_next_of_lt hp hs.cur_lt hlt
  have hsame : data (next tb.size last) = tb.data (next tb.size last) := by
    rw [hs.data_eq _ (next_lt hs.cur_lt), if_neg (by omega)]
  rw [shNext_eq h.sized hs.cur_lt, hsame]
  split_ifs with hst hopt
  · refine ⟨_, hs.shiftsBack hp hlt fun b hb => ?_, fun i hi => hs.erase hp hi⟩
    exact absurd (shSlot_eq_some.mp hb).1 hst
  · refine ⟨_, hs.shiftsBack hp hlt fun b hb => ?_, fun i hi => hs.erase hp hi⟩
    obtain ⟨-, rfl⟩ := shSlot_eq_some.mp hb
    rw [← shInitialBucket_home h.sized]
    exact hopt
  · rw [not_not] at hst
    have haway : T.home tb.size (tb.data (next tb.size last)) ≠ next tb.size last := by
      rw [← shInitialBucket_home h.sized]
      exact hopt
    rw [Loop.Step.meets_next]
    exact ⟨⟨rfl, hs.step hp hlt (shSlot_of_inUse hst) haway⟩,
      by dsimp only; omega⟩

/-- What removing the entry of bucket `p` comes to. -/
structure Removed (T : ShTemplate κ ν) (tb : ShHash κ ν) (p : ℕ)
    (tb' : ShHash κ ν) : Prop where
  rep : ShRep T tb'
  size_eq : tb'.size = tb.size
  threshold_eq : tb'.growThreshold = tb.growThreshold
  /-- The entries of a run have moved back by one bucket. -/
  slots : ∃ L, ShiftsBack T tb p L ∧
    ∀ i < tb.size, shSlot tb'.data i = eraseAt tb.size (shSlot tb.data) p L i

/-- **`SH_DELETE_ITEM` ends and keeps the invariant.** -/
theorem shRemove_removed (h : ShRep T tb) {p : ℕ} (hp : p < tb.size)
    (hin : (tb.data p).status = .inUse) :
    ∃ tb', shRemove T tb p = some tb' ∧ Removed T tb p tb' := by
  obtain ⟨data, hdata, L, hL, hslot⟩ := shShiftBackward_eraseAt h hp hin
  have hocc : (shSlot tb.data p).isSome := isSome_shSlot.mpr hin
  have hlt := h.members_lt
  have hmax := h.sized.le_max
  have hrun : ∀ i < tb.size, 0 < gap tb.size p i → gap tb.size p i ≤ L →
      (shSlot tb.data i).isSome := fun i hi hd hle => by
    obtain ⟨b, hb, -⟩ := hL.run i hi hd hle
    rw [hb]
    rfl
  have hsound : Sound T tb.size data := by
    refine ⟨(h.sound.ordered.eraseAt hp hL.lt hocc hL.run hL.ends).congr hslot,
      (h.sound.distinct.eraseAt hp hL.lt).congr hslot, fun i hi e he => ?_⟩
    rw [hslot i hi] at he
    obtain ⟨j, hj, -, hje⟩ := (eraseAt_eq_some hp hL.lt e).mp ⟨i, hi, he⟩
    exact h.sound.hashed j hj e hje
  have hmem : shift tb.size p L ∈ occupied tb.size (shSlot tb.data) := by
    have hs : shift tb.size p L < tb.size := shift_lt hp (by have := hL.lt; omega)
    have hds : gap tb.size p (shift tb.size p L) = L :=
      gap_shift hp (by have := hL.lt; omega)
    refine mem_occupied.mpr ⟨hs, ?_⟩
    rcases Nat.eq_zero_or_pos L with h₀ | h₀
    · rw [h₀, shift_zero hp]
      exact hocc
    · exact hrun _ hs (by omega) (by omega)
  have hpos := Finset.card_pos.mpr ⟨_, hmem⟩
  have hm := h.members_card
  have hcard : u32 (tb.members + (2 ^ 32 - 1))
      = (occupied tb.size (shSlot data)).card := by
    rw [occupied_congr hslot, occupied_eraseAt hp hL.lt hocc hrun,
      Finset.card_erase_of_mem hmem, ← hm]
    unfold u32
    omega
  refine ⟨{ tb with members := u32 (tb.members + (2 ^ 32 - 1)), data := data },
    by rw [shRemove, hdata], ?_, rfl, rfl, L, hL, hslot⟩
  refine Sound.rep hsound ⟨h.sized.size_eq, h.sized.sizemask_eq⟩ hcard
    ⟨shift tb.size p L, shift_lt hp (by have := hL.lt; omega), ?_⟩
  show shSlot data (shift tb.size p L) = none
  have hLn := hL.lt
  rw [hslot _ (shift_lt hp (by omega)), eraseAt_of_eq (gap_shift hp (by omega))]

/-- What is left is what was in other buckets. -/
theorem Removed.holds_iff {p : ℕ} {tb' : ShHash κ ν} (hr : Removed T tb p tb')
    (hp : p < tb.size) (e : ShElement κ ν) :
    tb'.Holds e ↔ ∃ j < tb.size, j ≠ p ∧ shSlot tb.data j = some e := by
  obtain ⟨L, hL, hslot⟩ := hr.slots
  rw [← eraseAt_eq_some hp hL.lt e, ShHash.Holds, hr.size_eq]
  exact exists_congr (fun i => and_congr_right (fun hi => by rw [hslot i hi]))

/-- What is left is what has another key. -/
theorem Removed.holds_iff_key (h : ShRep T tb) {p : ℕ} {tb' : ShHash κ ν}
    (hr : Removed T tb p tb') (hp : p < tb.size)
    (hin : (tb.data p).status = .inUse) (e : ShElement κ ν) :
    tb'.Holds e ↔ tb.Holds e ∧ T.equal e.key (tb.data p).key = false := by
  rw [hr.holds_iff hp]
  constructor
  · rintro ⟨j, hj, hjp, he⟩
    obtain ⟨hst, rfl⟩ := shSlot_eq_some.mp he
    refine ⟨⟨j, hj, he⟩, ?_⟩
    by_contra hc
    rw [Bool.not_eq_false] at hc
    exact hjp (h.keys_distinct j hj p hp hst hin hc)
  · rintro ⟨⟨j, hj, he⟩, hne⟩
    refine ⟨j, hj, fun hjp => ?_, he⟩
    obtain ⟨-, rfl⟩ := shSlot_eq_some.mp he
    rw [hjp, T.equal_equivalence.refl] at hne
    exact absurd hne (by simp)

/-- Deleting the key of an entry removes that entry. -/
theorem shDelete_of_inUse (h : ShRep T tb) {p : ℕ} (hp : p < tb.size)
    (hin : (tb.data p).status = .inUse) :
    shDelete T tb (tb.data p).key = (shRemove T tb p).map (fun tb' => (true, tb')) := by
  obtain ⟨r, hr, hfinds⟩ := shLookupHashInternal_finds h (tb.data p).key
  unfold shDelete
  rw [shDeleteFind_eq, hr]
  cases r with
  | none =>
    have hne := Finds.not_holds hfinds (ShHash.holds_data hp hin)
    rw [T.equal_equivalence.refl] at hne
    exact absurd hne (by simp)
  | some q =>
    obtain ⟨hq, hin', hkey⟩ := hfinds
    obtain rfl : q = p := h.keys_distinct q hq p hp hin' hin hkey
    dsimp only
    cases shRemove T tb q <;> rfl

/-- **`SH_DELETE` ends, keeps the invariant, says whether the key was there and
removes it.** -/
theorem shDelete_removed (h : ShRep T tb) (key : κ) :
    ∃ found tb', shDelete T tb key = some (found, tb') ∧ ShRep T tb' ∧
      tb'.size = tb.size ∧ tb'.growThreshold = tb.growThreshold ∧
      (found = true ↔ ∃ e, tb.Holds e ∧ T.equal e.key key = true) ∧
      ∀ e, tb'.Holds e ↔ tb.Holds e ∧ T.equal e.key key = false := by
  obtain ⟨r, hr, hfinds⟩ := shLookupHashInternal_finds h key
  unfold shDelete
  rw [shDeleteFind_eq, hr]
  cases r with
  | none =>
    refine ⟨false, tb, rfl, h, rfl, rfl, ⟨fun hf => absurd hf (by simp), ?_⟩,
      fun e => ⟨fun he => ⟨he, Finds.not_holds hfinds he⟩, fun he => he.1⟩⟩
    rintro ⟨e, he, heq⟩
    rw [Finds.not_holds hfinds he] at heq
    exact absurd heq (by simp)
  | some p =>
    obtain ⟨hp, hin, hkey⟩ := hfinds
    obtain ⟨tb', htb', hrem⟩ := shRemove_removed h hp hin
    dsimp only
    rw [htb']
    refine ⟨true, tb', rfl, hrem.rep, hrem.size_eq, hrem.threshold_eq,
      ⟨fun _ => ⟨tb.data p, ShHash.holds_data hp hin, hkey⟩,
        fun _ => rfl⟩, fun e => ?_⟩
    rw [hrem.holds_iff_key h hp hin]
    -- the key deleted and the key of the entry are equal
    have hcongr : T.equal e.key (tb.data p).key = T.equal e.key key := by
      rw [Bool.eq_iff_iff]
      exact ⟨fun hc => T.equal_equivalence.trans hc hkey,
        fun hc => T.equal_equivalence.trans hc (T.equal_equivalence.symm hkey)⟩
    rw [hcongr]

end SimpleHash
