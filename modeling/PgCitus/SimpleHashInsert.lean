import PgCitus.SimpleHashSearch
import PgCitus.SimpleHashGrow

/-!
# Inserting into a simplehash table

`SH_INSERT` looks for the key; where it is not there, the probing has stopped
at the bucket the new entry belongs in. An empty bucket is used directly. An
entry that is nearer to its optimal bucket is moved out of the way together
with everything up to the next empty bucket, which is `RobinHood.insertAt`.

At any of these points the insertion may decide that the table has become
imbalanced: it sets `grow_threshold` to zero and starts again, and the test at
the top of the restart then grows the table. A restart changes no entry, and
each one but the first comes after the table has doubled, so there is a last.
-/

namespace SimpleHash

open Circ RobinHood

variable {κ ν : Type*} {T : ShTemplate κ ν} {tb : ShHash κ ν}

/-! ## The loops of an insertion -/

/-- **The search for the next empty bucket ends** – at the first one after
`c`, or with the wish to grow the table. -/
theorem shInsertFindEmpty_first (h : ShRep T tb) {c : ℕ} (hc : c < tb.size)
    (hst : (tb.data c).status = .inUse) :
    ∃ r, shInsertFindEmpty T tb c = some r ∧ ∀ e, r = some e →
      e < tb.size ∧ shSlot tb.data e = none ∧
      ∀ q < tb.size, gap tb.size c q < gap tb.size c e →
        (shSlot tb.data q).isSome := by
  obtain ⟨e, he, hempty⟩ := h.slot_empty
  have h₂ := h.sized.two_le
  refine Loop.run_total
    (fun s : ℕ × ℤ => Scanned tb.size (shSlot tb.data) (fun _ _ => True) c s.1 ∧
      (tb.data s.1).status = .inUse)
    (fun s => tb.size - 1 - gap tb.size c s.1) (fun s hinv => ?_)
    ⟨Scanned.refl _ _ _ hc, hst⟩ (by rw [gap_self]; omega)
  obtain ⟨cur, emptydist⟩ := s
  obtain ⟨hcur, hin⟩ := hinv
  dsimp only at hcur hin ⊢
  have hslot : shSlot tb.data cur = some (tb.data cur) :=
    shSlot_of_inUse hin
  have hlt := hcur.gap_succ_lt hc he hempty hslot
  have hnext := hcur.next hc hlt hslot trivial
  have hdist := gap_next_of_lt hc hcur.lt hlt
  rw [shNext_eq h.sized hcur.lt]
  split_ifs with hst' hlong
  · rw [Loop.Step.meets_done]
    intro e' he'
    cases he'
    refine ⟨hnext.lt, shSlot_eq_none.mpr hst', fun q hq hqlt => ?_⟩
    obtain ⟨b, hb, -⟩ := hnext.before q hq hqlt
    rw [hb]
    rfl
  · intro e' he'
    exact absurd he' (by simp)
  · rw [Loop.Step.meets_next]
    refine ⟨⟨hnext, status_ne_empty.mp hst'⟩, ?_⟩
    rw [hdist]
    omega

/-- **The shift forward moves the run from `c` on by one bucket**, up to the
empty bucket `e`. -/
theorem shShiftForward_shifts (hsz : Sized tb) {c e : ℕ} (hc : c < tb.size)
    (he : e < tb.size) :
    ∃ data, shShiftForward tb c e = some data ∧ ∀ i < tb.size,
      data i = if 0 < gap tb.size c i ∧ gap tb.size c i ≤ gap tb.size c e
        then tb.data (prev tb.size i) else tb.data i := by
  refine Loop.run_total
    (fun s : ℕ × ℕ × (ℕ → ShElement κ ν) => s.1 < tb.size ∧ s.2.1 = s.1 ∧
      gap tb.size c s.1 ≤ gap tb.size c e ∧
      ∀ i < tb.size, s.2.2 i =
        if gap tb.size c s.1 < gap tb.size c i ∧
            gap tb.size c i ≤ gap tb.size c e
          then tb.data (prev tb.size i) else tb.data i)
    (fun s => gap tb.size c s.1) (fun s hinv => ?_)
    ⟨he, rfl, le_refl _, fun i _ => ?_⟩ (gap_lt he)
  · obtain ⟨move, last, data⟩ := s
    obtain ⟨hmove, hlast, hle, hdata⟩ := hinv
    dsimp only at hmove hlast hle hdata ⊢
    subst hlast
    split_ifs with hmc
    · subst hmc
      rw [Loop.Step.meets_done]
      intro i hi
      rw [hdata i hi, gap_self]
    · have hprev := gap_prev hc hmove (Ne.symm hmc)
      rw [Loop.Step.meets_next]
      dsimp only
      rw [shPrev_eq hsz hmove]
      refine ⟨⟨prev_lt hmove, rfl, by omega, fun i hi => ?_⟩, by omega⟩
      by_cases him : i = last
      · -- what is stored now is what lay before, not yet moved itself
        subst him
        rw [Function.update_self, hdata _ (prev_lt hi), if_neg (by omega),
          if_pos ⟨by omega, hle⟩]
      · rw [Function.update_of_ne him, hdata i hi]
        have hne : gap tb.size c i ≠ gap tb.size c last := fun hd =>
          him (eq_of_gap_eq hc hi hmove hd)
        refine if_congr ?_ rfl rfl
        omega
  · rw [if_neg (fun hd => absurd hd.1 (by dsimp only; omega))]

/-! ## The entry that is filled -/

/-- What an insertion of a key into `tb` comes to. -/
structure Inserted (T : ShTemplate κ ν) (tb : ShHash κ ν) (key : κ)
    (ins : ShInserted κ ν) : Prop where
  rep : ShRep T ins.table
  threshold : ins.table.growThreshold = shGrowThreshold ins.table.size
  /-- The element returned is in use and has the key. -/
  finds : Finds T ins.table key (some ins.entry)
  /-- The key is found if and only if it was there. -/
  found_iff : ins.found = true ↔ ∃ e, tb.Holds e ∧ T.equal e.key key = true
  /-- A new element has the very key it was inserted with. -/
  key_eq : ins.found = false → (ins.table.data ins.entry).key = key
  /-- The other elements are those that were there. -/
  holds_iff : ∀ e, ins.table.Holds e ↔
    tb.Holds e ∨ ins.found = false ∧ e = ins.table.data ins.entry

/-- An insertion depends on what the table holds only. -/
theorem Inserted.congr {tb' : ShHash κ ν} {key : κ} {ins : ShInserted κ ν}
    (h : Inserted T tb' key ins) (heq : ∀ e, tb'.Holds e ↔ tb.Holds e) :
    Inserted T tb key ins where
  rep := h.rep
  threshold := h.threshold
  finds := h.finds
  found_iff := by
    rw [h.found_iff]
    simp only [heq]
  key_eq := h.key_eq
  holds_iff := fun e => by rw [h.holds_iff, heq]

/-- Finding the key leaves the table as it is. -/
theorem Inserted.of_found (h : ShRep T tb)
    (ht : tb.growThreshold = shGrowThreshold tb.size) {key : κ} {i : ℕ}
    (hi : Finds T tb key (some i)) : Inserted T tb key ⟨true, i, tb⟩ where
  rep := h
  threshold := ht
  finds := hi
  found_iff := ⟨fun _ => ⟨tb.data i, hi.holds, hi.2.2⟩, fun _ => rfl⟩
  key_eq := fun hf => absurd hf (by simp)
  holds_iff := fun e => by simp

/-- A filled bucket has the hash it was filled with. -/
theorem shEntryHash_shFill (T : ShTemplate κ ν) (entry : ShElement κ ν) (key : κ) :
    T.shEntryHash (T.shFill entry key (T.hashKey key)) = T.hashKey key := by
  unfold ShTemplate.shEntryHash ShTemplate.shFill
  split_ifs <;> rfl

/-- **Filling the bucket that the shift has freed is making room** in the table
of slots. -/
theorem shSlot_shAddMember {n c L : ℕ} (hc : c < n) {key : κ}
    {data : ℕ → ShElement κ ν}
    (hdata : ∀ i < n, data i =
      if 0 < gap n c i ∧ gap n c i ≤ L then tb.data (prev n i) else tb.data i)
    {i : ℕ} (hi : i < n) :
    shSlot (shAddMember T tb data c key (T.hashKey key)).data i
      = insertAt n (shSlot tb.data) c L
          (T.shFill (tb.data c) key (T.hashKey key)) i := by
  have hdc : data c = tb.data c := by
    rw [hdata c hc, gap_self, if_neg (by omega)]
  show shSlot (Function.update data c (T.shFill (data c) key (T.hashKey key))) i = _
  by_cases hic : i = c
  · subst hic
    rw [insertAt_self, shSlot_eq_some, Function.update_self, hdc]
    exact ⟨rfl, rfl⟩
  · have hd : gap n c i ≠ 0 := fun h₀ => hic ((gap_eq_zero hc).mp h₀).symm
    have hdi : data i = tb.data (if gap n c i ≤ L then prev n i else i) := by
      rw [hdata i hi, apply_ite tb.data]
      refine if_congr ?_ rfl rfl
      omega
    rw [insertAt, if_neg hd, shSlot, Function.update_of_ne hic, hdi,
      ← apply_ite (shSlot tb.data), shSlot]

/-- The bucket a table has left for another member. -/
theorem shGrowThreshold_lt {n : ℕ} (hn : 0 < n) : shGrowThreshold n < n := by
  unfold shGrowThreshold
  split_ifs <;> omega

/-- **Room for a new entry**: the probing for the key has stopped at bucket `c`, the
run of `L` entries from there on is followed by an empty bucket, and `data` has that
run moved on by one. An entry that had to move is nearer to its optimal bucket than
the new one will be. -/
structure MakesRoom (T : ShTemplate κ ν) (tb : ShHash κ ν) (key : κ) (c L : ℕ)
    (data : ℕ → ShElement κ ν) : Prop where
  probed : Probed T tb key c
  len_lt : L < tb.size
  shifted : ∀ i < tb.size, data i =
    if 0 < gap tb.size c i ∧ gap tb.size c i ≤ L
      then tb.data (prev tb.size i) else tb.data i
  run : ∀ i < tb.size, gap tb.size c i < L → (shSlot tb.data i).isSome
  ends : ∀ i < tb.size, gap tb.size c i = L → shSlot tb.data i = none
  richer : ∀ b, shSlot tb.data c = some b →
    gap tb.size (T.home tb.size b) c
      < gap tb.size ((T.hashKey key).toNat % tb.size) c

namespace MakesRoom

variable {key : κ} {c L : ℕ} {data : ℕ → ShElement κ ν}

/-- With the new entry filled in, the slots are those of `insertAt`. -/
theorem slot_eq (hr : MakesRoom T tb key c L data) {i : ℕ} (hi : i < tb.size) :
    shSlot (shAddMember T tb data c key (T.hashKey key)).data i
      = insertAt tb.size (shSlot tb.data) c L
          (T.shFill (tb.data c) key (T.hashKey key)) i :=
  shSlot_shAddMember hr.probed.lt hr.shifted hi

/-- The new entry is in bucket `c`. -/
theorem data_self (hr : MakesRoom T tb key c L data) :
    (shAddMember T tb data c key (T.hashKey key)).data c
      = T.shFill (tb.data c) key (T.hashKey key) := by
  have h := hr.slot_eq hr.probed.lt
  rw [insertAt_self] at h
  exact (shSlot_eq_some.mp h).2

/-- The table holds what it held, and the new entry. -/
theorem holds_iff (hr : MakesRoom T tb key c L data) (e : ShElement κ ν) :
    (shAddMember T tb data c key (T.hashKey key)).Holds e ↔
      e = T.shFill (tb.data c) key (T.hashKey key) ∨ tb.Holds e := by
  show (∃ i < tb.size, shSlot (shAddMember T tb data c key (T.hashKey key)).data i = some e)
    ↔ _ ∨ ∃ i < tb.size, shSlot tb.data i = some e
  rw [← insertAt_eq_some hr.probed.lt hr.len_lt hr.ends e]
  exact exists_congr (fun i => and_congr_right (fun hi => by rw [hr.slot_eq hi]))

theorem home_shFill (T : ShTemplate κ ν) (entry : ShElement κ ν) (key : κ) (n : ℕ) :
    T.home n (T.shFill entry key (T.hashKey key)) = (T.hashKey key).toNat % n := by
  rw [ShTemplate.home, shEntryHash_shFill]

/-- **The entry before the new one** leads there, unless the new one is at home. -/
theorem leads (hr : MakesRoom T tb key c L data) (h₂ : 2 ≤ tb.size)
    (hne : (T.hashKey key).toNat % tb.size ≠ c) :
    ∃ b, shSlot tb.data (prev tb.size c) = some b ∧
      gap tb.size ((T.hashKey key).toNat % tb.size) c
        ≤ gap tb.size (T.home tb.size b) (prev tb.size c) + 1 := by
  have hcn := hr.probed.lt
  have hs : (T.hashKey key).toNat % tb.size < tb.size := Nat.mod_lt _ (by omega)
  have hprev := gap_prev hs hcn hne
  obtain ⟨b, hb, -, hd⟩ := hr.probed.before _ (prev_lt hcn) (by omega)
  exact ⟨b, hb, by omega⟩

/-- **The new entry keeps the order**, and the keys distinct if its key is new. -/
theorem sound (hr : MakesRoom T tb key c L data) (h : ShRep T tb)
    (hnone : Finds T tb key none) :
    Sound T tb.size (shAddMember T tb data c key (T.hashKey key)).data := by
  set a := T.shFill (tb.data c) key (T.hashKey key) with ha
  have hcn := hr.probed.lt
  have hhome := home_shFill T (tb.data c) key tb.size
  have hordered := h.sound.ordered.insertAt (a := a) hcn hr.len_lt hr.run hr.ends
    (fun hne => by rw [ha, hhome] at hne ⊢; exact hr.leads h.sized.two_le hne)
    (fun b hb => by rw [ha, hhome]; exact hr.richer b hb)
  have hdistinct := h.sound.distinct.insertAt (a := a) hcn hr.len_lt
    (fun i hi b hb => by
      have hf : T.equal b.key key = false := hnone.not_holds ⟨i, hi, hb⟩
      refine ⟨fun hab => ?_, fun hba => ?_⟩
      · have := hab.symm
        rw [ShTemplate.SameKey] at this
        rw [show a.key = key from rfl, hf] at this
        exact absurd this (by simp)
      · rw [ShTemplate.SameKey, show a.key = key from rfl, hf] at hba
        exact absurd hba (by simp))
  have hslot := fun i (hi : i < tb.size) => hr.slot_eq hi
  refine ⟨hordered.congr hslot, hdistinct.congr hslot, fun i hi e he => ?_⟩
  rcases (hr.holds_iff e).mp ⟨i, hi, he⟩ with rfl | ⟨j, hj, hje⟩
  · exact shEntryHash_shFill T _ key
  · exact h.sound.hashed j hj e hje

/-- The members are counted. -/
theorem members_eq (hr : MakesRoom T tb key c L data) (h : ShRep T tb)
    (hlt : tb.members < shMaxSize - 1) :
    (shAddMember T tb data c key (T.hashKey key)).members = tb.members + 1 ∧
      (occupied tb.size
        (shSlot (shAddMember T tb data c key (T.hashKey key)).data)).card
        = tb.members + 1 := by
  have hcn := hr.probed.lt
  have hmem : shift tb.size c L ∉ occupied tb.size (shSlot tb.data) := by
    rw [mem_occupied, hr.ends _ (shift_lt hcn hr.len_lt) (gap_shift hcn hr.len_lt)]
    simp
  refine ⟨Nat.mod_eq_of_lt (by rw [shMaxSize] at hlt; omega), ?_⟩
  rw [occupied_congr fun i hi => hr.slot_eq hi, occupied_insertAt hcn hr.len_lt hr.run,
    Finset.card_insert_of_notMem hmem, ← h.members_card]

end MakesRoom

/-- **A new entry where the probing has stopped** keeps the invariant. -/
theorem Inserted.of_added (h : ShRep T tb)
    (ht : tb.growThreshold = shGrowThreshold tb.size)
    (hm : tb.members < tb.growThreshold) {key : κ} {c L : ℕ}
    {data : ℕ → ShElement κ ν} (hr : MakesRoom T tb key c L data)
    (hnone : Finds T tb key none) :
    Inserted T tb key
      ⟨false, c, shAddMember T tb data c key (T.hashKey key)⟩ := by
  have h₂ := h.sized.two_le
  have hmax := h.sized.le_max
  have hlt := shGrowThreshold_lt (n := tb.size) (by omega)
  obtain ⟨hmem, hcard⟩ := hr.members_eq h (by rw [shMaxSize]; omega)
  refine ⟨Sound.rep (hr.sound h hnone) ⟨h.sized.size_eq, h.sized.sizemask_eq⟩
    (hmem.trans hcard.symm) ?_, ht, ?_, ?_, fun _ => ?_, fun e => ?_⟩
  · refine exists_slot_empty ?_
    rw [show (shAddMember T tb data c key (T.hashKey key)).size = tb.size from rfl, hcard]
    omega
  · refine ⟨hr.probed.lt, ?_, ?_⟩
    · show ((shAddMember T tb data c key (T.hashKey key)).data c).status = .inUse
      rw [hr.data_self]
      rfl
    · show T.equal ((shAddMember T tb data c key (T.hashKey key)).data c).key key = true
      rw [hr.data_self]
      exact T.equal_equivalence.refl key
  · refine ⟨fun hf => absurd hf (by simp), ?_⟩
    rintro ⟨e, he, heq⟩
    rw [hnone.not_holds he] at heq
    exact absurd heq (by simp)
  · show ((shAddMember T tb data c key (T.hashKey key)).data c).key = key
    rw [hr.data_self]
    rfl
  · show (shAddMember T tb data c key (T.hashKey key)).Holds e ↔ tb.Holds e ∨
      false = false ∧ e = (shAddMember T tb data c key (T.hashKey key)).data c
    rw [hr.holds_iff, hr.data_self, or_comm]
    simp

/-! ## `SH_INSERT` -/

/-- **One attempt at an insertion** ends with the key in the table, or sets the
threshold to zero and changes nothing else. -/
theorem shInsertAttempt_meets (h : ShRep T tb)
    (ht : tb.growThreshold = shGrowThreshold tb.size)
    (hm : tb.members < tb.growThreshold) (key : κ) :
    (shInsertAttempt T tb key (T.hashKey key)).Meets
      (fun r => ∃ ins, r = .ok ins ∧ Inserted T tb key ins)
      (fun tb' => tb' = { tb with growThreshold := 0 }) := by
  have h₂ := h.sized.two_le
  obtain ⟨p, hp, hmeets⟩ := shInsertProbe_meets h key
  unfold shInsertAttempt
  rw [hp]
  cases p with
  | found c => exact ⟨_, rfl, .of_found h ht hmeets⟩
  | unused c =>
    obtain ⟨hc, hst, hnone⟩ := hmeets
    have hslot := shSlot_eq_none.mpr hst
    -- nothing has to move
    have hroom : MakesRoom T tb key c 0 tb.data := by
      refine ⟨hc, by omega, fun i _ => ?_, fun i _ hd => absurd hd (by omega),
        fun i hi hd => ?_, fun b hb => ?_⟩
      · rw [if_neg (by omega)]
      · rw [← (gap_eq_zero hc.lt).mp hd]
        exact hslot
      · rw [hslot] at hb
        exact absurd hb (by simp)
    exact ⟨_, rfl, .of_added h ht hm hroom hnone⟩
  | displace c =>
    obtain ⟨hc, hst, hrich, hnone⟩ := hmeets
    obtain ⟨r, hr, hfirst⟩ := shInsertFindEmpty_first h hc.lt hst
    dsimp only
    rw [hr]
    cases r with
    | none => exact rfl
    | some e =>
      obtain ⟨he, hempty, hrun⟩ := hfirst e rfl
      obtain ⟨data, hdata, hshift⟩ := shShiftForward_shifts h.sized hc.lt he
      dsimp only
      rw [hdata]
      have hroom : MakesRoom T tb key c (gap tb.size c e) data := by
        refine ⟨hc, gap_lt he, hshift, hrun, fun i hi hd => ?_, fun b hb => ?_⟩
        · rw [eq_of_gap_eq hc.lt hi he hd]
          exact hempty
        · obtain ⟨-, rfl⟩ := shSlot_eq_some.mp hb
          exact hrich
      exact ⟨_, rfl, .of_added h ht hm hroom hnone⟩
  | restart => exact rfl

/-- A table that has just doubled has room for another member. -/
theorem le_shGrowThreshold {m n : ℕ} (hn : 2 ≤ n) (hle : n * 2 ≤ m) :
    n ≤ shGrowThreshold m := by
  unfold shGrowThreshold
  split_ifs <;> omega

/-- How often an insertion can still restart: each restart sets the threshold
to zero, or has doubled the table. -/
def shInsertBound (tb : ShHash κ ν) : ℕ :=
  2 * (32 - Nat.log2 tb.size) + if tb.growThreshold = 0 then 0 else 1

/-- A larger table has a larger logarithm. -/
theorem Sized.log2_lt (h : Sized tb) {tb' : ShHash κ ν} (h' : Sized tb')
    (hlt : tb.size < tb'.size) :
    Nat.log2 tb.size < Nat.log2 tb'.size ∧ Nat.log2 tb'.size ≤ 32 := by
  obtain ⟨k, -, -, hk⟩ := h.size_eq
  obtain ⟨k', -, hk'₂, hk'⟩ := h'.size_eq
  rw [hk, hk'] at hlt ⊢
  rw [Nat.log2_two_pow, Nat.log2_two_pow]
  exact ⟨(Nat.pow_lt_pow_iff_right (by omega)).mp hlt, hk'₂⟩

/-- A table that is not of the maximal size can be doubled. -/
theorem Sized.double_le (h : Sized tb) (hne : tb.size ≠ shMaxSize) :
    tb.size * 2 ≤ 2 ^ 32 := by
  obtain ⟨k, -, hk₂, hk⟩ := h.size_eq
  have hlt : k < 32 := by
    refine lt_of_le_of_ne hk₂ (fun hc => hne ?_)
    rw [hk, hc]
    rfl
  rw [hk, ← Nat.pow_succ]
  exact Nat.pow_le_pow_right (by omega) hlt

/-- **`SH_INSERT` ends, and where it raises no error it keeps the invariant and
inserts the key if it was not there.** -/
theorem shInsertHashInternal_inserted (h : ShRep T tb)
    (ht : tb.growThreshold = shGrowThreshold tb.size) (key : κ) :
    ∃ r, shInsertHashInternal T tb key (T.hashKey key) = some r ∧
      ∀ ins, r = .ok ins → Inserted T tb key ins := by
  refine Loop.run_total
    (fun tb' => ShRep T tb' ∧
      (tb'.growThreshold = shGrowThreshold tb'.size ∨ tb'.growThreshold = 0) ∧
      ∀ e, tb'.Holds e ↔ tb.Holds e)
    shInsertBound (fun tb₀ hinv => ?_) ⟨h, Or.inl ht, fun e => Iff.rfl⟩ ?_
  · obtain ⟨hrep₀, hthr₀, hholds₀⟩ := hinv
    have h₂ := hrep₀.sized.two_le
    -- a restart comes with the threshold at zero, from a table `tb'` that the
    -- attempt was made in
    have hpass : ∀ tb', ShRep T tb' → tb'.growThreshold = shGrowThreshold tb'.size →
        tb'.members < tb'.growThreshold → (∀ e, tb'.Holds e ↔ tb.Holds e) →
        2 * (32 - Nat.log2 tb'.size) < shInsertBound tb₀ →
        (shInsertAttempt T tb' key (T.hashKey key)).Meets
          (fun r => ∀ ins, r = .ok ins → Inserted T tb key ins)
          (fun s => (ShRep T s ∧
            (s.growThreshold = shGrowThreshold s.size ∨ s.growThreshold = 0) ∧
            ∀ e, s.Holds e ↔ tb.Holds e) ∧ shInsertBound s < shInsertBound tb₀) := by
      intro tb' hrep hthr hroom hholds hlt
      refine (shInsertAttempt_meets hrep hthr hroom key).mono ?_ ?_
      · rintro r ⟨ins, rfl, hins⟩ ins' hins'
        cases hins'
        exact hins.congr hholds
      · rintro s rfl
        exact ⟨⟨hrep.withThreshold 0, Or.inr rfl, hholds⟩, hlt⟩
    by_cases hfull : tb₀.growThreshold ≤ tb₀.members
    · rw [if_pos hfull]
      by_cases hmax : tb₀.size = shMaxSize
      · rw [if_pos hmax]
        exact fun ins hins => absurd hins (by simp)
      · rw [if_neg hmax]
        have hlt : tb₀.size < tb₀.size * 2 := by omega
        obtain ⟨r, hr, hgrow⟩ := shGrow_rep hrep₀ hlt (hrep₀.sized.double_le hmax)
        rw [hr]
        cases r with
        | error e => exact fun ins hins => absurd hins (by simp)
        | ok tb₁ =>
          obtain ⟨hrep, hthr, hmem, hsize, hholds⟩ := hgrow tb₁ rfl
          have hroom := le_shGrowThreshold h₂ hsize
          have hlt := hrep₀.members_lt
          obtain ⟨hlog, hlog'⟩ := hrep₀.sized.log2_lt hrep.sized (by omega)
          refine hpass tb₁ hrep hthr (by omega) (fun e => ?_) ?_
          · rw [hholds, hholds₀]
          · unfold shInsertBound
            omega
    · rw [if_neg hfull]
      rcases hthr₀ with hthr | hthr
      · refine hpass tb₀ hrep₀ hthr (by omega) hholds₀ ?_
        unfold shInsertBound
        rw [if_neg (by omega)]
        omega
      · omega
  · obtain ⟨k, hk₁, -, hk⟩ := h.sized.size_eq
    unfold shInsertBound
    rw [hk, Nat.log2_two_pow]
    split_ifs <;> omega

end SimpleHash
