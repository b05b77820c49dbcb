import PgCitus.SimpleHashInvariant

/-!
# Searching a simplehash table

`SH_LOOKUP`, `SH_DELETE` and `SH_INSERT` all walk from the optimal bucket of a
key until they meet the key or an empty bucket; `SH_INSERT` also stops at an
entry that is nearer to its optimal bucket than the new entry would be. In a
table that satisfies the representation invariant each of these walks ends
before it has come full circle, and ends rightly: where it does not find the
key, no bucket holds it.
-/

namespace SimpleHash

open Circ RobinHood

variable {κ ν : Type*} {T : ShTemplate κ ν} {tb : ShHash κ ν}

/-- What a search for a key finds: a bucket that holds it, or that none
does. -/
def Finds (T : ShTemplate κ ν) (tb : ShHash κ ν) (key : κ) : Option ℕ → Prop
  | some i => i < tb.size ∧ (tb.data i).status = .inUse ∧
      T.equal (tb.data i).key key = true
  | none => ∀ i < tb.size, (tb.data i).status = .inUse →
      T.equal (tb.data i).key key = false

/-- A search that finds nothing says that no element has the key. -/
theorem Finds.not_holds {key : κ} (h : Finds T tb key none) {e : ShElement κ ν}
    (he : tb.Holds e) : T.equal e.key key = false := by
  obtain ⟨i, hi, hs⟩ := he
  obtain ⟨hst, rfl⟩ := shSlot_eq_some.mp hs
  exact h i hi hst

theorem Finds.holds {key : κ} {i : ℕ} (h : Finds T tb key (some i)) :
    tb.Holds (tb.data i) :=
  ShHash.holds_data h.1 h.2.1

/-- With the hash of the key, comparing keys is `SH_EQUAL`, whether or not
hashes are stored. -/
theorem compareKeys_hashKey {e : ShElement κ ν}
    (he : T.shEntryHash e = T.hashKey e.key) (key : κ) :
    T.shCompareKeys (T.hashKey key) key e = T.equal e.key key := by
  unfold ShTemplate.shCompareKeys
  unfold ShTemplate.shEntryHash at he
  split_ifs at he ⊢ with hs
  · cases heq : T.equal e.key key with
    | false => simp
    | true => simp [he, T.hash_eq_of_equal _ _ heq]
  · rfl

/-- An entry with the key has its home where the search for the key starts. -/
theorem home_of_equal {n : ℕ} {e : ShElement κ ν}
    (he : T.shEntryHash e = T.hashKey e.key) {key : κ}
    (heq : T.equal e.key key = true) :
    T.home n e = (T.hashKey key).toNat % n := by
  rw [ShTemplate.home, he, T.hash_eq_of_equal _ _ heq]

theorem status_ne_inUse {s : ShStatus} : s ≠ .inUse ↔ s = .empty := by
  cases s <;> simp

theorem status_ne_empty {s : ShStatus} : s ≠ .empty ↔ s = .inUse := by
  cases s <;> simp

/-- **`SH_LOOKUP` ends, and finds the key exactly when a bucket holds it.** -/
theorem shLookupHashInternal_finds (h : ShRep T tb) (key : κ) :
    ∃ r, shLookupHashInternal T tb key (T.hashKey key) = some r ∧
      Finds T tb key r := by
  obtain ⟨e, he, hempty⟩ := h.slot_empty
  have hsound := h.sound
  set start := shInitialBucket tb (T.hashKey key) with hstart
  have hs : start < tb.size := shInitialBucket_lt h.sized _
  refine Loop.run_total
    (fun cur => Scanned tb.size (shSlot tb.data)
      (fun a _ => T.equal a.key key = false) start cur)
    (fun cur => tb.size - 1 - gap tb.size start cur) (fun cur hcur => ?_)
    (Scanned.refl _ _ _ hs) (by have := h.sized.two_le; omega)
  by_cases hst : (tb.data cur).status = .empty
  · simp only [hst, if_true, Loop.Step.meets_done]
    intro i hi hsi
    have hslot := shSlot_of_inUse hsi
    by_contra hc
    rw [Bool.not_eq_false] at hc
    have hhome := home_of_equal (n := tb.size) (hsound.hashed i hi _ hslot) hc
    rw [hstart, shInitialBucket_eq h.sized, ← hhome] at hcur
    have := hsound.ordered.scanned_empty hcur (shSlot_eq_none.mpr hst) hi hslot
    rw [hc] at this
    exact absurd this (by simp)
  · have hin := status_ne_empty.mp hst
    have hslot : shSlot tb.data cur = some (tb.data cur) :=
      shSlot_of_inUse hin
    simp only [hst, if_false,
      compareKeys_hashKey (hsound.hashed cur hcur.lt _ hslot)]
    cases heq : T.equal (tb.data cur).key key with
    | true =>
      simp only [if_true, Loop.Step.meets_done]
      exact ⟨hcur.lt, hin, heq⟩
    | false =>
      have hlt := hcur.gap_succ_lt hs he hempty hslot
      simp only [Bool.false_eq_true, if_false, Loop.Step.meets_next,
        shNext_eq h.sized hcur.lt]
      refine ⟨hcur.next hs hlt hslot heq, ?_⟩
      rw [gap_next_of_lt hs hcur.lt hlt]
      omega

/-- The search of `SH_DELETE` is that of `SH_LOOKUP`: a bucket that is not
empty is in use. -/
theorem shDeleteFind_eq (T : ShTemplate κ ν) (tb : ShHash κ ν) (key : κ)
    (hash : UInt32) :
    shDeleteFind T tb key hash = shLookupHashInternal T tb key hash := by
  unfold shDeleteFind shLookupHashInternal
  congr 1
  funext curelem
  by_cases hst : (tb.data curelem).status = .empty
  · simp only [hst, if_true]
  · simp only [status_ne_empty.mp hst, true_and]

/-! ## The probing of an insertion -/

/-- The walk of an insertion up to a bucket has only passed entries with other
keys, none nearer to its optimal bucket than the new entry would be. -/
def Probed (T : ShTemplate κ ν) (tb : ShHash κ ν) (key : κ) (cur : ℕ) : Prop :=
  Scanned tb.size (shSlot tb.data)
    (fun a j => T.equal a.key key = false ∧
      gap tb.size ((T.hashKey key).toNat % tb.size) j
        ≤ gap tb.size (T.home tb.size a) j)
    ((T.hashKey key).toNat % tb.size) cur

/-- What the probing of an insertion finds. -/
def ProbeMeets (T : ShTemplate κ ν) (tb : ShHash κ ν) (key : κ) : ShProbe → Prop
  | .found i => Finds T tb key (some i)
  | .unused c => Probed T tb key c ∧ (tb.data c).status = .empty ∧
      Finds T tb key none
  | .displace c => Probed T tb key c ∧ (tb.data c).status = .inUse ∧
      gap tb.size (T.home tb.size (tb.data c)) c
        < gap tb.size ((T.hashKey key).toNat % tb.size) c ∧
      Finds T tb key none
  | .restart => True

/-- **The probing of `SH_INSERT` ends**, at the key, or where the key belongs
and then no bucket holds it, or with the wish to grow the table. -/
theorem shInsertProbe_meets (h : ShRep T tb) (key : κ) :
    ∃ p, shInsertProbe T tb key (T.hashKey key) = some p ∧
      ProbeMeets T tb key p := by
  obtain ⟨e, he, hempty⟩ := h.slot_empty
  have hsound := h.sound
  have hmax := h.sized.le_max
  have hstart := shInitialBucket_eq h.sized (T.hashKey key)
  have hs : (T.hashKey key).toNat % tb.size < tb.size := by
    rw [← hstart]
    exact shInitialBucket_lt h.sized _
  unfold shInsertProbe
  rw [hstart]
  refine Loop.run_total
    (fun s : ℕ × ℕ => Probed T tb key s.1 ∧
      s.2 = gap tb.size ((T.hashKey key).toNat % tb.size) s.1)
    (fun s => tb.size - 1 - gap tb.size ((T.hashKey key).toNat % tb.size) s.1)
    (fun s hinv => ?_)
    ⟨Scanned.refl _ _ _ hs, (gap_self _ _).symm⟩
    (by have := h.sized.two_le; rw [gap_self]; omega)
  obtain ⟨cur, insertdist⟩ := s
  obtain ⟨hcur, hd⟩ := hinv
  dsimp only at hcur hd ⊢
  -- no bucket holds the key once every entry with its home has been passed
  have hnone : (∀ i < tb.size, ∀ a, shSlot tb.data i = some a →
      T.home tb.size a = (T.hashKey key).toNat % tb.size →
      T.equal a.key key = false) → Finds T tb key none := by
    intro hall i hi hsi
    have hslot := shSlot_of_inUse hsi
    by_contra hc
    rw [Bool.not_eq_false] at hc
    have := hall i hi _ hslot (home_of_equal (hsound.hashed i hi _ hslot) hc)
    rw [hc] at this
    exact absurd this (by simp)
  by_cases hst : (tb.data cur).status = .empty
  · simp only [hst, if_true, Loop.Step.meets_done]
    refine ⟨hcur, hst, hnone (fun i hi a ha hhome => ?_)⟩
    rw [Probed, ← hhome] at hcur
    exact (hsound.ordered.scanned_empty hcur (shSlot_eq_none.mpr hst) hi ha).1
  · have hin := status_ne_empty.mp hst
    have hslot : shSlot tb.data cur = some (tb.data cur) :=
      shSlot_of_inUse hin
    simp only [hst, if_false,
      compareKeys_hashKey (hsound.hashed cur hcur.lt _ hslot),
      shInitialBucket_home h.sized, shDistanceFromOptimal_eq h.sized]
    cases heq : T.equal (tb.data cur).key key with
    | true =>
      simp only [if_true, Loop.Step.meets_done]
      exact ⟨hcur.lt, hin, heq⟩
    | false =>
      simp only [Bool.false_eq_true, if_false]
      by_cases hrich : gap tb.size (T.home tb.size (tb.data cur)) cur < insertdist
      · rw [if_pos hrich]
        rw [hd] at hrich
        refine ⟨hcur, hin, hrich, hnone (fun i hi a ha hhome => ?_)⟩
        rw [Probed, ← hhome] at hcur
        rw [← hhome] at hrich
        exact (hsound.ordered.scanned_richer hcur hslot hrich hi ha).1
      · rw [if_neg hrich]
        have hlt := hcur.gap_succ_lt hs he hempty hslot
        split_ifs with hlong
        · exact trivial
        · simp only [Loop.Step.meets_next, shNext_eq h.sized hcur.lt]
          refine ⟨⟨hcur.next hs hlt hslot ⟨heq, by omega⟩, ?_⟩, ?_⟩
          · rw [gap_next_of_lt hs hcur.lt hlt, hd]
            exact Nat.mod_eq_of_lt (by omega)
          · rw [gap_next_of_lt hs hcur.lt hlt]
            omega

end SimpleHash
