import PgCitus.SimpleHash
import PgCitus.Library.Rehash

/-!
# The representation invariant of simplehash

`ShRep` is what holds of a table between two operations, in the words of the
source: the member count, distinct keys, an empty bucket, a power of two for a
size, and the robin-hood order of the buckets in terms of `SH_INITIAL_BUCKET`,
`SH_NEXT` and `SH_DISTANCE_FROM_OPTIMAL`.

The operations are reasoned about on the circle of slots of
`Library.RobinHood`: `shSlot` reads the bucket array as slots, the bucket
functions of the source are those of the circle (`shNext_eq`, `shPrev_eq`,
`shDistanceFromOptimal_eq`), and the invariant is the one of the library
(`ShRep.sound`, `Sound.rep`).
-/

namespace SimpleHash

open Circ RobinHood

variable {κ ν : Type*} {T : ShTemplate κ ν} {tb : ShHash κ ν}

/-! ## Sizes and bucket numbers -/

/-- The size of a table is a power of two, and its mask fits it. -/
structure Sized (tb : ShHash κ ν) : Prop where
  size_eq : ∃ k, 1 ≤ k ∧ k ≤ 32 ∧ tb.size = 2 ^ k
  sizemask_eq : tb.sizemask = tb.size - 1

theorem Sized.two_le (h : Sized tb) : 2 ≤ tb.size := by
  obtain ⟨k, hk, -, hs⟩ := h.size_eq
  rw [hs]
  calc 2 = 2 ^ 1 := rfl
    _ ≤ 2 ^ k := Nat.pow_le_pow_right (by omega) hk

theorem Sized.le_max (h : Sized tb) : tb.size ≤ 2 ^ 32 := by
  obtain ⟨k, -, hk, hs⟩ := h.size_eq
  rw [hs]
  exact Nat.pow_le_pow_right (by omega) hk

theorem Sized.dvd_max (h : Sized tb) : tb.size ∣ 2 ^ 32 := by
  obtain ⟨k, -, hk, hs⟩ := h.size_eq
  rw [hs]
  exact Nat.pow_dvd_pow 2 hk

/-- Masking a bucket number is taking it modulo the size. -/
theorem Sized.and_mask (h : Sized tb) (x : ℕ) : x &&& tb.sizemask = x % tb.size := by
  obtain ⟨k, -, -, hs⟩ := h.size_eq
  rw [h.sizemask_eq, hs, Nat.and_two_pow_sub_one_eq_mod]

/-- The truncation to `uint32` disappears in the mask. -/
theorem Sized.u32_mod (h : Sized tb) (x : ℕ) : u32 x % tb.size = x % tb.size :=
  Nat.mod_mod_of_dvd x h.dvd_max

theorem shNext_eq (h : Sized tb) {i : ℕ} (hi : i < tb.size) :
    shNext tb i = next tb.size i := by
  rw [shNext, h.and_mask, h.u32_mod, next]
  split_ifs with hlt
  · exact Nat.mod_eq_of_lt hlt
  · rw [show i + 1 = tb.size by omega, Nat.mod_self]

theorem shPrev_eq (h : Sized tb) {i : ℕ} (hi : i < tb.size) :
    shPrev tb i = prev tb.size i := by
  have h₂ := h.two_le
  obtain ⟨q, hq⟩ := h.dvd_max
  have hq₀ : 0 < q := by
    rcases Nat.eq_zero_or_pos q with h₀ | h₀
    · rw [h₀] at hq
      omega
    · exact h₀
  obtain ⟨q', rfl⟩ : ∃ q', q = q' + 1 := ⟨q - 1, by omega⟩
  have hmul : tb.size * (q' + 1) = tb.size * q' + tb.size := Nat.mul_succ _ _
  rw [shPrev, h.and_mask, h.u32_mod, prev,
    show i + (2 ^ 32 - 1) = tb.size * q' + (i + tb.size - 1) by omega, Nat.mul_add_mod]
  split_ifs with h₀
  · rw [h₀, Nat.zero_add, Nat.mod_eq_of_lt (by omega)]
  · rw [show i + tb.size - 1 = tb.size + (i - 1) by omega, Nat.add_mod_left,
      Nat.mod_eq_of_lt (by omega)]

theorem shDistanceFromOptimal_eq (h : Sized tb) (o i : ℕ) :
    shDistanceFromOptimal tb o i = gap tb.size o i := by
  have hmax := h.le_max
  unfold shDistanceFromOptimal gap u32
  split_ifs with hle
  · rfl
  · exact Nat.mod_eq_of_lt (by omega)

theorem shInitialBucket_eq (h : Sized tb) (hash : UInt32) :
    shInitialBucket tb hash = hash.toNat % tb.size :=
  h.and_mask _

theorem shInitialBucket_lt (h : Sized tb) (hash : UInt32) :
    shInitialBucket tb hash < tb.size := by
  rw [shInitialBucket_eq h]
  exact Nat.mod_lt _ (by have := h.two_le; omega)

/-! ## The bucket array as slots -/

/-- The occupant of a bucket. -/
def shSlot (data : ℕ → ShElement κ ν) (i : ℕ) : Option (ShElement κ ν) :=
  if (data i).status = .inUse then some (data i) else none

theorem shSlot_eq_some {data : ℕ → ShElement κ ν} {i : ℕ} {e : ShElement κ ν} :
    shSlot data i = some e ↔ (data i).status = .inUse ∧ data i = e := by
  unfold shSlot
  split_ifs with h <;> simp [h]

/-- The occupant of a bucket in use. -/
theorem shSlot_of_inUse {data : ℕ → ShElement κ ν} {i : ℕ} (hi : (data i).status = .inUse) :
    shSlot data i = some (data i) :=
  shSlot_eq_some.mpr ⟨hi, rfl⟩

theorem shSlot_eq_none {data : ℕ → ShElement κ ν} {i : ℕ} :
    shSlot data i = none ↔ (data i).status = .empty := by
  unfold shSlot
  split_ifs with h
  · simp [h]
  · cases hs : (data i).status
    · simp
    · exact absurd hs h

theorem isSome_shSlot {data : ℕ → ShElement κ ν} {i : ℕ} :
    (shSlot data i).isSome ↔ (data i).status = .inUse := by
  unfold shSlot
  split_ifs with h <;> simp [h]

/-- An element is in a table. -/
def ShHash.Holds (tb : ShHash κ ν) (e : ShElement κ ν) : Prop :=
  ∃ i < tb.size, shSlot tb.data i = some e

theorem ShHash.holds_data {tb : ShHash κ ν} {i : ℕ} (hi : i < tb.size)
    (hin : (tb.data i).status = .inUse) : tb.Holds (tb.data i) :=
  ⟨i, hi, shSlot_of_inUse hin⟩

/-- The home of an element among `n` buckets. -/
def ShTemplate.home (T : ShTemplate κ ν) (n : ℕ) (e : ShElement κ ν) : ℕ :=
  (T.shEntryHash e).toNat % n

theorem shInitialBucket_home (h : Sized tb) (e : ShElement κ ν) :
    shInitialBucket tb (T.shEntryHash e) = T.home tb.size e :=
  shInitialBucket_eq h _

/-- Two elements with the same key. -/
def ShTemplate.SameKey (T : ShTemplate κ ν) (a b : ShElement κ ν) : Prop :=
  T.equal a.key b.key = true

theorem ShTemplate.SameKey.symm {a b : ShElement κ ν} (h : T.SameKey a b) :
    T.SameKey b a :=
  T.equal_equivalence.symm h

/-! ## The invariant -/

/-- **The representation invariant**, in the words of the source. -/
structure ShRep (T : ShTemplate κ ν) (tb : ShHash κ ν) : Prop where
  /-- The size is a power of two and `sizemask` is `size - 1`. -/
  sized : Sized tb
  /-- `members` is the number of in-use buckets. -/
  members_eq : tb.members
    = ((Finset.range tb.size).filter
        (fun i => (tb.data i).status = .inUse)).card
  /-- At least one bucket is empty. -/
  exists_empty : ∃ i < tb.size, (tb.data i).status = .empty
  /-- The keys of in-use buckets are pairwise distinct. -/
  keys_distinct : ∀ i < tb.size, ∀ j < tb.size,
    (tb.data i).status = .inUse → (tb.data j).status = .inUse →
    T.equal (tb.data i).key (tb.data j).key = true → i = j
  /-- The hash of an in-use bucket is the hash of its key. -/
  hash_eq : ∀ i < tb.size, (tb.data i).status = .inUse →
    T.shEntryHash (tb.data i) = T.hashKey (tb.data i).key
  /-- No empty bucket lies between the optimal bucket of an in-use entry and
  its actual bucket. -/
  no_gap : ∀ i < tb.size, ∀ j < tb.size, (tb.data i).status = .inUse →
    shDistanceFromOptimal tb
        (shInitialBucket tb (T.shEntryHash (tb.data i))) j
      ≤ shDistanceFromOptimal tb
        (shInitialBucket tb (T.shEntryHash (tb.data i))) i →
    (tb.data j).status = .inUse
  /-- Going to the next bucket, the distance of an entry grows by at most
  one. -/
  distance_step : ∀ i < tb.size, (tb.data i).status = .inUse →
    (tb.data (shNext tb i)).status = .inUse →
    shDistanceFromOptimal tb
        (shInitialBucket tb (T.shEntryHash (tb.data (shNext tb i))))
        (shNext tb i)
      ≤ shDistanceFromOptimal tb
        (shInitialBucket tb (T.shEntryHash (tb.data i))) i + 1
  /-- An entry following an empty bucket is at distance zero. -/
  after_empty : ∀ i < tb.size, (tb.data i).status = .empty →
    (tb.data (shNext tb i)).status = .inUse →
    shDistanceFromOptimal tb
      (shInitialBucket tb (T.shEntryHash (tb.data (shNext tb i))))
      (shNext tb i) = 0

/-- What the invariant says of the slots of a bucket array. -/
structure Sound (T : ShTemplate κ ν) (n : ℕ) (data : ℕ → ShElement κ ν) :
    Prop where
  ordered : Ordered n (T.home n) (shSlot data)
  distinct : Distinct n T.SameKey (shSlot data)
  hashed : ∀ i < n, ∀ e, shSlot data i = some e →
    T.shEntryHash e = T.hashKey e.key

/-- The in-use buckets are the occupied slots. -/
theorem filter_inUse (n : ℕ) (data : ℕ → ShElement κ ν) :
    (Finset.range n).filter (fun i => (data i).status = .inUse)
      = occupied n (shSlot data) := by
  ext i
  rw [mem_occupied, isSome_shSlot, Finset.mem_filter, Finset.mem_range]

theorem ShRep.sound (h : ShRep T tb) : Sound T tb.size tb.data where
  ordered := by
    refine ⟨fun e => Nat.mod_lt _ (by have := h.sized.two_le; omega),
      fun i hi a ha hne => ?_⟩
    obtain ⟨hs, rfl⟩ := shSlot_eq_some.mp ha
    have hnext := shNext_eq h.sized hi
    cases hst : (tb.data i).status with
    | empty =>
      have h₀ := h.after_empty i hi hst (by rw [hnext]; exact hs)
      rw [hnext, shInitialBucket_home h.sized, shDistanceFromOptimal_eq h.sized] at h₀
      refine absurd ((gap_eq_zero ?_).mp h₀) hne
      exact Nat.mod_lt _ (by have := h.sized.two_le; omega)
    | inUse =>
      refine ⟨tb.data i, shSlot_of_inUse hst, ?_⟩
      have h₁ := h.distance_step i hi hst (by rw [hnext]; exact hs)
      rw [hnext, shInitialBucket_home h.sized, shInitialBucket_home h.sized,
        shDistanceFromOptimal_eq h.sized, shDistanceFromOptimal_eq h.sized] at h₁
      exact h₁
  distinct := by
    intro i hi j hj a b ha hb hab
    obtain ⟨hsa, rfl⟩ := shSlot_eq_some.mp ha
    obtain ⟨hsb, rfl⟩ := shSlot_eq_some.mp hb
    exact h.keys_distinct i hi j hj hsa hsb hab
  hashed := by
    intro i hi e he
    obtain ⟨hs, rfl⟩ := shSlot_eq_some.mp he
    exact h.hash_eq i hi hs

/-- **The invariant of the slots is the representation invariant.** -/
theorem Sound.rep (h : Sound T tb.size tb.data) (hsz : Sized tb)
    (hm : tb.members = (occupied tb.size (shSlot tb.data)).card)
    (he : ∃ i < tb.size, shSlot tb.data i = none) : ShRep T tb where
  sized := hsz
  members_eq := by rw [filter_inUse, hm]
  exists_empty := by
    obtain ⟨i, hi, hs⟩ := he
    exact ⟨i, hi, shSlot_eq_none.mp hs⟩
  keys_distinct := fun i hi j hj hsi hsj hk =>
    h.distinct i hi j hj _ _ (shSlot_of_inUse hsi)
      (shSlot_of_inUse hsj) hk
  hash_eq := fun i hi hs => h.hashed i hi _ (shSlot_of_inUse hs)
  no_gap := by
    intro i hi j hj hs hle
    rw [shInitialBucket_home hsz, shDistanceFromOptimal_eq hsz,
      shDistanceFromOptimal_eq hsz] at hle
    obtain ⟨b, hb, -⟩ :=
      h.ordered.path hi hj (shSlot_of_inUse hs) hle
    exact (shSlot_eq_some.mp hb).1
  distance_step := by
    intro i hi hs hs'
    rw [shNext_eq hsz hi] at hs' ⊢
    rw [shInitialBucket_home hsz, shInitialBucket_home hsz,
      shDistanceFromOptimal_eq hsz, shDistanceFromOptimal_eq hsz]
    by_cases hne : T.home tb.size (tb.data (next tb.size i)) = next tb.size i
    · rw [hne, gap_self]
      omega
    · obtain ⟨b, hb, hd⟩ :=
        h.ordered.step i hi _ (shSlot_of_inUse hs') hne
      obtain ⟨-, rfl⟩ := shSlot_eq_some.mp hb
      exact hd
  after_empty := by
    intro i hi hs hs'
    rw [shNext_eq hsz hi] at hs' ⊢
    rw [shInitialBucket_home hsz, shDistanceFromOptimal_eq hsz,
      h.ordered.home_of_prev_empty hi (shSlot_of_inUse hs')
        (shSlot_eq_none.mpr hs), gap_self]

theorem ShRep.slot_empty (h : ShRep T tb) :
    ∃ i < tb.size, shSlot tb.data i = none := by
  obtain ⟨i, hi, hs⟩ := h.exists_empty
  exact ⟨i, hi, shSlot_eq_none.mpr hs⟩

theorem ShRep.members_card (h : ShRep T tb) :
    tb.members = (occupied tb.size (shSlot tb.data)).card := by
  rw [h.members_eq, filter_inUse]

theorem ShRep.members_lt (h : ShRep T tb) : tb.members < tb.size := by
  obtain ⟨i, hi, hs⟩ := h.slot_empty
  have hsub : occupied tb.size (shSlot tb.data) ⊆ Finset.range tb.size :=
    Finset.filter_subset _ _
  rw [h.members_card]
  calc (occupied tb.size (shSlot tb.data)).card
      < (Finset.range tb.size).card :=
        Finset.card_lt_card ((Finset.ssubset_iff_of_subset hsub).mpr
          ⟨i, Finset.mem_range.mpr hi, by simp [hs]⟩)
    _ = tb.size := Finset.card_range _

/-- A table with fewer members than buckets has an empty bucket. -/
theorem exists_slot_empty {n : ℕ} {slot : ℕ → Option (ShElement κ ν)}
    (h : (occupied n slot).card < n) : ∃ i < n, slot i = none := by
  by_contra hc
  push Not at hc
  have hall : occupied n slot = Finset.range n := by
    ext i
    rw [mem_occupied, Finset.mem_range]
    exact ⟨fun hi => hi.1, fun hi => ⟨hi, Option.isSome_iff_ne_none.mpr (hc i hi)⟩⟩
  rw [hall, Finset.card_range] at h
  exact absurd h (lt_irrefl _)

/-- A table with another threshold. -/
def ShHash.withThreshold (g : ℕ) (tb : ShHash κ ν) : ShHash κ ν :=
  { tb with growThreshold := g }

/-- The invariant does not speak of the threshold. -/
theorem ShRep.withThreshold (h : ShRep T tb) (g : ℕ) : ShRep T (tb.withThreshold g) :=
  ⟨⟨h.sized.size_eq, h.sized.sizemask_eq⟩, h.members_eq, h.exists_empty, h.keys_distinct,
    h.hash_eq, h.no_gap, h.distance_step, h.after_empty⟩

end SimpleHash
