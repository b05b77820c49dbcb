import PgCitus.Library.RobinHood
import Mathlib.Algebra.Order.Group.Nat
import Mathlib.Tactic.Ring

/-!
# Moving a robin-hood table into a larger one

The occupants of a robin-hood ordered table of `n` slots are moved one after
the other into an empty table of `m` slots, `n` dividing `m`, whose homes agree
with the old ones modulo `n`. Each occupant goes to the first empty slot from
its new home on; no occupant is ever displaced. That the result is robin-hood
ordered again depends on the order in which the old table is gone through: it
must start at a slot `s` that is empty or whose occupant is at home.

Seen from such a slot the old table does not wrap around: an occupant lies at
or after its home (`Ordered.gap_home_add`), and later occupants have later
homes (`Ordered.home_mono`). Cut the new table into blocks of `n` slots,
starting at `s`. A new home lies in some block, at the offset of the old home
from `s`. The invariant of the move, `Rehashed`, says that every occupant stays
in the block of its new home and comes to lie at no larger an offset than it
had in the old table. So no block ever overflows into the next one, and within
a block occupants arrive in the order of their homes – which is what the
robin-hood order asks for.
-/

namespace RobinHood

open Circ

variable {α : Type*} {n m s : ℕ} {home home' : α → ℕ}
  {slot new : ℕ → Option α} {r : α → α → Prop}

/-! ## The old table seen from its start -/

/-- The slot a table may be gone through from: it is empty, or its occupant is
at home. -/
def StartsRun (home : α → ℕ) (slot : ℕ → Option α) (s : ℕ) : Prop :=
  ∀ a, slot s = some a → home a = s

/-- **Seen from a start, an occupant lies at or after its home.** -/
theorem Ordered.gap_home_add (h : Ordered n home slot) (hs : s < n)
    (hstart : StartsRun home slot s) {i : ℕ} {a : α} (hi : i < n)
    (ha : slot i = some a) :
    gap n s (home a) + gap n (home a) i = gap n s i := by
  have hh := h.home_lt a
  by_cases hsh : home a = s
  · rw [hsh, gap_self, Nat.zero_add]
  · have hlt : gap n (home a) i < gap n (home a) s := by
      by_contra hc
      obtain ⟨b, hb, hd⟩ := h.path hi hs ha (by omega)
      rw [hstart b hb, gap_self] at hd
      exact hsh ((gap_eq_zero hh).mp (by omega))
    have hround : gap n s (home a) + gap n (home a) s = n := by
      unfold gap
      split_ifs <;> omega
    exact (gap_add_of_lt hs hh (by omega)).symm

/-- **Seen from a start, later occupants have later homes.** -/
theorem Ordered.home_mono (h : Ordered n home slot) (hs : s < n)
    (hstart : StartsRun home slot s) {i j : ℕ} {a b : α} (hi : i < n)
    (hj : j < n) (ha : slot i = some a) (hb : slot j = some b)
    (hij : gap n s i < gap n s j) :
    gap n s (home a) ≤ gap n s (home b) := by
  have h₁ := h.gap_home_add hs hstart hi ha
  have h₂ := h.gap_home_add hs hstart hj hb
  by_cases hle : gap n s (home b) ≤ gap n s i
  · -- `i` lies on the path from the home of `b` to `b`
    have h₃ := gap_add hs (h.home_lt b) hi hle
    obtain ⟨a', ha', hd⟩ := h.path hj hi hb (by omega)
    rw [ha] at ha'
    cases ha'
    omega
  · omega

/-! ## Blocks of the new table -/

/-- **A new home lies in a block at the offset of the old one.** -/
theorem exists_block (hs : s < n) (hdvd : n ∣ m) {h h' : ℕ} (hm : h' < m)
    (hmod : h' % n = h) :
    ∃ b, n ∣ b ∧ b + n ≤ m ∧ gap m s h' = b + gap n s h := by
  obtain ⟨k, rfl⟩ := hdvd
  have hn : 0 < n := by omega
  obtain ⟨q, hq⟩ : ∃ q, h' = n * q + h :=
    ⟨h' / n, by rw [← hmod]; exact (Nat.div_add_mod h' n).symm⟩
  have hh : h < n := hmod ▸ Nat.mod_lt h' hn
  have hqk : q + 1 ≤ k := by
    by_contra hc
    have : n * k ≤ n * q := Nat.mul_le_mul_left n (by omega)
    omega
  have hqn : n * q + n ≤ n * k := by
    have := Nat.mul_le_mul_left n hqk
    rwa [Nat.mul_succ] at this
  subst hq
  by_cases hsh : s ≤ h
  · refine ⟨n * q, Nat.dvd_mul_right n q, hqn, ?_⟩
    simp only [gap, if_pos hsh]
    rw [if_pos (by omega)]
    omega
  · cases q with
    | zero =>
      refine ⟨n * k - n, ?_, by omega, ?_⟩
      · exact Nat.dvd_sub (Nat.dvd_mul_right n k) (Nat.dvd_refl n)
      · simp only [gap, if_neg hsh, Nat.mul_zero, Nat.zero_add]
        omega
    | succ q =>
      rw [Nat.mul_succ] at *
      refine ⟨n * q, Nat.dvd_mul_right n q, by omega, ?_⟩
      simp only [gap, if_neg hsh]
      rw [if_pos (by omega)]
      omega

/-- A slot lies at one offset of one block. -/
theorem block_unique {b b' y y' : ℕ} (hb : n ∣ b) (hb' : n ∣ b') (hy : y < n)
    (hy' : y' < n) (h : b + y = b' + y') : b = b' ∧ y = y' := by
  obtain ⟨q, rfl⟩ := hb
  obtain ⟨q', rfl⟩ := hb'
  have hmod : (n * q + y) % n = (n * q' + y') % n := by rw [h]
  rw [Nat.mul_add_mod, Nat.mul_add_mod, Nat.mod_eq_of_lt hy, Nat.mod_eq_of_lt hy'] at hmod
  omega

/-! ## The move -/

/-- **The invariant of the move**, once the old slots less than `x` away from
the start have been gone through: `new` is robin-hood ordered and holds what
was found there, every occupant in the block of its new home and at no larger
an offset than it had in the old table. -/
structure Rehashed (n m s : ℕ) (home home' : α → ℕ) (r : α → α → Prop)
    (slot new : ℕ → Option α) (x : ℕ) : Prop where
  ordered : Ordered m home' new
  placed : ∀ p < m, ∀ a, new p = some a →
    ∃ i < n, gap n s i < x ∧ slot i = some a ∧
      ∃ b y, n ∣ b ∧ gap m s (home' a) = b + gap n s (home a) ∧
        gap m s p = b + y ∧ gap n s (home a) ≤ y ∧ y ≤ gap n s i
  complete : ∀ i < n, gap n s i < x → ∀ a, slot i = some a →
    ∃ p < m, new p = some a
  distinct : Distinct m r new
  card : (occupied m new).card
    = ((occupied n slot).filter (fun i => gap n s i < x)).card

/-- The empty table is where the move starts. -/
theorem rehashed_zero (hhome : ∀ a, home' a < m) :
    Rehashed n m s home home' r slot (fun _ => none) 0 where
  ordered := ⟨hhome, fun _ _ _ ha => absurd ha (by simp)⟩
  placed := fun _ _ _ ha => absurd ha (by simp)
  complete := fun _ _ h => absurd h (by omega)
  distinct := fun _ _ _ _ _ _ ha => absurd ha (by simp)
  card := by simp [occupied]

/-- The old slots gone through grow by the one at distance `x`. -/
theorem filter_gap_succ (hs : s < n) {i x : ℕ} (hi : i < n)
    (hx : gap n s i = x) :
    (occupied n slot).filter (fun j => gap n s j < x + 1)
      = if (slot i).isSome
        then insert i ((occupied n slot).filter (fun j => gap n s j < x))
        else (occupied n slot).filter (fun j => gap n s j < x) := by
  have hxi : ∀ j < n, gap n s j = x → j = i := fun j hj h =>
    eq_of_gap_eq hs hj hi (by omega)
  ext j
  split_ifs with hsome
  · simp only [Finset.mem_filter, Finset.mem_insert, mem_occupied]
    constructor
    · rintro ⟨⟨hj, hs'⟩, hlt⟩
      by_cases hjx : gap n s j = x
      · exact Or.inl (hxi j hj hjx)
      · exact Or.inr ⟨⟨hj, hs'⟩, by omega⟩
    · rintro (rfl | ⟨hj, hlt⟩)
      · exact ⟨⟨hi, hsome⟩, by omega⟩
      · exact ⟨hj, by omega⟩
  · simp only [Finset.mem_filter, mem_occupied]
    constructor
    · rintro ⟨⟨hj, hs'⟩, hlt⟩
      refine ⟨⟨hj, hs'⟩, ?_⟩
      by_contra hc
      rw [hxi j hj (by omega)] at hs'
      exact hsome hs'
    · rintro ⟨hj, hlt⟩
      exact ⟨hj, by omega⟩

/-- Going past an empty old slot changes nothing. -/
theorem Rehashed.skip {x i : ℕ} (h : Rehashed n m s home home' r slot new x)
    (hs : s < n) (hi : i < n) (hx : gap n s i = x) (hempty : slot i = none) :
    Rehashed n m s home home' r slot new (x + 1) where
  ordered := h.ordered
  placed := by
    intro p hp a ha
    obtain ⟨j, hj, hjx, hrest⟩ := h.placed p hp a ha
    exact ⟨j, hj, by omega, hrest⟩
  complete := by
    intro j hj hjx a ha
    refine h.complete j hj ?_ a ha
    by_contra hc
    have hji : j = i := eq_of_gap_eq hs hj hi (by omega)
    rw [hji, hempty] at ha
    exact absurd ha (by simp)
  distinct := h.distinct
  card := by
    rw [h.card, filter_gap_succ hs hi hx, if_neg (by rw [hempty]; simp)]

section Place

variable {x i : ℕ} {a : α}

/-- In the block of its new home there is room for the next occupant: the slot
at its old offset is empty. -/
theorem Rehashed.room (h : Rehashed n m s home home' r slot new x)
    (ho : Ordered n home slot) (hs : s < n) (hstart : StartsRun home slot s)
    (hdvd : n ∣ m) (hm : 0 < m) (hmod : ∀ a, home' a % n = home a)
    (hi : i < n) (hx : gap n s i = x) (ha : slot i = some a) :
    ∃ e < m, new e = none ∧
      gap m (home' a) e + gap n s (home a) = x := by
  have hhome := h.ordered.home_lt a
  have hnm : n ≤ m := Nat.le_of_dvd hm hdvd
  have hxn : x < n := hx ▸ gap_lt hi
  have hle := ho.gap_home_add hs hstart hi ha
  obtain ⟨b, hb, hbm, hz⟩ := exists_block hs hdvd hhome (hmod a)
  have hbx : b + x < m := by omega
  have hsm : s < m := by omega
  refine ⟨shift m s (b + x), shift_lt hsm hbx, ?_, ?_⟩
  · -- an occupant there would lie beyond its old offset
    cases hc : new (shift m s (b + x)) with
    | none => rfl
    | some c =>
      obtain ⟨j, hj, hjx, -, b', y, hb', -, hp, -, hy⟩ :=
        h.placed _ (shift_lt hsm hbx) c hc
      rw [gap_shift hsm hbx] at hp
      have := (block_unique hb hb' hxn (by omega) hp).2
      omega
  · have hd := gap_shift hsm hbx
    have := gap_add (j := shift m s (b + x)) hsm hhome (shift_lt hsm hbx) (by omega)
    omega

/-- The first empty slot from the new home on comes no later than the one at the old
offset. -/
theorem Rehashed.gap_le (h : Rehashed n m s home home' r slot new x)
    (ho : Ordered n home slot) (hs : s < n) (hstart : StartsRun home slot s)
    (hdvd : n ∣ m) (hm : 0 < m) (hmod : ∀ a, home' a % n = home a)
    (hi : i < n) (hx : gap n s i = x) (ha : slot i = some a) {p : ℕ}
    (hfirst : ∀ q < m, gap m (home' a) q < gap m (home' a) p → (new q).isSome) :
    gap m (home' a) p + gap n s (home a) ≤ x := by
  obtain ⟨e, he, hee, hde⟩ := h.room ho hs hstart hdvd hm hmod hi hx ha
  by_contra hc
  have := hfirst e he (by omega)
  rw [hee] at this
  exact absurd this (by simp)

/-- **What comes before the first empty slot leads there**: it arrived earlier, so it
has an earlier home. -/
theorem Rehashed.leads (h : Rehashed n m s home home' r slot new x)
    (ho : Ordered n home slot) (hs : s < n) (hstart : StartsRun home slot s)
    (hdvd : n ∣ m) (hm : 0 < m) (hmod : ∀ a, home' a % n = home a)
    (hi : i < n) (hx : gap n s i = x) (ha : slot i = some a) {p : ℕ} (hp : p < m)
    (hfirst : ∀ q < m, gap m (home' a) q < gap m (home' a) p → (new q).isSome)
    (hne : home' a ≠ p) :
    ∃ c, new (prev m p) = some c ∧
      gap m (home' a) p ≤ gap m (home' c) (prev m p) + 1 := by
  have hhome := h.ordered.home_lt a
  have hnm : n ≤ m := Nat.le_of_dvd hm hdvd
  have hsm : s < m := by omega
  have hxn : x < n := hx ▸ gap_lt hi
  have hle := h.gap_le ho hs hstart hdvd hm hmod hi hx ha hfirst
  obtain ⟨b, hb, hbm, hz⟩ := exists_block hs hdvd hhome (hmod a)
  have hprev := gap_prev hhome hp hne
  obtain ⟨c, hc⟩ := Option.isSome_iff_exists.mp
    (hfirst (prev m p) (prev_lt hp) (by omega))
  refine ⟨c, hc, ?_⟩
  obtain ⟨j, hj, hjx, hjc, b', y, hb', hz', hq, hoy, hy⟩ :=
    h.placed _ (prev_lt hp) c hc
  have hzq : gap m s (prev m p)
      = gap m s (home' a) + gap m (home' a) (prev m p) :=
    gap_add_of_lt hsm hhome (by omega)
  have hsame : b + (gap n s (home a) + gap m (home' a) (prev m p)) = b' + y := by
    omega
  obtain ⟨hbb, hyy⟩ := block_unique hb hb' (by omega) (by omega) hsame
  have hmono := ho.home_mono hs hstart hj hi hjc ha (by omega)
  have hdc := gap_add hsm (h.ordered.home_lt c) (prev_lt hp) (by omega)
  omega

/-- **Moving one occupant**: put into the first empty slot from its new home
on, it keeps the invariant. -/
theorem Rehashed.place (h : Rehashed n m s home home' r slot new x)
    (ho : Ordered n home slot) (hr : Distinct n r slot) (hs : s < n)
    (hstart : StartsRun home slot s) (hdvd : n ∣ m) (hm : 0 < m)
    (hmod : ∀ a, home' a % n = home a) (hi : i < n) (hx : gap n s i = x)
    (ha : slot i = some a) {p : ℕ} (hp : p < m) (hempty : new p = none)
    (hfirst : ∀ q < m, gap m (home' a) q < gap m (home' a) p → (new q).isSome) :
    Rehashed n m s home home' r slot (insertAt m new p 0 a) (x + 1) := by
  have hhome := h.ordered.home_lt a
  have hnm : n ≤ m := Nat.le_of_dvd hm hdvd
  have hsm : s < m := by omega
  have hxn : x < n := hx ▸ gap_lt hi
  obtain ⟨b, hb, hbm, hz⟩ := exists_block hs hdvd hhome (hmod a)
  have hle := h.gap_le ho hs hstart hdvd hm hmod hi hx ha hfirst
  have hzp : gap m s p = gap m s (home' a) + gap m (home' a) p :=
    gap_add_of_lt hsm hhome (by omega)
  have hend : ∀ j < m, gap m p j = 0 → new j = none := fun j _ hj => by
    rw [← (gap_eq_zero hp).mp hj]
    exact hempty
  have hnew : ∀ q < m, ∀ c, new q = some c → ¬ r a c ∧ ¬ r c a := by
    intro q hq c hc
    obtain ⟨j, hj, hjx, hjc, -⟩ := h.placed q hq c hc
    refine ⟨fun hac => ?_, fun hca => ?_⟩
    · have := hr i hi j hj a c ha hjc hac
      subst this
      omega
    · have := hr j hj i hi c a hjc ha hca
      subst this
      omega
  refine ⟨?_, ?_, ?_, ?_, ?_⟩
  · refine h.ordered.insertAt hp hm (fun _ _ hlt => absurd hlt (by omega)) hend
      (h.leads ho hs hstart hdvd hm hmod hi hx ha hp hfirst) fun c hc => ?_
    rw [hempty] at hc
    exact absurd hc (by simp)
  · intro q hq c hc
    by_cases hqp : q = p
    · subst hqp
      rw [insertAt_self, Option.some.injEq] at hc
      subst hc
      exact ⟨i, hi, by omega, ha, b, gap n s (home a) + gap m (home' a) q, hb, hz,
        by omega, by omega, by omega⟩
    · have hd : 0 < gap m p q := by
        rcases Nat.eq_zero_or_pos (gap m p q) with h₀ | h₀
        · exact absurd ((gap_eq_zero hp).mp h₀).symm hqp
        · exact h₀
      rw [insertAt_of_lt hd] at hc
      obtain ⟨j, hj, hjx, hrest⟩ := h.placed q hq c hc
      exact ⟨j, hj, by omega, hrest⟩
  · intro j hj hjx c hc
    rw [insertAt_eq_some hp hm hend]
    by_cases hjx' : gap n s j = x
    · have hji : j = i := eq_of_gap_eq hs hj hi (by omega)
      subst hji
      rw [ha, Option.some.injEq] at hc
      exact Or.inl hc.symm
    · exact Or.inr (h.complete j hj (by omega) c hc)
  · exact h.distinct.insertAt hp hm hnew
  · have hnotin : p ∉ occupied m new := by
      rw [mem_occupied, hempty]
      simp
    rw [occupied_insertAt hp hm (fun _ _ hlt => absurd hlt (by omega)),
      shift_zero hp, Finset.card_insert_of_notMem hnotin, h.card,
      filter_gap_succ hs hi hx, if_pos (by rw [ha]; rfl),
      Finset.card_insert_of_notMem]
    rw [Finset.mem_filter]
    omega

end Place

/-- **The end of the move**: the new table has exactly the occupants of the
old one, and as many. -/
theorem Rehashed.finish (h : Rehashed n m s home home' r slot new n) :
    (∀ a, (∃ p < m, new p = some a) ↔ ∃ i < n, slot i = some a)
      ∧ (occupied m new).card = (occupied n slot).card := by
  refine ⟨fun a => ⟨?_, ?_⟩, ?_⟩
  · rintro ⟨p, hp, ha⟩
    obtain ⟨i, hi, -, hia, -⟩ := h.placed p hp a ha
    exact ⟨i, hi, hia⟩
  · rintro ⟨i, hi, ha⟩
    exact h.complete i hi (gap_lt hi) a ha
  · rw [h.card, Finset.filter_true_of_mem]
    intro i hi
    exact gap_lt (mem_occupied.mp hi).1

end RobinHood
