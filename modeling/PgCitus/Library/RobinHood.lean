import PgCitus.Library.Circ
import Mathlib.Data.Finset.Card
import Mathlib.Data.Option.Basic

/-!
# Robin-hood ordered tables

A table of `n` slots on a circle holds occupants, each of which has a *home*
slot where a search for it starts. A search goes on from the home slot until
it finds what it looks for or reaches an empty slot; it is right only if no
empty slot lies between an occupant and its home.

`RobinHood.Ordered` is the local condition that makes it right: an occupant
that is not at home has an occupied slot before it, and it is at most one slot
farther from its home than the occupant there. Two things follow from it by
going back along the path to the home slot (`Ordered.path`): the path is
occupied throughout, and every occupant on it is at least as far from its own
home as the search has come. The first says that an empty slot ends a search
rightly, the second that a *richer* occupant – one nearer to its home than the
search is – does so too.

Insertion and deletion are given in closed form: `insertAt` shifts a run of
occupants on by one slot to make room, `eraseAt` shifts a run back by one slot
to close a hole. Both keep the order (`Ordered.insertAt`, `Ordered.eraseAt`),
provided the run is the one the search and the shift would find.
-/

namespace RobinHood

open Circ

variable {α : Type*} {n : ℕ} {home : α → ℕ} {slot : ℕ → Option α}

/-- **The robin-hood order.** Going to the next slot, the distance of the
occupant from its home grows by at most one, and an occupant that follows an
empty slot is at home. -/
structure Ordered (n : ℕ) (home : α → ℕ) (slot : ℕ → Option α) : Prop where
  /-- Every home is a slot of the table. -/
  home_lt : ∀ a, home a < n
  /-- An occupant away from home has a neighbour before it that is no more
  than one slot nearer to its own home. -/
  step : ∀ i < n, ∀ a, slot (next n i) = some a → home a ≠ next n i →
    ∃ b, slot i = some b ∧
      gap n (home a) (next n i) ≤ gap n (home b) i + 1

/-- No two slots hold occupants that `r` identifies. -/
def Distinct (n : ℕ) (r : α → α → Prop) (slot : ℕ → Option α) : Prop :=
  ∀ i < n, ∀ j < n, ∀ a b, slot i = some a → slot j = some b → r a b → i = j

/-- The occupied slots. -/
def occupied (n : ℕ) (slot : ℕ → Option α) : Finset ℕ :=
  (Finset.range n).filter (fun i => (slot i).isSome)

@[simp] theorem mem_occupied {i : ℕ} :
    i ∈ occupied n slot ↔ i < n ∧ (slot i).isSome := by
  simp [occupied]

/-- The order is a matter of the slots of the table only. -/
theorem Ordered.congr (h : Ordered n home slot) {slot' : ℕ → Option α}
    (heq : ∀ i < n, slot' i = slot i) : Ordered n home slot' where
  home_lt := h.home_lt
  step := fun i hi a ha hne => by
    rw [heq _ (next_lt hi)] at ha
    rw [heq i hi]
    exact h.step i hi a ha hne

theorem Distinct.congr {r : α → α → Prop} (h : Distinct n r slot)
    {slot' : ℕ → Option α} (heq : ∀ i < n, slot' i = slot i) :
    Distinct n r slot' := by
  intro i hi j hj a b ha hb
  rw [heq i hi] at ha
  rw [heq j hj] at hb
  exact h i hi j hj a b ha hb

theorem occupied_congr {slot' : ℕ → Option α}
    (heq : ∀ i < n, slot' i = slot i) : occupied n slot' = occupied n slot := by
  ext i
  rw [mem_occupied, mem_occupied]
  refine and_congr_right (fun hi => ?_)
  rw [heq i hi]

/-! ## The path home -/

/-- **The path home is occupied, by occupants at least as far from their own
homes.** -/
theorem Ordered.path (h : Ordered n home slot) {i j : ℕ} {a : α}
    (hi : i < n) (hj : j < n) (ha : slot i = some a)
    (hle : gap n (home a) j ≤ gap n (home a) i) :
    ∃ b, slot j = some b ∧ gap n (home a) j ≤ gap n (home b) j := by
  obtain ⟨m, hm⟩ := Nat.exists_eq_add_of_le hle
  -- induction on how far before `i` the slot `j` lies
  induction m generalizing j with
  | zero =>
    have hij : j = i := eq_of_gap_eq (h.home_lt a) hj hi (by omega)
    subst hij
    exact ⟨a, ha, le_refl _⟩
  | succ m ih =>
    have hlt : gap n (home a) j + 1 < n := by
      have := gap_lt (n := n) (a := home a) hi
      omega
    have hstep := gap_next_of_lt (h.home_lt a) hj hlt
    obtain ⟨b', hb', hd'⟩ := ih (next_lt hj) (by omega) (by omega)
    have hne : home b' ≠ next n j := by
      intro hc
      have := (gap_eq_zero (h.home_lt b')).mpr hc
      omega
    obtain ⟨b, hb, hd⟩ := h.step j hj b' hb' hne
    exact ⟨b, hb, by omega⟩

/-- An occupant lies before every empty slot, seen from its home. -/
theorem Ordered.gap_lt_of_empty (h : Ordered n home slot) {i j : ℕ} {a : α}
    (hi : i < n) (hj : j < n) (ha : slot i = some a) (he : slot j = none) :
    gap n (home a) i < gap n (home a) j := by
  by_contra hc
  obtain ⟨b, hb, -⟩ := h.path hi hj ha (by omega)
  rw [he] at hb
  exact absurd hb (by simp)

/-- An occupant lies before every occupant that is nearer to its own home than
the slot is to the home of the first. -/
theorem Ordered.gap_lt_of_richer (h : Ordered n home slot) {i j : ℕ} {a b : α}
    (hi : i < n) (hj : j < n) (ha : slot i = some a) (hb : slot j = some b)
    (hr : gap n (home b) j < gap n (home a) j) :
    gap n (home a) i < gap n (home a) j := by
  by_contra hc
  obtain ⟨b', hb', hd⟩ := h.path hi hj ha (by omega)
  rw [hb] at hb'
  cases hb'
  omega

/-- In a table with an empty slot no occupant is a full circle from home. -/
theorem Ordered.gap_succ_lt (h : Ordered n home slot) {i e : ℕ} {a : α}
    (hi : i < n) (he : e < n) (ha : slot i = some a) (hempty : slot e = none) :
    gap n (home a) i + 1 < n := by
  have h₁ := h.gap_lt_of_empty hi he ha hempty
  have h₂ := gap_lt (n := n) (a := home a) he
  omega

/-- An occupant that follows an empty slot is at home. -/
theorem Ordered.home_of_prev_empty (h : Ordered n home slot) {i : ℕ} {a : α}
    (hi : i < n) (ha : slot (next n i) = some a) (hempty : slot i = none) :
    home a = next n i := by
  by_contra hc
  obtain ⟨b, hb, -⟩ := h.step i hi a ha hc
  rw [hempty] at hb
  exact absurd hb (by simp)

/-! ## Searching -/

/-- **How far a search has come.** From `start` up to, but without, `cur` every
slot is occupied by something that satisfies `P`. -/
structure Scanned (n : ℕ) (slot : ℕ → Option α) (P : α → ℕ → Prop)
    (start cur : ℕ) : Prop where
  lt : cur < n
  before : ∀ j < n, gap n start j < gap n start cur →
    ∃ a, slot j = some a ∧ P a j

section Scanned

variable {P : α → ℕ → Prop} {start cur : ℕ} {a : α}

theorem Scanned.refl (n : ℕ) (slot : ℕ → Option α) (P : α → ℕ → Prop)
    {start : ℕ} (hs : start < n) : Scanned n slot P start start :=
  ⟨hs, fun j _ hlt => by rw [gap_self] at hlt; exact absurd hlt (by omega)⟩

/-- In a table with an empty slot a search never comes full circle. -/
theorem Scanned.gap_succ_lt (h : Scanned n slot P start cur) (hs : start < n)
    {e : ℕ} (he : e < n) (hempty : slot e = none) (ha : slot cur = some a) :
    gap n start cur + 1 < n := by
  have hlt : gap n start cur < gap n start e := by
    by_contra hc
    rcases Nat.lt_or_ge (gap n start e) (gap n start cur) with hlt | hge
    · obtain ⟨b, hb, -⟩ := h.before e he hlt
      rw [hempty] at hb
      exact absurd hb (by simp)
    · rw [eq_of_gap_eq hs he h.lt (by omega)] at hempty
      rw [ha] at hempty
      exact absurd hempty (by simp)
  have := gap_lt (n := n) (a := start) he
  omega

/-- **A search goes on past an occupant that satisfies `P`.** -/
theorem Scanned.next (h : Scanned n slot P start cur) (hs : start < n)
    (hlt : gap n start cur + 1 < n) (ha : slot cur = some a) (hp : P a cur) :
    Scanned n slot P start (next n cur) := by
  refine ⟨next_lt h.lt, fun j hj hjc => ?_⟩
  rw [gap_next_of_lt hs h.lt hlt] at hjc
  rcases Nat.lt_or_ge (gap n start j) (gap n start cur) with hlt' | hge
  · exact h.before j hj hlt'
  · rw [eq_of_gap_eq hs hj h.lt (by omega)]
    exact ⟨a, ha, hp⟩

/-- **A search that reaches an empty slot has seen every occupant at home
where it started.** -/
theorem Ordered.scanned_empty (ho : Ordered n home slot)
    (h : Scanned n slot P (home a) cur) (hcur : slot cur = none) {i : ℕ}
    (hi : i < n) (ha : slot i = some a) : P a i := by
  obtain ⟨b, hb, hp⟩ := h.before i hi (ho.gap_lt_of_empty hi h.lt ha hcur)
  rw [ha] at hb
  cases hb
  exact hp

/-- **A search that reaches a richer occupant has seen every occupant at home
where it started.** -/
theorem Ordered.scanned_richer (ho : Ordered n home slot)
    (h : Scanned n slot P (home a) cur) {b : α} (hb : slot cur = some b)
    (hr : gap n (home b) cur < gap n (home a) cur) {i : ℕ} (hi : i < n)
    (ha : slot i = some a) : P a i := by
  obtain ⟨c, hc, hp⟩ := h.before i hi (ho.gap_lt_of_richer hi h.lt ha hb hr)
  rw [ha] at hc
  cases hc
  exact hp

end Scanned

/-! ## Making room -/

/-- Put `a` into slot `c`, shifting what is in the `L` slots from `c` on by
one. -/
def insertAt (n : ℕ) (slot : ℕ → Option α) (c L : ℕ) (a : α) : ℕ → Option α :=
  fun i =>
    if gap n c i = 0 then some a
    else if gap n c i ≤ L then slot (prev n i)
    else slot i

section InsertAt

variable {c L : ℕ} {a : α}

theorem insertAt_self (n : ℕ) (slot : ℕ → Option α) (c L : ℕ) (a : α) :
    insertAt n slot c L a c = some a := by
  simp [insertAt]

/-- Inside the run an occupant has moved on by one slot. -/
theorem insertAt_next (hc : c < n) {i : ℕ} (hi : i < n) (hlt : gap n c i < L)
    (hL : L < n) : insertAt n slot c L a (next n i) = slot i := by
  have hd : gap n c (next n i) = gap n c i + 1 :=
    gap_next_of_lt hc hi (by omega)
  rw [insertAt, if_neg (by omega), if_pos (by omega), prev_next hi]

/-- Outside the run nothing has moved. -/
theorem insertAt_of_lt {i : ℕ} (hlt : L < gap n c i) :
    insertAt n slot c L a i = slot i := by
  rw [insertAt, if_neg (by omega), if_neg (by omega)]

/-- Every slot is the first of the run, the next of a slot in the run, or
outside the run. -/
theorem insertAt_cases (hc : c < n) {i : ℕ} (hi : i < n) :
    i = c ∨ (∃ j < n, i = next n j ∧ gap n c i = gap n c j + 1 ∧ gap n c j < L)
      ∨ L < gap n c i := by
  by_cases h₀ : i = c
  · exact Or.inl h₀
  · by_cases h₁ : L < gap n c i
    · exact Or.inr (Or.inr h₁)
    · have hd := gap_prev hc hi (Ne.symm h₀)
      exact Or.inr (Or.inl ⟨prev n i, prev_lt hi, (next_prev hi).symm,
        by omega, by omega⟩)

/-- **Making room keeps the order**, when the run ends in an empty slot, the
occupants before `c` lead the newcomer there, and the occupant it displaces is
nearer to its home than the newcomer is. -/
theorem Ordered.insertAt (h : Ordered n home slot) (hc : c < n) (hL : L < n)
    (hrun : ∀ i < n, gap n c i < L → (slot i).isSome)
    (hend : ∀ i < n, gap n c i = L → slot i = none)
    (hlead : home a ≠ c →
      ∃ b, slot (prev n c) = some b ∧
        gap n (home a) c ≤ gap n (home b) (prev n c) + 1)
    (hrich : ∀ b, slot c = some b → gap n (home b) c < gap n (home a) c) :
    Ordered n home (insertAt n slot c L a) := by
  have hend' : slot (shift n c L) = none :=
    hend _ (shift_lt hc hL) (gap_shift hc hL)
  -- in the run an occupant that moves on by one is one slot farther from home
  have hfar : ∀ i < n, ∀ b, slot i = some b →
      gap n (home b) (next n i) = gap n (home b) i + 1 := fun i hi b hb =>
    gap_next_of_lt (h.home_lt b) hi
      (h.gap_succ_lt hi (shift_lt hc hL) hb hend')
  refine ⟨h.home_lt, fun i hi x hx hne => ?_⟩
  rcases insertAt_cases (L := L) hc (next_lt hi) with hci | ⟨j, hj, hij, -, hlt⟩ | hout
  · -- the newcomer itself: its neighbour is where the search came from
    rw [hci, insertAt_self, Option.some.injEq] at hx
    rw [hci] at hne ⊢
    subst hx
    obtain ⟨b, hb, hd⟩ := hlead hne
    have hpi : prev n c = i := by rw [← hci, prev_next hi]
    rw [hpi] at hb hd
    refine ⟨b, ?_, hd⟩
    have hdi : gap n c i + 1 = n := by
      rw [← hpi]
      exact gap_prev_self hc
    have hLi : L < gap n c i := by
      rcases Nat.lt_or_ge L (gap n c i) with hlt | hge
      · exact hlt
      · exact absurd (hend i hi (by omega)) (by rw [hb]; simp)
    rw [insertAt_of_lt hLi]
    exact hb
  · -- an occupant of the run: its neighbour moved with it, or is the newcomer
    have hji : j = i := by rw [← prev_next hj, ← hij, prev_next hi]
    subst hji
    rw [insertAt_next hc hj hlt hL] at hx
    rcases insertAt_cases (L := L) hc hj with hcj | ⟨k, hk, hjk, hdk, hltk⟩ | hout
    · subst hcj
      refine ⟨a, insertAt_self _ _ _ _ _, ?_⟩
      have h₁ := hrich x hx
      have h₂ := hfar j hj x hx
      omega
    · obtain ⟨b, hb⟩ := Option.isSome_iff_exists.mp (hrun k hk hltk)
      refine ⟨b, ?_, ?_⟩
      · rw [hjk, insertAt_next hc hk hltk hL]
        exact hb
      · have h₂ := hfar j hj x hx
        have h₃ : gap n (home b) j = gap n (home b) k + 1 := by
          rw [hjk]
          exact hfar k hk b hb
        rw [hjk] at hx h₂ ⊢
        by_cases hhome : home x = next n k
        · have := (gap_eq_zero (b := next n k) (h.home_lt x)).mpr hhome
          omega
        · obtain ⟨b', hb', hd⟩ := h.step k hk x hx hhome
          rw [hb] at hb'
          cases hb'
          rw [← hjk] at *
          omega
    · omega
  · -- past the run nothing moved, and what follows it was at home already
    rw [insertAt_of_lt hout] at hx
    obtain ⟨b, hb, hd⟩ := h.step i hi x hx hne
    refine ⟨b, ?_, hd⟩
    have hdi : gap n c (next n i) = gap n c i + 1 := by
      refine gap_next hc hi (fun hcn => ?_)
      have := (gap_eq_zero (b := next n i) hc).mpr hcn
      omega
    rcases Nat.lt_or_ge L (gap n c i) with hlt | hge
    · rw [insertAt_of_lt hlt]
      exact hb
    · exact absurd (hend i hi (by omega)) (by rw [hb]; simp)

/-- After making room the occupied slots are the old ones and the empty slot
that ended the run. -/
theorem occupied_insertAt (hc : c < n) (hL : L < n)
    (hrun : ∀ i < n, gap n c i < L → (slot i).isSome) :
    occupied n (insertAt n slot c L a)
      = insert (shift n c L) (occupied n slot) := by
  ext i
  rw [Finset.mem_insert, mem_occupied, mem_occupied]
  refine ⟨fun ⟨hi, hs⟩ => ?_, fun h => ?_⟩
  · by_cases hd : gap n c i = L
    · exact Or.inl (by rw [← hd, shift_gap hc hi])
    · refine Or.inr ⟨hi, ?_⟩
      rcases Nat.lt_or_ge (gap n c i) L with hlt | hge
      · exact hrun i hi hlt
      · rwa [insertAt_of_lt (by omega)] at hs
  · have hi : i < n := by
      rcases h with rfl | h
      · exact shift_lt hc hL
      · exact h.1
    refine ⟨hi, ?_⟩
    rcases insertAt_cases (L := L) hc hi with rfl | ⟨j, hj, rfl, -, hlt⟩ | hout
    · simp [insertAt_self]
    · rw [insertAt_next hc hj hlt hL]
      exact hrun j hj hlt
    · rw [insertAt_of_lt hout]
      rcases h with rfl | h
      · rw [gap_shift hc hL] at hout
        exact absurd hout (lt_irrefl _)
      · exact h.2

/-- What is in the table after making room: the newcomer, and what was there. -/
theorem insertAt_eq_some (hc : c < n) (hL : L < n)
    (hend : ∀ i < n, gap n c i = L → slot i = none) (x : α) :
    (∃ i < n, insertAt n slot c L a i = some x)
      ↔ x = a ∨ ∃ i < n, slot i = some x := by
  constructor
  · rintro ⟨i, hi, hx⟩
    rcases insertAt_cases (L := L) hc hi with rfl | ⟨j, hj, rfl, -, hlt⟩ | hout
    · rw [insertAt_self, Option.some.injEq] at hx
      exact Or.inl hx.symm
    · rw [insertAt_next hc hj hlt hL] at hx
      exact Or.inr ⟨j, hj, hx⟩
    · rw [insertAt_of_lt hout] at hx
      exact Or.inr ⟨i, hi, hx⟩
  · rintro (rfl | ⟨i, hi, hx⟩)
    · exact ⟨c, hc, insertAt_self _ _ _ _ _⟩
    · rcases Nat.lt_trichotomy (gap n c i) L with hlt | heq | hgt
      · exact ⟨next n i, next_lt hi, by rw [insertAt_next hc hi hlt hL]; exact hx⟩
      · rw [hend i hi heq] at hx
        exact absurd hx (by simp)
      · exact ⟨i, hi, by rw [insertAt_of_lt hgt]; exact hx⟩

/-- **Making room keeps occupants distinct**, when the newcomer is not there
yet. -/
theorem Distinct.insertAt {r : α → α → Prop} (h : Distinct n r slot)
    (hc : c < n) (hL : L < n)
    (hnew : ∀ i < n, ∀ b, slot i = some b → ¬ r a b ∧ ¬ r b a) :
    Distinct n r (insertAt n slot c L a) := by
  intro i hi j hj x y hx hy hxy
  rcases insertAt_cases (L := L) hc hi with rfl | ⟨i', hi', rfl, -, hlt⟩ | hout <;>
    rcases insertAt_cases (L := L) hc hj with rfl | ⟨j', hj', rfl, -, hlt'⟩ | hout'
  · rfl
  · rw [insertAt_self, Option.some.injEq] at hx
    rw [insertAt_next hc hj' hlt' hL] at hy
    subst hx
    exact absurd hxy (hnew j' hj' y hy).1
  · rw [insertAt_self, Option.some.injEq] at hx
    rw [insertAt_of_lt hout'] at hy
    subst hx
    exact absurd hxy (hnew j hj y hy).1
  · rw [insertAt_self, Option.some.injEq] at hy
    rw [insertAt_next hc hi' hlt hL] at hx
    subst hy
    exact absurd hxy (hnew i' hi' x hx).2
  · rw [insertAt_next hc hi' hlt hL] at hx
    rw [insertAt_next hc hj' hlt' hL] at hy
    rw [h i' hi' j' hj' x y hx hy hxy]
  · rw [insertAt_next hc hi' hlt hL] at hx
    rw [insertAt_of_lt hout'] at hy
    have := h i' hi' j hj x y hx hy hxy
    subst this
    omega
  · rw [insertAt_self, Option.some.injEq] at hy
    rw [insertAt_of_lt hout] at hx
    subst hy
    exact absurd hxy (hnew i hi x hx).2
  · rw [insertAt_of_lt hout] at hx
    rw [insertAt_next hc hj' hlt' hL] at hy
    have := h i hi j' hj' x y hx hy hxy
    subst this
    omega
  · rw [insertAt_of_lt hout] at hx
    rw [insertAt_of_lt hout'] at hy
    exact h i hi j hj x y hx hy hxy

end InsertAt

/-! ## Closing a hole -/

/-- Remove what is in slot `p`, shifting what is in the `L` slots after it
back by one. -/
def eraseAt (n : ℕ) (slot : ℕ → Option α) (p L : ℕ) : ℕ → Option α :=
  fun i =>
    if gap n p i < L then slot (next n i)
    else if gap n p i = L then none
    else slot i

section EraseAt

variable {p L : ℕ}

theorem eraseAt_of_lt {i : ℕ} (hlt : gap n p i < L) :
    eraseAt n slot p L i = slot (next n i) := by
  rw [eraseAt, if_pos hlt]

theorem eraseAt_of_eq {i : ℕ} (heq : gap n p i = L) :
    eraseAt n slot p L i = none := by
  rw [eraseAt, if_neg (by omega), if_pos heq]

theorem eraseAt_of_gt {i : ℕ} (hgt : L < gap n p i) :
    eraseAt n slot p L i = slot i := by
  rw [eraseAt, if_neg (by omega), if_neg (by omega)]

/-- **Closing a hole keeps the order**, when the run that is shifted back is
occupied away from home and what follows it is at home. -/
theorem Ordered.eraseAt (h : Ordered n home slot) (hp : p < n)
    (hL : L + 1 < n) (hocc : (slot p).isSome)
    (hrun : ∀ i < n, 0 < gap n p i → gap n p i ≤ L →
      ∃ b, slot i = some b ∧ home b ≠ i)
    (hend : ∀ i < n, gap n p i = L + 1 → ∀ b, slot i = some b → home b = i) :
    Ordered n home (eraseAt n slot p L) := by
  obtain ⟨a, ha⟩ := Option.isSome_iff_exists.mp hocc
  -- in the run an occupant that moves back by one is one slot nearer to home
  have hnear : ∀ i < n, ∀ b, home b ≠ next n i →
      gap n (home b) (next n i) = gap n (home b) i + 1 := fun i hi b hb =>
    gap_next (h.home_lt b) hi hb
  refine ⟨h.home_lt, fun i hi x hx hne => ?_⟩
  by_cases hwrap : gap n p i + 1 < n
  · have hd : gap n p (next n i) = gap n p i + 1 := gap_next_of_lt hp hi hwrap
    rcases Nat.lt_trichotomy (gap n p i) L with hlt | heq | hgt
    · rcases Nat.lt_or_ge (gap n p i + 1) L with hlt' | hge
      · -- both moved back
        rw [eraseAt_of_lt (by omega)] at hx
        have hd' : gap n p (next n (next n i)) = gap n p (next n i) + 1 :=
          gap_next_of_lt hp (next_lt hi) (by omega)
        obtain ⟨c, hc, hcn⟩ := hrun (next n i) (next_lt hi) (by omega) (by omega)
        obtain ⟨x', hx', hxn⟩ :=
          hrun (next n (next n i)) (next_lt (next_lt hi)) (by omega) (by omega)
        rw [hx] at hx'
        cases hx'
        obtain ⟨c', hc', hdc⟩ := h.step (next n i) (next_lt hi) x hx hxn
        rw [hc] at hc'
        cases hc'
        refine ⟨c, by rw [eraseAt_of_lt hlt]; exact hc, ?_⟩
        have h₁ := hnear (next n i) (next_lt hi) x hxn
        have h₂ := hnear i hi c hcn
        omega
      · rw [eraseAt_of_eq (by omega)] at hx
        exact absurd hx (by simp)
    · -- the hole is right before what was at home
      rw [eraseAt_of_gt (by omega)] at hx
      exact absurd (hend (next n i) (next_lt hi) (by omega) x hx) hne
    · rw [eraseAt_of_gt (by omega)] at hx
      obtain ⟨b, hb, hdb⟩ := h.step i hi x hx hne
      exact ⟨b, by rw [eraseAt_of_gt hgt]; exact hb, hdb⟩
  · -- `i` is the slot before the removed one
    have hnp : next n i = p := by
      refine eq_of_gap_eq hp (next_lt hi) hp ?_
      have hip := gap_prev_self hp
      have hlt := gap_lt (n := n) (a := p) hi
      have hi' : i = prev n p := eq_of_gap_eq hp hi (prev_lt hp) (by omega)
      rw [hi', next_prev hp]
    rw [hnp] at hx hne ⊢
    by_cases hL₀ : L = 0
    · rw [eraseAt_of_eq (by rw [gap_self]; omega)] at hx
      exact absurd hx (by simp)
    · rw [eraseAt_of_lt (by rw [gap_self]; omega)] at hx
      have hd₁ : gap n p (next n p) = gap n p p + 1 :=
        gap_next_of_lt hp hp (by rw [gap_self]; omega)
      rw [gap_self] at hd₁
      obtain ⟨x', hx', hxn⟩ := hrun (next n p) (next_lt hp) (by omega) (by omega)
      rw [hx] at hx'
      cases hx'
      obtain ⟨a', ha', hda⟩ := h.step p hp x hx hxn
      rw [ha] at ha'
      cases ha'
      have h₁ := hnear p hp x hxn
      have hxp : gap n (home x) p ≠ 0 := fun hz =>
        hne ((gap_eq_zero (h.home_lt x)).mp hz)
      have hap : home a ≠ next n i := by
        intro hc
        rw [hnp] at hc
        have := (gap_eq_zero (b := p) (h.home_lt a)).mpr hc
        omega
      obtain ⟨b, hb, hdb⟩ := h.step i hi a (by rw [hnp]; exact ha) hap
      rw [hnp] at hdb
      refine ⟨b, ?_, by omega⟩
      rw [eraseAt_of_gt (by omega)]
      exact hb

/-- After closing a hole the occupied slots are the old ones without the last
of the run. -/
theorem occupied_eraseAt (hp : p < n) (hL : L + 1 < n) (hocc : (slot p).isSome)
    (hrun : ∀ i < n, 0 < gap n p i → gap n p i ≤ L → (slot i).isSome) :
    occupied n (eraseAt n slot p L) = (occupied n slot).erase (shift n p L) := by
  have hrun' : ∀ i < n, gap n p i ≤ L → (slot i).isSome := by
    intro i hi hle
    rcases Nat.eq_zero_or_pos (gap n p i) with h₀ | h₀
    · rw [← (gap_eq_zero hp).mp h₀]
      exact hocc
    · exact hrun i hi h₀ hle
  ext i
  rw [Finset.mem_erase, mem_occupied, mem_occupied]
  have hlast : ∀ hi : i < n, i = shift n p L ↔ gap n p i = L := by
    refine fun hi => ⟨fun h => ?_, fun h => ?_⟩
    · rw [h, gap_shift hp (by omega)]
    · rw [← h, shift_gap hp hi]
  constructor
  · rintro ⟨hi, hs⟩
    rcases Nat.lt_trichotomy (gap n p i) L with hlt | heq | hgt
    · exact ⟨fun h => by rw [hlast hi] at h; omega, hi, hrun' i hi hlt.le⟩
    · rw [eraseAt_of_eq heq] at hs
      exact absurd hs (by simp)
    · rw [eraseAt_of_gt hgt] at hs
      exact ⟨fun h => by rw [hlast hi] at h; omega, hi, hs⟩
  · rintro ⟨hne, hi, hs⟩
    rw [ne_eq, hlast hi] at hne
    refine ⟨hi, ?_⟩
    rcases Nat.lt_or_ge (gap n p i) L with hlt | hge
    · rw [eraseAt_of_lt hlt]
      refine hrun' _ (next_lt hi) ?_
      rw [gap_next_of_lt hp hi (by omega)]
      omega
    · rw [eraseAt_of_gt (by omega)]
      exact hs

/-- Where an occupant is after closing a hole, seen from where it was. -/
theorem eraseAt_source (hp : p < n) (hL : L + 1 < n) {i : ℕ} (hi : i < n) {x : α}
    (hx : eraseAt n slot p L i = some x) :
    ∃ j < n, slot j = some x ∧ j ≠ p ∧
      (i = j ∧ L < gap n p j ∨ j = next n i ∧ gap n p i < L) := by
  rcases Nat.lt_trichotomy (gap n p i) L with hlt | heq | hgt
  · rw [eraseAt_of_lt hlt] at hx
    refine ⟨next n i, next_lt hi, hx, fun hc => ?_, Or.inr ⟨rfl, hlt⟩⟩
    have hd := gap_next_of_lt hp hi (by omega)
    rw [hc, gap_self] at hd
    omega
  · rw [eraseAt_of_eq heq] at hx
    exact absurd hx (by simp)
  · rw [eraseAt_of_gt hgt] at hx
    refine ⟨i, hi, hx, fun hc => ?_, Or.inl ⟨rfl, hgt⟩⟩
    rw [hc, gap_self] at hgt
    omega

/-- What is in the table after closing a hole: what was there in another slot
than the removed one. -/
theorem eraseAt_eq_some (hp : p < n) (hL : L + 1 < n) (x : α) :
    (∃ i < n, eraseAt n slot p L i = some x)
      ↔ ∃ j < n, j ≠ p ∧ slot j = some x := by
  constructor
  · rintro ⟨i, hi, hx⟩
    obtain ⟨j, hj, hjx, hjp, -⟩ := eraseAt_source hp hL hi hx
    exact ⟨j, hj, hjp, hjx⟩
  · rintro ⟨j, hj, hjp, hx⟩
    have hd := gap_prev hp hj (Ne.symm hjp)
    rcases Nat.lt_or_ge L (gap n p j) with hgt | hle
    · exact ⟨j, hj, by rw [eraseAt_of_gt hgt]; exact hx⟩
    · refine ⟨prev n j, prev_lt hj, ?_⟩
      rw [eraseAt_of_lt (by omega), next_prev hj]
      exact hx

/-- **Closing a hole keeps occupants distinct.** -/
theorem Distinct.eraseAt {r : α → α → Prop} (h : Distinct n r slot)
    (hp : p < n) (hL : L + 1 < n) : Distinct n r (eraseAt n slot p L) := by
  intro i hi j hj x y hx hy hxy
  obtain ⟨i', hi', hx', -, hi₂⟩ := eraseAt_source hp hL hi hx
  obtain ⟨j', hj', hy', -, hj₂⟩ := eraseAt_source hp hL hj hy
  have hij := h i' hi' j' hj' x y hx' hy' hxy
  subst hij
  rcases hi₂ with ⟨rfl, hgt⟩ | ⟨rfl, hlt⟩ <;> rcases hj₂ with ⟨rfl, hgt'⟩ | ⟨hnj, hlt'⟩
  · rfl
  · rw [hnj, gap_next_of_lt hp hj (by omega)] at hgt
    omega
  · rw [gap_next_of_lt hp hi (by omega)] at hgt'
    omega
  · rw [← prev_next hi, hnj, prev_next hj]

end EraseAt

end RobinHood
