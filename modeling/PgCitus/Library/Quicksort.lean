import PgCitus.Library.Rearrange
import Mathlib.Data.Int.Order.Basic

/-!
# Three-way partitioning

The partitioning of Bentley and McIlroy goes through a range from both ends and
parks the elements equal to the pivot at the ends, until the two scans meet.
`Parked` is the invariant: from left to right there are elements equal to the
pivot, elements less than it, elements not looked at yet, elements greater than
it, and again equal ones. At the end the parked elements are exchanged with what
lies next to them, as many as there are of the fewer, and the range is in three
parts (`Parked.gather`). Sorting the outer two then sorts it
(`Partitioned.sortedOn`).

Elements are compared by a function into the integers whose sign is the result,
as C has it. `TotalPreorder` is all that is asked of it: elements that compare
equal need not be equal.
-/

namespace Quicksort

open Rearrange

variable {α : Type*} {cmp : α → α → ℤ} {v : α} {f : ℕ → α} {lo hi : ℕ}

/-- **A comparator that is a total preorder.** -/
structure TotalPreorder (cmp : α → α → ℤ) : Prop where
  pos_iff : ∀ a b, 0 < cmp a b ↔ cmp b a < 0
  trans : ∀ a b c, cmp a b ≤ 0 → cmp b c ≤ 0 → cmp a c ≤ 0

theorem TotalPreorder.nonneg_iff (h : TotalPreorder cmp) (a b : α) :
    0 ≤ cmp a b ↔ cmp b a ≤ 0 := by
  rw [← not_lt, ← not_lt, h.pos_iff]

theorem TotalPreorder.refl (h : TotalPreorder cmp) (a : α) : cmp a a = 0 := by
  have h₁ := h.pos_iff a a
  omega

/-- The array is in order between `lo` and `hi`. -/
def SortedOn (cmp : α → α → ℤ) (f : ℕ → α) (lo hi : ℕ) : Prop :=
  ∀ i, lo ≤ i → i + 1 < hi → cmp (f i) (f (i + 1)) ≤ 0

/-- What is in order stays in order while elements elsewhere move. -/
theorem SortedOn.rearrange {lo' hi' : ℕ} {g : ℕ → α} (h : SortedOn cmp f lo hi)
    (hg : Rearranged lo' hi' f g) (hout : hi ≤ lo' ∨ hi' ≤ lo) :
    SortedOn cmp g lo hi := by
  intro i h₁ h₂
  rw [hg.eq_of_not (by omega), hg.eq_of_not (by omega)]
  exact h i h₁ h₂

/-! ## Sinking an element -/

/-- **An element on its way down** from `m`, now at `x`: all neighbours are in
order but for it and the one below it, and the one below it is in order with the
one above it. -/
structure Sinking (cmp : α → α → ℤ) (f : ℕ → α) (lo m x : ℕ) : Prop where
  le : lo ≤ x
  le_top : x ≤ m
  pair : ∀ i, lo ≤ i → i + 1 ≤ m → i + 1 ≠ x → cmp (f i) (f (i + 1)) ≤ 0
  bridge : ∀ w, w + 1 = x → lo ≤ w → x < m → cmp (f w) (f (x + 1)) ≤ 0

theorem SortedOn.sinking {m : ℕ} (h : SortedOn cmp f lo m) (hm : lo ≤ m) :
    Sinking cmp f lo m m where
  le := hm
  le_top := le_refl m
  pair := fun i hi hle hne => h i hi (by omega)
  bridge := fun _ _ _ hlt => absurd hlt (lt_irrefl m)

/-- An element greater than the one that sinks changes places with it. -/
theorem Sinking.step (hcmp : TotalPreorder cmp) {m w : ℕ}
    (h : Sinking cmp f lo m (w + 1)) (hw : lo ≤ w) (hgt : 0 < cmp (f w) (f (w + 1))) :
    Sinking cmp (swapAt f (w + 1) w) lo m w where
  le := hw
  le_top := by have := h.le_top; omega
  pair := by
    intro i hi hle hne
    by_cases h₁ : i = w
    · subst h₁
      rw [swapAt_right, swapAt_left]
      exact ((hcmp.pos_iff _ _).mp hgt).le
    · by_cases h₂ : i = w + 1
      · subst h₂
        rw [swapAt_left, swapAt_of_ne (by omega) (by omega)]
        exact h.bridge w rfl hw (by omega)
      · rw [swapAt_of_ne h₂ h₁, swapAt_of_ne (by omega) (by omega)]
        exact h.pair i hi hle (by omega)
  bridge := by
    intro u hu hlo hlt
    subst hu
    rw [swapAt_of_ne (by omega) (by omega), swapAt_left]
    exact h.pair u hlo (by omega) (by omega)

/-- An element that has come down far enough. -/
theorem Sinking.sortedOn {m x : ℕ} (h : Sinking cmp f lo m x)
    (hstop : ∀ w, w + 1 = x → lo ≤ w → cmp (f w) (f x) ≤ 0) :
    SortedOn cmp f lo (m + 1) := by
  intro i hi hlt
  by_cases hix : i + 1 = x
  · rw [hix]
    exact hstop i hix hi
  · exact h.pair i hi (by omega) hix

/-! ## Partitioning -/

/-- **A range in three parts**: less than the pivot, equal to it, greater. -/
structure Partitioned (cmp : α → α → ℤ) (v : α) (f : ℕ → α) (lo p q hi : ℕ) :
    Prop where
  le_less : lo ≤ p
  le_equal : p ≤ q
  le_greater : q ≤ hi
  less : ∀ x, lo ≤ x → x < p → cmp (f x) v < 0
  equal : ∀ x, p ≤ x → x < q → cmp (f x) v = 0
  greater : ∀ x, q ≤ x → x < hi → 0 < cmp (f x) v

/-- **Sorting the outer parts sorts the range.** -/
theorem Partitioned.sortedOn (hcmp : TotalPreorder cmp) {p q : ℕ}
    (h : Partitioned cmp v f lo p q hi) (hleft : SortedOn cmp f lo p)
    (hright : SortedOn cmp f q hi) : SortedOn cmp f lo hi := by
  have hle : ∀ a b, cmp a v ≤ 0 → 0 ≤ cmp b v → cmp a b ≤ 0 := fun a b ha hb =>
    hcmp.trans a v b ha ((hcmp.nonneg_iff b v).mp hb)
  intro i hi₁ hi₂
  rcases Nat.lt_or_ge (i + 1) p with h₁ | h₁
  · exact hleft i hi₁ h₁
  · rcases Nat.lt_or_ge i q with h₂ | h₂
    · refine hle _ _ ?_ ?_
      · rcases Nat.lt_or_ge i p with h₃ | h₃
        · exact (h.less i hi₁ h₃).le
        · exact (h.equal i h₃ h₂).le
      · rcases Nat.lt_or_ge (i + 1) q with h₃ | h₃
        · exact (h.equal (i + 1) h₁ h₃).ge
        · exact (h.greater (i + 1) h₃ hi₂).le
    · exact hright i h₂ hi₂

/-- Rearranging an outer part leaves the range in three parts. -/
theorem Partitioned.rearrange_less {p q : ℕ} {g : ℕ → α}
    (h : Partitioned cmp v f lo p q hi) (hg : Rearranged lo p f g) :
    Partitioned cmp v g lo p q hi where
  le_less := h.le_less
  le_equal := h.le_equal
  le_greater := h.le_greater
  less := hg.forall_range (P := fun a => cmp a v < 0) h.less
  equal := fun x h₁ h₂ => by
    rw [hg.eq_of_not (by omega)]
    exact h.equal x h₁ h₂
  greater := fun x h₁ h₂ => by
    rw [hg.eq_of_not (by have := h.le_equal; omega)]
    exact h.greater x h₁ h₂

theorem Partitioned.rearrange_greater {p q : ℕ} {g : ℕ → α}
    (h : Partitioned cmp v f lo p q hi) (hg : Rearranged q hi f g) :
    Partitioned cmp v g lo p q hi where
  le_less := h.le_less
  le_equal := h.le_equal
  le_greater := h.le_greater
  less := fun x h₁ h₂ => by
    rw [hg.eq_of_not (by have := h.le_equal; omega)]
    exact h.less x h₁ h₂
  equal := fun x h₁ h₂ => by
    rw [hg.eq_of_not (by omega)]
    exact h.equal x h₁ h₂
  greater := hg.forall_range (P := fun a => 0 < cmp a v) h.greater

/-- Sorting the lower part and then the upper one. -/
theorem Partitioned.sort_less_greater (hcmp : TotalPreorder cmp) {p q : ℕ}
    {g k : ℕ → α} (h : Partitioned cmp v f lo p q hi)
    (hg : Rearranged lo p f g) (hsg : SortedOn cmp g lo p)
    (hk : Rearranged q hi g k) (hsk : SortedOn cmp k q hi) : SortedOn cmp k lo hi :=
  ((h.rearrange_less hg).rearrange_greater hk).sortedOn hcmp
    (hsg.rearrange hk (Or.inl h.le_equal)) hsk

/-- Sorting the upper part and then the lower one. -/
theorem Partitioned.sort_greater_less (hcmp : TotalPreorder cmp) {p q : ℕ}
    {g k : ℕ → α} (h : Partitioned cmp v f lo p q hi)
    (hg : Rearranged q hi f g) (hsg : SortedOn cmp g q hi)
    (hk : Rearranged lo p g k) (hsk : SortedOn cmp k lo p) : SortedOn cmp k lo hi :=
  ((h.rearrange_greater hg).rearrange_less hk).sortedOn hcmp hsk
    (hsg.rearrange hk (Or.inr h.le_equal))

/-- **The invariant of the partitioning.** -/
structure Parked (cmp : α → α → ℤ) (v : α) (f : ℕ → α) (lo pa pb pc pd hi : ℕ) :
    Prop where
  le_pa : lo ≤ pa
  le_pb : pa ≤ pb
  le_pc : pb ≤ pc
  le_pd : pc ≤ pd
  le_hi : pd ≤ hi
  equal_left : ∀ x, lo ≤ x → x < pa → cmp (f x) v = 0
  less : ∀ x, pa ≤ x → x < pb → cmp (f x) v < 0
  greater : ∀ x, pc ≤ x → x < pd → 0 < cmp (f x) v
  equal_right : ∀ x, pd ≤ x → x < hi → cmp (f x) v = 0

namespace Parked

variable {pa pb pc pd : ℕ}

/-- The scan from the left passes an element less than the pivot. -/
theorem pass_less (h : Parked cmp v f lo pa pb pc pd hi) (hlt : pb < pc)
    (hv : cmp (f pb) v < 0) : Parked cmp v f lo pa (pb + 1) pc pd hi :=
  { h with
    le_pb := h.le_pb.trans (Nat.le_succ pb)
    le_pc := hlt
    less := fun x h₁ h₂ => by
      rcases Nat.lt_succ_iff_lt_or_eq.mp h₂ with hx | rfl
      · exact h.less x h₁ hx
      · exact hv }

/-- The scan from the left parks an element equal to the pivot. -/
theorem park_left (h : Parked cmp v f lo pa pb pc pd hi) (hlt : pb < pc)
    (hv : cmp (f pb) v = 0) :
    Parked cmp v (swapAt f pa pb) lo (pa + 1) (pb + 1) pc pd hi where
  le_pa := h.le_pa.trans (Nat.le_succ pa)
  le_pb := Nat.succ_le_succ h.le_pb
  le_pc := hlt
  le_pd := h.le_pd
  le_hi := h.le_hi
  equal_left := fun x h₁ h₂ => by
    rcases Nat.lt_succ_iff_lt_or_eq.mp h₂ with hx | rfl
    · rw [swapAt_of_ne (by omega) (by have := h.le_pb; omega)]
      exact h.equal_left x h₁ hx
    · rw [swapAt_left]
      exact hv
  less := fun x h₁ h₂ => by
    rcases Nat.lt_succ_iff_lt_or_eq.mp h₂ with hx | rfl
    · rw [swapAt_of_ne (by omega) (by omega)]
      exact h.less x (by omega) hx
    · rw [swapAt_right]
      exact h.less pa (le_refl pa) h₁
  greater := fun x h₁ h₂ => by
    rw [swapAt_of_ne (by have := h.le_pb; omega) (by omega)]
    exact h.greater x h₁ h₂
  equal_right := fun x h₁ h₂ => by
    have hle := h.le_pd
    rw [swapAt_of_ne (by have := h.le_pb; omega) (by omega)]
    exact h.equal_right x h₁ h₂

/-- The scan from the right passes an element greater than the pivot. -/
theorem pass_greater (h : Parked cmp v f lo pa pb (pc + 1) pd hi) (hle : pb ≤ pc)
    (hv : 0 < cmp (f pc) v) : Parked cmp v f lo pa pb pc pd hi :=
  { h with
    le_pc := hle
    le_pd := (Nat.le_succ pc).trans h.le_pd
    greater := fun x h₁ h₂ => by
      rcases Nat.lt_or_ge pc x with hx | hx
      · exact h.greater x hx h₂
      · rw [show x = pc by omega]
        exact hv }

/-- The scan from the right parks an element equal to the pivot. -/
theorem park_right (h : Parked cmp v f lo pa pb (pc + 1) (pd + 1) hi) (hle : pb ≤ pc)
    (hv : cmp (f pc) v = 0) :
    Parked cmp v (swapAt f pc pd) lo pa pb pc pd hi where
  le_pa := h.le_pa
  le_pb := h.le_pb
  le_pc := hle
  le_pd := Nat.le_of_succ_le_succ h.le_pd
  le_hi := (Nat.le_succ pd).trans h.le_hi
  equal_left := fun x h₁ h₂ => by
    have h₃ := h.le_pb
    have h₄ := h.le_pd
    rw [swapAt_of_ne (by omega) (by omega)]
    exact h.equal_left x h₁ h₂
  less := fun x h₁ h₂ => by
    have h₄ := h.le_pd
    rw [swapAt_of_ne (by omega) (by omega)]
    exact h.less x h₁ h₂
  greater := fun x h₁ h₂ => by
    by_cases hx : x = pc
    · subst hx
      rw [swapAt_left]
      exact h.greater pd h₂ (Nat.lt_succ_self pd)
    · rw [swapAt_of_ne hx (by omega)]
      exact h.greater x (by omega) (by omega)
  equal_right := fun x h₁ h₂ => by
    by_cases hx : x = pd
    · subst hx
      rw [swapAt_right]
      exact hv
    · have h₄ := h.le_pd
      rw [swapAt_of_ne (by omega) hx]
      exact h.equal_right x (by omega) h₂

/-- Both scans have stopped: the elements change places. -/
theorem exchange (h : Parked cmp v f lo pa pb (pc + 1) pd hi) (hlt : pb < pc)
    (hpb : 0 < cmp (f pb) v) (hpc : cmp (f pc) v < 0) :
    Parked cmp v (swapAt f pb pc) lo pa (pb + 1) pc pd hi where
  le_pa := h.le_pa
  le_pb := h.le_pb.trans (Nat.le_succ pb)
  le_pc := hlt
  le_pd := (Nat.le_succ pc).trans h.le_pd
  le_hi := h.le_hi
  equal_left := fun x h₁ h₂ => by
    have h₃ := h.le_pb
    rw [swapAt_of_ne (by omega) (by omega)]
    exact h.equal_left x h₁ h₂
  less := fun x h₁ h₂ => by
    rcases Nat.lt_succ_iff_lt_or_eq.mp h₂ with hx | rfl
    · rw [swapAt_of_ne (by omega) (by omega)]
      exact h.less x h₁ hx
    · rw [swapAt_left]
      exact hpc
  greater := fun x h₁ h₂ => by
    by_cases hx : x = pc
    · rw [hx, swapAt_right]
      exact hpb
    · rw [swapAt_of_ne (by omega) hx]
      exact h.greater x (by omega) h₂
  equal_right := fun x h₁ h₂ => by
    have h₃ := h.le_pd
    rw [swapAt_of_ne (by omega) (by omega)]
    exact h.equal_right x h₁ h₂

/-- **Bringing the parked elements together** once the scans have met. -/
theorem gather (h : Parked cmp v f lo pa pb pb pd hi) {d e : ℕ}
    (hd : d = min (pa - lo) (pb - pa)) (he : e = min (pd - pb) (hi - pd)) :
    Partitioned cmp v (swapRun (swapRun f lo (pb - d) d) pb (hi - e) e)
      lo (lo + (pb - pa)) (hi - (pd - pb)) hi := by
  obtain ⟨h₁, h₂, -, h₃, h₄, heql, hless, hgreater, heqr⟩ := h
  -- each run is exchanged on its own side
  have hleft : ∀ x, x < pb → swapRun (swapRun f lo (pb - d) d) pb (hi - e) e x
      = swapRun f lo (pb - d) d x := fun x hx => by
    rw [swapRun_apply (by omega), if_neg (by omega), if_neg (by omega)]
  have hright : ∀ x, pb ≤ x → swapRun (swapRun f lo (pb - d) d) pb (hi - e) e x
      = swapRun f pb (hi - e) e x := by
    have hsame : ∀ y, pb ≤ y → swapRun f lo (pb - d) d y = f y := fun y hy => by
      rw [swapRun_apply (by omega), if_neg (by omega), if_neg (by omega)]
    intro x hx
    have hdisj : pb + e ≤ hi - e := by omega
    rw [swapRun_apply (f := swapRun f lo (pb - d) d) hdisj,
      swapRun_apply (f := f) hdisj]
    split_ifs
    · exact hsame _ (by omega)
    · exact hsame _ (by omega)
    · exact hsame x hx
  refine ⟨by omega, by omega, by omega, fun x hx₁ hx₂ => ?_, fun x hx₁ hx₂ => ?_,
    fun x hx₁ hx₂ => ?_⟩
  · rw [hleft x (by omega), swapRun_apply (by omega)]
    split_ifs
    · exact hless _ (by omega) (by omega)
    · omega
    · exact hless _ (by omega) (by omega)
  · rcases Nat.lt_or_ge x pb with hx | hx
    · rw [hleft x hx, swapRun_apply (by omega)]
      split_ifs
      · omega
      · exact heql _ (by omega) (by omega)
      · exact heql _ (by omega) (by omega)
    · rw [hright x hx, swapRun_apply (by omega)]
      split_ifs
      · exact heqr _ (by omega) (by omega)
      · omega
      · exact heqr _ (by omega) (by omega)
  · rw [hright x (by omega), swapRun_apply (by omega)]
    split_ifs
    · omega
    · exact hgreater _ (by omega) (by omega)
    · exact hgreater _ (by omega) (by omega)

end Parked

end Quicksort
