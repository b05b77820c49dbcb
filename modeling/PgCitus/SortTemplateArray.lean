import PgCitus.SortTemplate

/-!
# The array the sort template works on

The sort handles pointers and units of memory; what it does is to exchange
elements of an array. This module has the passage from the one to the other:
`stPtr` is the pointer to an element, `stView` reads the memory from a base
address on as an array of elements, and an exchange of units that starts at
pointers to elements is the exchange of elements of `Library.Rearrange`.
-/

namespace SortTemplate

open Rearrange

variable {β : Type*} {T : StTemplate β} {base i j : ℕ} {mem mem' : ℕ → β}

/-- The pointer to element `i` of the array at `base`. -/
def stPtr (T : StTemplate β) (base i : ℕ) : ℕ := base + i * T.step

/-- **Memory read as an array of elements.** -/
def stView (T : StTemplate β) (base : ℕ) (mem : ℕ → β) : ℕ → (Fin T.step → β) :=
  fun i => T.element mem (stPtr T base i)

/-! ## Pointers -/

theorem stPtr_zero (T : StTemplate β) (base : ℕ) : stPtr T base 0 = base := by
  rw [stPtr, Nat.zero_mul, Nat.add_zero]

theorem stPtr_add_step (T : StTemplate β) (base i : ℕ) :
    stPtr T base i + T.step = stPtr T base (i + 1) := by
  rw [stPtr, stPtr, Nat.succ_mul, Nat.add_assoc]

theorem stPtr_sub_step (T : StTemplate β) (base i : ℕ) :
    stPtr T base (i + 1) - T.step = stPtr T base i := by
  rw [← stPtr_add_step, Nat.add_sub_cancel]

theorem stPtr_add_mul (T : StTemplate β) (base i k : ℕ) :
    stPtr T base i + k * T.step = stPtr T base (i + k) := by
  rw [stPtr, stPtr, Nat.add_mul, Nat.add_assoc]

theorem stPtr_sub_mul (T : StTemplate β) (base : ℕ) {i k : ℕ} (hk : k ≤ i) :
    stPtr T base i - k * T.step = stPtr T base (i - k) := by
  conv_lhs => rw [← Nat.sub_add_cancel hk]
  rw [← stPtr_add_mul, Nat.add_sub_cancel]

/-- The distance of two pointers. -/
theorem stPtr_sub_stPtr (T : StTemplate β) (base i j : ℕ) :
    stPtr T base j - stPtr T base i = (j - i) * T.step := by
  rw [stPtr, stPtr, Nat.add_sub_add_left, Nat.sub_mul]

/-- Elements do not overlap. -/
theorem stPtr_add_le (T : StTemplate β) (base : ℕ) (h : i < j) :
    stPtr T base i + T.step ≤ stPtr T base j := by
  rw [stPtr_add_step, stPtr, stPtr]
  exact Nat.add_le_add_left (Nat.mul_le_mul_right _ h) _

theorem stPtr_lt_stPtr (h : 0 < T.step) : stPtr T base i < stPtr T base j ↔ i < j := by
  refine ⟨fun hlt => ?_, fun hlt => ?_⟩
  · by_contra hc
    have hle : stPtr T base j ≤ stPtr T base i :=
      Nat.add_le_add_left (Nat.mul_le_mul_right _ (Nat.le_of_not_lt hc)) _
    exact absurd hlt (Nat.not_lt_of_le hle)
  · have := stPtr_add_le T base hlt
    omega

theorem stPtr_le_stPtr (h : 0 < T.step) : stPtr T base i ≤ stPtr T base j ↔ i ≤ j := by
  rw [← Nat.not_lt, stPtr_lt_stPtr h, Nat.not_lt]

theorem mul_step_lt (h : 0 < T.step) : i * T.step < j * T.step ↔ i < j :=
  Nat.mul_lt_mul_right h

/-- A part is longer than a step if it has more than one element. -/
theorem mul_step_gt (h : 0 < T.step) (k : ℕ) : k * T.step > T.step ↔ 1 < k := by
  have hone := mul_step_lt (i := 1) (j := k) h
  rwa [Nat.one_mul] at hone

/-! ## Exchanging elements -/

theorem stSwap_eq (mem : ℕ → β) (a b : ℕ) : stSwap mem a b = swapAt mem a b := by
  funext x
  by_cases hb : x = b
  · rw [hb, swapAt_right, stSwap, Function.update_self]
  · rw [stSwap, Function.update_of_ne hb]
    by_cases ha : x = a
    · rw [ha, swapAt_left, Function.update_self]
    · rw [Function.update_of_ne ha, swapAt_of_ne ha hb]

theorem stSwapn_eq (mem : ℕ → β) (a b n : ℕ) :
    stSwapn mem a b n = swapRun mem a b n := by
  induction n with
  | zero => rfl
  | succ n ih => rw [stSwapn, swapRun, ih, stSwap_eq]

/-- Units before both runs are left alone. -/
theorem stSwapn_of_lt {a b n x : ℕ} (ha : x < a) (hb : x < b) :
    stSwapn mem a b n x = mem x := by
  induction n with
  | zero => rfl
  | succ n ih =>
    rw [stSwapn, stSwap_eq, swapAt_of_ne (by omega) (by omega), ih]

/-- Where the units of element `i` lie, relative to those of element `j`. -/
theorem stPtr_within_iff (T : StTemplate β) (base i j : ℕ) (u : Fin T.step) :
    stPtr T base j ≤ stPtr T base i + u ∧ stPtr T base i + u < stPtr T base j + T.step ↔
      i = j := by
  have hu := u.isLt
  refine ⟨fun hc => ?_, fun hij => by subst hij; omega⟩
  rcases Nat.lt_trichotomy i j with hlt | heq | hgt
  · have := stPtr_add_le T base hlt
    omega
  · exact heq
  · have := stPtr_add_le T base hgt
    omega

/-- Exchanging the units of two different elements exchanges the elements. -/
theorem stView_doSwap_of_lt (h : i < j) :
    stView T base (doSwap T mem (stPtr T base i) (stPtr T base j))
      = swapAt (stView T base mem) i j := by
  have hij := stPtr_add_le T base h
  funext x
  funext u
  show doSwap T mem (stPtr T base i) (stPtr T base j) (stPtr T base x + u) = _
  rw [doSwap, stSwapn_eq, swapRun_apply hij, if_congr (stPtr_within_iff T base x i u) rfl rfl]
  by_cases hxi : x = i
  · rw [if_pos hxi, hxi, swapAt_left]
    show mem _ = mem (stPtr T base j + u)
    congr 1
    omega
  · rw [if_neg hxi, if_congr (stPtr_within_iff T base x j u) rfl rfl]
    by_cases hxj : x = j
    · rw [if_pos hxj, hxj, swapAt_right]
      show mem _ = mem (stPtr T base i + u)
      congr 1
      omega
    · rw [if_neg hxj, swapAt_of_ne hxi hxj]
      rfl

/-- **`DO_SWAP` exchanges two elements**, which may be the same. -/
theorem stView_doSwap (T : StTemplate β) (base i j : ℕ) (mem : ℕ → β) :
    stView T base (doSwap T mem (stPtr T base i) (stPtr T base j))
      = swapAt (stView T base mem) i j := by
  rcases Nat.lt_trichotomy i j with h | rfl | h
  · exact stView_doSwap_of_lt h
  · rw [swapAt_self, doSwap, stSwapn_eq, swapRun_self]
  · rw [doSwap, stSwapn_eq, swapRun_comm, ← stSwapn_eq, ← doSwap,
      stView_doSwap_of_lt h, swapAt_comm]

/-- **`DO_SWAPN` exchanges two runs of elements.** -/
theorem stView_stSwapn (T : StTemplate β) (base i j k : ℕ) (mem : ℕ → β) :
    stView T base (stSwapn mem (stPtr T base i) (stPtr T base j) (k * T.step))
      = swapRun (stView T base mem) i j k := by
  induction k with
  | zero => rw [Nat.zero_mul, stSwapn, swapRun]
  | succ k ih =>
    rw [swapRun, ← ih, ← stView_doSwap, doSwap, stSwapn_eq, stSwapn_eq, stSwapn_eq,
      Nat.succ_mul, swapRun_add, stPtr_add_mul, stPtr_add_mul]

/-! ## Rearranging the array -/

/-- **Only elements of the range have moved**, and nothing before the array. -/
structure StMoved (T : StTemplate β) (base lo hi : ℕ) (mem mem' : ℕ → β) : Prop where
  rearranged : Rearranged lo hi (stView T base mem) (stView T base mem')
  before : ∀ x < base, mem' x = mem x

theorem StMoved.refl (T : StTemplate β) (base lo hi : ℕ) (mem : ℕ → β) :
    StMoved T base lo hi mem mem :=
  ⟨.refl _ _ _, fun _ _ => rfl⟩

theorem StMoved.trans {lo hi : ℕ} {mem'' : ℕ → β} (h : StMoved T base lo hi mem mem')
    (h' : StMoved T base lo hi mem' mem'') : StMoved T base lo hi mem mem'' :=
  ⟨h.rearranged.trans h'.rearranged, fun x hx => by rw [h'.before x hx, h.before x hx]⟩

theorem StMoved.mono {lo hi lo' hi' : ℕ} (h : StMoved T base lo hi mem mem')
    (hlo : lo' ≤ lo) (hhi : hi ≤ hi') : StMoved T base lo' hi' mem mem' :=
  ⟨h.rearranged.mono hlo hhi, h.before⟩

/-- Exchanging runs of elements of the range. -/
theorem StMoved.stSwapn {lo hi i j k : ℕ} (hi₁ : lo ≤ i) (hi₂ : i + k ≤ hi)
    (hj₁ : lo ≤ j) (hj₂ : j + k ≤ hi) (mem : ℕ → β) :
    StMoved T base lo hi mem
      (stSwapn mem (stPtr T base i) (stPtr T base j) (k * T.step)) := by
  refine ⟨?_, fun x hx => stSwapn_of_lt ?_ ?_⟩
  · rw [stView_stSwapn]
    exact .swapRun hi₁ hi₂ hj₁ hj₂ _
  · exact hx.trans_le (Nat.le_add_right _ _)
  · exact hx.trans_le (Nat.le_add_right _ _)

/-- Exchanging elements of the range. -/
theorem StMoved.doSwap {lo hi i j : ℕ} (hi₁ : lo ≤ i) (hi₂ : i < hi) (hj₁ : lo ≤ j)
    (hj₂ : j < hi) (mem : ℕ → β) :
    StMoved T base lo hi mem (doSwap T mem (stPtr T base i) (stPtr T base j)) := by
  have h : StMoved T base lo hi mem
      (SortTemplate.stSwapn mem (stPtr T base i) (stPtr T base j) (1 * T.step)) :=
    StMoved.stSwapn hi₁ hi₂ hj₁ hj₂ mem
  rwa [Nat.one_mul] at h

/-- Memory outside the range is as it was. -/
theorem StMoved.eq_of_not {lo hi : ℕ} (hstep : 0 < T.step)
    (h : StMoved T base lo hi mem mem') {x : ℕ}
    (hx : ¬ (stPtr T base lo ≤ x ∧ x < stPtr T base hi)) : mem' x = mem x := by
  rcases Nat.lt_or_ge x base with hlt | hge
  · exact h.before x hlt
  · -- the address is that of a unit of an element outside the range
    have hdiv : x = stPtr T base ((x - base) / T.step) + (x - base) % T.step := by
      rw [stPtr, Nat.add_assoc, Nat.div_add_mod' (x - base) T.step]
      omega
    have hu : (x - base) % T.step < T.step := Nat.mod_lt _ hstep
    have hout : ¬ (lo ≤ (x - base) / T.step ∧ (x - base) / T.step < hi) := by
      rintro ⟨h₁, h₂⟩
      have h₃ : stPtr T base lo ≤ stPtr T base _ := (stPtr_le_stPtr hstep).mpr h₁
      have h₄ := stPtr_add_le T base h₂
      omega
    have hview := congrFun (h.rearranged.eq_of_not hout) ⟨_, hu⟩
    rw [hdiv]
    exact hview

end SortTemplate
