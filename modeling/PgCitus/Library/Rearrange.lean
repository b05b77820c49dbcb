import Mathlib.Logic.Equiv.Basic
import Mathlib.Data.List.Perm.Subperm
import Mathlib.Data.List.Nodup
import Mathlib.Data.List.Range
import Mathlib.Tactic.Common

/-!
# Rearranging a range of an array

A sort in place does nothing to an array but exchange elements. `Rearranged`
says so: the new array is the old one read through a permutation of the
positions that moves none outside a range. Exchanging two elements
(`Rearranged.swap`) and two runs of elements (`swapRun`) are rearrangements, and
rearrangements of parts of a range compose to one of the range.

A property of all elements of a range is kept by every rearrangement of it
(`Rearranged.forall_range`). This is what makes a divide-and-conquer sort right:
sorting a part does not disturb what is known of the part as a whole.

An array is a function from positions; a range is a lower bound and an upper
bound, the upper one being outside.
-/

namespace Rearrange

variable {α : Type*} {lo hi : ℕ} {f g h : ℕ → α}

/-! ## Exchanging elements -/

/-- Exchange the elements at two positions. -/
def swapAt (f : ℕ → α) (i j : ℕ) : ℕ → α := fun x => f (Equiv.swap i j x)

/-- Exchange `k` elements from `i` on with the `k` elements from `j` on, one
after the other. -/
def swapRun (f : ℕ → α) (i j : ℕ) : ℕ → ℕ → α
  | 0 => f
  | k + 1 => swapAt (swapRun f i j k) (i + k) (j + k)

@[simp] theorem swapRun_zero (f : ℕ → α) (i j : ℕ) : swapRun f i j 0 = f := rfl

theorem swapAt_left (f : ℕ → α) (i j : ℕ) : swapAt f i j i = f j := by
  rw [swapAt, Equiv.swap_apply_left]

theorem swapAt_right (f : ℕ → α) (i j : ℕ) : swapAt f i j j = f i := by
  rw [swapAt, Equiv.swap_apply_right]

theorem swapAt_of_ne {i j x : ℕ} (hi : x ≠ i) (hj : x ≠ j) :
    swapAt f i j x = f x := by
  rw [swapAt, Equiv.swap_apply_of_ne_of_ne hi hj]

theorem swapAt_self (f : ℕ → α) (i : ℕ) : swapAt f i i = f := by
  funext x
  rw [swapAt, Equiv.swap_self, Equiv.refl_apply]

theorem swapAt_comm (f : ℕ → α) (i j : ℕ) : swapAt f i j = swapAt f j i := by
  funext x
  rw [swapAt, swapAt, Equiv.swap_comm]

theorem swapRun_comm (f : ℕ → α) (i j k : ℕ) : swapRun f i j k = swapRun f j i k := by
  induction k with
  | zero => rfl
  | succ k ih => rw [swapRun, swapRun, ih, swapAt_comm]

theorem swapRun_self (f : ℕ → α) (i k : ℕ) : swapRun f i i k = f := by
  induction k with
  | zero => rfl
  | succ k ih => rw [swapRun, ih, swapAt_self]

/-- A run is exchanged in two parts. -/
theorem swapRun_add (f : ℕ → α) (i j k l : ℕ) :
    swapRun f i j (k + l) = swapRun (swapRun f i j k) (i + k) (j + k) l := by
  induction l with
  | zero => rfl
  | succ l ih =>
    rw [← Nat.add_assoc, swapRun, swapRun, ih, Nat.add_assoc, Nat.add_assoc]

/-- **What exchanging two disjoint runs does.** -/
theorem swapRun_apply {i j k : ℕ} (hij : i + k ≤ j) (x : ℕ) :
    swapRun f i j k x =
      if i ≤ x ∧ x < i + k then f (x - i + j)
      else if j ≤ x ∧ x < j + k then f (x - j + i)
      else f x := by
  induction k generalizing x with
  | zero => rw [if_neg (by omega), if_neg (by omega), swapRun_zero]
  | succ k ih =>
    have hk := ih (by omega)
    rw [swapRun]
    by_cases hxi : x = i + k
    · subst hxi
      rw [swapAt_left, hk, if_neg (by omega), if_neg (by omega), if_pos (by omega)]
      congr 1
      omega
    · by_cases hxj : x = j + k
      · subst hxj
        rw [swapAt_right, hk, if_neg (by omega), if_neg (by omega), if_neg (by omega),
          if_pos (by omega)]
        congr 1
        omega
      · rw [swapAt_of_ne hxi hxj, hk]
        refine if_congr (by omega) rfl (if_congr (by omega) rfl rfl)

/-! ## Rearrangements -/

/-- **An array rearranged**: read through a permutation of the positions that
moves only positions of the range. -/
def Rearranged (lo hi : ℕ) (f g : ℕ → α) : Prop :=
  ∃ σ : Equiv.Perm ℕ, (∀ i, σ i ≠ i → lo ≤ i ∧ i < hi) ∧ ∀ i, g i = f (σ i)

theorem Rearranged.refl (lo hi : ℕ) (f : ℕ → α) : Rearranged lo hi f f :=
  ⟨Equiv.refl ℕ, fun _ hi => absurd rfl hi, fun _ => rfl⟩

theorem Rearranged.trans (hfg : Rearranged lo hi f g) (hgh : Rearranged lo hi g h) :
    Rearranged lo hi f h := by
  obtain ⟨σ, hσ, hg⟩ := hfg
  obtain ⟨τ, hτ, hh⟩ := hgh
  refine ⟨τ.trans σ, fun i hi => ?_, fun i => by rw [hh, hg, Equiv.trans_apply]⟩
  by_cases hτi : τ i = i
  · rw [Equiv.trans_apply, hτi] at hi
    exact hσ i hi
  · exact hτ i hτi

theorem Rearranged.mono {lo' hi' : ℕ} (hfg : Rearranged lo hi f g) (hlo : lo' ≤ lo)
    (hhi : hi ≤ hi') : Rearranged lo' hi' f g := by
  obtain ⟨σ, hσ, hg⟩ := hfg
  refine ⟨σ, fun i hi => ?_, hg⟩
  obtain ⟨h₁, h₂⟩ := hσ i hi
  exact ⟨hlo.trans h₁, h₂.trans_le hhi⟩

/-- Exchanging two elements of the range rearranges it. -/
theorem Rearranged.swap {i j : ℕ} (hi₁ : lo ≤ i) (hi₂ : i < hi) (hj₁ : lo ≤ j)
    (hj₂ : j < hi) (f : ℕ → α) : Rearranged lo hi f (swapAt f i j) := by
  refine ⟨Equiv.swap i j, fun x hx => ?_, fun _ => rfl⟩
  by_cases hxi : x = i
  · rw [hxi]
    exact ⟨hi₁, hi₂⟩
  · by_cases hxj : x = j
    · rw [hxj]
      exact ⟨hj₁, hj₂⟩
    · exact absurd (Equiv.swap_apply_of_ne_of_ne hxi hxj) hx

/-- Exchanging two runs in the range rearranges it. -/
theorem Rearranged.swapRun {i j k : ℕ} (hi₁ : lo ≤ i) (hi₂ : i + k ≤ hi)
    (hj₁ : lo ≤ j) (hj₂ : j + k ≤ hi) (f : ℕ → α) :
    Rearranged lo hi f (swapRun f i j k) := by
  induction k with
  | zero => exact .refl lo hi f
  | succ k ih =>
    exact (ih (by omega) (by omega)).trans
      (.swap (by omega) (by omega) (by omega) (by omega) _)

/-- Outside the range nothing has changed. -/
theorem Rearranged.eq_of_not (hfg : Rearranged lo hi f g) {i : ℕ}
    (hi' : ¬ (lo ≤ i ∧ i < hi)) : g i = f i := by
  obtain ⟨σ, hσ, hg⟩ := hfg
  rw [hg]
  by_contra hne
  exact hi' (hσ i (fun hfix => hne (by rw [hfix])))

/-- Inside the range there is what was there. -/
theorem Rearranged.exists_eq (hfg : Rearranged lo hi f g) {i : ℕ} (hi₁ : lo ≤ i)
    (hi₂ : i < hi) : ∃ j, lo ≤ j ∧ j < hi ∧ g i = f j := by
  obtain ⟨σ, hσ, hg⟩ := hfg
  by_cases hfix : σ i = i
  · exact ⟨i, hi₁, hi₂, by rw [hg, hfix]⟩
  · have hmoves : σ (σ i) ≠ σ i := fun hc => hfix (σ.injective hc)
    obtain ⟨h₁, h₂⟩ := hσ _ hmoves
    exact ⟨σ i, h₁, h₂, hg i⟩

/-- **What holds of all elements of the range holds of all after it is
rearranged.** -/
theorem Rearranged.forall_range (hfg : Rearranged lo hi f g) {P : α → Prop}
    (hP : ∀ i, lo ≤ i → i < hi → P (f i)) : ∀ i, lo ≤ i → i < hi → P (g i) := by
  intro i hi₁ hi₂
  obtain ⟨j, hj₁, hj₂, hij⟩ := hfg.exists_eq hi₁ hi₂
  rw [hij]
  exact hP j hj₁ hj₂

/-- **A rearranged array has the same elements**, each as often. -/
theorem Rearranged.perm {n : ℕ} (hfg : Rearranged lo (lo + n) f g) :
    ((List.range' lo n).map g).Perm ((List.range' lo n).map f) := by
  obtain ⟨σ, hσ, hg⟩ := hfg
  have hmap : (List.range' lo n).map g = ((List.range' lo n).map σ).map f := by
    rw [List.map_map]
    exact List.map_congr_left (fun i _ => hg i)
  have hstay : ∀ i, lo ≤ i ∧ i < lo + n → lo ≤ σ i ∧ σ i < lo + n := by
    intro i hi
    by_cases hfix : σ i = i
    · rw [hfix]
      exact hi
    · exact hσ _ (fun hc => hfix (σ.injective hc))
  rw [hmap]
  refine List.Perm.map f ?_
  refine (List.subperm_of_subset (List.Nodup.map σ.injective List.nodup_range')
    ?_).perm_of_length_le (by simp)
  intro y hy
  obtain ⟨i, hi, rfl⟩ := List.mem_map.mp hy
  rw [List.mem_range'_1] at hi ⊢
  exact hstay i hi

end Rearrange
