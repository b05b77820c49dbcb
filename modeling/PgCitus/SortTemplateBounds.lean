import PgCitus.SortTemplateSort
import Mathlib.Algebra.Group.Nat.Defs

/-!
# The sort is safe with any comparator

A comparator is code of the caller's, and may be wrong. Whatever it answers, the
sort ends, compares and exchanges nothing outside of its array, and leaves the
elements it was given, in some order. It also calls itself on the smaller of the
two parts only, and takes the larger one up in the same call, so the part of a
call has at most half of the elements of the call that makes it; as a call is
made for two elements at least, calls are no deeper than the logarithm of the
number of elements.
-/

namespace SortTemplate

open Rearrange

variable {β : Type*} {T : StTemplate β} {base lo n N : ℕ} {s : StLog β}

/-- What a sort of `k` elements from `lo` on comes to, under any comparator. -/
def StRuns (T : StTemplate β) (base N lo k : ℕ) (s : StLog β) (r : Option (StLog β)) : Prop :=
  ∃ s', r = some s' ∧ StMoved T base lo (lo + k) s.mem s'.mem ∧ s'.Safe T base N

/-- **Going on with a part**, in the same call. -/
theorem stRuns_goto (hstep : 0 < T.step) {fuel depth caller k : ℕ} (hs : s.Safe T base N)
    (ih : StRuns T base N lo k s (logSort T fuel depth caller s (stPtr T base lo) k)) :
    StRuns T base N lo k s
      (if k * T.step > T.step then
        logSort T fuel depth caller s (stPtr T base lo) (k * T.step / T.step) else some s) := by
  rw [Nat.mul_div_cancel _ hstep]
  by_cases hk : 1 < k
  · rw [if_pos ((mul_step_gt hstep k).mpr hk)]
    exact ih
  · rw [if_neg fun hc => hk ((mul_step_gt hstep k).mp hc)]
    exact ⟨s, rfl, .refl _ _ _ _ _, hs⟩

/-- **A call for a part** with at most half of the elements of its caller. -/
theorem stRuns_call (hstep : 0 < T.step) {fuel depth caller k : ℕ} (hs : s.Safe T base N)
    (hN : lo + k ≤ N) (hhalf : 2 * k ≤ caller) (hdepth : caller * 2 ^ depth ≤ N)
    (ih : ∀ s : StLog β, k * 2 ^ (depth + 1) ≤ N → s.Safe T base N →
      StRuns T base N lo k s (logSort T fuel (depth + 1) k s (stPtr T base lo) k)) :
    StRuns T base N lo k s
      (if k * T.step > T.step then
        logSort T fuel (depth + 1) (k * T.step / T.step)
          (s.record (.sort depth caller (stPtr T base lo) (k * T.step / T.step)))
          (stPtr T base lo) (k * T.step / T.step)
      else some s) := by
  rw [Nat.mul_div_cancel _ hstep]
  by_cases hk : 1 < k
  · rw [if_pos ((mul_step_gt hstep k).mpr hk)]
    have hpart : k * 2 ^ (depth + 1) ≤ N :=
      calc k * 2 ^ (depth + 1) = 2 * k * 2 ^ depth := by
            rw [Nat.pow_succ, Nat.mul_comm (2 ^ depth) 2, ← Nat.mul_assoc, Nat.mul_comm k 2]
        _ ≤ caller * 2 ^ depth := Nat.mul_le_mul_right _ hhalf
        _ ≤ N := hdepth
    have hlog : depth + 1 ≤ Nat.log2 N := by
      have hpow : 2 ^ (depth + 1) ≤ k * 2 ^ (depth + 1) := Nat.le_mul_of_pos_left _ (by omega)
      rw [Nat.le_log2 (by omega)]
      exact hpow.trans hpart
    exact ih _ hpart (hs.record ⟨StLog.Safe.run_le hN, hhalf, hlog⟩)
  · rw [if_neg fun hc => hk ((mul_step_gt hstep k).mp hc)]
    exact ⟨s, rfl, .refl _ _ _ _ _, hs⟩

/-- What a sort of a part comes to, for the whole that it is a part of. -/
theorem StRuns.after {s' : StLog β} {part k : ℕ} {r : Option (StLog β)}
    (h : StRuns T base N part k s' r) (hm : StMoved T base lo (lo + n) s.mem s'.mem)
    (hlo : lo ≤ part) (hhi : part + k ≤ lo + n) : StRuns T base N lo n s r := by
  obtain ⟨t, ht, hmoved, hs⟩ := h
  exact ⟨t, ht, hm.trans (hmoved.mono hlo hhi), hs⟩

/-- **One round of the sort**: the pivot is put first, the array is partitioned, and the
elements equal to the pivot are put between the two parts. -/
theorem logSort_round (hstep : 0 < T.step) (hn : 7 ≤ n) (hN : lo + n ≤ N)
    (hs : s.Safe T base N) :
    ∃ pa pb pd s₁ s₂,
      logPartition T (logSwap T (logPivot T s (stPtr T base lo) n).2 (stPtr T base lo)
          (logPivot T s (stPtr T base lo) n).1) (stPtr T base lo) n
        = some ⟨stPtr T base pa, stPtr T base (pb + 1), stPtr T base pb, stPtr T base pd, s₁⟩ ∧
      logGather T ⟨stPtr T base pa, stPtr T base (pb + 1), stPtr T base pb, stPtr T base pd, s₁⟩
        (stPtr T base lo) (stPtr T base (lo + n)) = s₂ ∧
      (lo < pa ∧ pa ≤ pb + 1 ∧ pb ≤ pd ∧ pd < lo + n) ∧
      StMoved T base lo (lo + n) s.mem s₂.mem ∧ s₂.Safe T base N := by
  obtain ⟨⟨p, hp, hp₁, hp₂⟩, hpivot⟩ := logPivot_within hn hN hs
  rw [hp]
  have hswap : StMoved T base lo (lo + n) s.mem
      (doSwap T (logPivot T s (stPtr T base lo) n).2.mem (stPtr T base lo)
        (stPtr T base p)) := by
    rw [logPivot_mem]
    exact .doSwap (le_refl lo) (by omega) hp₁ hp₂ s.mem
  obtain ⟨pa, pb, pd, s₁, hpart, hscanned, hs₁⟩ := logPartition_scanned hstep
    (show 2 ≤ n by omega) hN (hpivot.swap (show lo < N by omega) (show p < N by omega))
  obtain ⟨s₂, hg, hmoved, hs₂⟩ := logGather_moved hN hscanned hs₁
  exact ⟨pa, pb, pd, s₁, s₂, hpart, hg, ⟨hscanned.parked.le_pa, hscanned.parked.le_pb,
    Nat.le_of_succ_le_succ hscanned.parked.le_pd, hscanned.parked.le_hi⟩,
    hswap.trans hmoved, hs₂⟩

/-- **A sort under any comparator**, in a call on `caller` elements at some depth, of which
`n` are still to be sorted. -/
theorem logSort_runs (hstep : 0 < T.step) (fuel : ℕ) :
    ∀ (depth caller lo n : ℕ) (s : StLog β), n < fuel → n ≤ caller →
      caller * 2 ^ depth ≤ N → lo + n ≤ N → s.Safe T base N →
      StRuns T base N lo n s (logSort T fuel depth caller s (stPtr T base lo) n) := by
  induction fuel with
  | zero => exact fun _ _ _ n _ hn => absurd hn (Nat.not_lt_zero n)
  | succ fuel ih =>
    intro depth caller lo n s hn hcaller hdepth hN hs
    rw [logSort]
    by_cases h₇ : n < 7
    · rw [if_pos h₇]
      exact logInsertionSort_moved hstep hN hs
    rw [if_neg h₇]
    obtain ⟨⟨b, s₀⟩, hpre, hs₀⟩ := logPresorted_safe hstep hN hs
    have hmem := logPresorted_mem T hpre
    rw [hpre]
    cases b with
    | true =>
      refine ⟨s₀, rfl, ?_, hs₀⟩
      rw [hmem]
      exact .refl _ _ _ _ _
    | false =>
      obtain ⟨pa, pb, pd, s₁, g, hpart, hg, ⟨hlt, hab, hcd, hdh⟩, hmoved, hsg⟩ :=
        logSort_round hstep (Nat.le_of_not_lt h₇) hN hs₀
      rw [hmem] at hmoved
      dsimp only
      rw [hpart]
      dsimp only
      rw [stPtr_add_mul, hg, stPtr_sub_stPtr, stPtr_sub_stPtr, stPtr_sub_mul _ _ (by omega)]
      by_cases hside : (pb + 1 - pa) * T.step ≤ (pd - pb) * T.step
      · -- a call for the left part, which is no larger, and then the right one
        have hle : pb + 1 - pa ≤ pd - pb := Nat.le_of_mul_le_mul_right hside hstep
        rw [if_pos hside]
        obtain ⟨g₁, hg₁, hm₁, hs₁⟩ := stRuns_call hstep hsg
          (show lo + (pb + 1 - pa) ≤ N by omega) (show 2 * (pb + 1 - pa) ≤ caller by omega)
          hdepth (fun s hk hs => ih _ _ _ _ s (by omega) (le_refl _) hk (by omega) hs)
        have hright := stRuns_goto hstep hs₁
          (ih depth caller (lo + n - (pd - pb)) (pd - pb) g₁ (by omega) (by omega) hdepth
            (by omega) hs₁)
        rw [hg₁]
        exact hright.after (hmoved.trans (hm₁.mono (le_refl lo) (by omega))) (by omega)
          (by omega)
      · -- the right part is the smaller one
        have hlt' : pd - pb < pb + 1 - pa := by
          by_contra hc
          exact hside (Nat.mul_le_mul_right _ (not_lt.mp hc))
        rw [if_neg hside]
        obtain ⟨g₁, hg₁, hm₁, hs₁⟩ := stRuns_call hstep hsg
          (show lo + n - (pd - pb) + (pd - pb) ≤ N by omega)
          (show 2 * (pd - pb) ≤ caller by omega) hdepth
          (fun s hk hs => ih _ _ _ _ s (by omega) (le_refl _) hk (by omega) hs)
        have hleft := stRuns_goto hstep hs₁
          (ih depth caller lo (pb + 1 - pa) g₁ (by omega) (by omega) hdepth (by omega) hs₁)
        rw [hg₁]
        exact hleft.after (hmoved.trans (hm₁.mono (by omega) (by omega))) (le_refl lo)
          (by omega)

/-- Elements without units: the sort ends at once, with nothing done. -/
theorem logSort_of_step_zero (hstep : T.step = 0) {fuel : ℕ} (hf : 0 < fuel) (depth caller : ℕ)
    (s : StLog β) (a n : ℕ) : logSort T fuel depth caller s a n = some s := by
  obtain ⟨fuel, rfl⟩ : ∃ k, fuel = k + 1 := ⟨fuel - 1, by omega⟩
  have hnone : ¬ a + T.step < a + n * T.step := by
    rw [hstep, Nat.mul_zero]
    exact lt_irrefl _
  rw [logSort]
  split_ifs
  · refine Loop.run_done ?_ n
    dsimp only
    rw [if_neg hnone]
  · have hpre : logPresorted T s a n = some (true, s) := by
      refine Loop.run_done ?_ n
      dsimp only
      rw [if_neg hnone]
    rw [hpre]

/-- **`ST_SORT` under any comparator.** For every function from pairs of elements to
integers, every element size and every number of elements the sort ends. Everything it
compares and exchanges lies in the array, every call of itself is for at most half of the
elements of the call that makes it and no deeper than `log2 n`, the array has the same
elements as before, and nothing else in memory has changed. -/
theorem stSort_any_comparator (T : StTemplate β) (mem : ℕ → β) (a n fuel : ℕ)
    (hf : n < fuel) :
    ∃ s, logSort T fuel 0 n ⟨mem, []⟩ a n = some s ∧
      stSort T fuel mem a n = some s.mem ∧
      (∀ e ∈ s.log, e.Inside T a n) ∧
      (T.array s.mem a n).Perm (T.array mem a n) ∧
      ∀ x, ¬ (a ≤ x ∧ x < a + n * T.step) → s.mem x = mem x := by
  have hforget := logSort_mem T fuel 0 n ⟨mem, []⟩ a n
  rcases Nat.eq_zero_or_pos T.step with hstep | hstep
  · have hs := logSort_of_step_zero hstep (Nat.zero_lt_of_lt hf) 0 n ⟨mem, []⟩ a n
    rw [hs] at hforget
    exact ⟨_, hs, hforget.symm, StLog.safe_nil T a n mem, .refl _, fun _ _ => rfl⟩
  · obtain ⟨s, hs, hmoved, hsafe⟩ := logSort_runs hstep fuel 0 n 0 n ⟨mem, []⟩ hf (le_refl n)
      (by rw [Nat.pow_zero, Nat.mul_one]) (by rw [Nat.zero_add]) (StLog.safe_nil T a n mem)
    rw [stPtr_zero] at hs
    rw [hs] at hforget
    refine ⟨s, hs, hforget.symm, hsafe, ?_, fun x hx => ?_⟩
    · have hperm := hmoved.rearranged.perm
      rwa [← List.range_eq_range'] at hperm
    · refine hmoved.eq_of_not hstep ?_
      rwa [stPtr_zero, Nat.zero_add]

/-- Eight numbers under a comparator that calls every number greater than every other, and
than itself. -/
theorem stSort_any_comparator_greater :
    ∃ s, logSort ⟨1, fun _ _ => 1⟩ 9 0 8 ⟨fun i => (i : ℤ), []⟩ 3 8 = some s ∧
      (∀ e ∈ s.log, e.Inside (⟨1, fun _ _ => 1⟩ : StTemplate ℤ) 3 8) ∧
      ((⟨1, fun _ _ => 1⟩ : StTemplate ℤ).array s.mem 3 8).Perm
        ((⟨1, fun _ _ => 1⟩ : StTemplate ℤ).array (fun i => (i : ℤ)) 3 8) := by
  obtain ⟨s, hs, -, hinside, hperm, -⟩ := stSort_any_comparator
    (⟨1, fun _ _ => 1⟩ : StTemplate ℤ) (fun i => (i : ℤ)) 3 8 9 (by decide)
  exact ⟨s, hs, hinside, hperm⟩

end SortTemplate
