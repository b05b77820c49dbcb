import PgCitus.SortTemplateScan

/-!
# The sort template sorts

Each part of `ST_SORT` is followed on the array of elements: the insertion sort,
the check for presorted input, the choice of the pivot, the two scans of the
partitioning, and the exchange of the elements equal to the pivot. Every one of
their loops ends after at most as many passes as there are elements.

The two parts left after the partitioning are each smaller than the whole, the
pivot being in neither, so the recursion ends; whichever part is sorted first,
sorting the other does not disturb it.
-/

namespace SortTemplate

open Rearrange Quicksort

variable {β : Type*} {T : StTemplate β} {base lo n : ℕ} {mem : ℕ → β}

/-! ## The insertion sort -/

/-- **The inner loop** takes element `m` down to its place. -/
theorem stSink_sorts (hstep : 0 < T.step) (hcmp : TotalPreorder T.compare) {m fuel : ℕ}
    (hm : lo ≤ m) (hf : m - lo < fuel) (hs : SortedOn T.compare (stView T base mem) lo m) :
    ∃ mem', stSink T (stPtr T base lo) fuel (stPtr T base m) mem = some mem' ∧
      StMoved T base lo (m + 1) mem mem' ∧
      SortedOn T.compare (stView T base mem') lo (m + 1) := by
  refine Loop.run_total
    (fun s : ℕ × (ℕ → β) => ∃ x, s.1 = stPtr T base x ∧
      Sinking T.compare (stView T base s.2) lo m x ∧
      StMoved T base lo (m + 1) mem s.2)
    (fun s => (s.1 - stPtr T base lo) / T.step) (fun s hinv => ?_)
    ⟨m, rfl, hs.sinking hm, .refl _ _ _ _ _⟩ (by rw [stPtr_sub_div hstep]; exact hf)
  obtain ⟨pl, mem'⟩ := s
  obtain ⟨x, rfl, hsink, hmoved⟩ := hinv
  dsimp only at hsink hmoved ⊢
  simp only [stPtr_lt_stPtr hstep]
  by_cases hlt : lo < x
  · obtain ⟨w, rfl⟩ : ∃ w, x = w + 1 := ⟨x - 1, by omega⟩
    have hle := hsink.le_top
    rw [stPtr_sub_step, doCompare_stPtr]
    split_ifs with hc
    · rw [Loop.Step.meets_next]
      refine ⟨⟨w, rfl, ?_, hmoved.trans (.doSwap hsink.le (by omega) (by omega)
        (by omega) mem')⟩, ?_⟩
      · rw [stView_doSwap]
        exact hsink.step hcmp (by omega) hc.2
      · dsimp only
        rw [stPtr_sub_div hstep, stPtr_sub_div hstep]
        omega
    · refine ⟨hmoved, hsink.sortedOn (fun u hu _ => ?_)⟩
      obtain rfl : u = w := by omega
      exact not_lt.mp (fun hgt => hc ⟨hlt, hgt⟩)
  · rw [if_neg (fun hc => hlt hc.1)]
    exact ⟨hmoved, hsink.sortedOn (fun u hu hlo => absurd hu (by omega))⟩

/-- **The insertion sort sorts.** -/
theorem stInsertionSort_sorts (hstep : 0 < T.step) (hcmp : TotalPreorder T.compare)
    (mem : ℕ → β) (lo n : ℕ) :
    ∃ mem', stInsertionSort T mem (stPtr T base lo) n = some mem' ∧
      StMoved T base lo (lo + n) mem mem' ∧
      SortedOn T.compare (stView T base mem') lo (lo + n) := by
  refine Loop.run_total
    (fun s : ℕ × (ℕ → β) => ∃ x, s.1 = stPtr T base x ∧ lo < x ∧
      SortedOn T.compare (stView T base s.2) lo x ∧
      StMoved T base lo (lo + n) mem s.2)
    (fun s => (stPtr T base (lo + n + 1) - s.1) / T.step) (fun s hinv => ?_)
    ⟨lo + 1, stPtr_add_step T base lo, Nat.lt_succ_self lo,
      fun i h₁ h₂ => absurd h₂ (by omega), .refl _ _ _ _ _⟩ ?_
  · obtain ⟨pm, mem'⟩ := s
    obtain ⟨x, rfl, hlo, hs, hmoved⟩ := hinv
    dsimp only at hs hmoved ⊢
    simp only [stPtr_add_mul, stPtr_lt_stPtr hstep]
    split_ifs with hx
    · obtain ⟨mem'', hsink, hmoved', hs'⟩ :=
        stSink_sorts hstep hcmp hlo.le (show x - lo < n + 1 by omega) hs
      rw [hsink, Loop.Step.meets_next, stPtr_add_step]
      refine ⟨⟨x + 1, rfl, by omega, hs', hmoved.trans (hmoved'.mono (le_refl _) hx)⟩, ?_⟩
      dsimp only
      rw [stPtr_sub_div hstep, stPtr_sub_div hstep]
      omega
    · exact ⟨hmoved, fun i h₁ h₂ => hs i h₁ (by omega)⟩
  · dsimp only
    rw [stPtr_add_step, stPtr_sub_div hstep]
    omega

/-! ## Presorted input and the pivot -/

variable (base) in
/-- **The check for presorted input** is right about it. -/
theorem stPresorted_sorted (hstep : 0 < T.step) (mem : ℕ → β) (lo n : ℕ) :
    ∃ b, stPresorted T mem (stPtr T base lo) n = some b ∧
      (b = true → SortedOn T.compare (stView T base mem) lo (lo + n)) := by
  refine Loop.run_total
    (fun pm => ∃ x, pm = stPtr T base (x + 1) ∧ lo ≤ x ∧
      SortedOn T.compare (stView T base mem) lo (x + 1))
    (fun pm => (stPtr T base (lo + n + 1) - pm) / T.step) (fun pm hinv => ?_)
    ⟨lo, stPtr_add_step T base lo, le_refl lo, fun i h₁ h₂ => absurd h₂ (by omega)⟩ ?_
  · obtain ⟨x, rfl, hlo, hs⟩ := hinv
    simp only [stPtr_add_mul, stPtr_lt_stPtr hstep, stPtr_sub_step, doCompare_stPtr]
    split_ifs with hx hc
    · exact fun hb => absurd hb (by simp)
    · rw [Loop.Step.meets_next, stPtr_add_step]
      refine ⟨⟨x + 1, rfl, by omega, fun i h₁ h₂ => ?_⟩, ?_⟩
      · by_cases hix : i = x
        · rw [hix]
          exact not_lt.mp hc
        · exact hs i h₁ (by omega)
      · rw [stPtr_sub_div hstep, stPtr_sub_div hstep]
        omega
    · exact fun _ i h₁ h₂ => hs i h₁ (by omega)
  · rw [stPtr_add_step, stPtr_sub_div hstep]
    omega

variable (base) in
/-- **The pivot is an element of the array.** -/
theorem stPivot_within (mem : ℕ → β) (lo : ℕ) (hn : 7 ≤ n) :
    StWithin T base lo (lo + n) (stPivot T mem (stPtr T base lo) n) := by
  have h : StWithin T base lo (lo + n) (logPivot T ⟨mem, []⟩ (stPtr T base lo) n).1 :=
    (logPivot_within hn (le_refl (lo + n)) (StLog.safe_nil T base _ mem)).1
  rwa [logPivot_fst] at h

/-! ## The partitioning -/

/-- **The invariant of the partitioning**, for a pivot equal to `v` at `lo`: the
four pointers are those to elements `pa`, `pb`, `pc` and `pd`. -/
structure StParked (T : StTemplate β) (base lo hi : ℕ) (v : Fin T.step → β)
    (mem₀ : ℕ → β) (pa pb pc pd : ℕ) (mem : ℕ → β) : Prop where
  parked : Parked T.compare v (stView T base mem) lo pa pb (pc + 1) (pd + 1) hi
  lt_pa : lo < pa
  pivot_eq : stView T base mem lo = v
  moved : StMoved T base lo hi mem₀ mem

variable {hi pa pb pc pd : ℕ} {v : Fin T.step → β} {mem₀ : ℕ → β}

/-- Where an element is equal to itself, the pivot is one of the elements equal to it. -/
theorem StScanned.stParked (h : StScanned T base lo hi v mem₀ pa pb pc pd mem)
    (hcmp : TotalPreorder T.compare) : StParked T base lo hi v mem₀ pa pb pc pd mem where
  parked :=
    { h.parked with
      le_pa := (Nat.le_succ lo).trans h.parked.le_pa
      equal_left := fun x h₁ h₂ => by
        rcases Nat.eq_or_lt_of_le h₁ with rfl | hlt
        · rw [h.pivot_eq]
          exact hcmp.refl v
        · exact h.parked.equal_left x hlt h₂ }
  lt_pa := h.parked.le_pa
  pivot_eq := h.pivot_eq
  moved := h.moved

variable (base) in
/-- **The partitioning loop ends** when the scans have met. -/
theorem stPartition_parked (hstep : 0 < T.step) (hcmp : TotalPreorder T.compare)
    (hn : 2 ≤ n) (mem : ℕ → β) (lo : ℕ) :
    ∃ pa pb pd mem', stPartition T mem (stPtr T base lo) n
        = some ⟨stPtr T base pa, stPtr T base (pb + 1), stPtr T base pb,
          stPtr T base pd, mem'⟩ ∧
      StParked T base lo (lo + n) (stView T base mem lo) mem pa (pb + 1) pb pd mem' := by
  obtain ⟨pa, pb, pd, s, hs, hp, -⟩ := logPartition_scanned hstep hn (le_refl (lo + n))
    (StLog.safe_nil T base _ mem)
  have hpart := logPartition_forget T ⟨mem, []⟩ (stPtr T base lo) n
  rw [hs] at hpart
  exact ⟨pa, pb, pd, s.mem, hpart.symm, hp.stParked hcmp⟩

/-- **Exchanging the equal elements** leaves the range in three parts. -/
theorem stGather_partitioned
    (h : StParked T base lo hi v mem₀ pa (pb + 1) pb pd mem) :
    Partitioned T.compare v
        (stView T base (stGather T ⟨stPtr T base pa, stPtr T base (pb + 1),
          stPtr T base pb, stPtr T base pd, mem⟩ (stPtr T base lo) (stPtr T base hi)))
        lo (lo + (pb + 1 - pa)) (hi - (pd - pb)) hi ∧
      StMoved T base lo hi mem₀
        (stGather T ⟨stPtr T base pa, stPtr T base (pb + 1),
          stPtr T base pb, stPtr T base pd, mem⟩ (stPtr T base lo) (stPtr T base hi)) := by
  have hlt := h.lt_pa
  have hab := h.parked.le_pb
  have hcd := h.parked.le_pd
  have hdh := h.parked.le_hi
  obtain ⟨hd₁, hd₂⟩ := stGather_lengths T base lo hi pa pb pd
  unfold stGather
  dsimp only
  rw [hd₁, hd₂, stPtr_sub_mul _ _ (by omega), stPtr_sub_mul _ _ (by omega)]
  constructor
  · rw [stView_stSwapn, stView_stSwapn, show pd - pb = pd + 1 - (pb + 1) by omega]
    exact h.parked.gather rfl rfl
  · exact (h.moved.trans (.stSwapn (by omega) (by omega) (by omega) (by omega) mem)).trans
      (.stSwapn (by omega) (by omega) (by omega) (by omega) _)

/-! ## `ST_SORT` -/

/-- What a sort of `k` elements from `lo` on comes to. -/
def StSorts (T : StTemplate β) (base lo k : ℕ) (mem : ℕ → β)
    (r : Option (ℕ → β)) : Prop :=
  ∃ mem', r = some mem' ∧ StMoved T base lo (lo + k) mem mem' ∧
    SortedOn T.compare (stView T base mem') lo (lo + k)

/-- Sorting a part: fewer than two elements are left as they are. -/
theorem stSorts_part (hstep : 0 < T.step) {fuel k : ℕ}
    (ih : StSorts T base lo k mem (stSort T fuel mem (stPtr T base lo) k)) :
    StSorts T base lo k mem
      (if k * T.step > T.step then
        stSort T fuel mem (stPtr T base lo) (k * T.step / T.step) else some mem) := by
  rw [Nat.mul_div_cancel _ hstep]
  by_cases hk : 1 < k
  · rw [if_pos ((mul_step_gt hstep k).mpr hk)]
    exact ih
  · rw [if_neg (fun hc => hk ((mul_step_gt hstep k).mp hc))]
    exact ⟨mem, rfl, .refl _ _ _ _ _, fun i h₁ h₂ => absurd h₂ (by omega)⟩

variable (base) in
/-- **The sort ends and sorts**, given as much fuel as there are elements. -/
theorem stSort_sorts (hstep : 0 < T.step) (hcmp : TotalPreorder T.compare) (fuel : ℕ) :
    ∀ (mem : ℕ → β) (lo n : ℕ), n < fuel →
      StSorts T base lo n mem (stSort T fuel mem (stPtr T base lo) n) := by
  induction fuel with
  | zero => exact fun mem lo n hn => absurd hn (Nat.not_lt_zero n)
  | succ fuel ih =>
    intro mem lo n hn
    rw [stSort]
    by_cases h₇ : n < 7
    · rw [if_pos h₇]
      exact stInsertionSort_sorts hstep hcmp mem lo n
    · rw [if_neg h₇]
      obtain ⟨b, hb, hsorted⟩ := stPresorted_sorted base hstep mem lo n
      rw [hb]
      cases b with
      | true => exact ⟨mem, rfl, .refl _ _ _ _ _, hsorted rfl⟩
      | false =>
        obtain ⟨p, hp, hp₁, hp₂⟩ := stPivot_within (T := T) base mem lo
          (Nat.le_of_not_lt h₇)
        have hswap : StMoved T base lo (lo + n) mem
            (doSwap T mem (stPtr T base lo) (stPtr T base p)) :=
          .doSwap (le_refl lo) (by omega) hp₁ hp₂ mem
        obtain ⟨pa, pb, pd, mem', hpart, hparked⟩ := stPartition_parked base
          hstep hcmp (show 2 ≤ n by omega)
          (doSwap T mem (stPtr T base lo) (stPtr T base p)) lo
        obtain ⟨hthree, hmoved⟩ := stGather_partitioned hparked
        have hlt := hparked.lt_pa
        have hab := hparked.parked.le_pb
        have hcd := hparked.parked.le_pd
        have hdh := hparked.parked.le_hi
        rw [hp, hpart]
        dsimp only
        rw [stPtr_add_mul]
        generalize stGather T ⟨stPtr T base pa, stPtr T base (pb + 1), stPtr T base pb,
          stPtr T base pd, mem'⟩ (stPtr T base lo) (stPtr T base (lo + n)) = g at *
        rw [stPtr_sub_stPtr, stPtr_sub_stPtr, stPtr_sub_mul _ _ (by omega)]
        have hmoved' := hswap.trans hmoved
        have hp_le := hthree.le_equal
        have hend : lo + n - (pd - pb) + (pd - pb) = lo + n := by omega
        by_cases hside : (pb + 1 - pa) * T.step ≤ (pd - pb) * T.step
        · rw [if_pos hside]
          obtain ⟨g₁, hg₁, hm₁, hs₁⟩ := stSorts_part hstep
            (ih g lo (pb + 1 - pa) (by omega))
          obtain ⟨g₂, hg₂, hm₂, hs₂⟩ := stSorts_part hstep
            (ih g₁ (lo + n - (pd - pb)) (pd - pb) (by omega))
          rw [hend] at hm₂ hs₂
          rw [hg₁]
          dsimp only
          rw [hg₂]
          exact ⟨g₂, rfl, (hmoved'.trans (hm₁.mono (le_refl lo) (by omega))).trans
              (hm₂.mono (by omega) (le_refl _)),
            hthree.sort_less_greater hcmp hm₁.rearranged hs₁ hm₂.rearranged hs₂⟩
        · rw [if_neg hside]
          obtain ⟨g₁, hg₁, hm₁, hs₁⟩ := stSorts_part hstep
            (ih g (lo + n - (pd - pb)) (pd - pb) (by omega))
          obtain ⟨g₂, hg₂, hm₂, hs₂⟩ := stSorts_part hstep
            (ih g₁ lo (pb + 1 - pa) (by omega))
          rw [hend] at hm₁ hs₁
          rw [hg₁]
          dsimp only
          rw [hg₂]
          exact ⟨g₂, rfl, (hmoved'.trans (hm₁.mono (by omega) (le_refl _))).trans
              (hm₂.mono (le_refl lo) (by omega)),
            hthree.sort_greater_less hcmp hm₁.rearranged hs₁ hm₂.rearranged hs₂⟩

/-- The elements of an array, in order. -/
def StTemplate.array (T : StTemplate β) (mem : ℕ → β) (a n : ℕ) :
    List (Fin T.step → β) :=
  (List.range n).map (fun i => T.element mem (a + i * T.step))

/-- Elements without units: the sort ends at once. -/
theorem stSort_of_step_zero (hstep : T.step = 0) {fuel : ℕ} (hf : 0 < fuel)
    (mem : ℕ → β) (a n : ℕ) : stSort T fuel mem a n = some mem := by
  obtain ⟨fuel, rfl⟩ : ∃ k, fuel = k + 1 := ⟨fuel - 1, by omega⟩
  have hnone : ¬ a + T.step < a + n * T.step := by
    rw [hstep, Nat.mul_zero]
    exact lt_irrefl _
  rw [stSort]
  split_ifs
  · refine Loop.run_done ?_ n
    dsimp only
    rw [if_neg hnone]
  · have hpre : stPresorted T mem a n = some true := by
      refine Loop.run_done ?_ n
      rw [if_neg hnone]
    rw [hpre]

/-- **`ST_SORT` sorts**: for every comparator that is a total preorder, every
element size and every number of elements it ends, the array has the same
elements as before, each no greater than its successor, and nothing else in
memory has changed. -/
theorem stSort_correct (T : StTemplate β) (hcmp : TotalPreorder T.compare)
    (mem : ℕ → β) (a n fuel : ℕ) (hf : n < fuel) :
    ∃ mem', stSort T fuel mem a n = some mem' ∧
      (T.array mem' a n).Perm (T.array mem a n) ∧
      (∀ i, i + 1 < n → T.compare (T.element mem' (a + i * T.step))
        (T.element mem' (a + (i + 1) * T.step)) ≤ 0) ∧
      ∀ x, ¬ (a ≤ x ∧ x < a + n * T.step) → mem' x = mem x := by
  rcases Nat.eq_zero_or_pos T.step with hstep | hstep
  · refine ⟨mem, stSort_of_step_zero hstep (by omega) mem a n, .refl _, fun i _ => ?_,
      fun _ _ => rfl⟩
    have hsame : T.element mem (a + (i + 1) * T.step) = T.element mem (a + i * T.step) := by
      funext u
      exact absurd u.isLt (by omega)
    rw [hsame]
    exact (hcmp.refl _).le
  · obtain ⟨mem', hs, hmoved, hsorted⟩ :=
      stSort_sorts a hstep hcmp fuel mem 0 n hf
    rw [Nat.zero_add] at hsorted
    rw [stPtr_zero] at hs
    refine ⟨mem', hs, ?_, fun i hi => hsorted i (Nat.zero_le i) hi, fun x hx => ?_⟩
    · have hperm := hmoved.rearranged.perm
      rwa [← List.range_eq_range'] at hperm
    · refine hmoved.eq_of_not hstep ?_
      rwa [stPtr_zero, Nat.zero_add]

/-- Eight numbers in pairs of units, compared by the first of each pair. -/
theorem stSort_correct_pairs :
    ∃ mem', stSort ⟨2, fun x y => x 0 - y 0⟩ 9 (fun i => 20 - (i : ℤ)) 3 8 = some mem' ∧
      ((⟨2, fun x y => x 0 - y 0⟩ : StTemplate ℤ).array mem' 3 8).Perm
        ((⟨2, fun x y => x 0 - y 0⟩ : StTemplate ℤ).array (fun i => 20 - (i : ℤ)) 3 8) ∧
      ∀ i, i + 1 < 8 → mem' (3 + i * 2) - mem' (3 + (i + 1) * 2) ≤ 0 := by
  have hcmp : TotalPreorder (fun x y : Fin 2 → ℤ => x 0 - y 0) :=
    ⟨fun x y => by omega, fun x y z h₁ h₂ => by omega⟩
  obtain ⟨mem', hs, hperm, hsorted, -⟩ := stSort_correct
    (⟨2, fun x y => x 0 - y 0⟩ : StTemplate ℤ) hcmp (fun i => 20 - (i : ℤ)) 3 8 9
    (by decide)
  exact ⟨mem', hs, hperm, hsorted⟩

end SortTemplate
