import PgCitus.SortTemplateArray
import PgCitus.SortTemplateLog

/-!
# What the parts of the sort do under any comparator

Nothing is assumed of the comparator here: it need not be transitive, nor
antisymmetric, nor call an element equal to itself. Each part of `ST_SORT` is
followed on the array with its record. It ends, it only exchanges elements of its
range, and what it compares and exchanges lies in the array.

The partitioning is the part where that is not plain. Its invariant `StScanned`
is the one of `Quicksort.Parked` with the pivot left out: the scans have compared
every element they have passed with the pivot, but never the pivot with itself.
What a scan has been told of an element is true of it as long as it is not moved,
so the two scans cannot disagree about the element they meet at, and they stop
next to each other.
-/

namespace SortTemplate

open Rearrange Quicksort

variable {β : Type*} {T : StTemplate β} {base lo n : ℕ} {mem : ℕ → β}

theorem doCompare_stPtr (T : StTemplate β) (base i j : ℕ) (mem : ℕ → β) :
    doCompare T mem (stPtr T base i) (stPtr T base j)
      = T.compare (stView T base mem i) (stView T base mem j) := rfl

/-- The number of elements between two pointers. -/
theorem stPtr_sub_div (hstep : 0 < T.step) (i j : ℕ) :
    (stPtr T base j - stPtr T base i) / T.step = j - i := by
  rw [stPtr_sub_stPtr, Nat.mul_div_cancel _ hstep]

/-! ## What is recorded -/

/-- **What is done stays in an array** of `n` elements at `base`: elements of it are compared,
runs of units of it are exchanged, and the sort calls itself on a part of it, with at most
half of the elements of the call that does so, no deeper than `log2 n`. -/
def StEvent.Inside (T : StTemplate β) (base n : ℕ) : StEvent → Prop
  | .compare a b => (∃ i < n, a = base + i * T.step) ∧ ∃ j < n, b = base + j * T.step
  | .swapn a b k => (base ≤ a ∧ a + k ≤ base + n * T.step) ∧
      base ≤ b ∧ b + k ≤ base + n * T.step
  | .sort depth caller a k => (base ≤ a ∧ a + k * T.step ≤ base + n * T.step) ∧
      2 * k ≤ caller ∧ depth + 1 ≤ Nat.log2 n

/-- Everything recorded so far stays in the array. -/
def StLog.Safe (T : StTemplate β) (base n : ℕ) (s : StLog β) : Prop :=
  ∀ e ∈ s.log, e.Inside T base n

/-- Nothing has been done yet. -/
theorem StLog.safe_nil (T : StTemplate β) (base n : ℕ) (mem : ℕ → β) :
    StLog.Safe T base n ⟨mem, []⟩ := fun _ he => nomatch he

namespace StLog.Safe

variable {s : StLog β} {i j : ℕ}

theorem record (h : s.Safe T base n) {e : StEvent} (he : e.Inside T base n) :
    (s.record e).Safe T base n :=
  List.forall_mem_cons.mpr ⟨he, h⟩

theorem compare (h : s.Safe T base n) (hi : i < n) (hj : j < n) :
    (s.record (.compare (stPtr T base i) (stPtr T base j))).Safe T base n :=
  h.record ⟨⟨i, hi, rfl⟩, j, hj, rfl⟩

/-- Runs of elements lie in the array. -/
theorem run_le {k : ℕ} (hi : i + k ≤ n) :
    base ≤ stPtr T base i ∧ stPtr T base i + k * T.step ≤ base + n * T.step := by
  refine ⟨Nat.le_add_right _ _, ?_⟩
  rw [stPtr_add_mul, stPtr]
  exact Nat.add_le_add_left (Nat.mul_le_mul_right _ hi) _

theorem swapn (h : s.Safe T base n) {k : ℕ} (hi : i + k ≤ n) (hj : j + k ≤ n) :
    (logSwapn s (stPtr T base i) (stPtr T base j) (k * T.step)).Safe T base n :=
  List.forall_mem_cons.mpr ⟨⟨run_le hi, run_le hj⟩, h⟩

theorem swap (h : s.Safe T base n) (hi : i < n) (hj : j < n) :
    (logSwap T s (stPtr T base i) (stPtr T base j)).Safe T base n := by
  have hone : (logSwapn s (stPtr T base i) (stPtr T base j) (1 * T.step)).Safe T base n :=
    h.swapn hi hj
  rwa [Nat.one_mul] at hone

end StLog.Safe

variable {N : ℕ} {s : StLog β}

/-! ## The pivot -/

/-- A pointer to an element of the range. -/
def StWithin (T : StTemplate β) (base lo hi p : ℕ) : Prop :=
  ∃ i, p = stPtr T base i ∧ lo ≤ i ∧ i < hi

theorem stWithin_stPtr {hi i : ℕ} (h₁ : lo ≤ i) (h₂ : i < hi) :
    StWithin T base lo hi (stPtr T base i) :=
  ⟨i, rfl, h₁, h₂⟩

/-- The median is one of the three, which are all it compares. -/
theorem logMed3_within {hi a b c : ℕ} (hN : hi ≤ N) (hs : s.Safe T base N)
    (ha : StWithin T base lo hi a) (hb : StWithin T base lo hi b)
    (hc : StWithin T base lo hi c) :
    StWithin T base lo hi (logMed3 T s a b c).1 ∧ (logMed3 T s a b c).2.Safe T base N := by
  have hcompare : ∀ {s : StLog β} {p q : ℕ}, s.Safe T base N → StWithin T base lo hi p →
      StWithin T base lo hi q → (s.record (.compare p q)).Safe T base N := by
    rintro s p q hs ⟨i, rfl, -, hi⟩ ⟨j, rfl, -, hj⟩
    exact hs.compare (by omega) (by omega)
  have hab := hcompare hs ha hb
  have hbc := hcompare hab hb hc
  have hac := hcompare hbc ha hc
  unfold logMed3
  dsimp only
  split_ifs
  · exact ⟨hb, hbc⟩
  · exact ⟨hc, hac⟩
  · exact ⟨ha, hac⟩
  · exact ⟨hb, hbc⟩
  · exact ⟨ha, hac⟩
  · exact ⟨hc, hac⟩

/-- **The pivot is an element of the range.** -/
theorem logPivot_within (hn : 7 ≤ n) (hN : lo + n ≤ N) (hs : s.Safe T base N) :
    StWithin T base lo (lo + n) (logPivot T s (stPtr T base lo) n).1 ∧
      (logPivot T s (stPtr T base lo) n).2.Safe T base N := by
  unfold logPivot
  dsimp only
  simp only [stPtr_add_mul]
  have hin : ∀ i, lo ≤ i → i < lo + n → StWithin T base lo (lo + n) (stPtr T base i) :=
    fun i => stWithin_stPtr
  split_ifs with h₇ h₄₀
  · rw [← Nat.mul_assoc, stPtr_add_mul, stPtr_sub_mul _ _ (by omega),
      stPtr_sub_mul _ _ (by omega), stPtr_sub_mul _ _ (by omega)]
    have hl := logMed3_within hN hs (hin lo (by omega) (by omega))
      (hin (lo + n / 8) (by omega) (by omega)) (hin (lo + 2 * (n / 8)) (by omega) (by omega))
    have hm := logMed3_within hN hl.2 (hin (lo + n / 2 - n / 8) (by omega) (by omega))
      (hin (lo + n / 2) (by omega) (by omega)) (hin (lo + n / 2 + n / 8) (by omega) (by omega))
    have hr := logMed3_within hN hm.2
      (hin (lo + (n - 1) - 2 * (n / 8)) (by omega) (by omega))
      (hin (lo + (n - 1) - n / 8) (by omega) (by omega))
      (hin (lo + (n - 1)) (by omega) (by omega))
    exact logMed3_within hN hr.2 hl.1 hm.1 hr.1
  · exact logMed3_within hN hs (hin lo (by omega) (by omega))
      (hin (lo + n / 2) (by omega) (by omega)) (hin (lo + (n - 1)) (by omega) (by omega))
  · exact ⟨hin (lo + n / 2) (by omega) (by omega), hs⟩

/-! ## The insertion sort and the check for presorted input -/

/-- **The inner loop** of the insertion sort exchanges elements up to `m`. -/
theorem logSink_moved (hstep : 0 < T.step) {m fuel : ℕ} (hm : lo ≤ m) (hN : m < N)
    (hf : m - lo < fuel) (hs : s.Safe T base N) :
    ∃ s', logSink T (stPtr T base lo) fuel (stPtr T base m) s = some s' ∧
      StMoved T base lo (m + 1) s.mem s'.mem ∧ s'.Safe T base N := by
  refine Loop.run_total
    (fun x : ℕ × StLog β => ∃ i, x.1 = stPtr T base i ∧ lo ≤ i ∧ i ≤ m ∧
      StMoved T base lo (m + 1) s.mem x.2.mem ∧ x.2.Safe T base N)
    (fun x => (x.1 - stPtr T base lo) / T.step) (fun x hinv => ?_)
    ⟨m, rfl, hm, le_refl m, .refl _ _ _ _ _, hs⟩ (by rw [stPtr_sub_div hstep]; exact hf)
  obtain ⟨pl, t⟩ := x
  obtain ⟨i, rfl, hlo, him, hmoved, hsafe⟩ := hinv
  dsimp only at hmoved hsafe ⊢
  simp only [stPtr_lt_stPtr hstep]
  by_cases hlt : lo < i
  · obtain ⟨w, rfl⟩ : ∃ w, i = w + 1 := ⟨i - 1, by omega⟩
    have hcompare := hsafe.compare (show w < N by omega) (show w + 1 < N by omega)
    rw [if_pos hlt, stPtr_sub_step]
    split_ifs with hc
    · rw [Loop.Step.meets_next]
      refine ⟨⟨w, rfl, by omega, by omega, hmoved.trans (.doSwap (by omega) (by omega) (by omega)
        (by omega) t.mem), hcompare.swap (by omega) (by omega)⟩, ?_⟩
      dsimp only
      rw [stPtr_sub_div hstep, stPtr_sub_div hstep]
      omega
    · exact ⟨hmoved, hcompare⟩
  · rw [if_neg hlt]
    exact ⟨hmoved, hsafe⟩

/-- **The insertion sort** exchanges elements of its range. -/
theorem logInsertionSort_moved (hstep : 0 < T.step) (hN : lo + n ≤ N) (hs : s.Safe T base N) :
    ∃ s', logInsertionSort T s (stPtr T base lo) n = some s' ∧
      StMoved T base lo (lo + n) s.mem s'.mem ∧ s'.Safe T base N := by
  refine Loop.run_total
    (fun x : ℕ × StLog β => ∃ i, x.1 = stPtr T base i ∧ lo < i ∧
      StMoved T base lo (lo + n) s.mem x.2.mem ∧ x.2.Safe T base N)
    (fun x => (stPtr T base (lo + n + 1) - x.1) / T.step) (fun x hinv => ?_)
    ⟨lo + 1, stPtr_add_step T base lo, Nat.lt_succ_self lo, .refl _ _ _ _ _, hs⟩ ?_
  · obtain ⟨pm, t⟩ := x
    obtain ⟨i, rfl, hlo, hmoved, hsafe⟩ := hinv
    dsimp only at hmoved hsafe ⊢
    simp only [stPtr_add_mul, stPtr_lt_stPtr hstep]
    split_ifs with hi
    · obtain ⟨t', hsink, hmoved', hsafe'⟩ := logSink_moved hstep hlo.le
        (show i < N by omega) (show i - lo < n + 1 by omega) hsafe
      rw [hsink, Loop.Step.meets_next, stPtr_add_step]
      refine ⟨⟨i + 1, rfl, by omega, hmoved.trans (hmoved'.mono (le_refl _) hi), hsafe'⟩, ?_⟩
      dsimp only
      rw [stPtr_sub_div hstep, stPtr_sub_div hstep]
      omega
    · exact ⟨hmoved, hsafe⟩
  · dsimp only
    rw [stPtr_add_step, stPtr_sub_div hstep]
    omega

/-- **The check for presorted input** ends. -/
theorem logPresorted_safe (hstep : 0 < T.step) (hN : lo + n ≤ N) (hs : s.Safe T base N) :
    ∃ r, logPresorted T s (stPtr T base lo) n = some r ∧ r.2.Safe T base N := by
  refine Loop.run_total
    (fun x : ℕ × List StEvent => ∃ i, x.1 = stPtr T base (i + 1) ∧ lo ≤ i ∧
      StLog.Safe T base N ⟨s.mem, x.2⟩)
    (fun x => (stPtr T base (lo + n + 1) - x.1) / T.step) (fun x hinv => ?_)
    ⟨lo, stPtr_add_step T base lo, le_refl lo, hs⟩ ?_
  · obtain ⟨pm, log⟩ := x
    obtain ⟨i, rfl, hlo, hsafe⟩ := hinv
    dsimp only at hsafe ⊢
    simp only [stPtr_add_mul, stPtr_lt_stPtr hstep, stPtr_sub_step]
    split_ifs with hi hc
    · exact hsafe.compare (by omega) (by omega)
    · rw [Loop.Step.meets_next, stPtr_add_step]
      refine ⟨⟨i + 1, rfl, by omega, hsafe.compare (by omega) (by omega)⟩, ?_⟩
      rw [stPtr_sub_div hstep, stPtr_sub_div hstep]
      omega
    · exact hsafe
  · dsimp only
    rw [stPtr_add_step, stPtr_sub_div hstep]
    omega

/-! ## The partitioning -/

/-- **The invariant of the partitioning under any comparator**, for a pivot equal to `v` at
`lo`: the four pointers are those to elements `pa`, `pb`, `pc` and `pd`, and everything
passed but the pivot itself is as the scans have found it. -/
structure StScanned (T : StTemplate β) (base lo hi : ℕ) (v : Fin T.step → β)
    (mem₀ : ℕ → β) (pa pb pc pd : ℕ) (mem : ℕ → β) : Prop where
  parked : Parked T.compare v (stView T base mem) (lo + 1) pa pb (pc + 1) (pd + 1) hi
  pivot_eq : stView T base mem lo = v
  moved : StMoved T base lo hi mem₀ mem

variable {hi pa pb pc pd : ℕ} {v : Fin T.step → β} {mem₀ : ℕ → β}

namespace StScanned

/-- An exchange between `pa` and `pd` leaves the pivot where it is. -/
theorem pivot_doSwap (h : StScanned T base lo hi v mem₀ pa pb pc pd mem) {i j : ℕ}
    (hi' : lo < i) (hj : lo < j) :
    stView T base (doSwap T mem (stPtr T base i) (stPtr T base j)) lo = v := by
  rw [stView_doSwap, swapAt_of_ne hi'.ne hj.ne]
  exact h.pivot_eq

/-- Where the four pointers are, and that the two scans may have met. -/
theorem order (h : StScanned T base lo hi v mem₀ pa pb pc pd mem) :
    lo < pa ∧ pa ≤ pb ∧ pb ≤ pc + 1 ∧ pc ≤ pd ∧ pd < hi :=
  ⟨h.parked.le_pa, h.parked.le_pb, h.parked.le_pc, Nat.le_of_succ_le_succ h.parked.le_pd,
    h.parked.le_hi⟩

/-- The scan from the left passes an element less than the pivot. -/
theorem pass_less (h : StScanned T base lo hi v mem₀ pa pb pc pd mem) (hle : pb ≤ pc)
    (hv : T.compare (stView T base mem pb) v < 0) :
    StScanned T base lo hi v mem₀ pa (pb + 1) pc pd mem :=
  ⟨h.parked.pass_less (Nat.lt_succ_of_le hle) hv, h.pivot_eq, h.moved⟩

/-- It parks an element equal to the pivot at `pa`. -/
theorem park_left (h : StScanned T base lo hi v mem₀ pa pb pc pd mem) (hle : pb ≤ pc)
    (hv : T.compare (stView T base mem pb) v = 0) :
    StScanned T base lo hi v mem₀ (pa + 1) (pb + 1) pc pd
      (doSwap T mem (stPtr T base pa) (stPtr T base pb)) := by
  obtain ⟨hlt, hab, -, hcd, hdh⟩ := h.order
  refine ⟨?_, h.pivot_doSwap hlt (by omega),
    h.moved.trans (.doSwap hlt.le (by omega) (by omega) (by omega) mem)⟩
  rw [stView_doSwap]
  exact h.parked.park_left (Nat.lt_succ_of_le hle) hv

/-- The scan from the right passes an element greater than the pivot. -/
theorem pass_greater (h : StScanned T base lo hi v mem₀ pa pb (pc + 1) pd mem)
    (hle : pb ≤ pc + 1) (hv : 0 < T.compare (stView T base mem (pc + 1)) v) :
    StScanned T base lo hi v mem₀ pa pb pc pd mem :=
  ⟨h.parked.pass_greater hle hv, h.pivot_eq, h.moved⟩

/-- It parks an element equal to the pivot at `pd`. -/
theorem park_right (h : StScanned T base lo hi v mem₀ pa pb (pc + 1) (pd + 1) mem)
    (hle : pb ≤ pc + 1) (hv : T.compare (stView T base mem (pc + 1)) v = 0) :
    StScanned T base lo hi v mem₀ pa pb pc pd
      (doSwap T mem (stPtr T base (pc + 1)) (stPtr T base (pd + 1))) := by
  obtain ⟨hlt, hab, -, hcd, hdh⟩ := h.order
  refine ⟨?_, h.pivot_doSwap (by omega) (by omega),
    h.moved.trans (.doSwap (by omega) (by omega) (by omega) hdh mem)⟩
  rw [stView_doSwap]
  exact h.parked.park_right hle hv

/-- The elements the two scans have stopped at change places. -/
theorem exchange (h : StScanned T base lo hi v mem₀ pa pb (pc + 1) pd mem) (hlt : pb < pc + 1)
    (hgreater : 0 < T.compare (stView T base mem pb) v)
    (hless : T.compare (stView T base mem (pc + 1)) v < 0) :
    StScanned T base lo hi v mem₀ pa (pb + 1) pc pd
      (doSwap T mem (stPtr T base pb) (stPtr T base (pc + 1))) := by
  obtain ⟨hpa, hab, -, hcd, hdh⟩ := h.order
  refine ⟨?_, h.pivot_doSwap (by omega) (by omega),
    h.moved.trans (.doSwap (by omega) (by omega) (by omega) (by omega) mem)⟩
  rw [stView_doSwap]
  exact h.parked.exchange hlt hgreater hless

end StScanned

/-- **The scan from the left** stops at an element greater than the pivot, or
past `pc`. -/
theorem logScanLeft_scanned (hstep : 0 < T.step) (hN : hi ≤ N) {fuel : ℕ}
    (hf : pc + 1 - pb < fuel) (h : StScanned T base lo hi v mem₀ pa pb pc pd s.mem)
    (hs : s.Safe T base N) :
    ∃ x, logScanLeft T (stPtr T base lo) fuel (stPtr T base pc)
        (stPtr T base pa) (stPtr T base pb) s = some x ∧
      ∃ pa' pb', x.1 = stPtr T base pa' ∧ x.2.1 = stPtr T base pb' ∧
        StScanned T base lo hi v mem₀ pa' pb' pc pd x.2.2.mem ∧ x.2.2.Safe T base N ∧
        pb ≤ pb' ∧ (pc < pb' ∨ 0 < T.compare (stView T base x.2.2.mem pb') v) := by
  refine Loop.run_total
    (fun x : ℕ × ℕ × StLog β => ∃ ia ib, x.1 = stPtr T base ia ∧
      x.2.1 = stPtr T base ib ∧ StScanned T base lo hi v mem₀ ia ib pc pd x.2.2.mem ∧
      x.2.2.Safe T base N ∧ pb ≤ ib)
    (fun x => (stPtr T base (pc + 1) - x.2.1) / T.step) (fun x hinv => ?_)
    ⟨pa, pb, rfl, rfl, h, hs, le_refl pb⟩ (by rw [stPtr_sub_div hstep]; exact hf)
  obtain ⟨p, q, t⟩ := x
  obtain ⟨ia, ib, rfl, rfl, hp, hsafe, hle⟩ := hinv
  dsimp only [StLog.record] at hp hsafe ⊢
  simp only [stPtr_le_stPtr hstep, doCompare_stPtr, hp.pivot_eq]
  obtain ⟨hlt, hab, -, hcd, hdh⟩ := hp.order
  by_cases hbc : ib ≤ pc
  · have hcompare := hsafe.compare (show ib < N by omega) (show lo < N by omega)
    rw [if_pos hbc]
    split_ifs with hc hz
    · -- equal to the pivot: parked at `pa`
      rw [Loop.Step.meets_next, stPtr_add_step, stPtr_add_step]
      refine ⟨⟨ia + 1, ib + 1, rfl, rfl, hp.park_left hbc hz,
        hcompare.swap (by omega) (by omega), by omega⟩, ?_⟩
      dsimp only
      rw [stPtr_sub_div hstep, stPtr_sub_div hstep]
      omega
    · -- less than the pivot: passed
      rw [Loop.Step.meets_next, stPtr_add_step]
      refine ⟨⟨ia, ib + 1, rfl, rfl, hp.pass_less hbc (lt_of_le_of_ne hc hz), hcompare,
        by omega⟩, ?_⟩
      dsimp only
      rw [stPtr_sub_div hstep, stPtr_sub_div hstep]
      omega
    · exact ⟨ia, ib, rfl, rfl, hp, hcompare, hle, Or.inr (not_le.mp hc)⟩
  · rw [if_neg hbc]
    exact ⟨ia, ib, rfl, rfl, hp, hsafe, hle, Or.inl (not_le.mp hbc)⟩

/-- **The scan from the right** stops at an element less than the pivot, or past
`pb`. The element the other scan has stopped at stays where it is. -/
theorem logScanRight_scanned (hstep : 0 < T.step) (hN : hi ≤ N) {fuel : ℕ}
    (hf : pc + 1 - pb < fuel) (h : StScanned T base lo hi v mem₀ pa pb pc pd s.mem)
    (hs : s.Safe T base N) (hpb : pc < pb ∨ 0 < T.compare (stView T base s.mem pb) v) :
    ∃ x, logScanRight T (stPtr T base lo) fuel (stPtr T base pb)
        (stPtr T base pc) (stPtr T base pd) s = some x ∧
      ∃ pc' pd', x.1 = stPtr T base pc' ∧ x.2.1 = stPtr T base pd' ∧
        StScanned T base lo hi v mem₀ pa pb pc' pd' x.2.2.mem ∧ x.2.2.Safe T base N ∧
        pc' ≤ pc ∧ (pc' < pb ∨ 0 < T.compare (stView T base x.2.2.mem pb) v ∧
          T.compare (stView T base x.2.2.mem pc') v < 0) := by
  refine Loop.run_total
    (fun x : ℕ × ℕ × StLog β => ∃ ic id, x.1 = stPtr T base ic ∧
      x.2.1 = stPtr T base id ∧ StScanned T base lo hi v mem₀ pa pb ic id x.2.2.mem ∧
      x.2.2.Safe T base N ∧ ic ≤ pc ∧
      (ic < pb ∨ 0 < T.compare (stView T base x.2.2.mem pb) v))
    (fun x => (x.1 + T.step - stPtr T base pb) / T.step) (fun x hinv => ?_)
    ⟨pc, pd, rfl, rfl, h, hs, le_refl pc, hpb⟩
    (by dsimp only; rw [stPtr_add_step, stPtr_sub_div hstep]; exact hf)
  obtain ⟨p, q, t⟩ := x
  obtain ⟨ic, id, rfl, rfl, hp, hsafe, hle, hstop⟩ := hinv
  dsimp only [StLog.record] at hp hsafe hstop ⊢
  simp only [stPtr_le_stPtr hstep, doCompare_stPtr, hp.pivot_eq]
  obtain ⟨hlt, hab, -, hcd, hdh⟩ := hp.order
  by_cases hbc : pb ≤ ic
  · have hcompare := hsafe.compare (show ic < N by omega) (show lo < N by omega)
    have hgt : 0 < T.compare (stView T base t.mem pb) v := hstop.resolve_left (by omega)
    rw [if_pos hbc]
    split_ifs with hc hz
    · -- equal to the pivot: parked at `pd`, and not the element at `pb`
      have hne : pb ≠ ic := fun heq => by
        rw [heq, hz] at hgt
        exact absurd hgt (lt_irrefl _)
      obtain ⟨w, rfl⟩ : ∃ w, ic = w + 1 := ⟨ic - 1, by omega⟩
      obtain ⟨u, rfl⟩ : ∃ u, id = u + 1 := ⟨id - 1, by omega⟩
      rw [Loop.Step.meets_next, stPtr_sub_step, stPtr_sub_step]
      refine ⟨⟨w, u, rfl, rfl, hp.park_right hbc hz,
        hcompare.swap (by omega) (by omega), by omega, Or.inr ?_⟩, ?_⟩
      · show 0 < T.compare (stView T base (doSwap T t.mem _ _) pb) v
        rw [stView_doSwap, swapAt_of_ne hne (by omega)]
        exact hgt
      · dsimp only
        rw [stPtr_add_step, stPtr_add_step, stPtr_sub_div hstep, stPtr_sub_div hstep]
        omega
    · -- greater than the pivot: passed
      obtain ⟨w, rfl⟩ : ∃ w, ic = w + 1 := ⟨ic - 1, by omega⟩
      rw [Loop.Step.meets_next, stPtr_sub_step]
      refine ⟨⟨w, id, rfl, rfl, hp.pass_greater hbc (lt_of_le_of_ne hc (Ne.symm hz)),
        hcompare, by omega, Or.inr hgt⟩, ?_⟩
      dsimp only
      rw [stPtr_add_step, stPtr_add_step, stPtr_sub_div hstep, stPtr_sub_div hstep]
      omega
    · exact ⟨ic, id, rfl, rfl, hp, hcompare, hle, Or.inr ⟨hgt, not_le.mp hc⟩⟩
  · rw [if_neg hbc]
    exact ⟨ic, id, rfl, rfl, hp, hsafe, hle, Or.inl (not_le.mp hbc)⟩

/-- **The partitioning loop ends** when the scans have met. -/
theorem logPartition_scanned (hstep : 0 < T.step) (hn : 2 ≤ n) (hN : lo + n ≤ N)
    (hs : s.Safe T base N) :
    ∃ pa pb pd s', logPartition T s (stPtr T base lo) n
        = some ⟨stPtr T base pa, stPtr T base (pb + 1), stPtr T base pb,
          stPtr T base pd, s'⟩ ∧
      StScanned T base lo (lo + n) (stView T base s.mem lo) s.mem pa (pb + 1) pb pd s'.mem ∧
      s'.Safe T base N := by
  have hrun : ∃ r, logPartition T s (stPtr T base lo) n = some r ∧
      ∃ pa pb pd, r.pa = stPtr T base pa ∧ r.pb = stPtr T base (pb + 1) ∧
        r.pc = stPtr T base pb ∧ r.pd = stPtr T base pd ∧
        StScanned T base lo (lo + n) (stView T base s.mem lo) s.mem pa (pb + 1) pb pd
          r.s.mem ∧ r.s.Safe T base N := by
    refine Loop.run_total
      (fun x : StLogPartition β => ∃ ia ib ic id, x = ⟨stPtr T base ia, stPtr T base ib,
          stPtr T base ic, stPtr T base id, x.s⟩ ∧
        StScanned T base lo (lo + n) (stView T base s.mem lo) s.mem ia ib ic id x.s.mem ∧
        x.s.Safe T base N)
      (fun x => (x.pc + T.step - x.pb) / T.step) (fun x hinv => ?_) ?_ ?_
    · obtain ⟨p, q, r, u, t⟩ := x
      obtain ⟨ia, ib, ic, id, hx, hp, hsafe⟩ := hinv
      cases hx
      dsimp only at hp hsafe ⊢
      obtain ⟨hlt, hab, -, hcd, hdh⟩ := hp.order
      obtain ⟨⟨_, _, t'⟩, hl, ia', ib', rfl, rfl, hp', hsafe', hle, hstop⟩ :=
        logScanLeft_scanned hstep hN (show ic + 1 - ib < n + 1 by omega) hp hsafe
      obtain ⟨⟨_, _, t''⟩, hr, ic', id', rfl, rfl, hp'', hsafe'', hle', hstop'⟩ :=
        logScanRight_scanned hstep hN (show ic + 1 - ib' < n + 1 by omega) hp' hsafe' hstop
      rw [hl]
      dsimp only
      rw [hr]
      dsimp only
      simp only [gt_iff_lt, stPtr_lt_stPtr hstep]
      obtain ⟨hlt'', hab'', hbc'', hcd'', hdh''⟩ := hp''.order
      split_ifs with hcb
      · obtain rfl : ib' = ic' + 1 := by omega
        exact ⟨ia', ic', id', rfl, rfl, rfl, rfl, hp'', hsafe''⟩
      · obtain ⟨hgt, hls⟩ := hstop'.resolve_left hcb
        have hne : ib' ≠ ic' := fun hbc => by
          rw [hbc] at hgt
          exact absurd hgt (not_lt.mpr hls.le)
        obtain ⟨w, rfl⟩ : ∃ w, ic' = w + 1 := ⟨ic' - 1, by omega⟩
        rw [Loop.Step.meets_next, stPtr_add_step, stPtr_sub_step]
        refine ⟨⟨ia', ib' + 1, w, id', rfl, hp''.exchange (by omega) hgt hls,
          hsafe''.swap (by omega) (by omega)⟩, ?_⟩
        dsimp only
        rw [stPtr_add_step, stPtr_add_step, stPtr_sub_div hstep, stPtr_sub_div hstep]
        omega
    · refine ⟨lo + 1, lo + 1, lo + (n - 1), lo + (n - 1), ?_, ⟨⟨le_refl _, le_refl _,
        by omega, le_refl _, by omega, fun x h₁ h₂ => absurd h₂ (by omega),
        fun x h₁ h₂ => absurd h₂ (by omega), fun x h₁ h₂ => absurd h₂ (by omega),
        fun x h₁ h₂ => absurd h₂ (by omega)⟩, rfl, .refl _ _ _ _ _⟩, hs⟩
      rw [stPtr_add_step, stPtr_add_mul]
    · dsimp only
      rw [stPtr_add_mul, stPtr_add_step, stPtr_add_step, stPtr_sub_div hstep]
      omega
  obtain ⟨⟨p, q, r, u, t⟩, hr, pa, pb, pd, rfl, rfl, rfl, rfl, hp, hsafe⟩ := hrun
  exact ⟨pa, pb, pd, t, hr, hp, hsafe⟩

/-- The lengths of the runs that are exchanged, in elements. -/
theorem stGather_lengths (T : StTemplate β) (base lo hi pa pb pd : ℕ) :
    min (stPtr T base pa - stPtr T base lo) (stPtr T base (pb + 1) - stPtr T base pa)
        = min (pa - lo) (pb + 1 - pa) * T.step ∧
      min (stPtr T base pd - stPtr T base pb) (stPtr T base hi - stPtr T base pd - T.step)
        = min (pd + 1 - (pb + 1)) (hi - (pd + 1)) * T.step := by
  constructor
  · rw [stPtr_sub_stPtr, stPtr_sub_stPtr, Nat.mul_min_mul_right]
  · rw [Nat.sub_sub, stPtr_add_step, stPtr_sub_stPtr, stPtr_sub_stPtr,
      Nat.mul_min_mul_right, Nat.add_sub_add_right]

/-- **Exchanging the equal elements** exchanges elements of the range. -/
theorem logGather_moved (hN : hi ≤ N)
    (h : StScanned T base lo hi v mem₀ pa (pb + 1) pb pd s.mem) (hs : s.Safe T base N) :
    ∃ s', logGather T ⟨stPtr T base pa, stPtr T base (pb + 1), stPtr T base pb,
        stPtr T base pd, s⟩ (stPtr T base lo) (stPtr T base hi) = s' ∧
      StMoved T base lo hi mem₀ s'.mem ∧ s'.Safe T base N := by
  refine ⟨_, rfl, ?_⟩
  obtain ⟨hlt, hab, -, hcd, hdh⟩ := h.order
  obtain ⟨hd₁, hd₂⟩ := stGather_lengths T base lo hi pa pb pd
  unfold logGather
  dsimp only
  rw [hd₁, hd₂, stPtr_sub_mul _ _ (by omega), stPtr_sub_mul _ _ (by omega)]
  exact ⟨(h.moved.trans (.stSwapn (by omega) (by omega) (by omega) (by omega) s.mem)).trans
    (.stSwapn (by omega) (by omega) (by omega) (by omega) _),
    (hs.swapn (by omega) (by omega)).swapn (by omega) (by omega)⟩

end SortTemplate
