import PgCitus.Library.LoopRel
import PgCitus.SortTemplateBounds

/-!
# Two instances of the sort template

The template is instantiated for an element type, with a step of one, and for `void`,
with a step of `element_size` bytes and exchanges that go byte by byte. Two instances do
the same on arrays whose elements correspond, as long as their comparators give the same
answers for elements that correspond: at every point their pointers are those to elements
with the same index, and the same comparisons have been made.

What has to be seen for that is that every pointer is one to an element. Distances are
then numbers of elements times the step, and so are the lengths of the runs that are
exchanged; it is the order of the four pointers of the partitioning that keeps them in
the array, whatever the comparator answers.
-/

namespace SortTemplate

open Rearrange

variable {β γ : Type*} {T : StTemplate β} {U : StTemplate γ}

/-! ## Arrays and records that correspond -/

/-- **The same thing is done**, by two instances on arrays of `N` elements. -/
inductive StEvent.Alike (T : StTemplate β) (U : StTemplate γ) (base base' N : ℕ) :
    StEvent → StEvent → Prop where
  | compare {i j : ℕ} (hi : i < N) (hj : j < N) :
      Alike T U base base' N (.compare (stPtr T base i) (stPtr T base j))
        (.compare (stPtr U base' i) (stPtr U base' j))
  | swapn {i j k : ℕ} (hi : i + k ≤ N) (hj : j + k ≤ N) :
      Alike T U base base' N (.swapn (stPtr T base i) (stPtr T base j) (k * T.step))
        (.swapn (stPtr U base' i) (stPtr U base' j) (k * U.step))
  | sort {depth caller i n : ℕ} (hi : i + n ≤ N) :
      Alike T U base base' N (.sort depth caller (stPtr T base i) n)
        (.sort depth caller (stPtr U base' i) n)

/-- **Two instances stand alike**: the elements of their arrays correspond, and they have
done the same so far. -/
structure StLog.Alike (T : StTemplate β) (U : StTemplate γ)
    (E : (Fin T.step → β) → (Fin U.step → γ) → Prop) (base base' N : ℕ) (s : StLog β)
    (t : StLog γ) : Prop where
  elems : ∀ i < N, E (stView T base s.mem i) (stView U base' t.mem i)
  log : List.Forall₂ (StEvent.Alike T U base base' N) s.log t.log

/-- Their comparators give the same answers for elements that correspond. -/
def SameAnswers (T : StTemplate β) (U : StTemplate γ)
    (E : (Fin T.step → β) → (Fin U.step → γ) → Prop) : Prop :=
  ∀ x x' y y', E x y → E x' y' → T.compare x x' = U.compare y y'

variable {E : (Fin T.step → β) → (Fin U.step → γ) → Prop} {base base' N : ℕ}

/-- Exchanges on both sides keep what corresponds. -/
theorem swapAt_corresponds {α α' : Type*} {R : α → α' → Prop} {f : ℕ → α} {g : ℕ → α'}
    (h : ∀ x < N, R (f x) (g x)) {i j : ℕ} (hi : i < N) (hj : j < N) :
    ∀ x < N, R (swapAt f i j x) (swapAt g i j x) := by
  intro x hx
  by_cases hxi : x = i
  · rw [hxi, swapAt_left, swapAt_left]
    exact h j hj
  · by_cases hxj : x = j
    · rw [hxj, swapAt_right, swapAt_right]
      exact h i hi
    · rw [swapAt_of_ne hxi hxj, swapAt_of_ne hxi hxj]
      exact h x hx

theorem swapRun_corresponds {α α' : Type*} {R : α → α' → Prop} {f : ℕ → α} {g : ℕ → α'}
    (h : ∀ x < N, R (f x) (g x)) {i j k : ℕ} (hi : i + k ≤ N) (hj : j + k ≤ N) :
    ∀ x < N, R (swapRun f i j k x) (swapRun g i j k x) := by
  induction k with
  | zero => exact h
  | succ k ih => exact swapAt_corresponds (ih (by omega) (by omega)) (by omega) (by omega)

namespace StLog.Alike

variable {s : StLog β} {t : StLog γ}

/-- `DO_SWAPN` of runs of elements. -/
theorem swapn (h : StLog.Alike T U E base base' N s t) {i j k : ℕ} (hi : i + k ≤ N)
    (hj : j + k ≤ N) :
    StLog.Alike T U E base base' N
      (logSwapn s (stPtr T base i) (stPtr T base j) (k * T.step))
      (logSwapn t (stPtr U base' i) (stPtr U base' j) (k * U.step)) := by
  refine ⟨?_, .cons (.swapn hi hj) h.log⟩
  show ∀ x < N, E (stView T base (stSwapn s.mem _ _ _) x) (stView U base' (stSwapn t.mem _ _ _) x)
  rw [stView_stSwapn, stView_stSwapn]
  exact swapRun_corresponds h.elems hi hj

/-- `DO_SWAP`. -/
theorem swap (h : StLog.Alike T U E base base' N s t) {i j : ℕ} (hi : i < N) (hj : j < N) :
    StLog.Alike T U E base base' N (logSwap T s (stPtr T base i) (stPtr T base j))
      (logSwap U t (stPtr U base' i) (stPtr U base' j)) := by
  have hone := h.swapn (show i + 1 ≤ N from hi) (show j + 1 ≤ N from hj)
  rwa [Nat.one_mul, Nat.one_mul] at hone

/-- `DO_COMPARE`. -/
theorem compare (h : StLog.Alike T U E base base' N s t) {i j : ℕ} (hi : i < N) (hj : j < N) :
    StLog.Alike T U E base base' N (s.record (.compare (stPtr T base i) (stPtr T base j)))
      (t.record (.compare (stPtr U base' i) (stPtr U base' j))) :=
  ⟨h.elems, .cons (.compare hi hj) h.log⟩

/-- `DO_SORT`. -/
theorem sort (h : StLog.Alike T U E base base' N s t) {depth caller i n : ℕ} (hi : i + n ≤ N) :
    StLog.Alike T U E base base' N (s.record (.sort depth caller (stPtr T base i) n))
      (t.record (.sort depth caller (stPtr U base' i) n)) :=
  ⟨h.elems, .cons (.sort hi) h.log⟩

/-- Comparators that agree on elements that correspond give the same answer. -/
theorem compare_eq (hE : SameAnswers T U E)
    (h : StLog.Alike T U E base base' N s t) {i j : ℕ} (hi : i < N) (hj : j < N) :
    doCompare T s.mem (stPtr T base i) (stPtr T base j)
      = doCompare U t.mem (stPtr U base' i) (stPtr U base' j) :=
  hE _ _ _ _ (h.elems i hi) (h.elems j hj)

end StLog.Alike

/-! ## The parts of `ST_SORT` -/

section Parts

variable {s : StLog β} {t : StLog γ} {lo n : ℕ}

/-- The median of three elements of a range is one of them. -/
theorem logMed3_alike (hE : SameAnswers T U E)
    (h : StLog.Alike T U E base base' N s t) {hi a b c : ℕ} (hN : hi ≤ N)
    (ha : lo ≤ a ∧ a < hi) (hb : lo ≤ b ∧ b < hi) (hc : lo ≤ c ∧ c < hi) :
    ∃ i, (lo ≤ i ∧ i < hi) ∧
      (logMed3 T s (stPtr T base a) (stPtr T base b) (stPtr T base c)).1 = stPtr T base i ∧
      (logMed3 U t (stPtr U base' a) (stPtr U base' b) (stPtr U base' c)).1 = stPtr U base' i ∧
      StLog.Alike T U E base base' N
        (logMed3 T s (stPtr T base a) (stPtr T base b) (stPtr T base c)).2
        (logMed3 U t (stPtr U base' a) (stPtr U base' b) (stPtr U base' c)).2 := by
  have haN : a < N := Nat.lt_of_lt_of_le ha.2 hN
  have hbN : b < N := Nat.lt_of_lt_of_le hb.2 hN
  have hcN : c < N := Nat.lt_of_lt_of_le hc.2 hN
  have hab := h.compare haN hbN
  have hbc := hab.compare hbN hcN
  have hac := hbc.compare haN hcN
  unfold logMed3
  dsimp only [StLog.record]
  rw [h.compare_eq hE haN hbN, h.compare_eq hE hbN hcN, h.compare_eq hE haN hcN]
  split_ifs
  · exact ⟨b, hb, rfl, rfl, hbc⟩
  · exact ⟨c, hc, rfl, rfl, hac⟩
  · exact ⟨a, ha, rfl, rfl, hac⟩
  · exact ⟨b, hb, rfl, rfl, hbc⟩
  · exact ⟨a, ha, rfl, rfl, hac⟩
  · exact ⟨c, hc, rfl, rfl, hac⟩

/-- The choice of the pivot. -/
theorem logPivot_alike (hE : SameAnswers T U E)
    (h : StLog.Alike T U E base base' N s t) (hn : 7 ≤ n) (hN : lo + n ≤ N) :
    ∃ i, (lo ≤ i ∧ i < lo + n) ∧
      (logPivot T s (stPtr T base lo) n).1 = stPtr T base i ∧
      (logPivot U t (stPtr U base' lo) n).1 = stPtr U base' i ∧
      StLog.Alike T U E base base' N (logPivot T s (stPtr T base lo) n).2
        (logPivot U t (stPtr U base' lo) n).2 := by
  have hmid : lo ≤ lo + n / 2 ∧ lo + n / 2 < lo + n := by omega
  have hlast : lo ≤ lo + (n - 1) ∧ lo + (n - 1) < lo + n := by omega
  have hfirst : lo ≤ lo ∧ lo < lo + n := by omega
  unfold logPivot
  dsimp only
  simp only [stPtr_add_mul, ← Nat.mul_assoc]
  by_cases h₇ : n > 7
  · rw [if_pos h₇, if_pos h₇]
    by_cases h₄₀ : n > 40
    · -- three medians, and the median of these
      rw [if_pos h₄₀, if_pos h₄₀]
      simp only [stPtr_sub_mul T base (show n / 8 ≤ lo + n / 2 by omega),
        stPtr_sub_mul U base' (show n / 8 ≤ lo + n / 2 by omega),
        stPtr_sub_mul T base (show n / 8 ≤ lo + (n - 1) by omega),
        stPtr_sub_mul U base' (show n / 8 ≤ lo + (n - 1) by omega),
        stPtr_sub_mul T base (show 2 * (n / 8) ≤ lo + (n - 1) by omega),
        stPtr_sub_mul U base' (show 2 * (n / 8) ≤ lo + (n - 1) by omega)]
      obtain ⟨l, hl, hl₁, hl₂, hsl⟩ := logMed3_alike hE h hN hfirst
        (show lo ≤ lo + n / 8 ∧ lo + n / 8 < lo + n by omega)
        (show lo ≤ lo + 2 * (n / 8) ∧ lo + 2 * (n / 8) < lo + n by omega)
      obtain ⟨m, hm, hm₁, hm₂, hsm⟩ := logMed3_alike hE hsl hN
        (show lo ≤ lo + n / 2 - n / 8 ∧ lo + n / 2 - n / 8 < lo + n by omega) hmid
        (show lo ≤ lo + n / 2 + n / 8 ∧ lo + n / 2 + n / 8 < lo + n by omega)
      obtain ⟨r, hr, hr₁, hr₂, hsr⟩ := logMed3_alike hE hsm hN
        (show lo ≤ lo + (n - 1) - 2 * (n / 8) ∧ lo + (n - 1) - 2 * (n / 8) < lo + n by omega)
        (show lo ≤ lo + (n - 1) - n / 8 ∧ lo + (n - 1) - n / 8 < lo + n by omega) hlast
      rw [hl₁, hl₂, hm₁, hm₂, hr₁, hr₂]
      exact logMed3_alike hE hsr hN hl hm hr
    · rw [if_neg h₄₀, if_neg h₄₀]
      exact logMed3_alike hE h hN hfirst hmid hlast
  · rw [if_neg h₇, if_neg h₇]
    exact ⟨lo + n / 2, hmid, rfl, rfl, h⟩

variable (hT : 0 < T.step) (hU : 0 < U.step)
include hT hU

/-- The inner loop of the insertion sort. -/
theorem logSink_alike (hE : SameAnswers T U E)
    (h : StLog.Alike T U E base base' N s t) {i : ℕ} (hlo : lo ≤ i) (hi : i < N) (fuel : ℕ) :
    Option.Rel (StLog.Alike T U E base base' N)
      (logSink T (stPtr T base lo) fuel (stPtr T base i) s)
      (logSink U (stPtr U base' lo) fuel (stPtr U base' i) t) := by
  refine Loop.run_rel (fun x y => ∃ i, x.1 = stPtr T base i ∧ y.1 = stPtr U base' i ∧
    lo ≤ i ∧ i < N ∧ StLog.Alike T U E base base' N x.2 y.2) (fun x y hxy => ?_) fuel
    ⟨i, rfl, rfl, hlo, hi, h⟩
  obtain ⟨p, s⟩ := x
  obtain ⟨q, t⟩ := y
  obtain ⟨i, rfl, rfl, hlo, hi, h⟩ := hxy
  dsimp only [StLog.record]
  simp only [stPtr_lt_stPtr hT, stPtr_lt_stPtr hU]
  by_cases hlt : lo < i
  · obtain ⟨w, rfl⟩ : ∃ w, i = w + 1 := ⟨i - 1, by omega⟩
    have hw : w < N := Nat.lt_of_succ_lt hi
    rw [if_pos hlt, if_pos hlt, stPtr_sub_step, stPtr_sub_step, h.compare_eq hE hw hi]
    have hcompare := h.compare hw hi
    split_ifs
    · exact .next ⟨w, rfl, rfl, by omega, hw, hcompare.swap hi hw⟩
    · exact .done hcompare
  · rw [if_neg hlt, if_neg hlt]
    exact .done h

/-- The insertion sort. -/
theorem logInsertionSort_alike
    (hE : SameAnswers T U E)
    (h : StLog.Alike T U E base base' N s t) (hN : lo + n ≤ N) :
    Option.Rel (StLog.Alike T U E base base' N) (logInsertionSort T s (stPtr T base lo) n)
      (logInsertionSort U t (stPtr U base' lo) n) := by
  refine Loop.run_rel (fun x y => ∃ i, x.1 = stPtr T base i ∧ y.1 = stPtr U base' i ∧
    lo ≤ i ∧ StLog.Alike T U E base base' N x.2 y.2) (fun x y hxy => ?_) (n + 1)
    ⟨lo + 1, stPtr_add_step T base lo, stPtr_add_step U base' lo, Nat.le_succ lo, h⟩
  obtain ⟨p, s⟩ := x
  obtain ⟨q, t⟩ := y
  obtain ⟨i, rfl, rfl, hlo, h⟩ := hxy
  dsimp only
  simp only [stPtr_add_mul, stPtr_lt_stPtr hT, stPtr_lt_stPtr hU]
  by_cases hi : i < lo + n
  · rw [if_pos hi, if_pos hi]
    have hsink := logSink_alike hT hU hE h hlo (Nat.lt_of_lt_of_le hi hN) (n + 1)
    revert hsink
    generalize logSink T _ _ _ s = x, logSink U _ _ _ t = y
    intro hsink
    cases hsink with
    | none => exact .stuck
    | some h =>
      exact .next ⟨i + 1, stPtr_add_step T base i, stPtr_add_step U base' i,
        Nat.le_succ_of_le hlo, h⟩
  · rw [if_neg hi, if_neg hi]
    exact .done h

/-- The check for presorted input. -/
theorem logPresorted_alike
    (hE : SameAnswers T U E)
    (h : StLog.Alike T U E base base' N s t) (hN : lo + n ≤ N) :
    Option.Rel (fun x y => x.1 = y.1 ∧ StLog.Alike T U E base base' N x.2 y.2)
      (logPresorted T s (stPtr T base lo) n) (logPresorted U t (stPtr U base' lo) n) := by
  refine Loop.run_rel (fun x y => ∃ i, x.1 = stPtr T base (i + 1) ∧
    y.1 = stPtr U base' (i + 1) ∧ lo ≤ i ∧
    StLog.Alike T U E base base' N ⟨s.mem, x.2⟩ ⟨t.mem, y.2⟩) (fun x y hxy => ?_) (n + 1)
    ⟨lo, stPtr_add_step T base lo, stPtr_add_step U base' lo, Nat.le_refl lo, h⟩
  obtain ⟨p, log⟩ := x
  obtain ⟨q, log'⟩ := y
  obtain ⟨i, rfl, rfl, hlo, h⟩ := hxy
  dsimp only
  simp only [stPtr_add_mul, stPtr_lt_stPtr hT, stPtr_lt_stPtr hU, stPtr_sub_step]
  by_cases hi : i + 1 < lo + n
  · have hi₁ : i + 1 < N := Nat.lt_of_lt_of_le hi hN
    have hcompare := h.compare (Nat.lt_of_succ_lt hi₁) hi₁
    rw [if_pos hi, if_pos hi, h.compare_eq hE (Nat.lt_of_succ_lt hi₁) hi₁]
    split_ifs
    · exact .done ⟨rfl, hcompare⟩
    · exact .next ⟨i + 1, stPtr_add_step T base (i + 1), stPtr_add_step U base' (i + 1),
        Nat.le_succ_of_le hlo, hcompare⟩
  · rw [if_neg hi, if_neg hi]
    exact .done ⟨rfl, h⟩

/-- **Where the four pointers of the partitioning are**, which they keep to whatever the
comparator answers. -/
def InOrder (lo hi pa pb pc pd : ℕ) : Prop :=
  lo < pa ∧ pa ≤ pb ∧ pb ≤ pd + 1 ∧ lo ≤ pc ∧ pc ≤ pd ∧ pd < hi

variable {hi pa pb pc pd : ℕ}

/-- The scan from the left. -/
theorem logScanLeft_alike
    (hE : SameAnswers T U E)
    (h : StLog.Alike T U E base base' N s t) (hN : hi ≤ N) (horder : InOrder lo hi pa pb pc pd)
    (fuel : ℕ) :
    Option.Rel (fun x y => ∃ ia ib, (x.1 = stPtr T base ia ∧ y.1 = stPtr U base' ia) ∧
        (x.2.1 = stPtr T base ib ∧ y.2.1 = stPtr U base' ib) ∧ InOrder lo hi ia ib pc pd ∧
        StLog.Alike T U E base base' N x.2.2 y.2.2)
      (logScanLeft T (stPtr T base lo) fuel (stPtr T base pc) (stPtr T base pa)
        (stPtr T base pb) s)
      (logScanLeft U (stPtr U base' lo) fuel (stPtr U base' pc) (stPtr U base' pa)
        (stPtr U base' pb) t) := by
  refine Loop.run_rel (fun x y => ∃ ia ib, (x.1 = stPtr T base ia ∧ y.1 = stPtr U base' ia) ∧
    (x.2.1 = stPtr T base ib ∧ y.2.1 = stPtr U base' ib) ∧ InOrder lo hi ia ib pc pd ∧
    StLog.Alike T U E base base' N x.2.2 y.2.2) (fun x y hxy => ?_) fuel
    ⟨pa, pb, ⟨rfl, rfl⟩, ⟨rfl, rfl⟩, horder, h⟩
  obtain ⟨p, q, s⟩ := x
  obtain ⟨p', q', t⟩ := y
  obtain ⟨ia, ib, ⟨rfl, rfl⟩, ⟨rfl, rfl⟩, horder, h⟩ := hxy
  obtain ⟨hlt, hab, hbd, hlc, hcd, hdh⟩ := id horder
  dsimp only [StLog.record]
  simp only [stPtr_le_stPtr hT, stPtr_le_stPtr hU]
  by_cases hbc : ib ≤ pc
  · have hib : ib < N := by omega
    have hlo : lo < N := by omega
    have hcompare := h.compare hib hlo
    rw [if_pos hbc, if_pos hbc, h.compare_eq hE hib hlo]
    split_ifs
    · exact .next ⟨ia + 1, ib + 1, ⟨stPtr_add_step T base ia, stPtr_add_step U base' ia⟩,
        ⟨stPtr_add_step T base ib, stPtr_add_step U base' ib⟩,
        ⟨by omega, by omega, by omega, hlc, hcd, hdh⟩, hcompare.swap (by omega) hib⟩
    · exact .next ⟨ia, ib + 1, ⟨rfl, rfl⟩,
        ⟨stPtr_add_step T base ib, stPtr_add_step U base' ib⟩,
        ⟨hlt, by omega, by omega, hlc, hcd, hdh⟩, hcompare⟩
    · exact .done ⟨ia, ib, ⟨rfl, rfl⟩, ⟨rfl, rfl⟩, horder, hcompare⟩
  · rw [if_neg hbc, if_neg hbc]
    exact .done ⟨ia, ib, ⟨rfl, rfl⟩, ⟨rfl, rfl⟩, horder, h⟩

/-- The scan from the right. -/
theorem logScanRight_alike
    (hE : SameAnswers T U E)
    (h : StLog.Alike T U E base base' N s t) (hN : hi ≤ N) (horder : InOrder lo hi pa pb pc pd)
    (fuel : ℕ) :
    Option.Rel (fun x y => ∃ ic id, (x.1 = stPtr T base ic ∧ y.1 = stPtr U base' ic) ∧
        (x.2.1 = stPtr T base id ∧ y.2.1 = stPtr U base' id) ∧ InOrder lo hi pa pb ic id ∧
        StLog.Alike T U E base base' N x.2.2 y.2.2)
      (logScanRight T (stPtr T base lo) fuel (stPtr T base pb) (stPtr T base pc)
        (stPtr T base pd) s)
      (logScanRight U (stPtr U base' lo) fuel (stPtr U base' pb) (stPtr U base' pc)
        (stPtr U base' pd) t) := by
  refine Loop.run_rel (fun x y => ∃ ic id, (x.1 = stPtr T base ic ∧ y.1 = stPtr U base' ic) ∧
    (x.2.1 = stPtr T base id ∧ y.2.1 = stPtr U base' id) ∧ InOrder lo hi pa pb ic id ∧
    StLog.Alike T U E base base' N x.2.2 y.2.2) (fun x y hxy => ?_) fuel
    ⟨pc, pd, ⟨rfl, rfl⟩, ⟨rfl, rfl⟩, horder, h⟩
  obtain ⟨p, q, s⟩ := x
  obtain ⟨p', q', t⟩ := y
  obtain ⟨ic, id, ⟨rfl, rfl⟩, ⟨rfl, rfl⟩, horder, h⟩ := hxy
  have horder' := horder
  obtain ⟨hlt, hab, hbd, hlc, hcd, hdh⟩ := horder'
  dsimp only [StLog.record]
  simp only [stPtr_le_stPtr hT, stPtr_le_stPtr hU]
  by_cases hbc : pb ≤ ic
  · -- there are elements before `pc` and `pd`, the pivot at least
    obtain ⟨w, rfl⟩ : ∃ w, ic = w + 1 := ⟨ic - 1, by omega⟩
    obtain ⟨u, rfl⟩ : ∃ u, id = u + 1 := ⟨id - 1, by omega⟩
    have hic : w + 1 < N := by omega
    have hlo : lo < N := by omega
    have hcompare := h.compare hic hlo
    rw [if_pos hbc, if_pos hbc, h.compare_eq hE hic hlo]
    simp only [stPtr_sub_step]
    split_ifs
    · exact .next ⟨w, u, ⟨rfl, rfl⟩, ⟨rfl, rfl⟩,
        ⟨hlt, hab, by omega, by omega, by omega, by omega⟩, hcompare.swap hic (by omega)⟩
    · exact .next ⟨w, u + 1, ⟨rfl, rfl⟩, ⟨rfl, rfl⟩,
        ⟨hlt, hab, hbd, by omega, by omega, hdh⟩, hcompare⟩
    · exact .done ⟨w + 1, u + 1, ⟨rfl, rfl⟩, ⟨rfl, rfl⟩, horder, hcompare⟩
  · rw [if_neg hbc, if_neg hbc]
    exact .done ⟨ic, id, ⟨rfl, rfl⟩, ⟨rfl, rfl⟩, horder, h⟩

/-- Partitions that stand alike. -/
def PartitionAlike (T : StTemplate β) (U : StTemplate γ)
    (E : (Fin T.step → β) → (Fin U.step → γ) → Prop) (base base' N lo hi : ℕ)
    (x : StLogPartition β) (y : StLogPartition γ) : Prop :=
  ∃ pa pb pc pd s t,
    x = ⟨stPtr T base pa, stPtr T base pb, stPtr T base pc, stPtr T base pd, s⟩ ∧
    y = ⟨stPtr U base' pa, stPtr U base' pb, stPtr U base' pc, stPtr U base' pd, t⟩ ∧
    InOrder lo hi pa pb pc pd ∧ StLog.Alike T U E base base' N s t

/-- The partitioning. -/
theorem logPartition_alike
    (hE : SameAnswers T U E)
    (h : StLog.Alike T U E base base' N s t) (hn : 2 ≤ n) (hN : lo + n ≤ N) :
    Option.Rel (PartitionAlike T U E base base' N lo (lo + n))
      (logPartition T s (stPtr T base lo) n) (logPartition U t (stPtr U base' lo) n) := by
  refine Loop.run_rel (PartitionAlike T U E base base' N lo (lo + n)) (fun x y hxy => ?_) (n + 1)
    ⟨lo + 1, lo + 1, lo + (n - 1), lo + (n - 1), s, t, ?_, ?_,
      ⟨by omega, by omega, by omega, by omega, by omega, by omega⟩, h⟩
  · obtain ⟨pa, pb, pc, pd, s, t, rfl, rfl, horder, h⟩ := hxy
    dsimp only
    have hleft := logScanLeft_alike hT hU hE h hN horder (n + 1)
    revert hleft
    generalize logScanLeft T _ _ _ _ _ s = x, logScanLeft U _ _ _ _ _ t = y
    intro hleft
    cases hleft with
    | none => exact .stuck
    | @some x y hl =>
      obtain ⟨p, q, s⟩ := x
      obtain ⟨p', q', t⟩ := y
      obtain ⟨ia, ib, ⟨rfl, rfl⟩, ⟨rfl, rfl⟩, horder, h⟩ := hl
      dsimp only
      have hright := logScanRight_alike hT hU hE h hN horder (n + 1)
      revert hright
      generalize logScanRight T _ _ _ _ _ s = x, logScanRight U _ _ _ _ _ t = y
      intro hright
      cases hright with
      | none => exact .stuck
      | @some x y hr =>
        obtain ⟨p, q, s⟩ := x
        obtain ⟨p', q', t⟩ := y
        obtain ⟨ic, id, ⟨rfl, rfl⟩, ⟨rfl, rfl⟩, horder, h⟩ := hr
        have horder' := horder
        obtain ⟨hlt, hab, hbd, hlc, hcd, hdh⟩ := horder'
        dsimp only
        simp only [gt_iff_lt, stPtr_lt_stPtr hT, stPtr_lt_stPtr hU]
        by_cases hcb : ic < ib
        · rw [if_pos hcb, if_pos hcb]
          exact .done ⟨ia, ib, ic, id, s, t, rfl, rfl, horder, h⟩
        · obtain ⟨w, rfl⟩ : ∃ w, ic = w + 1 := ⟨ic - 1, by omega⟩
          rw [if_neg hcb, if_neg hcb]
          refine .next ⟨ia, ib + 1, w, id, _, _, ?_, ?_,
            ⟨hlt, by omega, by omega, by omega, by omega, hdh⟩,
            h.swap (by omega : ib < N) (by omega : w + 1 < N)⟩
          · rw [stPtr_add_step, stPtr_sub_step]
          · rw [stPtr_add_step, stPtr_sub_step]
  · rw [stPtr_add_step, stPtr_add_mul]
  · rw [stPtr_add_step, stPtr_add_mul]

end Parts

/-- Exchanging the runs of elements equal to the pivot. -/
theorem logGather_alike {lo hi pa pb pc pd : ℕ} {s : StLog β} {t : StLog γ}
    (h : StLog.Alike T U E base base' N s t) (hN : hi ≤ N)
    (horder : InOrder lo hi pa pb pc pd) :
    StLog.Alike T U E base base' N
      (logGather T ⟨stPtr T base pa, stPtr T base pb, stPtr T base pc, stPtr T base pd, s⟩
        (stPtr T base lo) (stPtr T base hi))
      (logGather U ⟨stPtr U base' pa, stPtr U base' pb, stPtr U base' pc, stPtr U base' pd, t⟩
        (stPtr U base' lo) (stPtr U base' hi)) := by
  obtain ⟨hlt, hab, hbd, hlc, hcd, hdh⟩ := horder
  unfold logGather
  dsimp only
  rw [Nat.sub_sub (stPtr T base hi), Nat.sub_sub (stPtr U base' hi)]
  simp only [stPtr_add_step, stPtr_sub_stPtr, Nat.mul_min_mul_right]
  rw [stPtr_sub_mul T base (show min (pa - lo) (pb - pa) ≤ pb by omega),
    stPtr_sub_mul U base' (show min (pa - lo) (pb - pa) ≤ pb by omega),
    stPtr_sub_mul T base (show min (pd - pc) (hi - (pd + 1)) ≤ hi by omega),
    stPtr_sub_mul U base' (show min (pd - pc) (hi - (pd + 1)) ≤ hi by omega)]
  exact (h.swapn (by omega) (by omega)).swapn (by omega) (by omega)

/-! ## The sort -/

/-- Two instances do the same in every call with that fuel. -/
def SortsAlike (T : StTemplate β) (U : StTemplate γ)
    (E : (Fin T.step → β) → (Fin U.step → γ) → Prop) (base base' N fuel : ℕ) : Prop :=
  ∀ (depth caller lo n : ℕ) (s : StLog β) (t : StLog γ), lo + n ≤ N →
    StLog.Alike T U E base base' N s t →
    Option.Rel (StLog.Alike T U E base base' N)
      (logSort T fuel depth caller s (stPtr T base lo) n)
      (logSort U fuel depth caller t (stPtr U base' lo) n)

section Calls

variable {s : StLog β} {t : StLog γ} {fuel depth caller part k : ℕ}
variable (hT : 0 < T.step) (hU : 0 < U.step)
include hT hU

/-- A part of the array is sorted in a call of its own. -/
theorem SortsAlike.call (ih : SortsAlike T U E base base' N fuel) (depth caller : ℕ)
    (hk : part + k ≤ N) (h : StLog.Alike T U E base base' N s t) :
    Option.Rel (StLog.Alike T U E base base' N)
      (if k * T.step > T.step then
        logSort T fuel (depth + 1) (k * T.step / T.step)
          (s.record (.sort depth caller (stPtr T base part) (k * T.step / T.step)))
          (stPtr T base part) (k * T.step / T.step)
        else some s)
      (if k * U.step > U.step then
        logSort U fuel (depth + 1) (k * U.step / U.step)
          (t.record (.sort depth caller (stPtr U base' part) (k * U.step / U.step)))
          (stPtr U base' part) (k * U.step / U.step)
        else some t) := by
  rw [Nat.mul_div_cancel _ hT, Nat.mul_div_cancel _ hU]
  simp only [mul_step_gt hT, mul_step_gt hU]
  split_ifs
  · exact ih _ _ _ _ _ _ hk (h.sort hk)
  · exact .some h

/-- Or it is sorted in this one, by `goto loop`. -/
theorem SortsAlike.goto (ih : SortsAlike T U E base base' N fuel) (hk : part + k ≤ N)
    (h : StLog.Alike T U E base base' N s t) :
    Option.Rel (StLog.Alike T U E base base' N)
      (if k * T.step > T.step then
        logSort T fuel depth caller s (stPtr T base part) (k * T.step / T.step)
        else some s)
      (if k * U.step > U.step then
        logSort U fuel depth caller t (stPtr U base' part) (k * U.step / U.step)
        else some t) := by
  rw [Nat.mul_div_cancel _ hT, Nat.mul_div_cancel _ hU]
  simp only [mul_step_gt hT, mul_step_gt hU]
  split_ifs
  · exact ih _ _ _ _ _ _ hk h
  · exact .some h

/-- **Two instances do the same**, in every call, with any amount of fuel. -/
theorem logSort_alike (hE : SameAnswers T U E) (fuel : ℕ) :
    SortsAlike T U E base base' N fuel := by
  induction fuel with
  | zero => exact fun _ _ _ _ _ _ _ _ => .none
  | succ fuel ih =>
    intro depth caller lo n s t hN h
    rw [logSort, logSort]
    by_cases h₇ : n < 7
    · rw [if_pos h₇, if_pos h₇]
      exact logInsertionSort_alike hT hU hE h hN
    rw [if_neg h₇, if_neg h₇]
    have hpre := logPresorted_alike hT hU hE h hN
    revert hpre
    generalize logPresorted T s _ n = x, logPresorted U t _ n = y
    intro hpre
    cases hpre with
    | none => exact .none
    | @some x y hpre =>
      obtain ⟨b, s⟩ := x
      obtain ⟨b', t⟩ := y
      obtain ⟨rfl, h⟩ := hpre
      cases b with
      | true => exact .some h
      | false =>
        obtain ⟨i, hi, hi₁, hi₂, hpivot⟩ := logPivot_alike hE h (Nat.le_of_not_lt h₇) hN
        have hpart := logPartition_alike hT hU hE
          (hpivot.swap (show lo < N by omega) (show i < N by omega))
          (show 2 ≤ n by omega) hN
        dsimp only
        rw [hi₁, hi₂]
        revert hpart
        generalize logPartition T _ _ n = x, logPartition U _ _ n = y
        intro hpart
        cases hpart with
        | none => exact .none
        | some hp =>
          obtain ⟨pa, pb, pc, pd, s, t, rfl, rfl, horder, h⟩ := hp
          have hg := logGather_alike h hN horder
          obtain ⟨hlt, hab, hbd, hlc, hcd, hdh⟩ := horder
          dsimp only
          rw [stPtr_add_mul, stPtr_add_mul]
          simp only [stPtr_sub_stPtr, stPtr_sub_mul T base (show pd - pc ≤ lo + n by omega),
            stPtr_sub_mul U base' (show pd - pc ≤ lo + n by omega),
            Nat.mul_le_mul_right_iff hT, Nat.mul_le_mul_right_iff hU]
          by_cases hside : pb - pa ≤ pd - pc
          · rw [if_pos hside, if_pos hside]
            have hleft := ih.call hT hU depth caller (show lo + (pb - pa) ≤ N by omega) hg
            revert hleft
            generalize (if (pb - pa) * T.step > T.step then _ else _) = x,
              (if (pb - pa) * U.step > U.step then _ else _) = y
            intro hleft
            cases hleft with
            | none => exact .none
            | some h => exact ih.goto hT hU (show lo + n - (pd - pc) + (pd - pc) ≤ N by omega) h
          · rw [if_neg hside, if_neg hside]
            have hright := ih.call hT hU depth caller
              (show lo + n - (pd - pc) + (pd - pc) ≤ N by omega) hg
            revert hright
            generalize (if (pd - pc) * T.step > T.step then _ else _) = x,
              (if (pd - pc) * U.step > U.step then _ else _) = y
            intro hright
            cases hright with
            | none => exact .none
            | some h => exact ih.goto hT hU (show lo + (pb - pa) ≤ N by omega) h

end Calls

/-! ## Calls of the comparator -/

/-- Where the elements are that the comparator is called for, the first call first. -/
def comparisons (log : List StEvent) : List (ℕ × ℕ) :=
  log.reverse.filterMap fun
    | .compare a b => some (a, b)
    | _ => none

/-- The elements it is called for: memory is followed through what is recorded, the first
event first. -/
def compared (T : StTemplate β) : List StEvent → (ℕ → β) →
    List ((Fin T.step → β) × (Fin T.step → β))
  | [], _ => []
  | .compare a b :: es, mem => (T.element mem a, T.element mem b) :: compared T es mem
  | .swapn a b n :: es, mem => compared T es (stSwapn mem a b n)
  | .sort _ _ _ _ :: es, mem => compared T es mem

/-- **The calls are for the same elements of the two arrays.** -/
theorem comparisons_alike {log log' : List StEvent}
    (h : List.Forall₂ (StEvent.Alike T U base base' N) log log') :
    ∃ calls : List (ℕ × ℕ), (∀ c ∈ calls, c.1 < N ∧ c.2 < N) ∧
      comparisons log = calls.map (fun c => (stPtr T base c.1, stPtr T base c.2)) ∧
      comparisons log' = calls.map fun c => (stPtr U base' c.1, stPtr U base' c.2) := by
  have hcalls : ∀ {es es' : List StEvent}, List.Forall₂ (StEvent.Alike T U base base' N) es es' →
      ∃ calls : List (ℕ × ℕ), (∀ c ∈ calls, c.1 < N ∧ c.2 < N) ∧
        comparisons es.reverse = calls.map (fun c => (stPtr T base c.1, stPtr T base c.2)) ∧
        comparisons es'.reverse = calls.map fun c => (stPtr U base' c.1, stPtr U base' c.2) := by
    intro es es' h
    unfold comparisons
    rw [List.reverse_reverse, List.reverse_reverse]
    induction h with
    | nil => exact ⟨[], fun c hc => (nomatch hc), rfl, rfl⟩
    | cons he _ ih =>
      obtain ⟨calls, hlt, hT, hU⟩ := ih
      cases he with
      | @compare i j hi hj =>
        refine ⟨(i, j) :: calls, List.forall_mem_cons.mpr ⟨⟨hi, hj⟩, hlt⟩, ?_, ?_⟩
        · exact congrArg (List.cons (stPtr T base i, stPtr T base j)) hT
        · exact congrArg (List.cons (stPtr U base' i, stPtr U base' j)) hU
      | swapn | sort => exact ⟨calls, hlt, hT, hU⟩
  have hrev := hcalls (List.forall₂_reverse_iff.mpr h)
  rwa [List.reverse_reverse, List.reverse_reverse] at hrev

/-- **And these elements correspond**, each time. -/
theorem compared_alike {es es' : List StEvent}
    (h : List.Forall₂ (StEvent.Alike T U base base' N) es es') {mem : ℕ → β} {mem' : ℕ → γ}
    (hmem : ∀ i < N, E (stView T base mem i) (stView U base' mem' i)) :
    List.Forall₂ (fun c c' => E c.1 c'.1 ∧ E c.2 c'.2) (compared T es mem)
      (compared U es' mem') := by
  induction h generalizing mem mem' with
  | nil => exact .nil
  | cons he _ ih =>
    cases he with
    | compare hi hj => exact .cons ⟨hmem _ hi, hmem _ hj⟩ (ih hmem)
    | swapn hi hj =>
      refine ih ?_
      rw [stView_stSwapn, stView_stSwapn]
      exact swapRun_corresponds hmem hi hj
    | sort => exact ih hmem

/-! ## The two instances -/

/-- The instance for `void`: units are bytes, and an element has `elementSize` of them. -/
def voidTemplate (elementSize : ℕ)
    (compare : (Fin elementSize → β) → (Fin elementSize → β) → ℤ) : StTemplate β where
  step := elementSize
  compare := compare

/-- The instance for a type of that many bytes: units are elements. -/
def typedTemplate (elementSize : ℕ)
    (compare : (Fin elementSize → β) → (Fin elementSize → β) → ℤ) :
    StTemplate (Fin elementSize → β) where
  step := 1
  compare x y := compare (x 0) (y 0)

/-- What the typed instance reads at a pointer, as an element. -/
def typedElement {elementSize : ℕ}
    {compare : (Fin elementSize → β) → (Fin elementSize → β) → ℤ}
    (x : Fin (typedTemplate elementSize compare).step → (Fin elementSize → β)) :
    Fin elementSize → β :=
  x ⟨0, Nat.one_pos⟩

theorem typedElement_stView {elementSize : ℕ}
    {compare : (Fin elementSize → β) → (Fin elementSize → β) → ℤ} {a' : ℕ}
    (mem : ℕ → (Fin elementSize → β)) (i : ℕ) :
    typedElement (stView (typedTemplate elementSize compare) a' mem i) = mem (a' + i) := by
  show mem (a' + i * 1 + 0) = mem (a' + i)
  rw [Nat.mul_one, Nat.add_zero]

/-- **`ST_SORT` on bytes and on elements.** For every size of at least one byte, every
array and every comparator: where the bytes of one array are those of the elements of the
other, both instances end and leave arrays of which this is true again. They call the
comparator for the same elements in the same order, and nothing else in memory has
changed. -/
theorem stSort_void_typed {elementSize : ℕ} (hsize : 0 < elementSize)
    (compare : (Fin elementSize → β) → (Fin elementSize → β) → ℤ) {mem : ℕ → β} {a : ℕ}
    {elems : ℕ → (Fin elementSize → β)} {a' n fuel : ℕ}
    (h : ∀ i < n, ∀ u : Fin elementSize, mem (a + i * elementSize + u) = elems (a' + i) u)
    (hf : n < fuel) :
    ∃ s t, logSort (voidTemplate elementSize compare) fuel 0 n ⟨mem, []⟩ a n = some s ∧
      logSort (typedTemplate elementSize compare) fuel 0 n ⟨elems, []⟩ a' n = some t ∧
      stSort (voidTemplate elementSize compare) fuel mem a n = some s.mem ∧
      stSort (typedTemplate elementSize compare) fuel elems a' n = some t.mem ∧
      (∀ i < n, ∀ u : Fin elementSize,
        s.mem (a + i * elementSize + u) = t.mem (a' + i) u) ∧
      (∀ x, ¬ (a ≤ x ∧ x < a + n * elementSize) → s.mem x = mem x) ∧
      (∃ calls : List (ℕ × ℕ), (∀ c ∈ calls, c.1 < n ∧ c.2 < n) ∧
        comparisons s.log
          = calls.map (fun c => (a + c.1 * elementSize, a + c.2 * elementSize)) ∧
        comparisons t.log = calls.map fun c => (a' + c.1, a' + c.2)) ∧
      compared (voidTemplate elementSize compare) s.log.reverse mem
        = (compared (typedTemplate elementSize compare) t.log.reverse elems).map
          fun c => (typedElement c.1, typedElement c.2) := by
  let E : (Fin (voidTemplate elementSize compare).step → β) →
      (Fin (typedTemplate elementSize compare).step → (Fin elementSize → β)) → Prop :=
    fun x y => x = typedElement y
  have hstart : StLog.Alike (voidTemplate elementSize compare)
      (typedTemplate elementSize compare) E a a' n ⟨mem, []⟩ ⟨elems, []⟩ := by
    refine ⟨fun i hi => ?_, .nil⟩
    show stView (voidTemplate elementSize compare) a mem i = _
    rw [typedElement_stView]
    exact funext fun u => h i hi u
  have hrel := logSort_alike hsize Nat.one_pos (E := E)
    (fun x x' y y' hx hx' => by
      rw [show x = typedElement y from hx, show x' = typedElement y' from hx']
      rfl)
    fuel 0 n 0 n _ _ (Nat.le_of_eq (Nat.zero_add n)) hstart
  obtain ⟨s, hs, hmoved, -⟩ := logSort_runs (T := voidTemplate elementSize compare) hsize fuel
    0 n 0 n ⟨mem, []⟩ hf (Nat.le_refl n) (by rw [Nat.pow_zero, Nat.mul_one])
    (by rw [Nat.zero_add]) (StLog.safe_nil _ a n mem)
  rw [hs, stPtr_zero] at hrel
  rw [stPtr_zero] at hs
  generalize ht : logSort (typedTemplate elementSize compare) fuel 0 n ⟨elems, []⟩ a' n = r at hrel
  cases hrel with
  | @some _ t halike =>
    have hforget := logSort_mem (voidTemplate elementSize compare) fuel 0 n ⟨mem, []⟩ a n
    have hforget' := logSort_mem (typedTemplate elementSize compare) fuel 0 n ⟨elems, []⟩ a' n
    rw [hs] at hforget
    rw [ht] at hforget'
    refine ⟨s, t, hs, rfl, hforget.symm, hforget'.symm, fun i hi u => ?_, fun x hx => ?_, ?_, ?_⟩
    · have helem : stView (voidTemplate elementSize compare) a s.mem i = t.mem (a' + i) :=
        (halike.elems i hi).trans (typedElement_stView t.mem i)
      exact congrFun helem u
    · refine hmoved.eq_of_not hsize ?_
      rwa [stPtr_zero, Nat.zero_add]
    · obtain ⟨calls, hlt, hcT, hcU⟩ := comparisons_alike halike.log
      refine ⟨calls, hlt, hcT, ?_⟩
      rw [hcU]
      exact List.map_congr_left fun c _ => by
        show (a' + c.1 * 1, a' + c.2 * 1) = _
        rw [Nat.mul_one, Nat.mul_one]
    · have hcomp := compared_alike (E := E) (List.forall₂_reverse_iff.mpr halike.log) hstart.elems
      refine List.forall₂_eq_eq_eq ▸ List.forall₂_map_right_iff.mpr (hcomp.imp fun c c' hc => ?_)
      exact Prod.ext hc.1 hc.2

/-- Eight pairs of bytes. -/
def pairElements (i : ℕ) (u : Fin 2) : ℕ := if u = 0 then i % 3 else 8 - i

/-- A comparison of pairs by their second byte. -/
def secondCompare (x y : Fin 2 → ℕ) : ℤ := (x 1 : ℤ) - (y 1 : ℤ)

theorem stSort_void_typed_pairs :
    ∃ s t, stSort (voidTemplate 2 secondCompare) 9
        (fun x => pairElements (x / 2) (Fin.ofNat 2 x)) 0 8 = some s ∧
      stSort (typedTemplate 2 secondCompare) 9 pairElements 0 8 = some t ∧
      ∀ i < 8, ∀ u : Fin 2, s (0 + i * 2 + u) = t (0 + i) u := by
  obtain ⟨s, t, -, -, hs, ht, helem, -⟩ := @stSort_void_typed ℕ 2 Nat.two_pos secondCompare
    (fun x => pairElements (x / 2) (Fin.ofNat 2 x)) 0 pairElements 0 8 9 (by decide)
    (Nat.lt_succ_self 8)
  exact ⟨s.mem, t.mem, hs, ht, helem⟩

end SortTemplate
