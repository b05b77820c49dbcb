import PgCitus.Library.Quicksort
import Mathlib.SetTheory.Cardinal.Finite

/-!
# The first element of every class

A total preorder divides the elements of a sequence into classes of elements that compare
equal, and each class has an element that comes first. `firsts` are the positions of
these, in order: as many as there are classes (`length_firsts`), and each element belongs
to the class of exactly one of them (`existsUnique_firsts`).

In a sequence in order the classes lie one after the other. Whether an element is the
first of its class can then be told from the first element of the class before it alone
(`firsts_succ`), and the first elements are in strict order (`lt_of_firsts`).
-/

namespace Quicksort

variable {α : Type*} {cmp : α → α → ℤ} {f : ℕ → α} {n : ℕ}

/-! ## Elements that compare equal -/

theorem TotalPreorder.eq_zero_iff (h : TotalPreorder cmp) (a b : α) :
    cmp a b = 0 ↔ cmp a b ≤ 0 ∧ cmp b a ≤ 0 := by
  rw [← h.nonneg_iff a b, le_antisymm_iff]

theorem TotalPreorder.symm (h : TotalPreorder cmp) {a b : α} (hab : cmp a b = 0) :
    cmp b a = 0 := by
  rw [h.eq_zero_iff] at hab ⊢
  exact hab.symm

theorem TotalPreorder.eq_trans (h : TotalPreorder cmp) {a b c : α} (hab : cmp a b = 0)
    (hbc : cmp b c = 0) : cmp a c = 0 := by
  rw [h.eq_zero_iff] at hab hbc ⊢
  exact ⟨h.trans a b c hab.1 hbc.1, h.trans c b a hbc.2 hab.2⟩

/-- In a sequence in order, every element is no greater than a later one. -/
theorem SortedOn.le (hcmp : TotalPreorder cmp) (h : SortedOn cmp f 0 n) {a b : ℕ}
    (hab : a ≤ b) (hb : b < n) : cmp (f a) (f b) ≤ 0 := by
  induction b, hab using Nat.le_induction with
  | base => exact (hcmp.refl _).le
  | succ b _ ih =>
    exact hcmp.trans _ _ _ (ih (Nat.lt_of_succ_lt hb)) (h b (Nat.zero_le b) hb)

/-- What lies between two elements of a class is of the class. -/
theorem SortedOn.between (hcmp : TotalPreorder cmp) (h : SortedOn cmp f 0 n) {a b c : ℕ}
    (hab : a ≤ b) (hbc : b ≤ c) (hc : c < n) (heq : cmp (f a) (f c) = 0) :
    cmp (f b) (f c) = 0 := by
  rw [hcmp.eq_zero_iff] at heq ⊢
  exact ⟨h.le hcmp hbc hc, hcmp.trans _ _ _ heq.2 (h.le hcmp hab (hbc.trans_lt hc))⟩

/-! ## First elements -/

/-- **The first of its class**: no element before it compares equal to it. -/
def IsFirst (cmp : α → α → ℤ) (f : ℕ → α) (p : ℕ) : Prop :=
  ∀ q < p, cmp (f q) (f p) ≠ 0

instance (cmp : α → α → ℤ) (f : ℕ → α) (p : ℕ) : Decidable (IsFirst cmp f p) :=
  inferInstanceAs (Decidable (∀ q < p, cmp (f q) (f p) ≠ 0))

/-- **The positions of the first elements of the classes**, in order. -/
def firsts (cmp : α → α → ℤ) (f : ℕ → α) (n : ℕ) : List ℕ :=
  (List.range n).filter fun p => IsFirst cmp f p

@[simp] theorem mem_firsts {p : ℕ} : p ∈ firsts cmp f n ↔ p < n ∧ IsFirst cmp f p := by
  rw [firsts, List.mem_filter, List.mem_range, decide_eq_true_iff]

theorem pairwise_firsts (cmp : α → α → ℤ) (f : ℕ → α) (n : ℕ) :
    (firsts cmp f n).Pairwise (· < ·) :=
  List.pairwise_lt_range.filter _

theorem length_firsts_le (cmp : α → α → ℤ) (f : ℕ → α) (n : ℕ) :
    (firsts cmp f n).length ≤ n :=
  (List.length_filter_le _ _).trans List.length_range.le

/-- One more element is one more first element, or none. -/
theorem firsts_succ_eq (cmp : α → α → ℤ) (f : ℕ → α) (n : ℕ) :
    firsts cmp f (n + 1) = firsts cmp f n ++ if IsFirst cmp f n then [n] else [] := by
  rw [firsts, List.range_succ, List.filter_append, List.filter_singleton]
  split_ifs with h
  · rw [decide_eq_true h]
    rfl
  · rw [decide_eq_false h]
    rfl

/-- One element, or none. -/
theorem firsts_of_le_one (cmp : α → α → ℤ) (f : ℕ → α) (hn : n ≤ 1) :
    firsts cmp f n = List.range n := by
  refine List.filter_eq_self.mpr fun p hp => decide_eq_true fun q hq => ?_
  exact absurd ((Nat.zero_le q).trans_lt hq |>.trans_le (Nat.le_of_lt_succ
    ((List.mem_range.mp hp).trans_le hn))) (Nat.lt_irrefl 0)

/-- **Every element is in the class of a first element**, which does not come after it. -/
theorem exists_isFirst (hcmp : TotalPreorder cmp) (f : ℕ → α) (i : ℕ) :
    ∃ p ≤ i, IsFirst cmp f p ∧ cmp (f p) (f i) = 0 := by
  induction i using Nat.strong_induction_on with
  | _ i ih =>
    by_cases hi : IsFirst cmp f i
    · exact ⟨i, le_rfl, hi, hcmp.refl _⟩
    · simp only [IsFirst, not_forall, not_not] at hi
      obtain ⟨q, hq, heq⟩ := hi
      obtain ⟨p, hpq, hp, hpeq⟩ := ih q hq
      exact ⟨p, hpq.trans hq.le, hp, hcmp.eq_trans hpeq heq⟩

/-- Two first elements of one class are one. -/
theorem IsFirst.unique (hcmp : TotalPreorder cmp) {p q : ℕ} (hp : IsFirst cmp f p)
    (hq : IsFirst cmp f q) (heq : cmp (f p) (f q) = 0) : p = q := by
  refine le_antisymm (not_lt.mp fun hlt => ?_) (not_lt.mp fun hlt => ?_)
  · exact hp q hlt (hcmp.symm heq)
  · exact hq p hlt heq

/-! ## As many as there are classes -/

/-- **The classes of the first `n` elements.** -/
def classes (hcmp : TotalPreorder cmp) (f : ℕ → α) (n : ℕ) : Setoid (Fin n) where
  r i j := cmp (f i) (f j) = 0
  iseqv := ⟨fun i => hcmp.refl (f i), hcmp.symm, hcmp.eq_trans⟩

/-- **There are as many first elements as classes.** -/
theorem length_firsts (hcmp : TotalPreorder cmp) (f : ℕ → α) (n : ℕ) :
    (firsts cmp f n).length = Nat.card (Quotient (classes hcmp f n)) := by
  let first (c : Fin (firsts cmp f n).length) : Fin n :=
    ⟨(firsts cmp f n).get c, (mem_firsts.mp (List.get_mem _ c)).1⟩
  have hfirst (c) : IsFirst cmp f (first c) := (mem_firsts.mp (List.get_mem _ c)).2
  have hbij : Function.Bijective fun c => (⟦first c⟧ : Quotient (classes hcmp f n)) := by
    refine ⟨fun c d heq => ?_, fun x => ?_⟩
    · have hpos := (hfirst c).unique hcmp (hfirst d) (Quotient.exact heq)
      exact (pairwise_firsts cmp f n).nodup.injective_get hpos
    · obtain ⟨i, rfl⟩ := Quotient.exists_rep x
      obtain ⟨p, hpi, hp, heq⟩ := exists_isFirst hcmp f i
      obtain ⟨c, hc⟩ := List.get_of_mem (mem_firsts.mpr ⟨hpi.trans_lt i.isLt, hp⟩)
      refine ⟨c, Quotient.sound ?_⟩
      show cmp (f ((firsts cmp f n).get c)) (f i) = 0
      rw [hc]
      exact heq
  rw [← Nat.card_eq_of_bijective _ hbij, Nat.card_eq_fintype_card, Fintype.card_fin]

/-- **Every element is in the class of exactly one first element.** -/
theorem existsUnique_firsts (hcmp : TotalPreorder cmp) (f : ℕ → α) {i : ℕ} (hi : i < n) :
    ∃! p, p ∈ firsts cmp f n ∧ cmp (f i) (f p) = 0 := by
  obtain ⟨p, hpi, hp, heq⟩ := exists_isFirst hcmp f i
  refine ⟨p, ⟨mem_firsts.mpr ⟨hpi.trans_lt hi, hp⟩, hcmp.symm heq⟩, fun q hq => ?_⟩
  exact (mem_firsts.mp hq.1).2.unique hcmp hp (hcmp.symm (hcmp.eq_trans heq hq.2))

/-! ## In a sequence in order -/

/-- The last first element is in the class of the last element. -/
theorem SortedOn.last_class (hcmp : TotalPreorder cmp) (h : SortedOn cmp f 0 (n + 1))
    {p : ℕ} (hp : (firsts cmp f n).getLast? = some p) {q : ℕ} (hq : q < n)
    (heq : cmp (f q) (f n) = 0) : cmp (f n) (f p) = 0 := by
  obtain ⟨r, hrq, hr, hreq⟩ := exists_isFirst hcmp f q
  have hpn := (mem_firsts.mp (List.mem_of_getLast? hp)).1
  have hrp : r ≤ p := by
    obtain ⟨l, hl⟩ := List.getLast?_eq_some_iff.mp hp
    have hmem : r ∈ firsts cmp f n := mem_firsts.mpr ⟨hrq.trans_lt hq, hr⟩
    have hsorted := pairwise_firsts cmp f n
    rw [hl, List.pairwise_append] at hsorted
    rw [hl, List.mem_append, List.mem_singleton] at hmem
    rcases hmem with hmem | rfl
    · exact (hsorted.2.2 r hmem p (List.mem_singleton_self p)).le
    · exact le_rfl
  exact hcmp.symm (h.between hcmp hrp hpn.le (Nat.lt_succ_self n) (hcmp.eq_trans hreq heq))

/-- **An element is the first of its class if it does not compare equal to the first
element of the class before it.** -/
theorem SortedOn.firsts_succ (hcmp : TotalPreorder cmp) (h : SortedOn cmp f 0 (n + 1))
    {p : ℕ} (hp : (firsts cmp f n).getLast? = some p) :
    firsts cmp f (n + 1) =
      firsts cmp f n ++ if cmp (f n) (f p) ≠ 0 then [n] else [] := by
  have hiff : IsFirst cmp f n ↔ cmp (f n) (f p) ≠ 0 := by
    refine ⟨fun hn heq => ?_, fun hne q hq heq => hne (h.last_class hcmp hp hq heq)⟩
    exact hn p (mem_firsts.mp (List.mem_of_getLast? hp)).1 (hcmp.symm heq)
  rw [firsts_succ_eq, if_congr hiff rfl rfl]

/-- **The first elements of the classes are in strict order.** -/
theorem SortedOn.lt_of_isFirst (hcmp : TotalPreorder cmp) (h : SortedOn cmp f 0 n) {p q : ℕ}
    (hpq : p < q) (hq : q < n) (hfirst : IsFirst cmp f q) : cmp (f p) (f q) < 0 :=
  lt_of_le_of_ne (h.le hcmp hpq.le hq) (hfirst p hpq)

end Quicksort
