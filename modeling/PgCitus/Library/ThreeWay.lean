import PgCitus.Library.Quicksort
import Mathlib.Algebra.Order.Group.Int
import Mathlib.Algebra.Order.Group.Unbundled.Basic

/-!
# Building comparators

The comparator of a linear order (`ofLinearOrder`), and ways to make one three-way
comparator from another: read it backwards, compare by a key, put elements without a
value before or after all others. Only the sign of a result counts, so a comparator may
be replaced by one with the same signs; and each of the constructions keeps a total
preorder one (`Quicksort.TotalPreorder`).

`Refines` relates a cheap comparator to an authoritative one: whatever it decides, it
decides as the other would. Asking the authoritative one in the other cases then gives
its order exactly (`Refines.orElse_sign`).
-/

namespace ThreeWay

open Quicksort

variable {α β : Type*} {cmp cmp' : α → α → ℤ}

/-- Comparators with the same signs are total preorders alike. -/
theorem totalPreorder_congr (h : TotalPreorder cmp)
    (hs : ∀ a b, (cmp' a b).sign = (cmp a b).sign) : TotalPreorder cmp' := by
  have hpos : ∀ a b, 0 < cmp' a b ↔ 0 < cmp a b := fun a b => by
    rw [← Int.sign_eq_one_iff_pos, hs, Int.sign_eq_one_iff_pos]
  have hneg : ∀ a b, cmp' a b < 0 ↔ cmp a b < 0 := fun a b => by
    rw [← Int.sign_eq_neg_one_iff_neg, hs, Int.sign_eq_neg_one_iff_neg]
  refine ⟨fun a b => ?_, fun a b c hab hbc => ?_⟩
  · rw [hpos, hneg, h.pos_iff]
  · rw [← not_lt, hpos, not_lt] at hab hbc ⊢
    exact h.trans a b c hab hbc

/-- **A total preorder read backwards**: a comparator with the opposite signs. -/
theorem totalPreorder_reverse (h : TotalPreorder cmp)
    (hs : ∀ a b, (cmp' a b).sign = -(cmp a b).sign) : TotalPreorder cmp' := by
  have hneg : TotalPreorder fun a b => -cmp a b := by
    refine ⟨fun a b => ?_, fun a b c hab hbc => ?_⟩
    · rw [neg_pos, neg_lt_zero, h.pos_iff]
    · rw [neg_nonpos, h.nonneg_iff] at hab hbc ⊢
      exact h.trans c b a hbc hab
  exact totalPreorder_congr hneg fun a b => (hs a b).trans (Int.sign_neg _).symm

/-- Comparing by a key. -/
theorem totalPreorder_comap (h : TotalPreorder cmp) (key : β → α) :
    TotalPreorder fun a b => cmp (key a) (key b) :=
  ⟨fun a b => h.pos_iff (key a) (key b), fun a b c => h.trans (key a) (key b) (key c)⟩

section LinearOrder

variable {κ : Type*} [LinearOrder κ]

/-- **The comparator of a linear order.** -/
def ofLinearOrder (a b : κ) : ℤ := if a = b then 0 else if b < a then 1 else -1

theorem ofLinearOrder_eq_zero_iff {a b : κ} : ofLinearOrder a b = 0 ↔ a = b := by
  unfold ofLinearOrder
  split_ifs with heq
  · exact iff_of_true rfl heq
  · exact iff_of_false (by decide) heq
  · exact iff_of_false (by decide) heq

theorem ofLinearOrder_pos_iff {a b : κ} : 0 < ofLinearOrder a b ↔ b < a := by
  unfold ofLinearOrder
  split_ifs with heq hlt
  · exact iff_of_false (by decide) heq.not_gt
  · exact iff_of_true (by decide) hlt
  · exact iff_of_false (by decide) hlt

theorem ofLinearOrder_neg_iff {a b : κ} : ofLinearOrder a b < 0 ↔ a < b := by
  rw [← not_le, le_iff_lt_or_eq, ofLinearOrder_pos_iff, eq_comm, ofLinearOrder_eq_zero_iff,
    eq_comm, ← le_iff_lt_or_eq, not_le]

theorem totalPreorder_ofLinearOrder : TotalPreorder (ofLinearOrder : κ → κ → ℤ) := by
  refine ⟨fun a b => ?_, fun a b c hab hbc => ?_⟩
  · rw [ofLinearOrder_pos_iff, ofLinearOrder_neg_iff]
  · rw [← not_lt, ofLinearOrder_pos_iff, not_lt] at hab hbc ⊢
    exact hab.trans hbc

end LinearOrder

/-- **A comparator for elements that may have no value.** Those without one are
alike, and compare with the others as `none₁` says. -/
def withNone (none₁ : ℤ) (cmp : α → α → ℤ) : Option α → Option α → ℤ
  | none, none => 0
  | none, some _ => none₁
  | some _, none => -none₁
  | some a, some b => cmp a b

/-- **Elements without a value before, or after, all others** keep the order total:
a triple of them mixes the two in one of eight ways. -/
theorem totalPreorder_withNone (h : TotalPreorder cmp) {none₁ : ℤ} (h₁ : none₁ ≠ 0) :
    TotalPreorder (withNone none₁ cmp) := by
  refine ⟨fun a b => ?_, fun a b c hab hbc => ?_⟩
  · cases a <;> cases b
    · exact Iff.rfl
    · exact (neg_lt_zero (a := none₁)).symm
    · exact neg_pos
    · exact h.pos_iff _ _
  · cases a <;> cases b <;> cases c
    · exact le_rfl
    · exact hbc
    · exact le_rfl
    · exact hab
    · exact hab
    · -- a value between two elements without one
      exact absurd (le_antisymm hbc (neg_nonpos.mp hab)) h₁
    · exact hbc
    · exact h.trans _ _ _ hab hbc

/-- **A cheap comparator for an authoritative one**: what it decides is right. -/
def Refines (quick full : α → α → ℤ) : Prop :=
  ∀ a b, quick a b ≠ 0 → (quick a b).sign = (full a b).sign

/-- Ask the cheap comparator first. -/
def orElse (quick full : α → α → ℤ) (a b : α) : ℤ :=
  if quick a b ≠ 0 then quick a b else full a b

/-- **Asking the cheap comparator first changes no order.** -/
theorem Refines.orElse_sign {quick full : α → α → ℤ} (h : Refines quick full) (a b : α) :
    (orElse quick full a b).sign = (full a b).sign := by
  unfold orElse
  split
  · next hne => exact h a b hne
  · rfl

/-- What is decided on values is decided on elements that may have none: where one of
them has none, both comparators say the same. -/
theorem Refines.withNone {quick : β → β → ℤ} {full : α → α → ℤ} {key : α → β}
    (h : Refines (fun a b => quick (key a) (key b)) full) (none₁ : ℤ) :
    Refines (fun a b => withNone none₁ quick (a.map key) (b.map key)) (withNone none₁ full) := by
  intro a b hne
  cases a <;> cases b
  · rfl
  · rfl
  · rfl
  · exact h _ _ hne

end ThreeWay
