import Mathlib.Data.Int.ConditionallyCompleteOrder
import Mathlib.Order.ConditionallyCompleteLattice.Basic
import Mathlib.Order.GaloisConnection.Basic
import Mathlib.Tactic.Common

/-!
# Time in periods

Time is divided into periods that follow one another: `start k` is where the `k`-th one
starts, and `index t` says which one `t` is in. That the one belongs to the other is a
Galois connection: the `k`-th period has started by `t` if and only if `t` is in it or in
a later one. Periods may be of different lengths, and periods of periods are composed.

A step that leads from nowhere less far than from the start of the period leads out of the
period, wherever it is made, if and only if it does so from the start of every period
(`leaves_iff`).
-/

namespace Periods

variable {start index f : ℤ → ℤ}

/-- Periods are found by their bounds. -/
theorem gc_of_mem (hmono : Monotone start)
    (h : ∀ t, start (index t) ≤ t ∧ t < start (index t + 1)) : GaloisConnection start index := by
  intro k t
  constructor
  · intro hk
    by_contra hlt
    have hnext : index t + 1 ≤ k := Int.add_one_le_of_lt (Int.lt_of_not_ge hlt)
    exact absurd (hk.trans_lt (h t).2) (not_lt_of_ge (hmono hnext))
  · intro hk
    exact (hmono hk).trans (h t).1

/-- Periods of `n` units. -/
theorem gc_ediv {n : ℤ} (hn : 0 < n) : GaloisConnection (fun k => k * n) (fun t => t / n) :=
  fun _ _ => (Int.le_ediv_iff_mul_le hn).symm

variable (gc : GaloisConnection start index)
include gc

/-- To be in the same period is to lie between the same bounds. -/
theorem index_eq_iff {t k : ℤ} : index t = k ↔ start k ≤ t ∧ t < start (k + 1) := by
  rw [gc.le_iff_le, gc.lt_iff_lt, Int.lt_add_one_iff, and_comm]
  exact le_antisymm_iff

/-- A later period has started. -/
theorem index_lt_iff {t t' : ℤ} : index t < index t' ↔ start (index t + 1) ≤ t' :=
  Int.add_one_le_iff.symm.trans (gc.le_iff_le).symm

/-- **A step leads out of every period** if and only if it does so from where they
start, provided that it leads from nowhere less far. -/
theorem leaves_iff (hf : ∀ t, f (start (index t)) ≤ f t) :
    (∀ t, index t < index (f t)) ↔ ∀ k, start (k + 1) ≤ f (start k) := by
  constructor
  · intro h k
    have hk : k + 1 ≤ index (start k) + 1 := Int.add_le_add_right (gc.le_u_l k) 1
    exact (gc.monotone_l hk).trans ((index_lt_iff gc).mp (h (start k)))
  · intro h t
    exact (index_lt_iff gc).mpr ((h (index t)).trans (hf t))

end Periods
