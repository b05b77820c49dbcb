import Mathlib.Tactic.Common
import Mathlib.Tactic.SplitIfs
import Mathlib.Order.Basic

/-!
# Positions on a circle

The slots of a table of `n` buckets lie on a circle: after slot `n - 1` comes
slot `0`. `Circ.next` and `Circ.prev` go one slot on and back, `Circ.gap a b`
is how far one has to go on from `a` to reach `b`, and `Circ.shift a k` is
where going on `k` slots from `a` leads.

All four are written with a comparison rather than with a remainder. For
positions below `n` they agree, and a comparison is linear: every fact about
the circle below is a case split followed by linear arithmetic, whatever `n`
is.
-/

namespace Circ

variable {n a b i j k : ℕ}

/-- The slot after `i`. -/
def next (n i : ℕ) : ℕ := if i + 1 < n then i + 1 else 0

/-- The slot before `i`. -/
def prev (n i : ℕ) : ℕ := if i = 0 then n - 1 else i - 1

/-- **How far `b` lies after `a`**, going round the circle. -/
def gap (n a b : ℕ) : ℕ := if a ≤ b then b - a else n + b - a

/-- The slot `k` places after `a`. -/
def shift (n a k : ℕ) : ℕ := if a + k < n then a + k else a + k - n

theorem next_lt (hi : i < n) : next n i < n := by
  unfold next; split_ifs <;> omega

theorem prev_lt (hi : i < n) : prev n i < n := by
  unfold prev; split_ifs <;> omega

theorem gap_lt (hb : b < n) : gap n a b < n := by
  unfold gap; split_ifs <;> omega

theorem shift_lt (ha : a < n) (hk : k < n) : shift n a k < n := by
  unfold shift; split_ifs <;> omega

@[simp] theorem gap_self (n a : ℕ) : gap n a a = 0 := by simp [gap]

theorem gap_eq_zero (ha : a < n) : gap n a b = 0 ↔ a = b := by
  unfold gap; split_ifs <;> omega

@[simp] theorem shift_zero (ha : a < n) : shift n a 0 = a := by
  simp [shift, ha]

theorem next_prev (hi : i < n) : next n (prev n i) = i := by
  unfold next prev; split_ifs <;> omega

theorem prev_next (hi : i < n) : prev n (next n i) = i := by
  unfold next
  split_ifs with h
  · simp [prev]
  · simp only [prev, if_true]; omega

theorem gap_shift (ha : a < n) (hk : k < n) : gap n a (shift n a k) = k := by
  unfold gap shift; split_ifs <;> omega

theorem shift_gap (ha : a < n) (hb : b < n) : shift n a (gap n a b) = b := by
  unfold gap shift; split_ifs <;> omega

/-- Two slots as far from `a` as one another are the same slot. -/
theorem eq_of_gap_eq (ha : a < n) (hi : i < n) (hj : j < n)
    (h : gap n a i = gap n a j) : i = j := by
  rw [← shift_gap ha hi, ← shift_gap ha hj, h]

/-- Going one slot on is one slot farther, until one is back. -/
theorem gap_next (ha : a < n) (hi : i < n) (h : a ≠ next n i) :
    gap n a (next n i) = gap n a i + 1 := by
  unfold gap next at *; split_ifs at * <;> omega

/-- Going one slot on is one slot farther, below the full circle. -/
theorem gap_next_of_lt (ha : a < n) (hi : i < n) (h : gap n a i + 1 < n) :
    gap n a (next n i) = gap n a i + 1 := by
  unfold gap next at *; split_ifs at * <;> omega

/-- Coming from one slot back is one slot less far. -/
theorem gap_prev (ha : a < n) (hi : i < n) (h : a ≠ i) :
    gap n a (prev n i) + 1 = gap n a i := by
  unfold gap prev at *; split_ifs at * <;> omega

/-- The slot before `a` is the farthest from it. -/
theorem gap_prev_self (ha : a < n) : gap n a (prev n a) + 1 = n := by
  unfold gap prev; split_ifs <;> omega

/-- Going on from the slot after `a`, all others come before `a`. -/
theorem gap_next_self (ha : a < n) : gap n (next n a) a + 1 = n := by
  have h := gap_prev_self (next_lt ha)
  rwa [prev_next ha] at h

/-- There and back is once round the circle. -/
theorem gap_add_gap (ha : a < n) (hb : b < n) (h : a ≠ b) :
    gap n a b + gap n b a = n := by
  unfold gap; split_ifs <;> omega

/-- Distances add up along a path that does not pass its start again. -/
theorem gap_add (ha : a < n) (hi : i < n) (hj : j < n)
    (h : gap n a i ≤ gap n a j) : gap n a i + gap n i j = gap n a j := by
  unfold gap at *; split_ifs at * <;> omega

/-- The distance to a slot that lies at or after `i` on the way from `a`. -/
theorem gap_add_of_lt (ha : a < n) (hi : i < n)
    (h : gap n a i + gap n i j < n) : gap n a j = gap n a i + gap n i j := by
  unfold gap at *; split_ifs at * <;> omega

end Circ
