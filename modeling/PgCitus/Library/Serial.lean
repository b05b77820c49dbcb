import Mathlib.Algebra.Group.Int.Defs
import Mathlib.Algebra.Group.Nat.Defs
import Mathlib.Data.Int.Notation
import Mathlib.Data.Set.Function
import Mathlib.Order.Defs.Unbundled
import Mathlib.Order.MinMax
import Mathlib.Tactic.Common

/-!
# Serial numbers

A counter that never stops, kept in `w` bits, goes round. Which of two of its values
came first is then read off the sign of their difference (`Before`) – a relation that
is not transitive on all values, since each of three values a third of the circle apart
is before the next.

It is right as long as the counter values that are compared lie close together: on
positions less than half the circle apart (`Near`) the difference of the serial numbers
is the difference of the positions (`toInt_sub_ofInt`), so `Before` is their order, and
whatever is an order on the positions is one on the serial numbers
(`isStrictTotalOrder_image`). The oldest of several is then found by going through them
once, in any order (`foldlM_eq_min`).
-/

namespace Serial

section Order

variable {α β : Type*} {S : Set α} {f : α → β} {r : β → β → Prop} {s : α → α → Prop}

/-- **A relation that follows an order through a projection** is an order of the
projections. -/
theorem isStrictTotalOrder_image [IsStrictTotalOrder α s]
    (h : ∀ x ∈ S, ∀ y ∈ S, r (f x) (f y) ↔ s x y) :
    IsStrictTotalOrder (f '' S) (fun a b => r a b) where
  trichotomous := by
    rintro ⟨_, x, hx, rfl⟩ ⟨_, y, hy, rfl⟩ hxy hyx
    have hxy' : ¬ s x y := fun hlt => hxy ((h x hx y hy).mpr hlt)
    have hyx' : ¬ s y x := fun hlt => hyx ((h y hy x hx).mpr hlt)
    exact Subtype.ext (congrArg f (Std.Trichotomous.trichotomous x y hxy' hyx'))
  irrefl := by
    rintro ⟨_, x, hx, rfl⟩ hxx
    exact irrefl x ((h x hx x hx).mp hxx)
  trans := by
    rintro ⟨_, x, hx, rfl⟩ ⟨_, y, hy, rfl⟩ ⟨_, z, hz, rfl⟩ hxy hyz
    exact (h x hx z hz).mpr (trans_of s ((h x hx y hy).mp hxy) ((h y hy z hz).mp hyz))

/-- **The least of several**, through a projection: an operation that follows `min` finds
it, in whatever order it goes through them. -/
theorem foldlM_eq_min {α β : Type*} [LinearOrder α] {S : Set α} {f : α → β}
    {op : β → β → Option β} (h : ∀ x ∈ S, ∀ y ∈ S, op (f x) (f y) = some (f (min x y)))
    {x : α} {l : List α} (hx : x ∈ S) (hl : ∀ y ∈ l, y ∈ S) :
    (l.map f).foldlM op (f x) = some (f (l.foldl min x)) := by
  induction l generalizing x with
  | nil => rfl
  | cons y l ih =>
    have hy : y ∈ S := hl y List.mem_cons_self
    have hmin : min x y ∈ S := by
      rcases min_choice x y with h | h
      · rw [h]; exact hx
      · rw [h]; exact hy
    rw [List.map_cons, List.foldlM_cons, h x hx y hy]
    exact ih hmin fun z hz => hl z (List.mem_cons_of_mem y hz)

end Order

variable {w : ℕ}

/-- **What is before what**, by the sign of the difference. -/
def Before (a b : BitVec w) : Prop := (a - b).toInt < 0

instance (a b : BitVec w) : Decidable (Before a b) := Int.decLt _ _

/-- **Positions close together**: any two of them are less than half the circle
apart. -/
def Near (w : ℕ) (S : Set ℤ) : Prop := ∀ x ∈ S, ∀ y ∈ S, 2 * (x - y) < 2 ^ w

/-- **The difference of serial numbers is the difference of the positions**, where that
fits. -/
theorem toInt_sub_ofInt {x y : ℤ} (hxy : 2 * (x - y) < 2 ^ w) (hyx : 2 * (y - x) < 2 ^ w) :
    (BitVec.ofInt w x - BitVec.ofInt w y).toInt = x - y := by
  have hpow : ((2 ^ w : ℕ) : ℤ) = 2 ^ w := by norm_cast
  rw [BitVec.toInt_sub, BitVec.toInt_ofInt, BitVec.toInt_ofInt, Int.bmod_sub_bmod,
    Int.sub_bmod_bmod]
  exact Int.bmod_eq_of_le_mul_two (by rw [hpow]; omega) (by rw [hpow]; omega)

variable {S : Set ℤ} {x y : ℤ}

theorem Near.toInt_sub (hS : Near w S) (hx : x ∈ S) (hy : y ∈ S) :
    (BitVec.ofInt w x - BitVec.ofInt w y).toInt = x - y :=
  toInt_sub_ofInt (hS x hx y hy) (hS y hy x hx)

/-- **Close together, `Before` is the order of the positions.** -/
theorem Near.before_iff (hS : Near w S) (hx : x ∈ S) (hy : y ∈ S) :
    Before (BitVec.ofInt w x) (BitVec.ofInt w y) ↔ x < y := by
  rw [Before, hS.toInt_sub hx hy]
  exact ⟨Int.lt_of_sub_neg, Int.sub_neg_of_lt⟩

theorem Near.after_iff (hS : Near w S) (hx : x ∈ S) (hy : y ∈ S) :
    0 < (BitVec.ofInt w x - BitVec.ofInt w y).toInt ↔ y < x := by
  rw [hS.toInt_sub hx hy]
  exact ⟨Int.lt_of_sub_pos, Int.sub_pos_of_lt⟩

/-- On all values it is not an order: three values a third of the circle apart. -/
example : Before (0#8) (85#8) ∧ Before (85#8) (170#8) ∧ Before (170#8) (0#8) := by decide

end Serial
