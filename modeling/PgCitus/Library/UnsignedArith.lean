import Mathlib.Data.BitVec

/-!
# Unsigned arithmetic as C has it

The result of an operation on unsigned integers is reduced modulo a power of two. Whether it
has been reduced can be told from the reduced result: a sum is then less than its operands, and
a product divided by one factor is no longer the other.
-/

namespace UnsignedArith

variable {w : ℕ}

/-- **A reduced sum** is less than an operand. -/
theorem add_lt_left_iff (a b : BitVec w) : a + b < a ↔ 2 ^ w ≤ a.toNat + b.toNat := by
  rw [BitVec.lt_def, BitVec.toNat_add]
  have ha := a.isLt
  have hb := b.isLt
  by_cases h : a.toNat + b.toNat < 2 ^ w
  · rw [Nat.mod_eq_of_lt h]
    exact iff_of_false (Nat.not_lt.mpr (Nat.le_add_right _ _)) (Nat.not_le.mpr h)
  · rw [Nat.mod_eq_sub_mod (Nat.not_lt.mp h), Nat.mod_eq_of_lt (by omega)]
    exact iff_of_true (by omega) (Nat.not_lt.mp h)

/-- **A reduced product** does not give back its factor. -/
theorem ne_mul_div_iff (a b : BitVec w) :
    (a ≠ 0 ∧ b ≠ a * b / a) ↔ 2 ^ w ≤ a.toNat * b.toNat := by
  by_cases ha : a = 0
  · rw [ha]
    refine iff_of_false (fun h => h.1 rfl) (Nat.not_le.mpr ?_)
    show 0 % 2 ^ w * b.toNat < 2 ^ w
    rw [Nat.zero_mod, Nat.zero_mul]
    exact Nat.two_pow_pos w
  · have hpos : 0 < a.toNat :=
      Nat.pos_of_ne_zero fun h => ha (BitVec.eq_of_toNat_eq (h.trans (Nat.zero_mod _).symm))
    rw [and_iff_right ha, ne_eq, ← BitVec.toNat_inj, BitVec.toNat_udiv, BitVec.toNat_mul]
    by_cases h : a.toNat * b.toNat < 2 ^ w
    · rw [Nat.mod_eq_of_lt h, Nat.mul_div_cancel_left _ hpos]
      exact iff_of_false (not_not.mpr rfl) (Nat.not_le.mpr h)
    · refine iff_of_true (fun heq => h ?_) (Nat.not_lt.mp h)
      -- the quotient is at most the reduced product by the factor
      calc a.toNat * b.toNat = a.toNat * (a.toNat * b.toNat % 2 ^ w / a.toNat) := by rw [← heq]
        _ ≤ a.toNat * b.toNat % 2 ^ w := Nat.mul_div_le _ _
        _ < 2 ^ w := Nat.mod_lt _ (Nat.two_pow_pos w)

/-- In twice the width no product is reduced. -/
theorem toNat_mul_double (a b : BitVec w) :
    (a.setWidth (2 * w) * b.setWidth (2 * w)).toNat = a.toNat * b.toNat := by
  have hle : w ≤ 2 * w := Nat.le_mul_of_pos_left w Nat.two_pos
  rw [BitVec.toNat_mul, BitVec.toNat_setWidth_of_le hle, BitVec.toNat_setWidth_of_le hle,
    Nat.mul_comm 2 w]
  exact Nat.mod_eq_of_lt BitVec.toNat_mul_toNat_lt

end UnsignedArith
