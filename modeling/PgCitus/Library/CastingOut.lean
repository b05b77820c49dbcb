import Mathlib.Data.BitVec
import Mathlib.Data.Nat.ModEq
import Mathlib.Tactic.Ring

/-!
# Casting out

Modulo `2 ^ w - 1` a word of several digits of `w` bits is the sum of its digits, as
`2 ^ w` is one there. A digit is what it is, but for the two that are both zero: no bits
and all bits. So of two words that differ in one digit only, the residues tell them apart
unless that digit has been turned from no bits into all bits.
-/

namespace CastingOut

variable {w : ℕ} {a b c d : BitVec w}

/-- A word of two digits is their sum. -/
theorem append_modEq (a b : BitVec w) :
    (a ++ b).toNat ≡ a.toNat + b.toNat [MOD 2 ^ w - 1] := by
  have hone : 2 ^ w ≡ 1 [MOD 2 ^ w - 1] := Nat.modEq_sub Nat.one_le_two_pow
  have hvalue : (a ++ b).toNat = 2 ^ w * a.toNat + b.toNat := by
    rw [BitVec.toNat_append, ← Nat.shiftLeft_add_eq_or_of_lt b.isLt, Nat.shiftLeft_eq,
      Nat.mul_comm]
  rw [hvalue]
  exact ((hone.mul_right a.toNat).add_right b.toNat).trans (by rw [Nat.one_mul])

/-- **Digits with the same residue** are the same, or one has no bits and the other all. -/
theorem eq_or_of_modEq (h : a.toNat ≡ b.toNat [MOD 2 ^ w - 1]) :
    a = b ∨ a ^^^ b = BitVec.allOnes w := by
  have ha : a.toNat ≤ 2 ^ w - 1 := Nat.le_sub_one_of_lt a.isLt
  have hb : b.toNat ≤ 2 ^ w - 1 := Nat.le_sub_one_of_lt b.isLt
  have hlt : ∀ {x : BitVec w}, x.toNat ≤ 2 ^ w - 1 → x.toNat < 2 ^ w - 1 ∨
      x = BitVec.allOnes w := by
    intro x hx
    refine hx.lt_or_eq.imp_right fun hx => BitVec.eq_of_toNat_eq ?_
    rw [hx, BitVec.toNat_allOnes]
  -- a digit whose residue is that of all bits has no bits, if it has not all
  have hzero : ∀ {x : BitVec w}, x.toNat < 2 ^ w - 1 →
      x.toNat ≡ (BitVec.allOnes w).toNat [MOD 2 ^ w - 1] → x = 0#w := by
    intro x hx hmod
    rw [BitVec.toNat_allOnes] at hmod
    have hres : x.toNat % (2 ^ w - 1) = 0 :=
      (show x.toNat % (2 ^ w - 1) = (2 ^ w - 1) % (2 ^ w - 1) from hmod).trans (Nat.mod_self _)
    rw [Nat.mod_eq_of_lt hx] at hres
    exact BitVec.eq_of_toNat_eq hres
  rcases hlt ha with hla | rfl <;> rcases hlt hb with hlb | rfl
  · exact .inl (BitVec.eq_of_toNat_eq (h.eq_of_lt_of_lt hla hlb))
  · rw [hzero hla h, BitVec.zero_xor]
    exact .inr rfl
  · rw [hzero hlb h.symm, BitVec.xor_zero]
    exact .inr rfl
  · exact .inl rfl

/-- **Words that share the high digit.** -/
theorem eq_or_of_append_modEq_right
    (h : (a ++ b).toNat ≡ (a ++ d).toNat [MOD 2 ^ w - 1]) :
    b = d ∨ b ^^^ d = BitVec.allOnes w := by
  have hsum := (append_modEq a b).symm.trans (h.trans (append_modEq a d))
  exact eq_or_of_modEq (Nat.ModEq.add_left_cancel' a.toNat hsum)

/-- **Words that share the low digit.** -/
theorem eq_or_of_append_modEq_left
    (h : (a ++ b).toNat ≡ (c ++ b).toNat [MOD 2 ^ w - 1]) :
    a = c ∨ a ^^^ c = BitVec.allOnes w := by
  have hsum := (append_modEq a b).symm.trans (h.trans (append_modEq c b))
  exact eq_or_of_modEq (Nat.ModEq.add_right_cancel' b.toNat hsum)

end CastingOut
