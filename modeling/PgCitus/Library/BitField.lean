import Mathlib.Data.BitVec

/-!
# Fields of a machine word

A word that packs several fields is written with `|||` and read with `&&&` and a
mask. What makes that work is that every value keeps within the mask of its own
field and that the masks do not meet: then reading a field gives back what was put
there, and the other fields do not show through.

`Within m x` says that `x` has no bit outside `m`. The rules below read a union of
values of two fields, one field at a time. As a number, a word of two fields is the sum of
the lower one and a multiple of the upper one (`toNat_pack`).
-/

namespace BitField

variable {w : ℕ} {m k x y : BitVec w}

/-- **A value keeps within a mask**: it has no bit outside of it. -/
def Within (m x : BitVec w) : Prop := x &&& m = x

instance (m x : BitVec w) : Decidable (Within m x) := inferInstanceAs (Decidable (_ = _))

/-- Masks that do not meet. -/
def Apart (m k : BitVec w) : Prop := m &&& k = 0#w

instance (m k : BitVec w) : Decidable (Apart m k) := inferInstanceAs (Decidable (_ = _))

theorem Apart.symm (h : Apart m k) : Apart k m := by
  unfold Apart at h ⊢
  rw [BitVec.and_comm, h]

/-- **Another field does not show through**: a value within one mask has no bit in a
mask apart from it. -/
theorem Within.and_eq_zero (hx : Within m x) (h : Apart m k) : x &&& k = 0#w := by
  rw [← show x &&& m = x from hx, BitVec.and_assoc, show m &&& k = 0#w from h,
    BitVec.and_zero]

/-- A value with no bit in the complement of a mask keeps within it. -/
theorem within_of_and_eq_zero (hmk : m ||| k = BitVec.allOnes w) (h : x &&& k = 0#w) :
    Within m x := by
  show x &&& m = x
  calc x &&& m = x &&& m ||| x &&& k := by rw [h, BitVec.or_zero]
    _ = x &&& (m ||| k) := BitVec.and_or_distrib_left.symm
    _ = x := by rw [hmk, BitVec.and_allOnes]

/-- A field with all its bits set reads as such. -/
theorem or_and_self (x m : BitVec w) : (x ||| m) &&& m = m := by
  ext i hi
  rw [BitVec.getElem_and, BitVec.getElem_or]
  cases m[i] <;> simp

/-- **Setting bits of one field** does not show in another. -/
theorem set_read (h : Apart m k) (x : BitVec w) : (x ||| m) &&& k = x &&& k := by
  rw [BitVec.and_or_distrib_right, show m &&& k = 0#w from h, BitVec.or_zero]

/-- **Clearing a field** does not show in another. -/
theorem clear_read (h : Apart m k) (x : BitVec w) : (x &&& ~~~m) &&& k = x &&& k := by
  have hk : ~~~m &&& k = k := by
    ext i hi
    have hbit : (m[i] && k[i]) = false := by
      rw [← BitVec.getElem_and]
      simp [show m &&& k = 0#w from h]
    rw [BitVec.getElem_and, BitVec.getElem_not]
    cases hm : m[i] with
    | false => rw [Bool.not_false, Bool.true_and]
    | true =>
      rw [hm, Bool.true_and] at hbit
      rw [hbit]
      rfl
  rw [BitVec.and_assoc, hk]

/-- **A field of one bit.** -/
theorem and_twoPow_ne_zero {i : ℕ} (hm : m = BitVec.twoPow w i) (hi : i < w) (x : BitVec w) :
    x &&& m ≠ 0 ↔ x.getLsbD i = true := by
  rw [hm, BitVec.and_twoPow]
  cases x.getLsbD i with
  | false => simp
  | true =>
    refine iff_of_true (fun h => ?_) rfl
    have hbit := congrArg (fun z : BitVec w => z.getLsbD i) h
    simp [hi] at hbit

/-- **A field reads back what was put there.** -/
theorem read_left (hx : Within m x) (hy : Within k y) (h : Apart m k) :
    (x ||| y) &&& m = x := by
  rw [BitVec.and_or_distrib_right, hy.and_eq_zero h.symm, BitVec.or_zero]
  exact hx

/-- A mask apart from both fields reads nothing. -/
theorem read_neither {z : BitVec w} (hx : x &&& z = 0#w) (hy : y &&& z = 0#w) :
    (x ||| y) &&& z = 0#w := by
  rw [BitVec.and_or_distrib_right, hx, hy, BitVec.or_zero]

/-- **A field at the low end is a number.** The values within a mask of the lowest
bits are the numbers below its size. -/
theorem within_low_iff {n : ℕ} (hn : m.toNat = 2 ^ n - 1) : Within m x ↔ x.toNat < 2 ^ n := by
  have hmod : (x &&& m).toNat = x.toNat % 2 ^ n := by
    rw [BitVec.toNat_and, hn, Nat.and_two_pow_sub_one_eq_mod]
  constructor
  · intro h
    rw [← show x &&& m = x from h, hmod]
    exact Nat.mod_lt _ (Nat.two_pow_pos n)
  · intro h
    refine BitVec.eq_of_toNat_eq ?_
    rw [hmod, Nat.mod_eq_of_lt h]

/-- **Two numbers packed into a word**, one above the other: a shift and a union are a
product and a sum, if the shift leaves room for the lower one. -/
theorem toNat_pack {h l s : ℕ} (hi : BitVec h) (lo : BitVec l) (hl : l ≤ s) (hw : h + s ≤ w) :
    (hi.setWidth w <<< s ||| lo.setWidth w).toNat = hi.toNat * 2 ^ s + lo.toNat := by
  have hle : ∀ {n k : ℕ}, n ≤ k → 2 ^ n ≤ 2 ^ k := Nat.pow_le_pow_right Nat.two_pos
  have hhi : hi.toNat < 2 ^ w := hi.isLt.trans_le (hle (by omega))
  have hlo : lo.toNat < 2 ^ s := lo.isLt.trans_le (hle hl)
  have hlow : lo.toNat < 2 ^ w := hlo.trans_le (hle (by omega))
  have hshift : hi.toNat * 2 ^ s < 2 ^ w := by
    refine lt_of_lt_of_le (Nat.mul_lt_mul_of_pos_right hi.isLt (Nat.two_pow_pos s)) ?_
    rw [← Nat.pow_add]
    exact hle hw
  rw [BitVec.toNat_or, BitVec.toNat_shiftLeft, BitVec.toNat_setWidth, BitVec.toNat_setWidth,
    Nat.mod_eq_of_lt hhi, Nat.mod_eq_of_lt hlow, Nat.shiftLeft_eq, Nat.mod_eq_of_lt hshift,
    ← Nat.shiftLeft_eq, Nat.shiftLeft_add_eq_or_of_lt hlo]

end BitField
