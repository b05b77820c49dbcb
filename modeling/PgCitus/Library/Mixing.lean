import Mathlib.Algebra.Group.Units.Basic
import Mathlib.Algebra.Ring.Parity
import Mathlib.Data.BitVec
import Mathlib.Data.Int.GCD
import Mathlib.Data.Nat.Prime.Basic

/-!
# Mixing rounds

A hash function of a word is a chain of rounds. A round that only moves information
about inside the word can be undone, and so can a chain of such rounds
(`bijective_foldl`): no two words then have the same hash value.

Two kinds of rounds are common. Shifting a word and xoring it to itself has an inverse
because doing it twice shifts twice as far, and a shift by the whole width changes
nothing (`xorShift_bijective`). Multiplying by an odd constant has one because the
constant has an inverse modulo the power of two (`mul_bijective`).
-/

namespace Mixing

variable {w : ℕ}

/-- **Xor with the word shifted right.** -/
def xorShift (k : ℕ) (h : BitVec w) : BitVec w := h ^^^ h >>> k

/-- **Doing it twice shifts twice as far.** -/
theorem xorShift_xorShift (k : ℕ) (h : BitVec w) :
    xorShift k (xorShift k h) = xorShift (2 * k) h := by
  unfold xorShift
  rw [BitVec.ushiftRight_xor_distrib, BitVec.xor_assoc, ← BitVec.xor_assoc (h >>> k),
    BitVec.xor_self, BitVec.zero_xor, ← BitVec.shiftRight_add, Nat.two_mul]

/-- Shifted by the whole width, a word is zero. -/
theorem xorShift_of_le {k : ℕ} (hk : w ≤ k) (h : BitVec w) : xorShift k h = h := by
  unfold xorShift
  rw [BitVec.ushiftRight_eq_zero hk, BitVec.xor_zero]

theorem xorShift_iterate (k n : ℕ) :
    (xorShift k)^[2 ^ n] = (xorShift (2 ^ n * k) : BitVec w → BitVec w) := by
  induction n with
  | zero =>
    rw [pow_zero, Nat.one_mul]
    rfl
  | succ n ih =>
    funext h
    rw [pow_succ, Nat.mul_two, Function.iterate_add_apply, ih, xorShift_xorShift,
      ← Nat.mul_assoc, ← Nat.mul_two, Nat.mul_comm 2]

/-- **An xor-shift can be undone**, whatever it shifts by, unless it shifts by nothing. -/
theorem xorShift_bijective {k : ℕ} (hk : 0 < k) :
    Function.Bijective (xorShift k : BitVec w → BitVec w) := by
  have hfar : w ≤ 2 ^ w * k := Nat.lt_two_pow_self.le.trans (Nat.le_mul_of_pos_right _ hk)
  -- far enough on, the iterates come back to the identity
  have hback : (xorShift k)^[2 ^ w] = (id : BitVec w → BitVec w) := by
    rw [xorShift_iterate]
    exact funext (xorShift_of_le hfar)
  obtain ⟨m, hm⟩ := Nat.exists_eq_add_one_of_ne_zero (Nat.two_pow_pos w).ne'
  rw [hm] at hback
  have hafter : ∀ h : BitVec w, (xorShift k)^[m] (xorShift k h) = h := fun h => congrFun hback h
  refine Function.bijective_iff_has_inverse.mpr ⟨(xorShift k)^[m], hafter, fun h => ?_⟩
  rw [← Function.iterate_succ_apply' (xorShift k) m h, Function.iterate_succ_apply]
  exact hafter h

/-- An odd constant has an inverse. -/
theorem isUnit_of_odd {c : BitVec w} (hc : Odd c.toNat) : IsUnit c := by
  have hcop : Nat.Coprime c.toNat (2 ^ w) := hc.coprime_two_right.pow_right w
  refine isUnit_iff_exists_inv.mpr ?_
  rcases Nat.eq_zero_or_pos w with rfl | hw
  · exact ⟨0, Subsingleton.elim _ _⟩
  · obtain ⟨d, -, hd⟩ :=
      Nat.exists_mul_mod_eq_one_of_coprime hcop (Nat.one_lt_two_pow hw.ne')
    refine ⟨BitVec.ofNat w d, BitVec.eq_of_toNat_eq ?_⟩
    rw [BitVec.toNat_mul, BitVec.toNat_ofNat, Nat.mul_mod_mod, hd]
    exact (Nat.mod_eq_of_lt (Nat.one_lt_two_pow hw.ne')).symm

/-- **Multiplying by an odd constant can be undone.** -/
theorem mul_bijective {c : BitVec w} (hc : Odd c.toNat) :
    Function.Bijective fun h : BitVec w => h * c :=
  IsUnit.isUnit_iff_mulRight_bijective.mp (isUnit_of_odd hc)

/-- Adding a constant can be undone. -/
theorem add_bijective (c : BitVec w) : Function.Bijective fun h : BitVec w => h + c := by
  refine Function.bijective_iff_has_inverse.mpr ⟨fun h => h - c, fun h => ?_, fun h => ?_⟩
  · exact BitVec.add_sub_cancel h c
  · exact BitVec.sub_add_cancel h c

/-- Xor with a constant undoes itself. -/
theorem xor_bijective (c : BitVec w) : Function.Bijective fun h : BitVec w => c ^^^ h := by
  have hinv : Function.Involutive fun h : BitVec w => c ^^^ h := fun h => by
    show c ^^^ (c ^^^ h) = h
    rw [← BitVec.xor_assoc, BitVec.xor_self, BitVec.zero_xor]
  exact hinv.bijective

/-- **A chain of rounds** that can be undone can be undone. -/
theorem bijective_foldl {α : Type*} {rounds : List (α → α)}
    (h : ∀ round ∈ rounds, Function.Bijective round) :
    Function.Bijective fun x => rounds.foldl (fun x round => round x) x := by
  induction rounds with
  | nil => exact Function.bijective_id
  | cons round rounds ih =>
    have hrest := ih fun r hr => h r (List.mem_cons_of_mem _ hr)
    exact hrest.comp (h round List.mem_cons_self)

end Mixing
