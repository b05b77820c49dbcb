import Mathlib.Data.BitVec
import Mathlib.Data.Nat.Log
import Mathlib.Order.Bounds.Defs

/-!
# The first and the last bit of a word

Where the highest and the lowest set bit of a word stand. A word may be searched a byte
at a time: the highest bit is that of the first byte, from the top, that is not zero, and
likewise from the bottom (`IsHighestBit.of_byte`, `IsLowestBit.of_byte`).

The highest bit says between which powers of two a word is, and so it gives the greatest
power of two that is not above a number and the least one that is not below it
(`isGreatest_log`, `isLeast_clog`).
-/

namespace BitPosition

variable {w : ℕ} {word : BitVec w} {p q s : ℕ}

/-- **The highest set bit** of a word. -/
structure IsHighestBit (word : BitVec w) (p : ℕ) : Prop where
  /-- The bit is set. -/
  set : word.getLsbD p = true
  /-- No bit above it is. -/
  above : ∀ j, p < j → word.getLsbD j = false

/-- **The lowest set bit** of a word. -/
structure IsLowestBit (word : BitVec w) (p : ℕ) : Prop where
  /-- The bit is set. -/
  set : word.getLsbD p = true
  /-- No bit below it is. -/
  below : ∀ j < p, word.getLsbD j = false

/-- A set bit is a bit of the word. -/
theorem lt_width (h : word.getLsbD p = true) : p < w := by
  by_contra hp
  rw [BitVec.getLsbD_of_ge word p (not_lt.mp hp)] at h
  cases h

/-! ## A byte at a time -/

/-- The lowest byte of a word. -/
def lowByte (word : BitVec w) : BitVec 8 := (word &&& 255).setWidth 8

theorem getLsbD_and_255 (hw : 8 ≤ w) (j : ℕ) :
    (word &&& 255).getLsbD j = (decide (j < 8) && word.getLsbD j) := by
  have hmask : (255 : BitVec w).getLsbD j = decide (j < 8) := by
    show (255#w).getLsbD j = decide (j < 8)
    rw [BitVec.getLsbD_ofNat, show 255 = 2 ^ 8 - 1 from rfl, Nat.testBit_two_pow_sub_one]
    by_cases hj : j < 8
    · rw [decide_eq_true (hj.trans_le hw), Bool.true_and]
    · rw [decide_eq_false hj, Bool.and_false]
  rw [BitVec.getLsbD_and, hmask, Bool.and_comm]

theorem getLsbD_lowByte (hw : 8 ≤ w) (j : ℕ) :
    (lowByte word).getLsbD j = (decide (j < 8) && word.getLsbD j) := by
  unfold lowByte
  rw [BitVec.getLsbD_setWidth, getLsbD_and_255 hw, ← Bool.and_assoc, Bool.and_self]

/-- A byte that is zero has no bit set. -/
theorem lowByte_eq_zero_iff (hw : 8 ≤ w) :
    lowByte word = 0 ↔ ∀ j < 8, word.getLsbD j = false := by
  constructor
  · intro h j hj
    have hbit : (lowByte word).getLsbD j = _ := getLsbD_lowByte hw j
    rw [h, decide_eq_true hj, Bool.true_and] at hbit
    exact hbit.symm.trans BitVec.getLsbD_zero
  · intro h
    refine BitVec.eq_of_getLsbD_eq fun j hj => ?_
    rw [getLsbD_lowByte hw, h j hj, Bool.and_false]
    exact BitVec.getLsbD_zero.symm

/-- Masking the lowest byte and taking it. -/
theorem and_255_eq_zero_iff (hw : 8 ≤ w) : word &&& 255 = 0 ↔ lowByte word = 0 := by
  constructor
  · intro h
    unfold lowByte
    rw [h]
    exact BitVec.setWidth_zero 8 w
  · intro h
    refine BitVec.eq_of_getLsbD_eq fun j _ => ?_
    rw [getLsbD_and_255 hw, ← getLsbD_lowByte hw, h]
    exact BitVec.getLsbD_zero.trans BitVec.getLsbD_zero.symm

/-- **The highest bit, by bytes**: nothing stands above the byte that is at `s`, and the
highest bit of that byte is the highest bit of the word. -/
theorem IsHighestBit.of_byte (hw : 8 ≤ w) (habove : ∀ j, s + 8 ≤ j → word.getLsbD j = false)
    (h : IsHighestBit (lowByte (word >>> s)) p) : IsHighestBit word (s + p) := by
  have hp : p < 8 := lt_width h.set
  refine ⟨?_, fun j hj => ?_⟩
  · have hset := h.set
    rw [getLsbD_lowByte hw, decide_eq_true hp, Bool.true_and, BitVec.getLsbD_ushiftRight] at hset
    exact hset
  · by_cases hfar : s + 8 ≤ j
    · exact habove j hfar
    · have hin : j - s < 8 := by omega
      have hoff := h.above (j - s) (by omega)
      rw [getLsbD_lowByte hw, decide_eq_true hin, Bool.true_and, BitVec.getLsbD_ushiftRight,
        Nat.add_sub_cancel' (by omega)] at hoff
      exact hoff

/-- **The lowest bit, by bytes**: nothing stands below the byte that is at `s`. -/
theorem IsLowestBit.of_byte (hw : 8 ≤ w) (hbelow : ∀ j < s, word.getLsbD j = false)
    (h : IsLowestBit (lowByte (word >>> s)) p) : IsLowestBit word (s + p) := by
  have hp : p < 8 := lt_width h.set
  refine ⟨?_, fun j hj => ?_⟩
  · have hset := h.set
    rw [getLsbD_lowByte hw, decide_eq_true hp, Bool.true_and, BitVec.getLsbD_ushiftRight] at hset
    exact hset
  · by_cases hnear : j < s
    · exact hbelow j hnear
    · have hin : j - s < 8 := by omega
      have hoff := h.below (j - s) (by omega)
      rw [getLsbD_lowByte hw, decide_eq_true hin, Bool.true_and, BitVec.getLsbD_ushiftRight,
        Nat.add_sub_cancel' (not_lt.mp hnear)] at hoff
      exact hoff

/-! ## Powers of two -/

/-- **The highest bit is the binary logarithm.** -/
theorem IsHighestBit.eq_log (h : IsHighestBit word p) : p = Nat.log 2 word.toNat := by
  have hle : 2 ^ p ≤ word.toNat := Nat.ge_two_pow_of_testBit h.set
  have hlt : word.toNat < 2 ^ (p + 1) :=
    Nat.lt_pow_two_of_testBit _ fun j hj => h.above j (Nat.lt_of_succ_le hj)
  exact (Nat.log_eq_of_pow_le_of_lt_pow hle hlt).symm

/-- A word that is not zero has a highest bit. -/
theorem isHighestBit_log2 (h : word.toNat ≠ 0) : IsHighestBit word (Nat.log2 word.toNat) :=
  ⟨Nat.testBit_log2 h, fun _ hj =>
    Nat.testBit_lt_two_pow (Nat.lt_log2_self.trans_le (Nat.pow_le_pow_right Nat.two_pos hj))⟩

/-- And a lowest one. -/
theorem isLowestBit_ctz (h : word ≠ 0) : IsLowestBit word word.ctz.toNat :=
  ⟨BitVec.getLsbD_true_ctz_of_ne_zero h, fun _ hj => BitVec.getLsbD_false_of_lt_ctz hj⟩

/-- The powers of two. -/
def powersOfTwo : Set ℕ := Set.range fun k => 2 ^ k

/-- **The greatest power of two** that is not above a number. -/
theorem isGreatest_log {n : ℕ} (hn : n ≠ 0) :
    IsGreatest {x | x ∈ powersOfTwo ∧ x ≤ n} (2 ^ Nat.log 2 n) := by
  refine ⟨⟨⟨_, rfl⟩, Nat.pow_log_le_self 2 hn⟩, ?_⟩
  rintro _ ⟨⟨k, rfl⟩, hk⟩
  exact Nat.pow_le_pow_right Nat.two_pos (Nat.le_log_of_pow_le Nat.one_lt_two hk)

/-- **The least exponent** whose power of two is not below a number. -/
theorem isLeast_clog_exponent (n : ℕ) : IsLeast {k | n ≤ 2 ^ k} (Nat.clog 2 n) :=
  ⟨Nat.le_pow_clog Nat.one_lt_two n, fun _ hk => Nat.clog_le_of_le_pow hk⟩

/-- **The least power of two** that is not below a number. -/
theorem isLeast_clog (n : ℕ) : IsLeast {x | x ∈ powersOfTwo ∧ n ≤ x} (2 ^ Nat.clog 2 n) := by
  refine ⟨⟨⟨_, rfl⟩, Nat.le_pow_clog Nat.one_lt_two n⟩, ?_⟩
  rintro _ ⟨⟨k, rfl⟩, hk⟩
  exact Nat.pow_le_pow_right Nat.two_pos (Nat.clog_le_of_le_pow hk)

/-- A number from two on is rounded up past the highest bit of its predecessor. -/
theorem clog_eq_log_pred {n : ℕ} (hn : 2 ≤ n) : Nat.clog 2 n = Nat.log 2 (n - 1) + 1 := by
  have hpred : n - 1 ≠ 0 := by omega
  have hle := Nat.pow_log_le_self 2 hpred
  have hlt := Nat.lt_pow_succ_log_self Nat.one_lt_two (n - 1)
  refine le_antisymm (Nat.clog_le_of_le_pow (by omega)) ?_
  exact (Nat.lt_clog_iff_pow_lt Nat.one_lt_two).mpr (by omega)

/-- A number that is no power of two is rounded up past its highest bit. -/
theorem clog_eq_log_succ {n : ℕ} (hn : n ≠ 0) (hpow : ¬ n.isPowerOfTwo) :
    Nat.clog 2 n = Nat.log 2 n + 1 := by
  have hle := Nat.pow_log_le_self 2 hn
  have hne : 2 ^ Nat.log 2 n ≠ n := fun h => hpow ⟨_, h.symm⟩
  refine le_antisymm (Nat.clog_le_of_le_pow ?_) ?_
  · exact (Nat.lt_pow_succ_log_self Nat.one_lt_two n).le
  · exact (Nat.lt_clog_iff_pow_lt Nat.one_lt_two).mpr (lt_of_le_of_ne hle hne)

end BitPosition
