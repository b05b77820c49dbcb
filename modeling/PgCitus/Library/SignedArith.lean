import Mathlib.Data.BitVec
import Mathlib.Algebra.Order.Ring.Abs
import Mathlib.Tactic.Linarith

/-!
# Signed arithmetic as C has it

On signed integers of C an operation whose result does not fit the type is not defined,
and neither is a division by zero. An expression here is an `Option`: `none` where its
evaluation comes to such an operation. `&&` and `||` evaluate their right side only where
the left one leaves it open, so a test can guard the operation that follows it.

`Fits` says that an integer is a value of the type, and `exact` makes it one. The rules at
the end are for tests whether a product fits that divide a bound by one of the factors.
C rounds towards zero, so the quotient of a bound is always the last factor that does.
-/

namespace SignedArith

variable {w : ℕ}

/-- An integer is in the range of `w` bits. -/
def Fits (w : ℕ) (z : ℤ) : Prop := -2 ^ (w - 1) ≤ z ∧ z < 2 ^ (w - 1)

instance (w : ℕ) (z : ℤ) : Decidable (Fits w z) := inferInstanceAs (Decidable (_ ∧ _))

/-- The result of an operation, where it fits. -/
def exact (w : ℕ) (z : ℤ) : Option (BitVec w) :=
  if Fits w z then some (BitVec.ofInt w z) else none

/-- `a + b`. -/
def add (a b : BitVec w) : Option (BitVec w) := exact w (a.toInt + b.toInt)

/-- `a - b`. -/
def sub (a b : BitVec w) : Option (BitVec w) := exact w (a.toInt - b.toInt)

/-- `a * b`. -/
def mul (a b : BitVec w) : Option (BitVec w) := exact w (a.toInt * b.toInt)

/-- `a / b`. -/
def div (a b : BitVec w) : Option (BitVec w) :=
  if b.toInt = 0 then none else exact w (a.toInt.tdiv b.toInt)

/-- `a < e`. -/
def lt (a : BitVec w) (e : Option (BitVec w)) : Option Bool :=
  e.map fun b => decide (a.toInt < b.toInt)

/-- `a > e`. -/
def gt (a : BitVec w) (e : Option (BitVec w)) : Option Bool :=
  e.map fun b => decide (a.toInt > b.toInt)

/-- `x && y`. -/
def both (x : Bool) (y : Option Bool) : Option Bool := if x then y else some false

/-- `x || y`. -/
def either (x y : Option Bool) : Option Bool :=
  match x with
  | none => none
  | some true => some true
  | some false => y

/-- **A guarded test**: where the guard holds, the rest of it is defined. -/
theorem both_guard {p q : Prop} [Decidable p] [Decidable q] {y : Option Bool}
    (h : p → y = some (decide q)) : both p y = some (decide (p ∧ q)) := by
  unfold both
  by_cases hp : p
  · simp [hp, h hp]
  · simp [hp]

theorem either_decide {p q : Prop} [Decidable p] [Decidable q] :
    either (some (decide p)) (some (decide q)) = some (decide (p ∨ q)) := by
  by_cases hp : p
  · simp [either, hp]
  · simp [either, hp]

/-! ## Results that fit -/

/-- A value of the type is in its range. -/
theorem fits_toInt (a : BitVec w) : Fits w a.toInt :=
  ⟨BitVec.le_toInt a, BitVec.toInt_lt⟩

theorem exact_of_fits {z : ℤ} (h : Fits w z) : exact w z = some (BitVec.ofInt w z) := if_pos h

/-- What fits is stored as it is. -/
theorem toInt_ofInt (hw : 0 < w) {z : ℤ} (h : Fits w z) : (BitVec.ofInt w z).toInt = z := by
  obtain ⟨w, rfl⟩ := Nat.exists_eq_add_of_lt hw
  obtain ⟨hlo, hhi⟩ := h
  rw [BitVec.toInt_ofInt]
  have hpow : (2 : ℤ) ^ (0 + w + 1) = 2 * 2 ^ w := by rw [Nat.zero_add, pow_succ, mul_comm]
  simp only [Nat.zero_add, Nat.add_sub_cancel] at hlo hhi hpow ⊢
  exact Int.bmod_eq_of_le (by push_cast; omega) (by push_cast; omega)

/-- A test against a result that fits. -/
theorem lt_exact (hw : 0 < w) (a : BitVec w) {z : ℤ} (h : Fits w z) :
    lt a (exact w z) = some (decide (a.toInt < z)) := by
  rw [exact_of_fits h, lt, Option.map_some, toInt_ofInt hw h]

theorem gt_exact (hw : 0 < w) (a : BitVec w) {z : ℤ} (h : Fits w z) :
    gt a (exact w z) = some (decide (a.toInt > z)) := by
  rw [exact_of_fits h, gt, Option.map_some, toInt_ofInt hw h]

/-! ## Twice the width

No operation on two values overflows where it is done on integers that are twice as wide. -/

theorem abs_toInt_le (a : BitVec w) : |a.toInt| ≤ 2 ^ (w - 1) :=
  abs_le.mpr ⟨BitVec.le_toInt a, BitVec.toInt_lt.le⟩

/-- What is no more than the product of two bounds fits in twice the width. -/
theorem fits_double (hw : 0 < w) {z : ℤ} (h : |z| ≤ 2 ^ (w - 1) * 2 ^ (w - 1)) :
    Fits (2 * w) z := by
  have hpow : (2 : ℤ) ^ (2 * w - 1) = 2 * (2 ^ (w - 1) * 2 ^ (w - 1)) := by
    rw [← pow_add, ← pow_succ']
    congr 1
    omega
  have hpos : (0 : ℤ) < 2 ^ (w - 1) * 2 ^ (w - 1) := by positivity
  obtain ⟨hlo, hhi⟩ := abs_le.mp h
  constructor <;> rw [hpow] <;> linarith

theorem fits_double_mul (hw : 0 < w) (a b : BitVec w) : Fits (2 * w) (a.toInt * b.toInt) := by
  refine fits_double hw ?_
  rw [abs_mul]
  exact mul_le_mul (abs_toInt_le a) (abs_toInt_le b) (abs_nonneg _) (by positivity)

theorem fits_double_add (hw : 1 < w) (a b : BitVec w) : Fits (2 * w) (a.toInt + b.toInt) := by
  have htwo : (2 : ℤ) ^ 1 ≤ 2 ^ (w - 1) := pow_le_pow_right₀ (by norm_num) (by omega)
  refine fits_double (Nat.zero_lt_of_lt hw) ?_
  calc |a.toInt + b.toInt| ≤ |a.toInt| + |b.toInt| := abs_add_le _ _
    _ ≤ 2 ^ 1 * 2 ^ (w - 1) := by linarith [abs_toInt_le a, abs_toInt_le b]
    _ ≤ _ := mul_le_mul_of_nonneg_right htwo (by positivity)

theorem fits_double_sub (hw : 1 < w) (a b : BitVec w) : Fits (2 * w) (a.toInt - b.toInt) := by
  have htwo : (2 : ℤ) ^ 1 ≤ 2 ^ (w - 1) := pow_le_pow_right₀ (by norm_num) (by omega)
  refine fits_double (Nat.zero_lt_of_lt hw) ?_
  calc |a.toInt - b.toInt| ≤ |a.toInt| + |b.toInt| := abs_sub _ _
    _ ≤ 2 ^ 1 * 2 ^ (w - 1) := by linarith [abs_toInt_le a, abs_toInt_le b]
    _ ≤ _ := mul_le_mul_of_nonneg_right htwo (by positivity)

/-! ## Bounds divided by a factor -/

/-- Of a positive bound by a positive factor. -/
theorem tdiv_lt_iff {a b m : ℤ} (hm : 0 ≤ m) (hb : 0 < b) : m.tdiv b < a ↔ m < a * b := by
  rw [Int.tdiv_eq_ediv_of_nonneg hm, Int.ediv_lt_iff_lt_mul hb]

/-- Of a positive bound by a negative factor. -/
theorem lt_tdiv_iff_of_neg {a b m : ℤ} (hm : 0 ≤ m) (hb : b < 0) : a < m.tdiv b ↔ m < a * b := by
  have hneg : m.tdiv b = -m.tdiv (-b) := by rw [Int.tdiv_neg, neg_neg]
  rw [hneg, lt_neg, tdiv_lt_iff hm (neg_pos.mpr hb), neg_mul_neg]

/-- Of a negative bound by a positive factor. -/
theorem lt_tdiv_iff {a b m : ℤ} (hm : m ≤ 0) (hb : 0 < b) : a < m.tdiv b ↔ a * b < m := by
  have hneg : m.tdiv b = -(-m).tdiv b := by rw [Int.neg_tdiv, neg_neg]
  rw [hneg, lt_neg, tdiv_lt_iff (neg_nonneg.mpr hm) hb, neg_mul, neg_lt_neg_iff]

/-- Dividing does not lead out of the range, but for the least value by minus one. -/
theorem fits_tdiv {a b : ℤ} (ha : Fits w a) (h : 0 ≤ a ∨ 0 < b) : Fits w (a.tdiv b) := by
  obtain ⟨hlo, hhi⟩ := ha
  have hpow : (0 : ℤ) < 2 ^ (w - 1) := by positivity
  have hle := Int.natAbs_tdiv_le_natAbs a b
  rcases h with h | h
  · exact ⟨by omega, by omega⟩
  · rcases le_total 0 a with h₀ | h₀
    · exact ⟨by omega, by omega⟩
    · have hneg : a.tdiv b = -(-a).tdiv b := by rw [Int.neg_tdiv, neg_neg]
      have hpos := Int.tdiv_nonneg (neg_nonneg.mpr h₀) h.le
      exact ⟨by omega, by omega⟩

/-- A test against a quotient that is defined. -/
theorem lt_div (hw : 0 < w) (a : BitVec w) {m b : BitVec w} (hb : b.toInt ≠ 0)
    (h : 0 ≤ m.toInt ∨ 0 < b.toInt) :
    lt a (div m b) = some (decide (a.toInt < m.toInt.tdiv b.toInt)) := by
  rw [div, if_neg hb, lt_exact hw a (fits_tdiv (fits_toInt m) h)]

theorem gt_div (hw : 0 < w) (a : BitVec w) {m b : BitVec w} (hb : b.toInt ≠ 0)
    (h : 0 ≤ m.toInt ∨ 0 < b.toInt) :
    gt a (div m b) = some (decide (a.toInt > m.toInt.tdiv b.toInt)) := by
  rw [div, if_neg hb, gt_exact hw a (fits_tdiv (fits_toInt m) h)]

end SignedArith
