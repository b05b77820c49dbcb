import Mathlib.Algebra.Order.Ring.Abs
import PgCitus.Library.SignedArith

/-!
# Arithmetic with overflow detection

The 64-bit routines of `common/int.h`. Each has three branches: the compiler's builtin
where there is one, otherwise 128-bit integers, otherwise tests that use 64-bit integers
only. The last ones have to find out whether an operation overflows without letting any
operation overflow, so they compare with a bound from which the second operand has been
taken away, or that has been divided by it.

The tests of the sum and of the product are right. That of the difference leaves out a
first operand of zero, which is the one that overflows with the least integer: the routine
then does the subtraction, which is not defined (`pgS64Overflow_correct_iff`).
-/

namespace CommonInt

open SignedArith

/-- `PG_INT64_MAX`. -/
def pgInt64Max : BitVec 64 := 0x7FFFFFFFFFFFFFFF#64

/-- `PG_INT64_MIN`. -/
def pgInt64Min : BitVec 64 := 0x8000000000000000#64

/-- `PG_INT32_MAX`. -/
def pgInt32Max : ℤ := 0x7FFFFFFF

/-- `PG_INT32_MIN`. -/
def pgInt32Min : ℤ := -0x80000000

/-- What a routine returns, and what it leaves in `*result`. -/
structure Outcome where
  overflow : Bool
  result : BitVec 64
  deriving DecidableEq, Repr

/-! ## The portable branches -/

/-- The end of each portable branch: overflow is reported, or the operation is done. -/
def report (check : Option Bool) (result : Option (BitVec 64)) : Option Outcome :=
  match check with
  | none => none
  | some true => some ⟨true, 0x5EED#64⟩
  | some false => result.map (⟨false, ·⟩)

/-- The test of `pg_add_s64_overflow`. -/
def addCheck (a b : BitVec 64) : Option Bool :=
  either (both (a.toInt > 0) (both (b.toInt > 0) (gt a (sub pgInt64Max b))))
    (both (a.toInt < 0) (both (b.toInt < 0) (lt a (sub pgInt64Min b))))

/-- `pg_add_s64_overflow`. -/
def pgAddS64Overflow (a b : BitVec 64) : Option Outcome := report (addCheck a b) (add a b)

/-- The test of `pg_sub_s64_overflow`. -/
def subCheck (a b : BitVec 64) : Option Bool :=
  either (both (a.toInt < 0) (both (b.toInt > 0) (lt a (add pgInt64Min b))))
    (both (a.toInt > 0) (both (b.toInt < 0) (gt a (add pgInt64Max b))))

/-- `pg_sub_s64_overflow`. -/
def pgSubS64Overflow (a b : BitVec 64) : Option Outcome := report (subCheck a b) (sub a b)

/-- The test of `pg_mul_s64_overflow`. -/
def mulCheck (a b : BitVec 64) : Option Bool :=
  both (a.toInt > pgInt32Max ∨ a.toInt < pgInt32Min ∨
      b.toInt > pgInt32Max ∨ b.toInt < pgInt32Min)
    (both (a.toInt ≠ 0 ∧ a.toInt ≠ 1 ∧ b.toInt ≠ 0 ∧ b.toInt ≠ 1)
      (either (both (a.toInt > 0) (both (b.toInt > 0) (gt a (div pgInt64Max b))))
        (either (both (a.toInt > 0) (both (b.toInt < 0) (lt b (div pgInt64Min a))))
          (either (both (a.toInt < 0) (both (b.toInt > 0) (lt a (div pgInt64Min b))))
            (both (a.toInt < 0) (both (b.toInt < 0) (lt a (div pgInt64Max b))))))))

/-- `pg_mul_s64_overflow`. -/
def pgMulS64Overflow (a b : BitVec 64) : Option Outcome := report (mulCheck a b) (mul a b)

/-! ## The other branches -/

/-- The three operations. -/
inductive Op where
  | add
  | sub
  | mul
  deriving DecidableEq, Repr

/-- The exact result. -/
def Op.exact : Op → ℤ → ℤ → ℤ
  | .add, a, b => a + b
  | .sub, a, b => a - b
  | .mul, a, b => a * b

/-- The portable branch of a routine. -/
def Op.portable : Op → BitVec 64 → BitVec 64 → Option Outcome
  | .add => pgAddS64Overflow
  | .sub => pgSubS64Overflow
  | .mul => pgMulS64Overflow

/-- `__builtin_add_overflow` and its siblings: the exact result is reduced to the type, and
overflow is that this changes it. -/
def Op.builtin (op : Op) (a b : BitVec 64) : Outcome :=
  let result := BitVec.ofInt 64 (op.exact a.toInt b.toInt)
  ⟨result.toInt ≠ op.exact a.toInt b.toInt, result⟩

/-- The operation on `int128`. -/
def Op.int128 : Op → BitVec 128 → BitVec 128 → BitVec 128
  | .add, a, b => a + b
  | .sub, a, b => a - b
  | .mul, a, b => a * b

/-- The branch with `int128`. -/
def Op.viaInt128 (op : Op) (a b : BitVec 64) : Outcome :=
  let res := op.int128 (a.signExtend 128) (b.signExtend 128)
  if res.toInt > pgInt64Max.toInt ∨ res.toInt < pgInt64Min.toInt then ⟨true, 0x5EED#64⟩
  else ⟨false, res.setWidth 64⟩

/-! ## What the tests find -/

/-- **A routine is right** on two operands: nothing that it evaluates overflows or divides by
zero; it returns true exactly when the exact result does not fit, and otherwise stores it;
and the other branches do the same. -/
def Correct (op : Op) (a b : BitVec 64) : Prop :=
  ∃ out, op.portable a b = some out ∧
    (out.overflow = true ↔ ¬ Fits 64 (op.exact a.toInt b.toInt)) ∧
    (out.overflow = false → out.result.toInt = op.exact a.toInt b.toInt) ∧
    (op.builtin a b).overflow = out.overflow ∧ (op.viaInt128 a b).overflow = out.overflow ∧
    (out.overflow = false →
      (op.builtin a b).result = out.result ∧ (op.viaInt128 a b).result = out.result)

theorem fits_iff {z : ℤ} : Fits 64 z ↔ -9223372036854775808 ≤ z ∧ z ≤ 9223372036854775807 := by
  unfold Fits
  norm_num
  omega

theorem toInt_bounds (a : BitVec 64) :
    -9223372036854775808 ≤ a.toInt ∧ a.toInt ≤ 9223372036854775807 := fits_iff.mp (fits_toInt a)

theorem toInt_max : pgInt64Max.toInt = 9223372036854775807 := by decide

theorem toInt_min : pgInt64Min.toInt = -9223372036854775808 := by decide

/-- **The sum**: no operation of the test overflows, and it finds what does not fit. -/
theorem addCheck_eq (a b : BitVec 64) :
    addCheck a b = some (decide (¬ Fits 64 (a.toInt + b.toInt))) := by
  have ha := toInt_bounds a
  have hb := toInt_bounds b
  have hpos : 0 < b.toInt → gt a (sub pgInt64Max b)
      = some (decide (a.toInt > pgInt64Max.toInt - b.toInt)) := fun h =>
    gt_exact (by decide) a (fits_iff.mpr (by rw [toInt_max]; omega))
  have hneg : b.toInt < 0 → lt a (sub pgInt64Min b)
      = some (decide (a.toInt < pgInt64Min.toInt - b.toInt)) := fun h =>
    lt_exact (by decide) a (fits_iff.mpr (by rw [toInt_min]; omega))
  unfold addCheck
  rw [both_guard fun _ => both_guard hpos, both_guard fun _ => both_guard hneg, either_decide,
    Option.some.injEq, decide_eq_decide, fits_iff, toInt_max, toInt_min]
  omega

/-- **The difference**: the test finds what does not fit, but for zero minus the least
integer. -/
theorem subCheck_eq (a b : BitVec 64) :
    subCheck a b = some (decide (¬ Fits 64 (a.toInt - b.toInt) ∧
      ¬ (a.toInt = 0 ∧ b.toInt = pgInt64Min.toInt))) := by
  have ha := toInt_bounds a
  have hb := toInt_bounds b
  have hpos : 0 < b.toInt → lt a (add pgInt64Min b)
      = some (decide (a.toInt < pgInt64Min.toInt + b.toInt)) := fun h =>
    lt_exact (by decide) a (fits_iff.mpr (by rw [toInt_min]; omega))
  have hneg : b.toInt < 0 → gt a (add pgInt64Max b)
      = some (decide (a.toInt > pgInt64Max.toInt + b.toInt)) := fun h =>
    gt_exact (by decide) a (fits_iff.mpr (by rw [toInt_max]; omega))
  unfold subCheck
  rw [both_guard fun _ => both_guard hpos, both_guard fun _ => both_guard hneg, either_decide,
    Option.some.injEq, decide_eq_decide, fits_iff, toInt_max, toInt_min]
  omega

/-- A product that does not fit, by the signs of its factors. -/
theorem not_fits_mul_iff {a b : ℤ} : ¬ Fits 64 (a * b) ↔
    (0 < a ∧ 0 < b ∧ 9223372036854775807 < a * b) ∨
    (0 < a ∧ b < 0 ∧ a * b < -9223372036854775808) ∨
    (a < 0 ∧ 0 < b ∧ a * b < -9223372036854775808) ∨
    (a < 0 ∧ b < 0 ∧ 9223372036854775807 < a * b) := by
  rw [fits_iff, not_and_or, not_le, not_le]
  constructor
  · rintro (hlo | hhi)
    · rcases mul_neg_iff.mp (show a * b < 0 by omega) with ⟨ha, hb⟩ | ⟨ha, hb⟩
      · exact .inr (.inl ⟨ha, hb, hlo⟩)
      · exact .inr (.inr (.inl ⟨ha, hb, hlo⟩))
    · rcases mul_pos_iff.mp (show 0 < a * b by omega) with ⟨ha, hb⟩ | ⟨ha, hb⟩
      · exact .inl ⟨ha, hb, hhi⟩
      · exact .inr (.inr (.inr ⟨ha, hb, hhi⟩))
  · omega

/-- Products of 32-bit factors fit. -/
theorem fits_mul_of_int32 {a b : ℤ} (ha : pgInt32Min ≤ a ∧ a ≤ pgInt32Max)
    (hb : pgInt32Min ≤ b ∧ b ≤ pgInt32Max) : Fits 64 (a * b) := by
  have hbound : ∀ {x : ℤ}, pgInt32Min ≤ x ∧ x ≤ pgInt32Max → |x| ≤ 2147483648 := by
    intro x hx
    unfold pgInt32Min pgInt32Max at hx
    exact abs_le.mpr ⟨by omega, by omega⟩
  have habs : |a * b| ≤ 2147483648 * 2147483648 := by
    rw [abs_mul]
    exact mul_le_mul (hbound ha) (hbound hb) (abs_nonneg b) (by decide)
  have hle := abs_le.mp habs
  exact fits_iff.mpr ⟨by omega, by omega⟩

/-- **The product**: a product that does not fit has a factor of more than 32 bits, and none
that is zero or one; so no test divides by zero, and the least integer is only divided by
positive factors. -/
theorem mulCheck_eq (a b : BitVec 64) :
    mulCheck a b = some (decide (¬ Fits 64 (a.toInt * b.toInt))) := by
  have hfits : Fits 64 a.toInt := fits_toInt a
  have hfits' : Fits 64 b.toInt := fits_toInt b
  have hmax : 0 ≤ pgInt64Max.toInt := by decide
  have hmin : pgInt64Min.toInt ≤ 0 := by decide
  have hpp : 0 < b.toInt → gt a (div pgInt64Max b)
      = some (decide (a.toInt > pgInt64Max.toInt.tdiv b.toInt)) := fun h =>
    gt_div (by decide) a h.ne' (.inl hmax)
  have hpn : 0 < a.toInt → both (b.toInt < 0) (lt b (div pgInt64Min a))
      = some (decide (b.toInt < 0 ∧ b.toInt < pgInt64Min.toInt.tdiv a.toInt)) := fun h =>
    both_guard fun _ => lt_div (by decide) b h.ne' (.inr h)
  have hnp : 0 < b.toInt → lt a (div pgInt64Min b)
      = some (decide (a.toInt < pgInt64Min.toInt.tdiv b.toInt)) := fun h =>
    lt_div (by decide) a h.ne' (.inr h)
  have hnn : b.toInt < 0 → lt a (div pgInt64Max b)
      = some (decide (a.toInt < pgInt64Max.toInt.tdiv b.toInt)) := fun h =>
    lt_div (by decide) a h.ne (.inl hmax)
  have h₁ : 0 < b.toInt → (a.toInt > pgInt64Max.toInt.tdiv b.toInt ↔
      9223372036854775807 < a.toInt * b.toInt) := fun h => by
    rw [gt_iff_lt, tdiv_lt_iff hmax h, toInt_max]
  have h₂ : 0 < a.toInt → (b.toInt < pgInt64Min.toInt.tdiv a.toInt ↔
      a.toInt * b.toInt < -9223372036854775808) := fun h => by
    rw [lt_tdiv_iff hmin h, mul_comm, toInt_min]
  have h₃ : 0 < b.toInt → (a.toInt < pgInt64Min.toInt.tdiv b.toInt ↔
      a.toInt * b.toInt < -9223372036854775808) := fun h => by
    rw [lt_tdiv_iff hmin h, toInt_min]
  have h₄ : b.toInt < 0 → (a.toInt < pgInt64Max.toInt.tdiv b.toInt ↔
      9223372036854775807 < a.toInt * b.toInt) := fun h => by
    rw [lt_tdiv_iff_of_neg hmax h, toInt_max]
  unfold mulCheck
  rw [both_guard fun _ => both_guard hpp, both_guard hpn, both_guard fun _ => both_guard hnp,
    both_guard fun _ => both_guard hnn, either_decide, either_decide, either_decide,
    both_guard fun _ => both_guard fun _ => rfl, Option.some.injEq, decide_eq_decide,
    and_congr_right fun _ => and_congr_right h₁,
    and_congr_right fun h => and_congr_right fun _ => h₂ h,
    and_congr_right fun _ => and_congr_right h₃, and_congr_right fun _ => and_congr_right h₄,
    ← not_fits_mul_iff]
  refine ⟨fun h => h.2.2, fun hnot => ⟨?_, ⟨?_, ?_, ?_, ?_⟩, hnot⟩⟩
  · by_contra hsmall
    exact hnot (fits_mul_of_int32 (by omega) (by omega))
  · intro ha
    exact hnot (by rw [ha, zero_mul]; decide)
  · intro ha
    exact hnot (by rwa [ha, one_mul])
  · intro hb
    exact hnot (by rw [hb, mul_zero]; decide)
  · intro hb
    exact hnot (by rwa [hb, mul_one])

/-! ## The branches agree -/

/-- With 128 bits no operation on 64-bit integers overflows. -/
theorem toInt_int128 (op : Op) (a b : BitVec 64) :
    (op.int128 (a.signExtend 128) (b.signExtend 128)).toInt = op.exact a.toInt b.toInt := by
  have ha := toInt_bounds a
  have hb := toInt_bounds b
  have hmod : (op.int128 (a.signExtend 128) (b.signExtend 128)).toInt
      = (op.exact a.toInt b.toInt).bmod (2 ^ 128) := by
    cases op <;>
      simp only [Op.int128, Op.exact, BitVec.toInt_add, BitVec.toInt_sub, BitVec.toInt_mul,
        BitVec.toInt_signExtend_of_le (by decide : 64 ≤ 128)]
  have hprod : |a.toInt * b.toInt| ≤ 9223372036854775808 * 9223372036854775808 := by
    rw [abs_mul]
    exact mul_le_mul (abs_le.mpr ⟨by omega, by omega⟩) (abs_le.mpr ⟨by omega, by omega⟩)
      (abs_nonneg _) (by decide)
  have hle := abs_le.mp hprod
  rw [hmod]
  cases op with
  | add => exact Int.bmod_eq_of_le (by simp only [Op.exact]; omega) (by simp only [Op.exact]; omega)
  | sub => exact Int.bmod_eq_of_le (by simp only [Op.exact]; omega) (by simp only [Op.exact]; omega)
  | mul => exact Int.bmod_eq_of_le (by simp only [Op.exact]; omega) (by simp only [Op.exact]; omega)

/-- **The branch with `int128`** reports what does not fit, and stores what does. -/
theorem viaInt128_eq (op : Op) (a b : BitVec 64) :
    op.viaInt128 a b = if Fits 64 (op.exact a.toInt b.toInt) then
      ⟨false, BitVec.ofInt 64 (op.exact a.toInt b.toInt)⟩ else ⟨true, 0x5EED#64⟩ := by
  have hres := toInt_int128 op a b
  unfold Op.viaInt128
  generalize op.int128 (a.signExtend 128) (b.signExtend 128) = res at hres
  have hwidth : res.setWidth 64 = BitVec.ofInt 64 (op.exact a.toInt b.toInt) := by
    rw [← hres, ← BitVec.signExtend_eq_setWidth_of_le res (by decide)]
    rfl
  simp only [hres, hwidth, toInt_max, toInt_min]
  split_ifs with h h' h'
  · rw [fits_iff] at h'
    omega
  · rfl
  · rfl
  · exact absurd (fits_iff.mpr ⟨by omega, by omega⟩) h'

/-- **The builtin** does the same, but stores the reduced result in any case. -/
theorem builtin_eq (op : Op) (a b : BitVec 64) :
    op.builtin a b = ⟨decide (¬ Fits 64 (op.exact a.toInt b.toInt)),
      BitVec.ofInt 64 (op.exact a.toInt b.toInt)⟩ := by
  unfold Op.builtin
  dsimp only
  congr 1
  rw [decide_eq_decide, ne_eq, not_iff_not]
  exact ⟨fun h => h ▸ fits_toInt _, toInt_ofInt (by decide)⟩

/-- A routine that does the operation where its test finds that the result fits is right. -/
theorem correct_of_check {op : Op} {a b : BitVec 64} {check : Option Bool}
    (hop : op.portable a b = report check (exact 64 (op.exact a.toInt b.toInt)))
    (hcheck : check = some (decide (¬ Fits 64 (op.exact a.toInt b.toInt)))) :
    Correct op a b := by
  by_cases hfits : Fits 64 (op.exact a.toInt b.toInt)
  · refine ⟨⟨false, BitVec.ofInt 64 (op.exact a.toInt b.toInt)⟩, ?_, ?_, fun _ =>
      toInt_ofInt (by decide) hfits, ?_, ?_, fun _ => ?_⟩
    · rw [hop, hcheck, exact_of_fits hfits, decide_eq_false (not_not.mpr hfits)]
      rfl
    · exact iff_of_false Bool.false_ne_true (not_not.mpr hfits)
    · rw [builtin_eq, decide_eq_false (not_not.mpr hfits)]
    · rw [viaInt128_eq, if_pos hfits]
    · rw [builtin_eq, viaInt128_eq, if_pos hfits]
      exact ⟨rfl, rfl⟩
  · refine ⟨⟨true, 0x5EED#64⟩, ?_, iff_of_true rfl hfits, fun h => Bool.noConfusion h, ?_, ?_,
      fun h => Bool.noConfusion h⟩
    · rw [hop, hcheck, decide_eq_true hfits]
      rfl
    · rw [builtin_eq, decide_eq_true hfits]
    · rw [viaInt128_eq, if_neg hfits]

theorem pgAddS64Overflow_correct (a b : BitVec 64) : Correct .add a b :=
  correct_of_check rfl (addCheck_eq a b)

theorem pgMulS64Overflow_correct (a b : BitVec 64) : Correct .mul a b :=
  correct_of_check rfl (mulCheck_eq a b)

/-- **Zero minus the least integer is not tested for**, and is not defined. -/
theorem pgSubS64Overflow_zero_min : pgSubS64Overflow 0#64 pgInt64Min = none := by decide

/-- **The routines are right** on all operands, but for the difference of zero and the least
integer. -/
theorem pgS64Overflow_correct_iff (a b : BitVec 64) :
    Correct .add a b ∧ Correct .mul a b ∧
      (Correct .sub a b ↔ ¬ (a = 0#64 ∧ b = pgInt64Min)) := by
  refine ⟨pgAddS64Overflow_correct a b, pgMulS64Overflow_correct a b, ?_, fun h => ?_⟩
  · rintro ⟨out, hout, -⟩ ⟨rfl, rfl⟩
    rw [show Op.portable .sub 0#64 pgInt64Min = pgSubS64Overflow 0#64 pgInt64Min from rfl,
      pgSubS64Overflow_zero_min] at hout
    cases hout
  · refine correct_of_check rfl ?_
    have hzero : ¬ (a.toInt = 0 ∧ b.toInt = pgInt64Min.toInt) := fun ⟨ha, hb⟩ =>
      h ⟨BitVec.eq_of_toInt_eq ha, BitVec.eq_of_toInt_eq hb⟩
    rw [subCheck_eq, Option.some.injEq, decide_eq_decide]
    exact and_iff_left hzero

/-- The difference does not fit, and the test reports nothing. -/
theorem zero_sub_min_unreported : subCheck 0#64 pgInt64Min = some false ∧
    ¬ Fits 64 (Op.exact .sub (0#64).toInt pgInt64Min.toInt) ∧ ¬ Correct .sub 0#64 pgInt64Min := by
  refine ⟨by decide, by decide, ?_⟩
  rintro ⟨out, hout, -⟩
  cases hout.symm.trans (show Op.portable .sub 0#64 pgInt64Min = none from by decide)

end CommonInt
