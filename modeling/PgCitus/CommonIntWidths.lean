import PgCitus.CommonInt
import PgCitus.Library.UnsignedArith

/-!
# Arithmetic with overflow detection, for the other types

The routines of `common/int.h` for `int16` and `int32`, and those for unsigned integers. Where
the builtin is missing, the signed ones do the operation in a type of twice the width, in which
nothing overflows. Of the unsigned ones only the product does so: the sum is compared with an
operand after it has been reduced, and the operands of the difference are compared before it is
taken. For `uint64`, where there may be no wider type, the reduced product is divided again.
-/

namespace CommonInt

open SignedArith

variable {w : ℕ}

/-- `PG_INT16_MAX`. -/
def pgInt16Max : ℤ := 0x7FFF

/-- `PG_INT16_MIN`. -/
def pgInt16Min : ℤ := -0x7FFF - 1

/-- `PG_UINT16_MAX`. -/
def pgUint16Max : BitVec 32 := 0xFFFF#32

/-- `PG_UINT32_MAX`. -/
def pgUint32Max : BitVec 64 := 0xFFFFFFFF#64

/-- `PG_UINT64_MAX`. -/
def pgUint64Max : BitVec 128 := 0xFFFFFFFFFFFFFFFF#128

/-- What a routine returns, and what it leaves in `*result`. -/
structure Report (w : ℕ) where
  overflow : Bool
  result : BitVec w
  deriving DecidableEq, Repr

/-- The end of each portable branch. -/
def finish (overflow : Bool) (result : BitVec w) : Report w :=
  if overflow then ⟨true, BitVec.ofNat w 0x5EED⟩ else ⟨false, result⟩

/-! ## Signed integers -/

/-- The operation on signed integers. -/
def Op.signed : Op → BitVec w → BitVec w → Option (BitVec w)
  | .add => SignedArith.add
  | .sub => SignedArith.sub
  | .mul => SignedArith.mul

/-- A routine that does the operation in a wider type. -/
def viaWider (v : ℕ) (max min : ℤ) (op : Op) (a b : BitVec w) : Option (Report w) :=
  (op.signed (a.signExtend v) (b.signExtend v)).map fun res =>
    finish (res.toInt > max ∨ res.toInt < min) (res.setWidth w)

/-- `pg_add_s16_overflow`. -/
def pgAddS16Overflow (a b : BitVec 16) : Option (Report 16) :=
  viaWider 32 pgInt16Max pgInt16Min .add a b

/-- `pg_sub_s16_overflow`. -/
def pgSubS16Overflow (a b : BitVec 16) : Option (Report 16) :=
  viaWider 32 pgInt16Max pgInt16Min .sub a b

/-- `pg_mul_s16_overflow`. -/
def pgMulS16Overflow (a b : BitVec 16) : Option (Report 16) :=
  viaWider 32 pgInt16Max pgInt16Min .mul a b

/-- `pg_add_s32_overflow`. -/
def pgAddS32Overflow (a b : BitVec 32) : Option (Report 32) :=
  viaWider 64 pgInt32Max pgInt32Min .add a b

/-- `pg_sub_s32_overflow`. -/
def pgSubS32Overflow (a b : BitVec 32) : Option (Report 32) :=
  viaWider 64 pgInt32Max pgInt32Min .sub a b

/-- `pg_mul_s32_overflow`. -/
def pgMulS32Overflow (a b : BitVec 32) : Option (Report 32) :=
  viaWider 64 pgInt32Max pgInt32Min .mul a b

/-! ## Unsigned integers -/

/-- The sum, with a test of the reduced result. -/
def addReduced (a b : BitVec w) : Report w :=
  let res := a + b
  finish (res < a) res

/-- The difference, with a test of the operands. -/
def subCompared (a b : BitVec w) : Report w := finish (b > a) (a - b)

/-- The product in a wider type. -/
def mulWider {v : ℕ} (max : BitVec v) (a b : BitVec w) : Report w :=
  let res := a.setWidth v * b.setWidth v
  finish (res > max) (res.setWidth w)

/-- `pg_add_u16_overflow`. -/
def pgAddU16Overflow (a b : BitVec 16) : Report 16 := addReduced a b

/-- `pg_sub_u16_overflow`. -/
def pgSubU16Overflow (a b : BitVec 16) : Report 16 := subCompared a b

/-- `pg_mul_u16_overflow`. -/
def pgMulU16Overflow (a b : BitVec 16) : Report 16 := mulWider pgUint16Max a b

/-- `pg_add_u32_overflow`. -/
def pgAddU32Overflow (a b : BitVec 32) : Report 32 := addReduced a b

/-- `pg_sub_u32_overflow`. -/
def pgSubU32Overflow (a b : BitVec 32) : Report 32 := subCompared a b

/-- `pg_mul_u32_overflow`. -/
def pgMulU32Overflow (a b : BitVec 32) : Report 32 := mulWider pgUint32Max a b

/-- `pg_add_u64_overflow`. -/
def pgAddU64Overflow (a b : BitVec 64) : Report 64 := addReduced a b

/-- `pg_sub_u64_overflow`. -/
def pgSubU64Overflow (a b : BitVec 64) : Report 64 := subCompared a b

/-- `pg_mul_u64_overflow`, where there is no `uint128`. -/
def pgMulU64Overflow (a b : BitVec 64) : Report 64 :=
  let res := a * b
  finish (a ≠ 0 ∧ b ≠ res / a) res

/-- `pg_mul_u64_overflow`, where there is. -/
def pgMulU64OverflowUint128 (a b : BitVec 64) : Report 64 := mulWider pgUint64Max a b

/-! ## The types -/

/-- The integer types of the routines here. -/
inductive IntType where
  | int16
  | int32
  | uint16
  | uint32
  | uint64
  deriving DecidableEq, Repr

namespace IntType

def width : IntType → ℕ
  | int16 | uint16 => 16
  | int32 | uint32 => 32
  | uint64 => 64

def signed : IntType → Bool
  | int16 | int32 => true
  | uint16 | uint32 | uint64 => false

/-- The integer that a value of a type is. -/
def val (signed : Bool) (a : BitVec w) : ℤ := if signed then a.toInt else a.toNat

/-- An integer is in the range of a type. -/
def InRange (signed : Bool) (w : ℕ) (z : ℤ) : Prop :=
  if signed then Fits w z else 0 ≤ z ∧ z < 2 ^ w

instance (signed : Bool) (w : ℕ) (z : ℤ) : Decidable (InRange signed w z) := by
  unfold InRange
  infer_instance

/-- The branches of a routine that do without the builtin. -/
def portable : (t : IntType) → Op → BitVec t.width → BitVec t.width →
    List (Option (Report t.width))
  | int16, .add, a, b => [pgAddS16Overflow a b]
  | int16, .sub, a, b => [pgSubS16Overflow a b]
  | int16, .mul, a, b => [pgMulS16Overflow a b]
  | int32, .add, a, b => [pgAddS32Overflow a b]
  | int32, .sub, a, b => [pgSubS32Overflow a b]
  | int32, .mul, a, b => [pgMulS32Overflow a b]
  | uint16, .add, a, b => [some (pgAddU16Overflow a b)]
  | uint16, .sub, a, b => [some (pgSubU16Overflow a b)]
  | uint16, .mul, a, b => [some (pgMulU16Overflow a b)]
  | uint32, .add, a, b => [some (pgAddU32Overflow a b)]
  | uint32, .sub, a, b => [some (pgSubU32Overflow a b)]
  | uint32, .mul, a, b => [some (pgMulU32Overflow a b)]
  | uint64, .add, a, b => [some (pgAddU64Overflow a b)]
  | uint64, .sub, a, b => [some (pgSubU64Overflow a b)]
  | uint64, .mul, a, b => [some (pgMulU64OverflowUint128 a b), some (pgMulU64Overflow a b)]

end IntType

open IntType

/-- `__builtin_add_overflow` and its siblings, on any type: the exact result is reduced to the
type, and overflow is that this changes it. -/
def builtinOverflow (signed : Bool) (op : Op) (a b : BitVec w) : Report w :=
  let result := BitVec.ofInt w (op.exact (val signed a) (val signed b))
  ⟨val signed result ≠ op.exact (val signed a) (val signed b), result⟩

/-- **A report is right**: it says that there is overflow exactly when the exact result is out
of range, and otherwise has it; and the builtin says and has the same. -/
structure Right (signed : Bool) (op : Op) (a b : BitVec w) (r : Report w) : Prop where
  overflow_iff : r.overflow = true ↔ ¬ InRange signed w (op.exact (val signed a) (val signed b))
  val_result : r.overflow = false → val signed r.result = op.exact (val signed a) (val signed b)
  builtin_overflow : (builtinOverflow signed op a b).overflow = r.overflow
  builtin_result : r.overflow = false → (builtinOverflow signed op a b).result = r.result

theorem inRange_val (signed : Bool) (a : BitVec w) : InRange signed w (val signed a) := by
  cases signed with
  | true => exact fits_toInt a
  | false =>
    have hlt : (a.toNat : ℤ) < 2 ^ w := by exact_mod_cast a.isLt
    exact ⟨Int.natCast_nonneg _, hlt⟩

/-- What is in range is stored as it is. -/
theorem val_ofInt {signed : Bool} (hw : 0 < w) {z : ℤ} (h : InRange signed w z) :
    val signed (BitVec.ofInt w z) = z := by
  cases signed with
  | true => exact toInt_ofInt hw h
  | false =>
    obtain ⟨hlo, hhi⟩ := h
    show ((BitVec.ofInt w z).toNat : ℤ) = z
    rw [BitVec.toNat_ofInt, Int.toNat_of_nonneg (Int.emod_nonneg _ (by positivity))]
    exact Int.emod_eq_of_lt hlo (by exact_mod_cast hhi)

/-- **A branch is right** if it tests for an exact result out of range, and otherwise stores the
reduced one. -/
theorem right_finish {signed : Bool} {op : Op} {a b : BitVec w} (hw : 0 < w) {overflow : Bool}
    {result : BitVec w}
    (htest : overflow = true ↔ ¬ InRange signed w (op.exact (val signed a) (val signed b)))
    (hresult : result = BitVec.ofInt w (op.exact (val signed a) (val signed b))) :
    Right signed op a b (finish overflow result) := by
  have hbuiltin : (builtinOverflow signed op a b).overflow = overflow := by
    rw [Bool.eq_iff_iff, htest, builtinOverflow, decide_eq_true_iff, ne_eq, not_iff_not]
    exact ⟨fun h => h ▸ inRange_val signed _, val_ofInt hw⟩
  cases overflow with
  | true =>
    exact ⟨htest, fun h => Bool.noConfusion h, hbuiltin, fun h => Bool.noConfusion h⟩
  | false =>
    have hin := not_not.mp (mt htest.mpr Bool.false_ne_true)
    exact ⟨htest, fun _ => hresult ▸ val_ofInt hw hin, hbuiltin, fun _ => hresult.symm⟩

/-- **The wider type** holds every exact result. -/
theorem viaWider_right (hw : 1 < w) {max min : ℤ} (hmax : max = 2 ^ (w - 1) - 1)
    (hmin : min = -2 ^ (w - 1)) (op : Op) (a b : BitVec w) :
    ∃ r, viaWider (2 * w) max min op a b = some r ∧ Right true op a b r := by
  have hle : w ≤ 2 * w := Nat.le_mul_of_pos_left w Nat.two_pos
  have hpos : 0 < w := Nat.zero_lt_of_lt hw
  have hfits : Fits (2 * w) (op.exact a.toInt b.toInt) := by
    cases op with
    | add => exact fits_double_add hw a b
    | sub => exact fits_double_sub hw a b
    | mul => exact fits_double_mul hpos a b
  have hop : op.signed (a.signExtend (2 * w)) (b.signExtend (2 * w)) =
      some (BitVec.ofInt (2 * w) (op.exact a.toInt b.toInt)) := by
    rw [← exact_of_fits hfits, ← BitVec.toInt_signExtend_of_le (x := a) hle,
      ← BitVec.toInt_signExtend_of_le (x := b) hle]
    cases op <;> rfl
  have hres := toInt_ofInt (hpos.trans_le hle) hfits
  rw [viaWider, hop, Option.map_some]
  refine ⟨_, rfl, right_finish hpos ?_ ?_⟩
  · rw [decide_eq_true_iff, hres, hmax, hmin]
    show _ ↔ ¬ (_ ≤ _ ∧ _ < _)
    rw [not_and_or, not_le, not_lt, or_comm]
    exact or_congr Iff.rfl Int.sub_one_lt_iff
  · rw [← BitVec.signExtend_eq_setWidth_of_le _ hle]
    show BitVec.ofInt w _ = BitVec.ofInt w _
    rw [hres]
    rfl

theorem not_inRange_natCast {n : ℕ} : ¬ InRange false w n ↔ 2 ^ w ≤ n := by
  show ¬ (0 ≤ (n : ℤ) ∧ (n : ℤ) < 2 ^ w) ↔ _
  rw [and_iff_right (Int.natCast_nonneg n), not_lt]
  exact_mod_cast Iff.rfl

theorem addReduced_right (hw : 0 < w) (a b : BitVec w) : Right false .add a b (addReduced a b) := by
  have hexact : Op.exact .add (val false a) (val false b) = (a.toNat + b.toNat : ℕ) :=
    (Nat.cast_add _ _).symm
  refine right_finish hw ?_ ?_
  · rw [decide_eq_true_iff, UnsignedArith.add_lt_left_iff, hexact, not_inRange_natCast]
  · rw [hexact, BitVec.ofInt_natCast]
    exact BitVec.eq_of_toNat_eq (by rw [BitVec.toNat_add, BitVec.toNat_ofNat])

theorem subCompared_right (hw : 0 < w) (a b : BitVec w) :
    Right false .sub a b (subCompared a b) := by
  refine right_finish hw ?_ ?_
  · rw [decide_eq_true_iff, gt_iff_lt, BitVec.lt_def]
    show _ ↔ ¬ (0 ≤ (a.toNat : ℤ) - b.toNat ∧ (a.toNat : ℤ) - b.toNat < 2 ^ w)
    have hlt : (a.toNat : ℤ) - b.toNat < 2 ^ w :=
      (sub_le_self _ (Int.natCast_nonneg _)).trans_lt (by exact_mod_cast a.isLt)
    rw [and_iff_left hlt, sub_nonneg, not_le, Nat.cast_lt]
  · show a - b = BitVec.ofInt w ((a.toNat : ℤ) - b.toNat)
    rw [sub_eq_add_neg (G := ℤ), BitVec.ofInt_add, BitVec.ofInt_neg, BitVec.ofInt_natCast,
      BitVec.ofInt_natCast, BitVec.ofNat_toNat, BitVec.ofNat_toNat, BitVec.setWidth_eq,
      BitVec.setWidth_eq, BitVec.sub_eq_add_neg]

theorem exact_mul_natCast (a b : BitVec w) :
    Op.exact .mul (val false a) (val false b) = (a.toNat * b.toNat : ℕ) :=
  (Nat.cast_mul _ _).symm

theorem mulWider_right (hw : 0 < w) {max : BitVec (2 * w)} (hmax : max.toNat = 2 ^ w - 1)
    (a b : BitVec w) : Right false .mul a b (mulWider max a b) := by
  have hres := UnsignedArith.toNat_mul_double a b
  refine right_finish hw ?_ ?_
  · rw [decide_eq_true_iff, gt_iff_lt, BitVec.lt_def, hres, hmax, exact_mul_natCast,
      not_inRange_natCast, Nat.sub_lt_iff_lt_add (Nat.two_pow_pos w), Nat.lt_add_one_iff]
  · rw [exact_mul_natCast, BitVec.ofInt_natCast, ← hres]
    exact (BitVec.ofNat_toNat w _).symm

theorem pgMulU64Overflow_right (a b : BitVec 64) :
    Right false .mul a b (pgMulU64Overflow a b) := by
  refine right_finish (by decide) ?_ ?_
  · rw [decide_eq_true_iff, UnsignedArith.ne_mul_div_iff, exact_mul_natCast, not_inRange_natCast]
  · rw [exact_mul_natCast, BitVec.ofInt_natCast]
    exact BitVec.eq_of_toNat_eq (by rw [BitVec.toNat_mul, BitVec.toNat_ofNat])

/-- **The routines are right**, for each type and operation, on all operands and with each branch
that can be compiled: nothing that they evaluate is undefined, they return true exactly when the
exact result does not fit, and otherwise store it; and so does the builtin. -/
theorem pgOverflow_right (t : IntType) (op : Op) (a b : BitVec t.width) :
    ∀ r ∈ t.portable op a b, ∃ out, r = some out ∧ Right t.signed op a b out := by
  have single {w : ℕ} {s : Bool} {a b : BitVec w} {r : Option (Report w)}
      (h : ∃ out, r = some out ∧ Right s op a b out) :
      ∀ r' ∈ [r], ∃ out, r' = some out ∧ Right s op a b out := by
    intro r' hr'
    rwa [List.mem_singleton.mp hr']
  cases t with
  | int16 => cases op <;> exact single (viaWider_right (by decide) rfl rfl _ _ _)
  | int32 => cases op <;> exact single (viaWider_right (by decide) rfl rfl _ _ _)
  | uint16 =>
    cases op with
    | add => exact single ⟨_, rfl, addReduced_right (by decide) a b⟩
    | sub => exact single ⟨_, rfl, subCompared_right (by decide) a b⟩
    | mul => exact single ⟨_, rfl, mulWider_right (by decide) rfl a b⟩
  | uint32 =>
    cases op with
    | add => exact single ⟨_, rfl, addReduced_right (by decide) a b⟩
    | sub => exact single ⟨_, rfl, subCompared_right (by decide) a b⟩
    | mul => exact single ⟨_, rfl, mulWider_right (by decide) rfl a b⟩
  | uint64 =>
    cases op with
    | add => exact single ⟨_, rfl, addReduced_right (by decide) a b⟩
    | sub => exact single ⟨_, rfl, subCompared_right (by decide) a b⟩
    | mul =>
      exact List.forall_mem_cons.mpr ⟨⟨_, rfl, mulWider_right (by decide) rfl a b⟩,
        single ⟨_, rfl, pgMulU64Overflow_right a b⟩⟩

/-- Without `uint128`, a product of `uint64` that is reduced to a large number. -/
theorem pgOverflow_right_reduced :
    ∃ out, some (pgMulU64Overflow 0xFFFFFFFFFFFFFFFF 3) = some out ∧
      Right false .mul 0xFFFFFFFFFFFFFFFF 3 out :=
  pgOverflow_right .uint64 .mul 0xFFFFFFFFFFFFFFFF 3 _
    (List.mem_cons_of_mem _ List.mem_cons_self)

end CommonInt
