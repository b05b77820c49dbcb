import Mathlib.Algebra.Order.Ring.Abs
import Mathlib.Data.Int.ModEq
import Mathlib.Tactic.Ring
import Mathlib.Tactic.Linarith
import Mathlib.Logic.Function.Basic

/-!
# 128-bit integers from two 64-bit halves

`common/int128.h` has two implementations of one type: where the compiler has a
128-bit integer it is used, and elsewhere – with the compilers of Windows in
particular – a structure of a signed high half and an unsigned low half stands
in for it. The second one finds carries by looking at sign bits and multiplies
by halves of 32 bits.

`INT128.value` is the integer the two halves represent. Every operation changes
it by the amount it should, modulo `2 ^ 128`, and a value lies in the range of
the two's complement, so it is the exact result reduced to that range. The
native implementation is arithmetic on `BitVec 128`, and the structure has the
very bits of it after every operation (`int128_run`).
-/

namespace Int128

/-- The structure `INT128`. -/
structure INT128 where
  /-- The least significant 64 bits, without sign. -/
  lo : BitVec 64
  /-- The most significant 64 bits, including sign. -/
  hi : BitVec 64
  deriving DecidableEq, Repr

/-! ## The structure implementation -/

/-- `int128_add_uint64`. The casts to `int64` are a way to check the high bit. -/
def int128AddUint64 (i128 : INT128) (v : BitVec 64) : INT128 :=
  let oldlo := i128.lo
  let lo := i128.lo + v
  if (v.toInt < 0 ∧ oldlo.toInt < 0) ∨
      ((v.toInt < 0 ∨ oldlo.toInt < 0) ∧ lo.toInt ≥ 0) then
    ⟨lo, i128.hi + 1⟩
  else ⟨lo, i128.hi⟩

/-- `int128_add_int64`. -/
def int128AddInt64 (i128 : INT128) (v : BitVec 64) : INT128 :=
  let oldlo := i128.lo
  let lo := i128.lo + v
  if v.toInt ≥ 0 then
    if oldlo.toInt < 0 ∧ lo.toInt ≥ 0 then ⟨lo, i128.hi + 1⟩ else ⟨lo, i128.hi⟩
  else
    if ¬ (oldlo.toInt < 0 ∨ lo.toInt ≥ 0) then ⟨lo, i128.hi - 1⟩ else ⟨lo, i128.hi⟩

/-- `INT64_AU32`: the most significant 32 bits, as `int64`. -/
def int64Au32 (i64 : BitVec 64) : BitVec 64 := i64.sshiftRight 32

/-- `INT64_AL32`: the least significant 32 bits, as `uint64`. -/
def int64Al32 (i64 : BitVec 64) : BitVec 64 := i64 &&& 0xFFFFFFFF#64

/-- Adding the second or the third term of a product: the high half of `tmp` is
sign-extended only if the factor with the sign is negative. -/
def int128AddTerm (i128 : INT128) (factor tmp : BitVec 64) : INT128 :=
  let hi :=
    if factor.toInt < 0 then i128.hi + int64Au32 tmp else i128.hi + (tmp >>> 32)
  int128AddUint64 ⟨i128.lo, hi⟩ (int64Al32 tmp <<< 32)

/-- `int128_add_int64_mul_int64`. -/
def int128AddInt64MulInt64 (i128 : INT128) (x y : BitVec 64) : INT128 :=
  if x ≠ 0 ∧ y ≠ 0 then
    let xU32 := int64Au32 x
    let xL32 := int64Al32 x
    let yU32 := int64Au32 y
    let yL32 := int64Al32 y
    let i128 : INT128 := ⟨i128.lo, i128.hi + xU32 * yU32⟩
    let i128 := int128AddTerm i128 x (xU32 * yL32)
    let i128 := int128AddTerm i128 y (xL32 * yU32)
    int128AddUint64 i128 (xL32 * yL32)
  else i128

/-- `int128_compare`. -/
def int128Compare (x y : INT128) : ℤ :=
  if x.hi.toInt < y.hi.toInt then -1
  else if x.hi.toInt > y.hi.toInt then 1
  else if x.lo.toNat < y.lo.toNat then -1
  else if x.lo.toNat > y.lo.toNat then 1
  else 0

/-- `int64_to_int128`. -/
def int64ToInt128 (v : BitVec 64) : INT128 :=
  ⟨v, if v.toInt < 0 then -1 else 0⟩

/-! ## The native implementation -/

/-- `int128_add_uint64`. -/
def nativeAddUint64 (i128 : BitVec 128) (v : BitVec 64) : BitVec 128 :=
  i128 + v.setWidth 128

/-- `int128_add_int64`. -/
def nativeAddInt64 (i128 : BitVec 128) (v : BitVec 64) : BitVec 128 :=
  i128 + v.signExtend 128

/-- `int128_add_int64_mul_int64`. -/
def nativeAddInt64MulInt64 (i128 : BitVec 128) (x y : BitVec 64) : BitVec 128 :=
  i128 + x.signExtend 128 * y.signExtend 128

/-- `int128_compare`. -/
def nativeCompare (x y : BitVec 128) : ℤ :=
  if x.toInt < y.toInt then -1
  else if x.toInt > y.toInt then 1
  else 0

/-- `int64_to_int128`. -/
def nativeOfInt64 (v : BitVec 64) : BitVec 128 := v.signExtend 128

/-! ## What the halves represent -/

/-- **The value represented.** -/
def INT128.value (i : INT128) : ℤ := i.hi.toInt * 2 ^ 64 + i.lo.toNat

theorem INT128.value_mk (lo hi : BitVec 64) :
    (INT128.mk lo hi).value = hi.toInt * 2 ^ 64 + lo.toNat := rfl

/-- The bits of the structure, as the native type has them. -/
def INT128.native (i : INT128) : BitVec 128 := i.hi ++ i.lo

theorem INT128.native_toInt (i : INT128) : i.native.toInt = i.value := by
  rw [native, BitVec.toInt_append, if_neg (by decide), value, Int.mul_comm]

theorem INT128.value_range (i : INT128) : -2 ^ 127 ≤ i.value ∧ i.value < 2 ^ 127 := by
  rw [← i.native_toInt]
  exact ⟨BitVec.le_toInt _, BitVec.toInt_lt⟩

/-- A value in range is what it is congruent to, reduced to the range. -/
theorem INT128.value_eq_bmod {i : INT128} {e : ℤ} (h : i.value ≡ e [ZMOD 2 ^ 128]) :
    i.value = e.bmod (2 ^ 128) := by
  have hr := i.value_range
  have hself : i.value.bmod (2 ^ 128) = i.value :=
    Int.bmod_eq_of_le (by omega) (by omega)
  have hmod : i.value % ((2 ^ 128 : ℕ) : ℤ) = e % ((2 ^ 128 : ℕ) : ℤ) := h
  rw [← hself, ← Int.emod_bmod, hmod, Int.emod_bmod]

/-- Adding to the high half. -/
theorem value_add_hi (lo hi k : BitVec 64) :
    (INT128.mk lo (hi + k)).value
      ≡ (INT128.mk lo hi).value + k.toInt * 2 ^ 64 [ZMOD 2 ^ 128] := by
  have hhi : (hi + k).toInt ≡ hi.toInt + k.toInt [ZMOD 2 ^ 64] := by
    rw [BitVec.toInt_add]
    exact Int.bmod_emod
  have hmul := (hhi.mul_right' (c := 2 ^ 64)).add_right (lo.toNat : ℤ)
  show (hi + k).toInt * 2 ^ 64 + lo.toNat
    ≡ hi.toInt * 2 ^ 64 + lo.toNat + k.toInt * 2 ^ 64 [ZMOD 2 ^ 128]
  rw [show hi.toInt * 2 ^ 64 + lo.toNat + k.toInt * 2 ^ 64
    = (hi.toInt + k.toInt) * 2 ^ 64 + lo.toNat by ring]
  exact hmul

/-- The sign bit of a 64-bit word. -/
theorem toInt_neg_iff (v : BitVec 64) : v.toInt < 0 ↔ 2 ^ 63 ≤ v.toNat := by
  have h := v.isLt
  rw [BitVec.toInt_eq_toNat_cond]
  split_ifs <;> omega

theorem toInt_of_lt {v : BitVec 64} (h : v.toNat < 2 ^ 63) : v.toInt = v.toNat := by
  rw [BitVec.toInt_eq_toNat_cond, if_pos (by omega)]

theorem toInt_of_ge {v : BitVec 64} (h : 2 ^ 63 ≤ v.toNat) :
    v.toInt = v.toNat - 2 ^ 64 := by
  rw [BitVec.toInt_eq_toNat_cond, if_neg (by omega)]
  rfl

/-- **The carry is found**: the test on sign bits says when the low halves
overflow. -/
theorem carry_iff (a v : BitVec 64) :
    ((v.toInt < 0 ∧ a.toInt < 0) ∨
      ((v.toInt < 0 ∨ a.toInt < 0) ∧ (a + v).toInt ≥ 0)) ↔
        2 ^ 64 ≤ a.toNat + v.toNat := by
  have ha := a.isLt
  have hv := v.isLt
  rw [ge_iff_le, ← not_lt, toInt_neg_iff, toInt_neg_iff, toInt_neg_iff, BitVec.toNat_add]
  omega

/-- **`int128_add_uint64` adds.** -/
theorem value_int128AddUint64 (i : INT128) (v : BitVec 64) :
    (int128AddUint64 i v).value ≡ i.value + v.toNat [ZMOD 2 ^ 128] := by
  have hlo : (i.lo + v).toNat = (i.lo.toNat + v.toNat) % 2 ^ 64 := BitVec.toNat_add _ _
  have ha := i.lo.isLt
  have hv := v.isLt
  unfold int128AddUint64
  dsimp only
  rw [if_congr (carry_iff i.lo v) rfl rfl]
  split_ifs with hc
  · have hsum : ((i.lo + v).toNat : ℤ) + 2 ^ 64 = i.lo.toNat + v.toNat := by omega
    refine (value_add_hi _ _ _).trans ?_
    rw [INT128.value_mk, INT128.value, show (1 : BitVec 64).toInt = 1 by decide,
      add_assoc, one_mul, hsum, add_assoc]
  · have hsum : ((i.lo + v).toNat : ℤ) = i.lo.toNat + v.toNat := by omega
    rw [INT128.value_mk, INT128.value, hsum, add_assoc]

/-- **`int128_add_int64` adds.** -/
theorem value_int128AddInt64 (i : INT128) (v : BitVec 64) :
    (int128AddInt64 i v).value ≡ i.value + v.toInt [ZMOD 2 ^ 128] := by
  have hlo : (i.lo + v).toNat = (i.lo.toNat + v.toNat) % 2 ^ 64 := BitVec.toNat_add _ _
  have ha := i.lo.isLt
  have hv := v.isLt
  have hpos := toInt_of_lt (v := v)
  have hneg := toInt_of_ge (v := v)
  have hsa := toInt_neg_iff i.lo
  have hsv := toInt_neg_iff v
  have hss := toInt_neg_iff (i.lo + v)
  have hsub : i.hi - 1 = i.hi + (-1) := BitVec.sub_eq_add_neg _ _
  unfold int128AddInt64
  dsimp only
  rw [hsub]
  split_ifs with h₁ h₂ h₂
  · -- `v` is not negative, and the low halves overflow
    have hsum : ((i.lo + v).toNat : ℤ) + 2 ^ 64 = i.lo.toNat + v.toInt := by omega
    refine (value_add_hi (i.lo + v) i.hi 1).trans ?_
    rw [INT128.value_mk, INT128.value, show (1 : BitVec 64).toInt = 1 by decide,
      add_assoc, one_mul, hsum, add_assoc]
  · have hsum : ((i.lo + v).toNat : ℤ) = i.lo.toNat + v.toInt := by omega
    rw [INT128.value_mk, INT128.value, hsum, add_assoc]
  · have hsum : ((i.lo + v).toNat : ℤ) = i.lo.toNat + v.toInt := by omega
    rw [INT128.value_mk, INT128.value, hsum, add_assoc]
  · -- `v` is negative, and there is no carry to cancel its sign
    have hsum : ((i.lo + v).toNat : ℤ) + -2 ^ 64 = i.lo.toNat + v.toInt := by omega
    refine (value_add_hi (i.lo + v) i.hi (-1)).trans ?_
    rw [INT128.value_mk, INT128.value, show (-1 : BitVec 64).toInt = -1 by decide,
      add_assoc, neg_one_mul, hsum, add_assoc]

/-! ## Multiplication -/

theorem int64Au32_toInt (x : BitVec 64) : (int64Au32 x).toInt = x.toInt / 2 ^ 32 := by
  rw [int64Au32, BitVec.toInt_sshiftRight, Int.shiftRight_eq_div_pow]
  rfl

theorem int64Al32_toNat (x : BitVec 64) : (int64Al32 x).toNat = x.toNat % 2 ^ 32 := by
  rw [int64Al32, BitVec.toNat_and]
  exact Nat.and_two_pow_sub_one_eq_mod x.toNat 32

/-- The halves of an `int64` make it up, the low one being unsigned. -/
theorem toInt_halves (x : BitVec 64) :
    x.toInt = (int64Au32 x).toInt * 2 ^ 32 + (int64Al32 x).toNat := by
  have hx := x.isLt
  have hpos := toInt_of_lt (v := x)
  have hneg := toInt_of_ge (v := x)
  rw [int64Au32_toInt, int64Al32_toNat]
  omega

/-- The low 32 bits of the value as it is and as an unsigned one. -/
theorem toInt_emod (x : BitVec 64) : x.toInt % 2 ^ 32 = (x.toNat % 2 ^ 32 : ℕ) := by
  have hx := x.isLt
  have hpos := toInt_of_lt (v := x)
  have hneg := toInt_of_ge (v := x)
  omega

/-- **The second and the third term**: `tmp`, which has the sign of `factor`,
is added at bit 32. -/
theorem value_int128AddTerm (i : INT128) {factor tmp : BitVec 64}
    (hsign : 0 ≤ factor.toInt → 0 ≤ tmp.toInt) :
    (int128AddTerm i factor tmp).value ≡ i.value + tmp.toInt * 2 ^ 32 [ZMOD 2 ^ 128] := by
  have ht := tmp.isLt
  have hpos := toInt_of_lt (v := tmp)
  have hst := toInt_neg_iff tmp
  -- what is added to the high half, in both cases
  obtain ⟨k, hk, hhi⟩ : ∃ k : BitVec 64, k.toInt = tmp.toInt / 2 ^ 32 ∧
      (if factor.toInt < 0 then i.hi + int64Au32 tmp else i.hi + (tmp >>> 32))
        = i.hi + k := by
    split_ifs with hf
    · exact ⟨_, int64Au32_toInt tmp, rfl⟩
    · refine ⟨_, ?_, rfl⟩
      have hshift : (tmp >>> 32).toNat = tmp.toNat / 2 ^ 32 := by
        rw [BitVec.toNat_ushiftRight, Nat.shiftRight_eq_div_pow]
      rw [toInt_of_lt (by omega), hshift]
      have := hsign (not_lt.mp hf)
      omega
  have hlow : (int64Al32 tmp <<< 32).toNat = tmp.toNat % 2 ^ 32 * 2 ^ 32 := by
    rw [BitVec.toNat_shiftLeft, int64Al32_toNat, Nat.shiftLeft_eq]
    omega
  have hsplit : tmp.toInt * 2 ^ 32
      = tmp.toInt / 2 ^ 32 * 2 ^ 64 + (tmp.toNat % 2 ^ 32 * 2 ^ 32 : ℕ) := by
    have := toInt_emod tmp
    omega
  unfold int128AddTerm
  dsimp only
  rw [hhi]
  refine (value_int128AddUint64 _ _).trans ?_
  rw [hlow, hsplit, ← add_assoc]
  refine Int.ModEq.add_right _ ?_
  rw [← hk]
  exact value_add_hi i.lo i.hi k

theorem int64Au32_range (x : BitVec 64) :
    -2 ^ 31 ≤ (int64Au32 x).toInt ∧ (int64Au32 x).toInt < 2 ^ 31 := by
  have h₁ := BitVec.le_toInt x
  have h₂ := BitVec.toInt_lt (x := x)
  rw [int64Au32_toInt]
  omega

theorem int64Al32_lt (x : BitVec 64) : (int64Al32 x).toNat < 2 ^ 32 := by
  rw [int64Al32_toNat]
  exact Nat.mod_lt _ (by decide)

/-- **A signed half times an unsigned one** does not overflow 64 bits. -/
theorem toInt_mul_halves {a b : BitVec 64} (ha : -2 ^ 31 ≤ a.toInt ∧ a.toInt < 2 ^ 31)
    (hb : b.toNat < 2 ^ 32) : (a * b).toInt = a.toInt * b.toNat := by
  have hlow : -2 ^ 31 * (b.toNat : ℤ) ≤ a.toInt * b.toNat :=
    Int.mul_le_mul_of_nonneg_right ha.1 (Int.natCast_nonneg _)
  have hhigh : a.toInt * b.toNat ≤ 2 ^ 31 * (b.toNat : ℤ) :=
    Int.mul_le_mul_of_nonneg_right ha.2.le (Int.natCast_nonneg _)
  rw [BitVec.toInt_mul, toInt_of_lt (v := b) (by omega)]
  exact Int.bmod_eq_of_le (by omega) (by omega)

/-- Two signed halves. -/
theorem toInt_mul_signed {a b : BitVec 64} (ha : -2 ^ 31 ≤ a.toInt ∧ a.toInt < 2 ^ 31)
    (hb : -2 ^ 31 ≤ b.toInt ∧ b.toInt < 2 ^ 31) : (a * b).toInt = a.toInt * b.toInt := by
  have habs : |a.toInt * b.toInt| ≤ 2 ^ 31 * 2 ^ 31 := by
    rw [abs_mul]
    exact mul_le_mul (abs_le.mpr ⟨ha.1, ha.2.le⟩) (abs_le.mpr ⟨hb.1, hb.2.le⟩)
      (abs_nonneg _) (by norm_num)
  have hrange := abs_le.mp habs
  rw [BitVec.toInt_mul]
  exact Int.bmod_eq_of_le (by omega) (by omega)

/-- Two unsigned halves. -/
theorem toNat_mul_unsigned {a b : BitVec 64} (ha : a.toNat < 2 ^ 32)
    (hb : b.toNat < 2 ^ 32) : (a * b).toNat = a.toNat * b.toNat := by
  have hlt : a.toNat * b.toNat < 2 ^ 32 * 2 ^ 32 := Nat.mul_lt_mul'' ha hb
  rw [BitVec.toNat_mul]
  exact Nat.mod_eq_of_lt (by omega)

/-- **`int128_add_int64_mul_int64` adds the product.** -/
theorem value_int128AddInt64MulInt64 (i : INT128) (x y : BitVec 64) :
    (int128AddInt64MulInt64 i x y).value ≡ i.value + x.toInt * y.toInt [ZMOD 2 ^ 128] := by
  unfold int128AddInt64MulInt64
  split_ifs with h₀
  · dsimp only
    have hxu := int64Au32_range x
    have hyu := int64Au32_range y
    have hxl := int64Al32_lt x
    have hyl := int64Al32_lt y
    have hsecond := toInt_mul_halves hxu hyl
    have hthird : (int64Al32 x * int64Au32 y).toInt
        = (int64Au32 y).toInt * (int64Al32 x).toNat := by
      rw [BitVec.mul_comm]
      exact toInt_mul_halves hyu hxl
    -- a factor that is not negative has a high half that is not negative
    have hsign : ∀ (u w : BitVec 64), 0 ≤ u.toInt →
        0 ≤ (int64Au32 u).toInt * (int64Al32 w).toNat := fun u w hu => by
      refine mul_nonneg ?_ (Int.natCast_nonneg _)
      rw [int64Au32_toInt]
      omega
    have hprod : x.toInt * y.toInt
        = (int64Au32 x).toInt * (int64Au32 y).toInt * 2 ^ 64
          + (int64Au32 x).toInt * (int64Al32 y).toNat * 2 ^ 32
          + (int64Au32 y).toInt * (int64Al32 x).toNat * 2 ^ 32
          + ((int64Al32 x).toNat * (int64Al32 y).toNat : ℕ) := by
      rw [toInt_halves x, toInt_halves y, Nat.cast_mul]
      ring
    rw [hprod, ← toInt_mul_signed hxu hyu, ← hsecond, ← hthird,
      ← toNat_mul_unsigned hxl hyl, ← add_assoc, ← add_assoc, ← add_assoc]
    refine (value_int128AddUint64 _ _).trans (Int.ModEq.add_right _ ?_)
    refine (value_int128AddTerm _ fun hy => ?_).trans (Int.ModEq.add_right _ ?_)
    · rw [hthird]
      exact hsign y x hy
    · refine (value_int128AddTerm _ fun hx => ?_).trans (Int.ModEq.add_right _ ?_)
      · rw [hsecond]
        exact hsign x y hx
      · exact value_add_hi i.lo i.hi _
  · have hzero : x.toInt * y.toInt = 0 := by
      rw [not_and_or, not_not, not_not] at h₀
      rcases h₀ with rfl | rfl
      · exact zero_mul _
      · exact mul_zero _
    rw [hzero, add_zero]

/-! ## Widening and comparing -/

/-- **`int64_to_int128` widens.** -/
theorem value_int64ToInt128 (v : BitVec 64) : (int64ToInt128 v).value = v.toInt := by
  have hv := v.isLt
  have hpos := toInt_of_lt (v := v)
  have hneg := toInt_of_ge (v := v)
  have hs := toInt_neg_iff v
  unfold int64ToInt128
  rw [INT128.value_mk]
  split_ifs with h
  · rw [show (-1 : BitVec 64).toInt = -1 by decide]
    omega
  · rw [show (0 : BitVec 64).toInt = 0 by decide]
    omega

/-- **`int128_compare` is the sign of the difference.** -/
theorem int128Compare_eq_sign (x y : INT128) :
    int128Compare x y = (x.value - y.value).sign := by
  have hx := x.lo.isLt
  have hy := y.lo.isLt
  have hvx : x.value = x.hi.toInt * 2 ^ 64 + x.lo.toNat := rfl
  have hvy : y.value = y.hi.toInt * 2 ^ 64 + y.lo.toNat := rfl
  unfold int128Compare
  split_ifs
  · exact (Int.sign_eq_neg_one_of_neg (by omega)).symm
  · exact (Int.sign_eq_one_of_pos (by omega)).symm
  · exact (Int.sign_eq_neg_one_of_neg (by omega)).symm
  · exact (Int.sign_eq_one_of_pos (by omega)).symm
  · rw [show x.value - y.value = 0 by omega, Int.sign_zero]

theorem nativeCompare_eq_sign (x y : BitVec 128) :
    nativeCompare x y = (x.toInt - y.toInt).sign := by
  unfold nativeCompare
  split_ifs
  · exact (Int.sign_eq_neg_one_of_neg (by omega)).symm
  · exact (Int.sign_eq_one_of_pos (by omega)).symm
  · rw [show x.toInt - y.toInt = 0 by omega, Int.sign_zero]

/-! ## Sequences of operations -/

/-- An operation on one of a number of variables. -/
inductive Int128Op where
  | addUint64 (i : ℕ) (v : BitVec 64)
  | addInt64 (i : ℕ) (v : BitVec 64)
  | addInt64MulInt64 (i : ℕ) (x y : BitVec 64)
  | ofInt64 (i : ℕ) (v : BitVec 64)

/-- The variable an operation assigns to. -/
def Int128Op.target : Int128Op → ℕ
  | .addUint64 i _ | .addInt64 i _ | .addInt64MulInt64 i _ _ | .ofInt64 i _ => i

/-- What the operation makes of the variable, in the structure implementation. -/
def Int128Op.apply (old : INT128) : Int128Op → INT128
  | .addUint64 _ v => int128AddUint64 old v
  | .addInt64 _ v => int128AddInt64 old v
  | .addInt64MulInt64 _ x y => int128AddInt64MulInt64 old x y
  | .ofInt64 _ v => int64ToInt128 v

/-- In the native implementation. -/
def Int128Op.applyNative (old : BitVec 128) : Int128Op → BitVec 128
  | .addUint64 _ v => nativeAddUint64 old v
  | .addInt64 _ v => nativeAddInt64 old v
  | .addInt64MulInt64 _ x y => nativeAddInt64MulInt64 old x y
  | .ofInt64 _ v => nativeOfInt64 v

/-- And exactly, on the integers. -/
def Int128Op.applyExact (old : ℤ) : Int128Op → ℤ
  | .addUint64 _ v => old + v.toNat
  | .addInt64 _ v => old + v.toInt
  | .addInt64MulInt64 _ x y => old + x.toInt * y.toInt
  | .ofInt64 _ v => v.toInt

/-- The variables after a sequence of operations. -/
def int128Run {α : Type*} (apply : α → Int128Op → α) (vars : ℕ → α) :
    List Int128Op → ℕ → α
  | [] => vars
  | op :: ops =>
    int128Run apply (Function.update vars op.target (apply (vars op.target) op)) ops

/-- **One operation** changes the value by what it should. -/
theorem value_apply (i : INT128) (op : Int128Op) :
    (op.apply i).value ≡ op.applyExact i.value [ZMOD 2 ^ 128] := by
  cases op with
  | addUint64 _ v => exact value_int128AddUint64 i v
  | addInt64 _ v => exact value_int128AddInt64 i v
  | addInt64MulInt64 _ x y => exact value_int128AddInt64MulInt64 i x y
  | ofInt64 _ v => rw [Int128Op.apply, value_int64ToInt128]; rfl

/-- An exact operation on congruent integers. -/
theorem applyExact_modEq {a b : ℤ} (h : a ≡ b [ZMOD 2 ^ 128]) (op : Int128Op) :
    op.applyExact a ≡ op.applyExact b [ZMOD 2 ^ 128] := by
  cases op with
  | addUint64 _ v => exact h.add_right _
  | addInt64 _ v => exact h.add_right _
  | addInt64MulInt64 _ x y => exact h.add_right _
  | ofInt64 _ v => rfl

/-- The native implementation is exact but for the reduction. -/
theorem toInt_applyNative (n : BitVec 128) (op : Int128Op) :
    (op.applyNative n).toInt = (op.applyExact n.toInt).bmod (2 ^ 128) := by
  cases op with
  | addUint64 _ v =>
    show (n + v.setWidth 128).toInt = _
    have hv := v.isLt
    rw [BitVec.toInt_add, BitVec.toInt_eq_toNat_of_lt (x := v.setWidth 128)
        (by rw [BitVec.toNat_setWidth]; omega),
      BitVec.toNat_setWidth, Nat.mod_eq_of_lt (by omega)]
    rfl
  | addInt64 _ v =>
    show (n + v.signExtend 128).toInt = _
    rw [BitVec.toInt_add, BitVec.toInt_signExtend_of_le (by decide)]
    rfl
  | addInt64MulInt64 _ x y =>
    show (n + x.signExtend 128 * y.signExtend 128).toInt = _
    rw [BitVec.toInt_add, BitVec.toInt_mul, BitVec.toInt_signExtend_of_le (by decide),
      BitVec.toInt_signExtend_of_le (by decide), Int.add_bmod_bmod]
    rfl
  | ofInt64 _ v =>
    show (v.signExtend 128).toInt = v.toInt.bmod (2 ^ 128)
    have h₁ := BitVec.le_toInt v
    have h₂ := BitVec.toInt_lt (x := v)
    rw [BitVec.toInt_signExtend_of_le (by decide), Int.bmod_eq_of_le (by omega) (by omega)]

/-- **The two implementations agree on one operation**, bit by bit. -/
theorem native_apply (i : INT128) (op : Int128Op) :
    (op.apply i).native = op.applyNative i.native := by
  apply BitVec.eq_of_toInt_eq
  rw [INT128.native_toInt, toInt_applyNative, INT128.native_toInt]
  exact INT128.value_eq_bmod (value_apply i op)

/-- **The values of a run** are the exact ones modulo `2 ^ 128`. -/
theorem value_int128Run (vars : ℕ → INT128) (exact : ℕ → ℤ)
    (h : ∀ i, (vars i).value ≡ exact i [ZMOD 2 ^ 128]) (ops : List Int128Op) (j : ℕ) :
    (int128Run (fun old op => op.apply old) vars ops j).value
      ≡ int128Run (fun old op => op.applyExact old) exact ops j [ZMOD 2 ^ 128] := by
  induction ops generalizing vars exact with
  | nil => exact h j
  | cons op ops ih =>
    refine ih _ _ fun i => ?_
    by_cases hi : i = op.target
    · subst hi
      rw [Function.update_self, Function.update_self]
      exact (value_apply _ op).trans (applyExact_modEq (h _) op)
    · rw [Function.update_of_ne hi, Function.update_of_ne hi]
      exact h i

/-- **The bits of a run** are those of the native run. -/
theorem native_int128Run (vars : ℕ → INT128) (ops : List Int128Op) (j : ℕ) :
    (int128Run (fun old op => op.apply old) vars ops j).native
      = int128Run (fun old op => op.applyNative old) (fun i => (vars i).native) ops j := by
  induction ops generalizing vars with
  | nil => rfl
  | cons op ops ih =>
    show (int128Run _ (Function.update vars op.target _) ops j).native
      = int128Run _ (Function.update _ op.target _) ops j
    rw [ih]
    congr 1
    funext i
    dsimp only
    rw [Function.apply_update (fun _ => INT128.native) vars op.target _ i, native_apply]

/-- **Any sequence of operations** on any number of variables: each variable
has the exact result reduced to the range of the two's complement, and the very
bits the native implementation gives it; and comparing two of them gives the sign
of the difference of what they represent, as the native comparison does. -/
theorem int128_run (vars : ℕ → INT128) (ops : List Int128Op) (j k : ℕ) :
    (int128Run (fun old op => op.apply old) vars ops j).value
        = (int128Run (fun old op => op.applyExact old) (fun i => (vars i).value)
            ops j).bmod (2 ^ 128) ∧
      (int128Run (fun old op => op.apply old) vars ops j).native
        = int128Run (fun old op => op.applyNative old) (fun i => (vars i).native) ops j ∧
      int128Compare (int128Run (fun old op => op.apply old) vars ops j)
          (int128Run (fun old op => op.apply old) vars ops k)
        = ((int128Run (fun old op => op.apply old) vars ops j).value
            - (int128Run (fun old op => op.apply old) vars ops k).value).sign ∧
      int128Compare (int128Run (fun old op => op.apply old) vars ops j)
          (int128Run (fun old op => op.apply old) vars ops k)
        = nativeCompare
            (int128Run (fun old op => op.applyNative old) (fun i => (vars i).native) ops j)
            (int128Run (fun old op => op.applyNative old) (fun i => (vars i).native)
              ops k) := by
  refine ⟨INT128.value_eq_bmod (value_int128Run vars _ (fun _ => Int.ModEq.rfl) ops j),
    native_int128Run vars ops j, int128Compare_eq_sign _ _, ?_⟩
  rw [int128Compare_eq_sign, nativeCompare_eq_sign, ← native_int128Run,
    ← native_int128Run, INT128.native_toInt, INT128.native_toInt]

end Int128
