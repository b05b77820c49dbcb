import Mathlib.Data.BitVec
import Mathlib.Tactic.Lift

/-!
# The size of a tsquery

`COMPUTESIZE` of `tsearch/ts_type.h` is how many bytes a tsquery of so many items and so
long operands takes, and `TSQUERY_TOO_BIG` is the test that callers make before they
allocate it. Both are computed in the unsigned type `Size`, of four or eight bytes, from
counts that are `int`.

The test subtracts the length of the operands from the limit, and this wraps around for
operands that are already too long by themselves: the test then compares with a large
number instead of failing. `tsquery_tested_iff` says for which counts the test keeps its
promise.
-/

namespace TsType

/-- The width of `Size`. -/
inductive SizeWidth where
  | four
  | eight

/-- The same, in bits. -/
def SizeWidth.bits : SizeWidth → ℕ
  | four => 32
  | eight => 64

/-- A `Size`. -/
abbrev Size (width : SizeWidth) := BitVec width.bits

/-- `MaxAllocSize`. -/
def maxAllocSize {width : SizeWidth} : Size width := 0x3fffffff

/-- `VARHDRSZ`, an `int32`. -/
def varhdrsz : ℤ := 4

/-- `sizeof(QueryItem)`: an operand has three single bytes and one of padding, an `int32`,
and 32 bits for its length and its distance; an operator has less. -/
def sizeofQueryItem {width : SizeWidth} : Size width := 12

/-- The conversion of an `int`. -/
def ofInt {width : SizeWidth} (i : ℤ) : Size width := BitVec.ofInt width.bits i

/-- `HDRSIZETQ`. -/
def hdrsizetq {width : SizeWidth} : Size width := ofInt varhdrsz + 4

/-- `COMPUTESIZE`. -/
def computesize (width : SizeWidth) (size lenofoperand : ℤ) : Size width :=
  hdrsizetq + ofInt size * sizeofQueryItem + ofInt lenofoperand

/-- `TSQUERY_TOO_BIG`. -/
def tsqueryTooBig (width : SizeWidth) (size lenofoperand : ℤ) : Bool :=
  decide (ofInt size > (maxAllocSize - hdrsizetq - ofInt lenofoperand : Size width) /
    sizeofQueryItem)

/-- **The test keeps its promise**: a tsquery that is not too big takes as many bytes as
were computed, and may be allocated. -/
def Tested (width : SizeWidth) (size lenofoperand : ℤ) : Prop :=
  tsqueryTooBig width size lenofoperand = false →
    ((computesize width size lenofoperand).toNat : ℤ) = 8 + size * 12 + lenofoperand ∧
      computesize width size lenofoperand ≤ maxAllocSize

/-- A count that is an `int`. -/
def IsCount (i : ℤ) : Prop := 0 ≤ i ∧ i < 2 ^ 31

instance (i : ℤ) : Decidable (IsCount i) := inferInstanceAs (Decidable (_ ∧ _))

/-- A count is converted as it is. -/
theorem toNat_ofInt {width : SizeWidth} {n : ℕ} (hn : n < 2 ^ 31) :
    (ofInt n : Size width).toNat = n := by
  have hlt : n < 2 ^ width.bits := by
    cases width with
    | four => exact hn.trans (by decide)
    | eight => exact hn.trans (by decide)
  show (BitVec.ofInt width.bits n).toNat = n
  rw [BitVec.ofInt_natCast, BitVec.toNat_ofNat, Nat.mod_eq_of_lt hlt]

/-- What the operands are subtracted from. -/
theorem toNat_room (width : SizeWidth) :
    (maxAllocSize - hdrsizetq : Size width).toNat = 1073741815 := by
  cases width <;> decide

theorem toNat_hdrsizetq (width : SizeWidth) : (hdrsizetq : Size width).toNat = 8 := by
  cases width <;> decide

theorem toNat_sizeofQueryItem (width : SizeWidth) :
    (sizeofQueryItem : Size width).toNat = 12 := by
  cases width <;> decide

theorem toNat_maxAllocSize (width : SizeWidth) :
    (maxAllocSize : Size width).toNat = 1073741823 := by
  cases width <;> decide

section Counts

variable (width : SizeWidth) {s l : ℕ} (hs : s < 2 ^ 31) (hl : l < 2 ^ 31)
include hs hl

/-- **The limit of the test**, with the subtraction that may wrap around. -/
theorem tsqueryTooBig_eq_false_iff :
    tsqueryTooBig width s l = false ↔
      s ≤ (2 ^ width.bits - l + 1073741815) % 2 ^ width.bits / 12 := by
  unfold tsqueryTooBig
  rw [decide_eq_false_iff_not, gt_iff_lt, BitVec.lt_def, BitVec.toNat_udiv, BitVec.toNat_sub,
    toNat_room, toNat_ofInt hs, toNat_ofInt hl, toNat_sizeofQueryItem, not_lt]

/-- **The size that is computed**, which may wrap around. -/
theorem toNat_computesize :
    (computesize width s l).toNat = (8 + s * 12 + l) % 2 ^ width.bits := by
  unfold computesize
  rw [BitVec.toNat_add, BitVec.toNat_add, BitVec.toNat_mul, toNat_hdrsizetq, toNat_ofInt hs,
    toNat_ofInt hl, toNat_sizeofQueryItem, Nat.add_mod_mod, Nat.mod_add_mod]

/-- The promise, in numbers. -/
theorem tested_iff :
    Tested width s l ↔
      (s ≤ (2 ^ width.bits - l + 1073741815) % 2 ^ width.bits / 12 →
        (8 + s * 12 + l) % 2 ^ width.bits = 8 + s * 12 + l ∧
          (8 + s * 12 + l) % 2 ^ width.bits ≤ 1073741823) := by
  unfold Tested
  rw [tsqueryTooBig_eq_false_iff width hs hl, BitVec.le_def, toNat_computesize width hs hl,
    toNat_maxAllocSize]
  refine imp_congr_right fun _ => and_congr_left' ?_
  rw [← Int.ofNat_inj]
  push_cast
  rfl

end Counts

/-- **The subtraction, and the sum**, modulo any `m` that is large enough. -/
theorem limit_iff {m s l : ℕ} (hm : 2 ^ 32 ≤ m) (hl : l < 2 ^ 31) :
    (s ≤ (m - l + 1073741815) % m / 12 →
      (8 + s * 12 + l) % m = 8 + s * 12 + l ∧ (8 + s * 12 + l) % m ≤ 1073741823) ↔
    l ≤ 1073741815 ∨ (m + 1073741815 - l) / 12 < s := by
  by_cases hroom : l ≤ 1073741815
  · have hlimit : (m - l + 1073741815) % m = 1073741815 - l := by
      rw [show m - l + 1073741815 = 1073741815 - l + m by omega, Nat.add_mod_right]
      exact Nat.mod_eq_of_lt (by omega)
    refine iff_of_true (fun hs => ?_) (.inl hroom)
    rw [hlimit] at hs
    have hsum : 8 + s * 12 + l ≤ 1073741823 := by omega
    rw [Nat.mod_eq_of_lt (by omega)]
    exact ⟨rfl, hsum⟩
  · -- no multiple of `m` is subtracted, and the sum is above the limit in any case
    have hlimit : (m - l + 1073741815) % m = m + 1073741815 - l := by
      rw [show m - l + 1073741815 = m + 1073741815 - l by omega]
      exact Nat.mod_eq_of_lt (by omega)
    rw [hlimit, or_iff_right hroom, ← not_le]
    refine imp_iff_not_or.trans (or_iff_left fun h => ?_)
    rw [h.1] at h
    omega

theorem two_pow_le_bits (width : SizeWidth) : 2 ^ 32 ≤ 2 ^ width.bits := by
  cases width <;> decide

/-- **When the test keeps its promise**: as long as the operands leave room for the header,
so that the subtraction does not wrap around, or if there are more items than even the
wrapped limit allows. The latter takes a `Size` of four bytes. -/
theorem tsquery_tested_iff (width : SizeWidth) {size lenofoperand : ℤ} (hsize : IsCount size)
    (hlen : IsCount lenofoperand) :
    Tested width size lenofoperand ↔
      lenofoperand ≤ 1073741815 ∨
        (2 ^ width.bits + 1073741815 - lenofoperand) / 12 < size := by
  obtain ⟨hs, hs'⟩ := hsize
  obtain ⟨hl, hl'⟩ := hlen
  lift size to ℕ using hs
  lift lenofoperand to ℕ using hl
  have hs : size < 2 ^ 31 := by exact_mod_cast hs'
  have hl : lenofoperand < 2 ^ 31 := by exact_mod_cast hl'
  have hm := two_pow_le_bits width
  have hcast : (2 ^ width.bits : ℤ) = ((2 ^ width.bits : ℕ) : ℤ) := by push_cast; rfl
  rw [tested_iff width hs hl, limit_iff hm hl, hcast]
  generalize 2 ^ width.bits = m at hm
  omega

/-- A tsquery of a few items. -/
theorem tsquery_tested_iff_few : Tested .eight 3 20 ↔ (20 : ℤ) ≤ 1073741815 ∨
    (2 ^ SizeWidth.eight.bits + 1073741815 - 20) / 12 < (3 : ℤ) := by
  have hsize : IsCount 3 := by decide
  have hlen : IsCount 20 := by decide
  exact tsquery_tested_iff .eight hsize hlen

/-- **Operands that are too long by themselves pass the test**, for a `Size` of either
width: the size that is computed cannot be allocated. -/
theorem not_tested :
    (IsCount 1 ∧ IsCount 1073741816) ∧
      (¬ Tested .eight 1 1073741816 ∧ ¬ Tested .four 1 1073741816) ∧
      tsqueryTooBig .eight 1 1073741816 = false ∧
      ¬ computesize .eight 1 1073741816 ≤ maxAllocSize := by
  unfold Tested
  decide

-- With a `Size` of four bytes the size may wrap around to one that may be allocated.
example : tsqueryTooBig .four 268435455 2147483647 = false ∧
    (computesize .four 268435455 2147483647).toNat = 1073741819 := by decide

end TsType
