import PgCitus.Library.BitPosition
import PgCitus.Library.Loop
import PgCitus.PgBitutils

/-!
# Bit utilities without builtins

Where a compiler has no builtin for it, `port/pg_bitutils.h` finds the highest and the
lowest set bit of a word by bytes, and the bit of a byte in a table of 256 entries. A
loop that does not end, a shift by a negative number or by the width or more, and a
failed `Assert` give `none`.

The loops stop at the first byte that is not zero, which a word other than zero has
(`leftmostByte_spec`, `rightmostByte_spec`); so the entry for zero is never read, and
the tables need only be right elsewhere (`LeftmostTable`, `RightmostTable`). The power
of two helpers are then what the highest bit makes them, and agree with those over the
builtin.
-/

namespace PgBitutilsPortable

open BitPosition

variable {w : ℕ}

/-! ## The functions -/

/-- `word >> shift`. -/
def shr (word : BitVec w) (shift : ℤ) : Option (BitVec w) :=
  if 0 ≤ shift ∧ shift < w then some (word >>> shift.toNat) else none

/-- `word << shift`. -/
def shl (word : BitVec w) (shift : ℤ) : Option (BitVec w) :=
  if 0 ≤ shift ∧ shift < w then some (word <<< shift.toNat) else none

/-- `while ((word >> shift) == 0) shift -= 8;` -/
def leftmostStep (word : BitVec w) (shift : ℤ) : Loop.Step ℤ ℤ :=
  match shr word shift with
  | none => .stuck
  | some v => if v = 0 then .next (shift - 8) else .done shift

/-- Where the loop from the top stops, and the byte that is then looked up. -/
def leftmostByte (word : BitVec w) : Option (ℤ × BitVec 8) := do
  let shift ← Loop.run (leftmostStep word) w (w - 8)
  let v ← shr word shift
  return (shift, lowByte v)

/-- `pg_leftmost_one_pos32` and `pg_leftmost_one_pos64`, over the table
`pg_leftmost_one_pos`. -/
def leftmostOnePos (table : BitVec 8 → BitVec 8) (word : BitVec w) : Option ℤ := do
  guard (word ≠ 0)
  let (shift, i) ← leftmostByte word
  return shift + (table i).toNat

/-- `while ((word & 255) == 0) { word >>= 8; result += 8; }` -/
def rightmostStep (s : BitVec w × ℤ) : Loop.Step (BitVec w × ℤ) (BitVec w × ℤ) :=
  if s.1 &&& 255 = 0 then .next (s.1 >>> 8, s.2 + 8) else .done s

/-- Where the loop from the bottom stops, and the byte that is then looked up. -/
def rightmostByte (word : BitVec w) : Option (ℤ × BitVec 8) := do
  let (word, result) ← Loop.run rightmostStep w (word, 0)
  return (result, lowByte word)

/-- `pg_rightmost_one_pos32` and `pg_rightmost_one_pos64`, over the table
`pg_rightmost_one_pos`. -/
def rightmostOnePos (table : BitVec 8 → BitVec 8) (word : BitVec w) : Option ℤ := do
  guard (word ≠ 0)
  let (result, i) ← rightmostByte word
  return result + (table i).toNat

/-- `pg_nextpower2_32` and `pg_nextpower2_64`. -/
def nextpower2 (table : BitVec 8 → BitVec 8) (num : BitVec w) : Option (BitVec w) := do
  guard (0 < num ∧ num.toNat ≤ (2 ^ w - 1) / 2 + 1)
  if num &&& (num - 1) = 0 then return num
  else shl 1 ((← leftmostOnePos table num) + 1)

/-- `pg_prevpower2_32` and `pg_prevpower2_64`. -/
def prevpower2 (table : BitVec 8 → BitVec 8) (num : BitVec w) : Option (BitVec w) := do
  shl 1 (← leftmostOnePos table num)

/-- `pg_ceil_log2_32` and `pg_ceil_log2_64`. -/
def ceilLog2 (table : BitVec 8 → BitVec 8) (num : BitVec w) : Option (BitVec w) := do
  if num < 2 then return 0
  else return BitVec.ofInt w ((← leftmostOnePos table (num - 1)) + 1)

section Widths

variable (table : BitVec 8 → BitVec 8)

/-- `pg_leftmost_one_pos32`. -/
def pgLeftmostOnePos32 (word : BitVec 32) : Option ℤ := leftmostOnePos table word
/-- `pg_leftmost_one_pos64`. -/
def pgLeftmostOnePos64 (word : BitVec 64) : Option ℤ := leftmostOnePos table word
/-- `pg_rightmost_one_pos32`. -/
def pgRightmostOnePos32 (word : BitVec 32) : Option ℤ := rightmostOnePos table word
/-- `pg_rightmost_one_pos64`. -/
def pgRightmostOnePos64 (word : BitVec 64) : Option ℤ := rightmostOnePos table word
/-- `pg_nextpower2_32`. -/
def pgNextpower2_32 (num : BitVec 32) : Option (BitVec 32) := nextpower2 table num
/-- `pg_nextpower2_64`. -/
def pgNextpower2_64 (num : BitVec 64) : Option (BitVec 64) := nextpower2 table num
/-- `pg_prevpower2_32`. -/
def pgPrevpower2_32 (num : BitVec 32) : Option (BitVec 32) := prevpower2 table num
/-- `pg_prevpower2_64`. -/
def pgPrevpower2_64 (num : BitVec 64) : Option (BitVec 64) := prevpower2 table num
/-- `pg_ceil_log2_32`. -/
def pgCeilLog2_32 (num : BitVec 32) : Option (BitVec 32) := ceilLog2 table num
/-- `pg_ceil_log2_64`. -/
def pgCeilLog2_64 (num : BitVec 64) : Option (BitVec 64) := ceilLog2 table num

end Widths

/-! ## The tables -/

/-- **`pg_leftmost_one_pos` is right**: an entry is the position of the highest set bit
of its index. Nothing is said of the entry for zero. -/
def LeftmostTable (table : BitVec 8 → BitVec 8) : Prop :=
  ∀ i, i ≠ 0 → IsHighestBit i (table i).toNat

/-- **`pg_rightmost_one_pos` is right**, in the same way. -/
def RightmostTable (table : BitVec 8 → BitVec 8) : Prop :=
  ∀ i, i ≠ 0 → IsLowestBit i (table i).toNat

/-- The entries of `pg_leftmost_one_pos`. -/
def leftmostTable (i : BitVec 8) : BitVec 8 := BitVec.ofNat 8 (Nat.log2 i.toNat)

/-- The entries of `pg_rightmost_one_pos`, other than that for zero. -/
def rightmostTable (i : BitVec 8) : BitVec 8 := i.ctz

theorem leftmostTable_right : LeftmostTable leftmostTable := fun i hi => by
  have hne : i.toNat ≠ 0 := fun h => hi (BitVec.eq_of_toNat_eq h)
  have hlt : Nat.log2 i.toNat < 256 := by
    have hlog : Nat.log2 i.toNat < 8 := (Nat.log2_lt hne).mpr i.isLt
    omega
  unfold leftmostTable
  rw [BitVec.toNat_ofNat, Nat.mod_eq_of_lt hlt]
  exact isHighestBit_log2 hne

theorem rightmostTable_right : RightmostTable rightmostTable := fun _ hi => isLowestBit_ctz hi

/-! ## The loop from the top -/

theorem shr_natCast {word : BitVec w} {k : ℕ} (hk : k < w) :
    shr word k = some (word >>> k) := by
  unfold shr
  rw [if_pos ⟨Int.natCast_nonneg k, Int.ofNat_lt.mpr hk⟩, Int.toNat_natCast]

theorem shl_natCast {word : BitVec w} {k : ℕ} (hk : k < w) :
    shl word k = some (word <<< k) := by
  unfold shl
  rw [if_pos ⟨Int.natCast_nonneg k, Int.ofNat_lt.mpr hk⟩, Int.toNat_natCast]

/-- Where the loop is: at a byte of the word, with nothing above it. -/
def AtByte (word : BitVec w) (shift : ℤ) : Prop :=
  ∃ k : ℕ, shift = k ∧ k + 8 ≤ w ∧ 8 ∣ k ∧ ∀ j, k + 8 ≤ j → word.getLsbD j = false

/-- A place in the loop is a shift within the word. -/
theorem AtByte.inRange {word : BitVec w} {shift : ℤ} (h : AtByte word shift) :
    0 ≤ shift ∧ shift < w := by
  obtain ⟨k, rfl, hk, -, -⟩ := h
  omega

/-- The loop starts at the highest byte. -/
theorem atByte_start (word : BitVec w) (hw : 0 < w) (h8 : 8 ∣ w) :
    AtByte word ((w : ℤ) - 8) := by
  have hle : 8 ≤ w := Nat.le_of_dvd hw h8
  refine ⟨w - 8, by omega, by omega, Nat.dvd_sub h8 (dvd_refl 8), fun j hj => ?_⟩
  exact BitVec.getLsbD_of_ge word j (by omega)

/-- **One pass keeps that**, and stops at a byte that is not zero. -/
theorem leftmostStep_meets {word : BitVec w} (hne : word ≠ 0) {shift : ℤ}
    (h : AtByte word shift) :
    (leftmostStep word shift).Meets
      (fun r => AtByte word r ∧ lowByte (word >>> r.toNat) ≠ 0)
      fun s => AtByte word s ∧ s.toNat < shift.toNat := by
  have hat := h
  obtain ⟨k, rfl, hk, h8, habove⟩ := h
  unfold leftmostStep
  rw [shr_natCast (by omega)]
  show (if word >>> k = 0 then _ else _ : Loop.Step ℤ ℤ).Meets _ _
  have hbit : ∀ j, (word >>> k).getLsbD j = word.getLsbD (k + j) :=
    fun j => BitVec.getLsbD_ushiftRight word k j
  split_ifs with hzero
  · -- the word is zero from this byte on, so this is not the last byte
    have hfrom : ∀ j, k ≤ j → word.getLsbD j = false := fun j hj => by
      have h0 := hbit (j - k)
      rw [hzero, Nat.add_sub_cancel' hj] at h0
      exact h0.symm.trans BitVec.getLsbD_zero
    have hk0 : k ≠ 0 := fun h0 => by
      refine hne (BitVec.eq_of_getLsbD_eq fun j _ => ?_)
      exact (hfrom j (h0 ▸ Nat.zero_le j)).trans BitVec.getLsbD_zero.symm
    have hcast : ((k - 8 : ℕ) : ℤ) = (k : ℤ) - 8 := by omega
    refine ⟨⟨k - 8, hcast.symm, by omega, by omega, fun j hj => hfrom j (by omega)⟩, by omega⟩
  · refine ⟨hat, fun hbyte => hzero (BitVec.eq_of_getLsbD_eq fun j _ => ?_)⟩
    refine Eq.trans ?_ BitVec.getLsbD_zero.symm
    by_cases hj : j < 8
    · exact (lowByte_eq_zero_iff (by omega)).mp hbyte j hj
    · rw [hbit]
      exact habove (k + j) (by omega)

/-- No pass shifts by a negative number, or by the width or more. -/
theorem leftmost_inRange {word : BitVec w} (hw : 0 < w) (h8 : 8 ∣ w) (hne : word ≠ 0) {s : ℤ}
    (h : Loop.Reached (leftmostStep word) (w - 8) s) : 0 ≤ s ∧ s < w := by
  have hat := h.invariant (I := AtByte word)
    (fun s hs => (leftmostStep_meets hne hs).mono (fun _ h => h) fun _ h => h.1)
    (atByte_start word hw h8)
  exact hat.inRange

/-- **The loop from the top ends** at a byte that is not zero, and whose highest bit is
that of the word. -/
theorem leftmostByte_spec {word : BitVec w} (hw : 0 < w) (h8 : 8 ∣ w) (hne : word ≠ 0) :
    ∃ (k : ℕ) (i : BitVec 8), leftmostByte word = some ((k : ℤ), i) ∧ i ≠ 0 ∧
      ∀ p, IsHighestBit i p → IsHighestBit word (k + p) := by
  have hstart := atByte_start word hw h8
  have hends : ∃ r, Loop.run (leftmostStep word) w (w - 8) = some r ∧
      AtByte word r ∧ lowByte (word >>> r.toNat) ≠ 0 :=
    Loop.run_total (AtByte word) Int.toNat (fun s hs => leftmostStep_meets hne hs) hstart
      (by omega)
  obtain ⟨r, hrun, ⟨k, rfl, hk, -, habove⟩, hbyte⟩ := hends
  refine ⟨k, lowByte (word >>> k), ?_, hbyte, fun p hp => hp.of_byte (by omega) habove⟩
  unfold leftmostByte
  rw [hrun]
  show (shr word k).bind _ = _
  rw [shr_natCast (by omega)]
  rfl

/-- **The highest set bit is found**, whatever the table holds for zero. -/
theorem leftmostOnePos_spec {table : BitVec 8 → BitVec 8} (ht : LeftmostTable table)
    {word : BitVec w} (hw : 0 < w) (h8 : 8 ∣ w) (hne : word ≠ 0) :
    ∃ p : ℕ, leftmostOnePos table word = some (p : ℤ) ∧ IsHighestBit word p := by
  obtain ⟨k, i, hbyte, hi, hhigh⟩ := leftmostByte_spec hw h8 hne
  refine ⟨k + (table i).toNat, ?_, hhigh _ (ht i hi)⟩
  unfold leftmostOnePos
  rw [hbyte, (Option.guard_eq_some' ()).mpr hne]
  rfl

/-! ## The loop from the bottom -/

/-- Where the loop is: at a byte of the word, with nothing below it. -/
def FromByte (word : BitVec w) (s : BitVec w × ℤ) : Prop :=
  ∃ k : ℕ, s = (word >>> k, (k : ℤ)) ∧ k + 8 ≤ w ∧ 8 ∣ k ∧ ∀ j < k, word.getLsbD j = false

/-- **One pass keeps that**, and stops at a byte that is not zero. -/
theorem rightmostStep_meets {word : BitVec w} (h8w : 8 ∣ w) (hne : word ≠ 0) {s : BitVec w × ℤ}
    (h : FromByte word s) :
    (rightmostStep s).Meets
      (fun r => FromByte word r ∧ lowByte r.1 ≠ 0)
      fun s' => FromByte word s' ∧ ((w : ℤ) - 8 - s'.2).toNat < ((w : ℤ) - 8 - s.2).toNat := by
  have hfrom := h
  obtain ⟨k, rfl, hk, h8, hbelow⟩ := h
  unfold rightmostStep
  have hmask : word >>> k &&& 255 = 0 ↔ lowByte (word >>> k) = 0 :=
    and_255_eq_zero_iff (by omega)
  show (if word >>> k &&& 255 = 0 then _ else _ : Loop.Step _ _).Meets _ _
  split_ifs with hzero
  · -- the word is zero up to the next byte, so this is not the highest one
    have hupto : ∀ j < k + 8, word.getLsbD j = false := fun j hj => by
      by_cases hjk : j < k
      · exact hbelow j hjk
      · have hin := (lowByte_eq_zero_iff (by omega)).mp (hmask.mp hzero) (j - k) (by omega)
        rw [BitVec.getLsbD_ushiftRight, Nat.add_sub_cancel' (not_lt.mp hjk)] at hin
        exact hin
    have hlast : k + 8 ≠ w := fun hw => by
      refine hne (BitVec.eq_of_getLsbD_eq fun j hj => ?_)
      exact (hupto j (hw ▸ hj)).trans BitVec.getLsbD_zero.symm
    have hnext : (word >>> k >>> 8, (k : ℤ) + 8) = (word >>> (k + 8), ((k + 8 : ℕ) : ℤ)) := by
      rw [BitVec.shiftRight_add]
      rfl
    have hroom : k + 8 + 8 ≤ w := by omega
    have hless : ((w : ℤ) - 8 - (k + 8)).toNat < ((w : ℤ) - 8 - k).toNat := by omega
    exact ⟨⟨k + 8, hnext, hroom, Nat.dvd_add h8 (dvd_refl 8), hupto⟩, hless⟩
  · exact ⟨hfrom, fun hbyte => hzero (hmask.mpr hbyte)⟩

theorem fromByte_start (word : BitVec w) (hw : 0 < w) (h8 : 8 ∣ w) : FromByte word (word, 0) :=
  ⟨0, by rw [BitVec.ushiftRight_zero]; rfl, (Nat.zero_add 8).le.trans (Nat.le_of_dvd hw h8),
    dvd_zero 8, fun j hj => absurd hj (Nat.not_lt_zero j)⟩

/-- **The loop from the bottom ends** at a byte that is not zero, and whose lowest bit is
that of the word. -/
theorem rightmostByte_spec {word : BitVec w} (hw : 0 < w) (h8 : 8 ∣ w) (hne : word ≠ 0) :
    ∃ (k : ℕ) (i : BitVec 8), rightmostByte word = some ((k : ℤ), i) ∧ i ≠ 0 ∧
      ∀ p, IsLowestBit i p → IsLowestBit word (k + p) := by
  have hends : ∃ r, Loop.run rightmostStep w (word, 0) = some r ∧
      FromByte word r ∧ lowByte r.1 ≠ 0 :=
    Loop.run_total (FromByte word) (fun s => ((w : ℤ) - 8 - s.2).toNat)
      (fun s hs => rightmostStep_meets h8 hne hs) (fromByte_start word hw h8)
      (show ((w : ℤ) - 8 - 0).toNat < w by omega)
  obtain ⟨r, hrun, ⟨k, rfl, hk, -, hbelow⟩, hbyte⟩ := hends
  refine ⟨k, lowByte (word >>> k), ?_, hbyte, fun p hp => hp.of_byte (by omega) hbelow⟩
  unfold rightmostByte
  rw [hrun]
  rfl

/-- **The lowest set bit is found**, whatever the table holds for zero. -/
theorem rightmostOnePos_spec {table : BitVec 8 → BitVec 8} (ht : RightmostTable table)
    {word : BitVec w} (hw : 0 < w) (h8 : 8 ∣ w) (hne : word ≠ 0) :
    ∃ p : ℕ, rightmostOnePos table word = some (p : ℤ) ∧ IsLowestBit word p := by
  obtain ⟨k, i, hbyte, hi, hlow⟩ := rightmostByte_spec hw h8 hne
  refine ⟨k + (table i).toNat, ?_, hlow _ (ht i hi)⟩
  unfold rightmostOnePos
  rw [hbyte, (Option.guard_eq_some' ()).mpr hne]
  rfl

/-! ## Powers of two -/

section Powers

variable {table : BitVec 8 → BitVec 8} (ht : LeftmostTable table) (hw : 0 < w) (h8 : 8 ∣ w)
include ht hw h8

/-- The highest set bit is the binary logarithm. -/
theorem leftmostOnePos_eq {word : BitVec w} (hne : word ≠ 0) :
    leftmostOnePos table word = some (Nat.log 2 word.toNat : ℤ) := by
  obtain ⟨p, hp, hbit⟩ := leftmostOnePos_spec ht hw h8 hne
  rw [hp, hbit.eq_log]

omit ht hw h8 in
theorem toNat_ne_zero {num : BitVec w} (hne : num ≠ 0) : num.toNat ≠ 0 := fun h =>
  hne (BitVec.eq_of_toNat_eq (h.trans BitVec.toNat_zero.symm))

omit ht hw h8 in
theorem ne_zero_of_toNat_pos {num : BitVec w} (h : 0 < num.toNat) : num ≠ 0 := fun h0 => by
  subst h0
  exact absurd (h.trans_eq BitVec.toNat_zero) (Nat.lt_irrefl 0)

omit ht hw h8 in
/-- `((uint32) 1) << k`, for a shift within the word. -/
theorem shl_one {k : ℕ} (hk : k < w) : ∃ x : BitVec w, shl 1 k = some x ∧ x.toNat = 2 ^ k := by
  refine ⟨1#w <<< k, shl_natCast hk, ?_⟩
  have hone : 1 < 2 ^ w := Nat.one_lt_two_pow (by omega)
  rw [BitVec.toNat_shiftLeft, BitVec.toNat_ofNat, Nat.mod_eq_of_lt hone, Nat.one_shiftLeft,
    Nat.mod_eq_of_lt (Nat.pow_lt_pow_right Nat.one_lt_two hk)]

omit ht hw h8 in
/-- The binary logarithm of a word is a shift within it. -/
theorem log_lt {num : BitVec w} (hne : num ≠ 0) : Nat.log 2 num.toNat < w := by
  refine (Nat.pow_lt_pow_iff_right Nat.one_lt_two).mp ?_
  exact (Nat.pow_log_le_self 2 (toNat_ne_zero hne)).trans_lt num.isLt

/-- **`pg_prevpower2`** rounds down, by the binary logarithm. -/
theorem prevpower2_eq {num : BitVec w} (hne : num ≠ 0) :
    ∃ x, prevpower2 table num = some x ∧ x.toNat = 2 ^ Nat.log 2 num.toNat := by
  obtain ⟨x, hx, hpow⟩ := shl_one (log_lt hne)
  refine ⟨x, ?_, hpow⟩
  unfold prevpower2
  rw [leftmostOnePos_eq ht hw h8 hne]
  exact hx

omit ht h8 in
/-- Below a word that is not zero there is one less. -/
theorem toNat_sub_one {num : BitVec w} (hne : num ≠ 0) : (num - 1).toNat = num.toNat - 1 := by
  have hone : (1 : BitVec w).toNat = 1 :=
    (BitVec.toNat_ofNat 1 w).trans (Nat.mod_eq_of_lt (Nat.one_lt_two_pow hw.ne'))
  have hle : 1 ≤ num := by
    rw [BitVec.le_def, hone]
    exact Nat.pos_of_ne_zero (toNat_ne_zero hne)
  rw [BitVec.toNat_sub_of_le hle, hone]

omit ht h8 in
/-- **A power of two has no bit in common with its predecessor**, and no other number
that is not zero has none. -/
theorem and_pred_eq_zero_iff {num : BitVec w} (hne : num ≠ 0) :
    num &&& (num - 1) = 0 ↔ num.toNat.isPowerOfTwo := by
  rw [← Nat.and_sub_one_eq_zero_iff_isPowerOfTwo (toNat_ne_zero hne), ← BitVec.toNat_inj,
    BitVec.toNat_and, toNat_sub_one hw hne]
  rfl

/-- **`pg_nextpower2`** rounds up, in its domain. -/
theorem nextpower2_eq {num : BitVec w} (hne : num ≠ 0) (hle : num.toNat ≤ 2 ^ (w - 1)) :
    ∃ x, nextpower2 table num = some x ∧ x.toNat = 2 ^ Nat.clog 2 num.toNat := by
  have hnum := toNat_ne_zero hne
  have hhalf : (2 ^ w - 1) / 2 + 1 = 2 ^ (w - 1) := by
    have hpow : 2 ^ w = 2 * 2 ^ (w - 1) := by
      rw [← Nat.pow_succ', Nat.succ_eq_add_one, Nat.sub_add_cancel hw]
    have hpos : 0 < 2 ^ (w - 1) := Nat.two_pow_pos _
    omega
  have hdomain : 0 < num ∧ num.toNat ≤ (2 ^ w - 1) / 2 + 1 :=
    ⟨(BitVec.pos_iff_ne_zero num).mpr hne, hhalf ▸ hle⟩
  unfold nextpower2
  rw [(Option.guard_eq_some' ()).mpr hdomain]
  by_cases hzero : num &&& (num - 1) = 0
  · obtain ⟨k, hk⟩ := (and_pred_eq_zero_iff hw hne).mp hzero
    refine ⟨num, if_pos hzero, ?_⟩
    rw [hk, Nat.clog_pow 2 k Nat.one_lt_two]
  · have hpow := fun h => hzero ((and_pred_eq_zero_iff hw hne).mpr h)
    -- not a power of two, so it is below the highest one
    have hlt : Nat.log 2 num.toNat < w - 1 := by
      refine (Nat.pow_lt_pow_iff_right Nat.one_lt_two).mp (lt_of_lt_of_le ?_ hle)
      exact lt_of_le_of_ne (Nat.pow_log_le_self 2 hnum) fun h => hpow ⟨_, h.symm⟩
    obtain ⟨x, hx, hpx⟩ := shl_one (show Nat.log 2 num.toNat + 1 < w by omega)
    refine ⟨x, (if_neg hzero).trans ?_, by rw [hpx, clog_eq_log_succ hnum hpow]⟩
    rw [leftmostOnePos_eq ht hw h8 hne]
    exact hx

/-- **`pg_ceil_log2`** is the binary logarithm, rounded up. -/
theorem ceilLog2_eq (num : BitVec w) :
    ∃ k, ceilLog2 table num = some k ∧ k.toNat = Nat.clog 2 num.toNat := by
  have hw8 : 8 ≤ w := Nat.le_of_dvd hw h8
  have htwo : (2 : BitVec w).toNat = 2 :=
    (BitVec.toNat_ofNat 2 w).trans (Nat.mod_eq_of_lt (Nat.lt_two_pow_self.trans_le
      (Nat.pow_le_pow_right Nat.two_pos (by omega : 2 ≤ w))))
  unfold ceilLog2
  by_cases hlt : num < 2
  · refine ⟨0, if_pos hlt, ?_⟩
    rw [BitVec.lt_def, htwo] at hlt
    exact BitVec.toNat_zero.trans (Nat.clog_of_right_le_one (Nat.le_of_lt_succ hlt) 2).symm
  · have hge : 2 ≤ num.toNat := by
      rw [BitVec.lt_def, htwo] at hlt
      exact not_lt.mp hlt
    have hne : num ≠ 0 := ne_zero_of_toNat_pos (Nat.lt_of_lt_of_le Nat.two_pos hge)
    have hsub := toNat_sub_one hw hne
    have hpred : num - 1 ≠ 0 := ne_zero_of_toNat_pos (by omega)
    have hlog := log_lt hpred
    rw [hsub] at hlog
    have hsmall : Nat.clog 2 num.toNat < 2 ^ w := by
      rw [clog_eq_log_pred hge]
      exact lt_of_le_of_lt hlog Nat.lt_two_pow_self
    refine ⟨BitVec.ofNat w (Nat.clog 2 num.toNat), (if_neg hlt).trans ?_, ?_⟩
    · rw [leftmostOnePos_eq ht hw h8 hpred, hsub, clog_eq_log_pred hge]
      rfl
    · rw [BitVec.toNat_ofNat, Nat.mod_eq_of_lt hsmall]

end Powers

/-! ## The same functions over a builtin -/

/-- The loop by bytes and the builtin find the same bit. -/
theorem pgLeftmostOnePos64_eq_builtin {table : BitVec 8 → BitVec 8} (ht : LeftmostTable table)
    {word : BitVec 64} (hne : word ≠ 0) :
    pgLeftmostOnePos64 table word = some (PgBitutils.pgLeftmostOnePos64 word.toNat : ℤ) := by
  unfold PgBitutils.pgLeftmostOnePos64
  rw [Nat.log2_eq_log_two]
  exact leftmostOnePos_eq ht (by decide) (by decide) hne

/-- And so tables that grow by `pg_nextpower2_64` grow in the same way. -/
theorem pgNextpower2_64_eq_builtin {table : BitVec 8 → BitVec 8} (ht : LeftmostTable table)
    {num : BitVec 64} (hne : num ≠ 0) (hle : num.toNat ≤ 2 ^ 63) :
    (pgNextpower2_64 table num).map BitVec.toNat = some (PgBitutils.pgNextpower2_64 num.toNat) := by
  obtain ⟨x, hx, hpow⟩ := nextpower2_eq ht (by decide) (by decide) hne hle
  have hbuiltin := PgBitutils.pgNextpower2_64_eq (Nat.pos_of_ne_zero (toNat_ne_zero hne)) hle
  unfold pgNextpower2_64
  rw [hx, Option.map_some, hpow, hbuiltin]

/-! ## What the functions return -/

/-- **The highest set bit is returned.** The loop stops at some byte other than zero, and
no pass shifts out of range. -/
def ReturnsHighestBit (word : BitVec w) (r : Option ℤ) : Prop :=
  (∀ s, Loop.Reached (leftmostStep word) (w - 8) s → 0 ≤ s ∧ s < w) ∧
    (∃ shift i, leftmostByte word = some (shift, i) ∧ i ≠ 0) ∧
    ∃ p : ℕ, r = some (p : ℤ) ∧ IsHighestBit word p

/-- **The lowest set bit is returned.** The loop stops at some byte other than zero. -/
def ReturnsLowestBit (word : BitVec w) (r : Option ℤ) : Prop :=
  (∃ result i, rightmostByte word = some (result, i) ∧ i ≠ 0) ∧
    ∃ p : ℕ, r = some (p : ℤ) ∧ IsLowestBit word p

/-- **The least power of two that is not below `num`**, with the exponent that is
returned as its logarithm. -/
def ReturnsNextPower (num : BitVec w) (r log : Option (BitVec w)) : Prop :=
  ∃ x k, r = some x ∧ log = some k ∧ x.toNat = 2 ^ k.toNat ∧
    IsLeast {y | y ∈ powersOfTwo ∧ num.toNat ≤ y} x.toNat

/-- **The greatest power of two that is not above `num`.** -/
def ReturnsPrevPower (num : BitVec w) (r : Option (BitVec w)) : Prop :=
  ∃ x, r = some x ∧ IsGreatest {y | y ∈ powersOfTwo ∧ y ≤ num.toNat} x.toNat

/-- **The least exponent** whose power of two is not below `num`. -/
def ReturnsCeilLog (num : BitVec w) (r : Option (BitVec w)) : Prop :=
  ∃ k, r = some k ∧ IsLeast {k | num.toNat ≤ 2 ^ k} k.toNat

section Returns

variable {table : BitVec 8 → BitVec 8} (hw : 0 < w) (h8 : 8 ∣ w)
include hw h8

theorem returnsHighestBit (ht : LeftmostTable table) {word : BitVec w} (hne : word ≠ 0) :
    ReturnsHighestBit word (leftmostOnePos table word) := by
  obtain ⟨k, i, hbyte, hi, -⟩ := leftmostByte_spec hw h8 hne
  exact ⟨fun s hs => leftmost_inRange hw h8 hne hs, ⟨k, i, hbyte, hi⟩,
    leftmostOnePos_spec ht hw h8 hne⟩

theorem returnsLowestBit (ht : RightmostTable table) {word : BitVec w} (hne : word ≠ 0) :
    ReturnsLowestBit word (rightmostOnePos table word) := by
  obtain ⟨k, i, hbyte, hi, -⟩ := rightmostByte_spec hw h8 hne
  exact ⟨⟨k, i, hbyte, hi⟩, rightmostOnePos_spec ht hw h8 hne⟩

theorem returnsNextPower (ht : LeftmostTable table) {num : BitVec w} (hne : num ≠ 0)
    (hle : num.toNat ≤ 2 ^ (w - 1)) :
    ReturnsNextPower num (nextpower2 table num) (ceilLog2 table num) := by
  obtain ⟨x, hx, hpow⟩ := nextpower2_eq ht hw h8 hne hle
  obtain ⟨k, hk, hlog⟩ := ceilLog2_eq ht hw h8 num
  exact ⟨x, k, hx, hk, hpow.trans (hlog ▸ rfl), hpow ▸ isLeast_clog num.toNat⟩

theorem returnsPrevPower (ht : LeftmostTable table) {num : BitVec w} (hne : num ≠ 0) :
    ReturnsPrevPower num (prevpower2 table num) := by
  obtain ⟨x, hx, hpow⟩ := prevpower2_eq ht hw h8 hne
  exact ⟨x, hx, hpow ▸ isGreatest_log (toNat_ne_zero hne)⟩

theorem returnsCeilLog (ht : LeftmostTable table) (num : BitVec w) :
    ReturnsCeilLog num (ceilLog2 table num) := by
  obtain ⟨k, hk, hlog⟩ := ceilLog2_eq ht hw h8 num
  exact ⟨k, hk, hlog ▸ isLeast_clog_exponent num.toNat⟩

end Returns

/-! ## The functions of 32 and of 64 bits -/

/-- **Every function of `pg_bitutils.h` returns what its name says**, with loops by bytes
and tables that are right except, perhaps, for zero. -/
theorem portable_bitutils_correct {leftmost rightmost : BitVec 8 → BitVec 8}
    (hl : LeftmostTable leftmost) (hr : RightmostTable rightmost) :
    (∀ word : BitVec 32, word ≠ 0 →
      ReturnsHighestBit word (pgLeftmostOnePos32 leftmost word) ∧
      ReturnsLowestBit word (pgRightmostOnePos32 rightmost word)) ∧
    (∀ word : BitVec 64, word ≠ 0 →
      ReturnsHighestBit word (pgLeftmostOnePos64 leftmost word) ∧
      ReturnsLowestBit word (pgRightmostOnePos64 rightmost word)) ∧
    (∀ num : BitVec 32, 0 < num → num.toNat ≤ 2 ^ 31 →
      ReturnsNextPower num (pgNextpower2_32 leftmost num) (pgCeilLog2_32 leftmost num)) ∧
    (∀ num : BitVec 64, 0 < num → num.toNat ≤ 2 ^ 63 →
      ReturnsNextPower num (pgNextpower2_64 leftmost num) (pgCeilLog2_64 leftmost num)) ∧
    (∀ num : BitVec 32, num ≠ 0 → ReturnsPrevPower num (pgPrevpower2_32 leftmost num)) ∧
    (∀ num : BitVec 64, num ≠ 0 → ReturnsPrevPower num (pgPrevpower2_64 leftmost num)) ∧
    (∀ num : BitVec 32, ReturnsCeilLog num (pgCeilLog2_32 leftmost num)) ∧
    ∀ num : BitVec 64, ReturnsCeilLog num (pgCeilLog2_64 leftmost num) := by
  have h32 : 0 < 32 ∧ 8 ∣ 32 := by decide
  have h64 : 0 < 64 ∧ 8 ∣ 64 := by decide
  refine ⟨fun word hne => ?_, fun word hne => ?_, fun num hpos hle => ?_,
    fun num hpos hle => ?_, fun num hne => ?_, fun num hne => ?_, fun num => ?_, fun num => ?_⟩
  · exact ⟨returnsHighestBit h32.1 h32.2 hl hne, returnsLowestBit h32.1 h32.2 hr hne⟩
  · exact ⟨returnsHighestBit h64.1 h64.2 hl hne, returnsLowestBit h64.1 h64.2 hr hne⟩
  · exact returnsNextPower h32.1 h32.2 hl ((BitVec.pos_iff_ne_zero num).mp hpos) hle
  · exact returnsNextPower h64.1 h64.2 hl ((BitVec.pos_iff_ne_zero num).mp hpos) hle
  · exact returnsPrevPower h32.1 h32.2 hl hne
  · exact returnsPrevPower h64.1 h64.2 hl hne
  · exact returnsCeilLog h32.1 h32.2 hl num
  · exact returnsCeilLog h64.1 h64.2 hl num

/-- With the tables as they are. -/
theorem portable_bitutils_correct_tables :
    ReturnsHighestBit 0x00012345#32 (pgLeftmostOnePos32 leftmostTable 0x00012345#32) ∧
      ReturnsLowestBit 0x00012300#32 (pgRightmostOnePos32 rightmostTable 0x00012300#32) :=
  have h := portable_bitutils_correct leftmostTable_right rightmostTable_right
  ⟨(h.1 _ (by decide)).1, (h.1 _ (by decide)).2⟩

end PgBitutilsPortable
