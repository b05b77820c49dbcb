import Mathlib.Data.Nat.Log
import Mathlib.Data.Nat.Bitwise

/-!
# Bit utilities

The functions of `port/pg_bitutils.h` that other headers size their tables
with. Where the header chooses between a compiler builtin and a portable loop,
the builtin is what is modelled here: counting leading zeros of a non-zero word
is taking its binary logarithm.
-/

namespace PgBitutils

/-- `pg_leftmost_one_pos64`: the position of the most significant set bit of a
non-zero word (`63 - __builtin_clzl(word)`). -/
def pgLeftmostOnePos64 (word : ℕ) : ℕ := Nat.log2 word

/-- `pg_nextpower2_64`: the next power of two from `num` on. -/
def pgNextpower2_64 (num : ℕ) : ℕ :=
  -- a power of two has no bit in common with its predecessor
  if num &&& (num - 1) = 0 then num
  else (1 <<< (pgLeftmostOnePos64 num + 1)) % 2 ^ 64

/-- **`pg_nextpower2_64` is the least power of two that is not below `num`**,
for every argument it allows. -/
theorem pgNextpower2_64_eq {num : ℕ} (h₀ : 0 < num) (h : num ≤ 2 ^ 63) :
    pgNextpower2_64 num = 2 ^ Nat.clog 2 num := by
  unfold pgNextpower2_64 pgLeftmostOnePos64
  split_ifs with hpow
  · obtain ⟨k, hk⟩ :=
      (Nat.and_sub_one_eq_zero_iff_isPowerOfTwo (by omega)).mp hpow
    rw [hk, Nat.clog_pow 2 k (by omega)]
  · have hne : num ≠ 2 ^ Nat.log2 num := fun hc =>
      hpow ((Nat.and_sub_one_eq_zero_iff_isPowerOfTwo (by omega)).mpr ⟨_, hc⟩)
    have hle : 2 ^ Nat.log2 num ≤ num := Nat.log2_self_le (by omega)
    have hlt : num < 2 ^ (Nat.log2 num + 1) := Nat.lt_log2_self
    have hclog : Nat.clog 2 num = Nat.log2 num + 1 := by
      refine le_antisymm (Nat.clog_le_of_le_pow hlt.le) ?_
      exact (Nat.lt_clog_iff_pow_lt (by omega)).mpr (lt_of_le_of_ne hle (Ne.symm hne))
    have hpos : Nat.log2 num + 1 < 64 := by
      have : Nat.log2 num < 63 := by
        refine (Nat.pow_lt_pow_iff_right (a := 2) (by omega)).mp ?_
        exact lt_of_lt_of_le (lt_of_le_of_ne hle (Ne.symm hne)) h
      omega
    rw [hclog, Nat.one_shiftLeft, Nat.mod_eq_of_lt]
    exact Nat.pow_lt_pow_right (by omega) hpos

end PgBitutils
