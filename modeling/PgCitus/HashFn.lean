import PgCitus.Library.Mixing

/-!
# Hash functions

The inline hash functions of `common/hashfn.h`. `murmurhash32` hashes a word of 32 bits
by five rounds, each of which can be undone, so that **no two words have the same hash
value** (`murmurhash32_bijective`). `hash_combine` and `hash_combine64` mix a hash value
into another one: for a given first value nothing of the second is lost
(`hashCombine_bijective`).
-/

namespace HashFn

open Mixing

/-- `murmurhash32`. -/
def murmurhash32 (data : BitVec 32) : BitVec 32 :=
  let h := data
  let h := h ^^^ h >>> 16
  let h := h * 0x85ebca6b#32
  let h := h ^^^ h >>> 13
  let h := h * 0xc2b2ae35#32
  let h := h ^^^ h >>> 16
  h

/-- The rounds of `murmurhash32`, in their order. -/
def murmurhash32Rounds : List (BitVec 32 → BitVec 32) :=
  [xorShift 16, (· * 0x85ebca6b#32), xorShift 13, (· * 0xc2b2ae35#32), xorShift 16]

/-- Each of the rounds can be undone. -/
theorem bijective_of_mem_rounds :
    ∀ round ∈ murmurhash32Rounds, Function.Bijective round := by
  have h₁ : Function.Bijective fun h : BitVec 32 => h * 0x85ebca6b#32 :=
    mul_bijective (by decide)
  have h₂ : Function.Bijective fun h : BitVec 32 => h * 0xc2b2ae35#32 :=
    mul_bijective (by decide)
  have h₁₆ : Function.Bijective (xorShift 16 : BitVec 32 → BitVec 32) :=
    xorShift_bijective (by decide)
  have h₁₃ : Function.Bijective (xorShift 13 : BitVec 32 → BitVec 32) :=
    xorShift_bijective (by decide)
  unfold murmurhash32Rounds
  simp only [List.forall_mem_cons]
  exact ⟨h₁₆, h₁, h₁₃, h₂, h₁₆, fun _ h => absurd h List.not_mem_nil⟩

/-- `murmurhash32` is its rounds, one after another. -/
theorem murmurhash32_eq_foldl (data : BitVec 32) :
    murmurhash32 data = murmurhash32Rounds.foldl (fun h round => round h) data := rfl

/-- **`murmurhash32` is a bijection of the words of 32 bits**: each of its rounds can be
undone, and two distinct keys never have the same hash value. -/
theorem murmurhash32_bijective :
    (∀ round ∈ murmurhash32Rounds, Function.Bijective round) ∧
      (∀ data, murmurhash32 data = murmurhash32Rounds.foldl (fun h round => round h) data) ∧
      Function.Bijective murmurhash32 ∧
      ∀ a b : BitVec 32, a ≠ b → murmurhash32 a ≠ murmurhash32 b := by
  have hbij : Function.Bijective murmurhash32 := bijective_foldl bijective_of_mem_rounds
  exact ⟨bijective_of_mem_rounds, murmurhash32_eq_foldl, hbij,
    fun a b hne heq => hne (hbij.injective heq)⟩

/-! ## Combining hash values -/

/-- `hash_combine`. -/
def hashCombine (a b : BitVec 32) : BitVec 32 :=
  a ^^^ (b + 0x9e3779b9#32 + a <<< 6 + a >>> 2)

/-- `hash_combine64`. -/
def hashCombine64 (a b : BitVec 64) : BitVec 64 :=
  a ^^^ (b + 0x49a0f4dd15e5a8e3#64 + a <<< 54 + a >>> 7)

/-- **Combining loses nothing of the second value**, for any first one: sums and a xor,
each with what depends on the first value only. -/
theorem hashCombine_bijective (a : BitVec 32) : Function.Bijective (hashCombine a) := by
  have hsum : Function.Bijective fun b : BitVec 32 => b + 0x9e3779b9#32 + a <<< 6 + a >>> 2 :=
    ((add_bijective (a >>> 2)).comp (add_bijective (a <<< 6))).comp (add_bijective 0x9e3779b9#32)
  exact (xor_bijective a).comp hsum

/-- The same of 64 bits. -/
theorem hashCombine64_bijective (a : BitVec 64) : Function.Bijective (hashCombine64 a) := by
  have hsum : Function.Bijective fun b : BitVec 64 =>
      b + 0x49a0f4dd15e5a8e3#64 + a <<< 54 + a >>> 7 :=
    ((add_bijective (a >>> 7)).comp (add_bijective (a <<< 54))).comp
      (add_bijective 0x49a0f4dd15e5a8e3#64)
  exact (xor_bijective a).comp hsum

end HashFn
