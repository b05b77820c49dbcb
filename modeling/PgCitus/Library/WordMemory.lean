import Mathlib.Data.BitVec
import Mathlib.Logic.Function.Basic

/-!
# Words in a memory of bytes

A word of four bytes is stored with its lowest or with its highest byte first. Whoever
reads a word gets back the word that was stored there, and the first of its bytes, read
on its own, is the one that the byte order says. A word and a byte, or two words, that
lie apart do not touch each other.
-/

namespace WordMemory

/-- A memory. -/
abbrev Mem := ℕ → BitVec 8

/-- Which byte of a word comes first. -/
inductive ByteOrder where
  | big
  | little
deriving DecidableEq, Repr

/-- The bytes of a word, in the order they are stored. -/
def byteOf (order : ByteOrder) (v : BitVec 32) (i : ℕ) : BitVec 8 :=
  match order with
  | .big => v.extractLsb' (8 * (3 - i)) 8
  | .little => v.extractLsb' (8 * i) 8

/-- The memory after a word is stored at `p`. -/
def store32 (order : ByteOrder) (m : Mem) (p : ℕ) (v : BitVec 32) : Mem := fun a =>
  if p ≤ a ∧ a < p + 4 then byteOf order v (a - p) else m a

/-- The word at `p`. -/
def load32 (order : ByteOrder) (m : Mem) (p : ℕ) : BitVec 32 :=
  match order with
  | .big => m p ++ m (p + 1) ++ m (p + 2) ++ m (p + 3)
  | .little => m (p + 3) ++ m (p + 2) ++ m (p + 1) ++ m p

variable {order : ByteOrder} {m : Mem} {p q : ℕ} {v : BitVec 32}

theorem store32_add {i : ℕ} (hi : i < 4) : store32 order m p v (p + i) = byteOf order v i := by
  unfold store32
  rw [if_pos ⟨Nat.le_add_right p i, Nat.add_lt_add_left hi p⟩, Nat.add_sub_cancel_left]

/-- The first byte of a word. -/
theorem store32_self : store32 order m p v p = byteOf order v 0 :=
  store32_add (i := 0) (by decide)

theorem store32_of_apart {a : ℕ} (h : a < p ∨ p + 4 ≤ a) : store32 order m p v a = m a := by
  unfold store32
  exact if_neg (by omega)

/-- A word is its four bytes. -/
theorem append_bytes (v : BitVec 32) :
    v.extractLsb' 24 8 ++ v.extractLsb' 16 8 ++ v.extractLsb' 8 8 ++ v.extractLsb' 0 8 = v := by
  rw [BitVec.extractLsb'_append_extractLsb'_eq_extractLsb' (by rfl),
    BitVec.extractLsb'_append_extractLsb'_eq_extractLsb' (by rfl),
    BitVec.extractLsb'_append_extractLsb'_eq_extractLsb' (by rfl)]
  simp

/-- **A word that was stored is read back.** -/
theorem load32_store32 : load32 order (store32 order m p v) p = v := by
  have h0 : store32 order m p v p = byteOf order v 0 := store32_self
  have hbyte : ∀ i < 4, store32 order m p v (p + i) = byteOf order v i := fun i hi =>
    store32_add hi
  cases order <;>
    simp only [load32, h0, hbyte 1 (by decide), hbyte 2 (by decide), hbyte 3 (by decide)] <;>
    exact append_bytes v

/-- Words apart may be stored in any order. -/
theorem store32_comm {w : BitVec 32} (h : p + 4 ≤ q ∨ q + 4 ≤ p) :
    store32 order (store32 order m q w) p v = store32 order (store32 order m p v) q w := by
  funext a
  by_cases hp : p ≤ a ∧ a < p + 4
  · rw [store32_of_apart (p := q) (by omega)]
    simp only [store32, if_pos hp]
  · rw [store32_of_apart (p := p) (by omega)]
    by_cases hq : q ≤ a ∧ a < q + 4
    · simp only [store32, if_pos hq]
    · rw [store32_of_apart (p := q) (by omega), store32_of_apart (p := q) (by omega),
        store32_of_apart (p := p) (by omega)]

/-- The same of a byte and a word. -/
theorem update_store32_comm {b : BitVec 8} (h : p < q ∨ q + 4 ≤ p) :
    Function.update (store32 order m q v) p b = store32 order (Function.update m p b) q v := by
  funext a
  by_cases hp : a = p
  · rw [hp, Function.update_self, store32_of_apart (by omega), Function.update_self]
  · rw [Function.update_of_ne hp]
    unfold store32
    rw [Function.update_of_ne hp]

/-! ## Filling a stretch of memory -/

/-- The memory with a byte everywhere from `a` up to `b`. -/
def fill (m : Mem) (a b : ℕ) (v : BitVec 8) : Mem := fun x =>
  if a ≤ x ∧ x < b then v else m x

theorem fill_of_mem {a b x : ℕ} {v : BitVec 8} (ha : a ≤ x) (hb : x < b) : fill m a b v x = v :=
  if_pos ⟨ha, hb⟩

theorem fill_of_not {a b x : ℕ} {v : BitVec 8} (h : ¬ (a ≤ x ∧ x < b)) : fill m a b v x = m x :=
  if_neg h

/-- Filling nothing. -/
@[simp] theorem fill_self (m : Mem) (a : ℕ) (v : BitVec 8) : fill m a a v = m := by
  funext x
  exact fill_of_not fun h => absurd (h.1.trans_lt h.2) (Nat.lt_irrefl a)

/-- **Filling one stretch after the other** is filling both. -/
theorem fill_fill {a b c : ℕ} (hab : a ≤ b) (hbc : b ≤ c) (v : BitVec 8) :
    fill (fill m a b v) b c v = fill m a c v := by
  funext x
  by_cases h : b ≤ x ∧ x < c
  · rw [fill_of_mem h.1 h.2, fill_of_mem (hab.trans h.1) h.2]
  · rw [fill_of_not h]
    unfold fill
    refine if_congr ⟨fun hx => ⟨hx.1, hx.2.trans_le hbc⟩, fun hx => ⟨hx.1, ?_⟩⟩ rfl rfl
    exact not_le.mp fun hbx => h ⟨hbx, hx.2⟩

/-! ## Words of any size -/

/-- The bytes of a word of `n` bytes, in the order they are stored. -/
def byteAt (order : ByteOrder) {n : ℕ} (v : BitVec (8 * n)) (i : ℕ) : BitVec 8 :=
  match order with
  | .big => v.extractLsb' (8 * (n - 1 - i)) 8
  | .little => v.extractLsb' (8 * i) 8

/-- The memory after a word of `n` bytes is stored at `p`. -/
def store (order : ByteOrder) {n : ℕ} (m : Mem) (p : ℕ) (v : BitVec (8 * n)) : Mem := fun a =>
  if p ≤ a ∧ a < p + n then byteAt order v (a - p) else m a

/-- **Storing zero** fills its bytes with zeros, in either byte order. -/
theorem store_zero (n : ℕ) (m : Mem) (p : ℕ) :
    store order m p (0 : BitVec (8 * n)) = fill m p (p + n) 0 := by
  have hbyte : ∀ i, byteAt order (0 : BitVec (8 * n)) i = 0 := fun i => by
    cases order
    · exact BitVec.extractLsb'_zero
    · exact BitVec.extractLsb'_zero
  funext a
  unfold store fill
  rw [hbyte]

end WordMemory
