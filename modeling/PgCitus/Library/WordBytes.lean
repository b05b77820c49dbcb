import PgCitus.Library.Numeral
import PgCitus.Library.WordMemory

/-!
# The bytes of a word

What a word of `n` bytes looks like in memory, as a list of its bytes, and what a list of
bytes is as a word. A word that was loaded has the bytes it was loaded from, in either byte
order (`bytes_load`), and one order is the other read backwards (`bytes_little`).

The highest byte first is the numeral of the word to the base 256. So bytes in that order
are compared, from the first difference on, as the words are as numbers
(`lexCompare_bytes_big`).
-/

namespace WordMemory

variable {n : ℕ}

/-- **The bytes of a word**, in the order they are stored. -/
def bytes (order : ByteOrder) (v : BitVec (8 * n)) : List (BitVec 8) :=
  (List.range n).map (byteAt order v)

@[simp] theorem length_bytes (order : ByteOrder) (v : BitVec (8 * n)) :
    (bytes order v).length = n := by
  unfold bytes
  rw [List.length_map, List.length_range]

theorem getElem_bytes {order : ByteOrder} {v : BitVec (8 * n)} {i : ℕ}
    (h : i < (bytes order v).length) : (bytes order v)[i] = byteAt order v i := by
  simp [bytes]

/-- **One order is the other read backwards.** -/
theorem bytes_little (v : BitVec (8 * n)) : bytes .little v = (bytes .big v).reverse := by
  refine List.ext_getElem (by simp) fun i hi hi' => ?_
  rw [List.getElem_reverse, getElem_bytes, getElem_bytes, length_bytes]
  rw [length_bytes] at hi
  show v.extractLsb' (8 * i) 8 = v.extractLsb' (8 * (n - 1 - (n - 1 - i))) 8
  rw [Nat.sub_sub_self (by omega)]

/-- **The highest byte first is a numeral** to the base 256. -/
theorem map_toNat_bytes_big (v : BitVec (8 * n)) :
    (bytes .big v).map BitVec.toNat = Numeral.digits 256 n v.toNat := by
  have hlt : v.toNat < 256 ^ n := v.isLt.trans_eq (Nat.pow_mul 2 8 n)
  rw [Numeral.digits_eq_map (by decide) hlt]
  unfold bytes
  rw [List.map_map]
  refine List.map_congr_left fun i _ => ?_
  show (v.extractLsb' (8 * (n - 1 - i)) 8).toNat = v.toNat / 256 ^ (n - 1 - i) % 256
  rw [BitVec.extractLsb'_toNat, Nat.shiftRight_eq_div_pow, Nat.pow_mul]

/-- A word is determined by its bytes. -/
theorem bytes_injective (order : ByteOrder) :
    Function.Injective (bytes order : BitVec (8 * n) → List (BitVec 8)) := by
  have hbig : Function.Injective (bytes .big : BitVec (8 * n) → List (BitVec 8)) := by
    intro v v' h
    have hdigits := congrArg (fun bs => Numeral.value 256 (bs.map BitVec.toNat)) h
    simp only [map_toNat_bytes_big] at hdigits
    rw [Numeral.value_digits (by decide) (v.isLt.trans_eq (Nat.pow_mul 2 8 n)),
      Numeral.value_digits (by decide) (v'.isLt.trans_eq (Nat.pow_mul 2 8 n))] at hdigits
    exact BitVec.eq_of_toNat_eq hdigits
  cases order with
  | big => exact hbig
  | little =>
    intro v v' h
    rw [bytes_little, bytes_little, List.reverse_inj] at h
    exact hbig h

/-- **A function that reverses the bytes** of a word. -/
def Reverses (f : BitVec (8 * n) → BitVec (8 * n)) : Prop :=
  ∀ v, bytes .big (f v) = bytes .little v

variable {f : BitVec (8 * n) → BitVec (8 * n)}

/-- In whatever order they are stored. -/
theorem Reverses.bytes_eq (hf : Reverses f) (order : ByteOrder) (v : BitVec (8 * n)) :
    bytes order (f v) = (bytes order v).reverse := by
  cases order with
  | big => rw [hf, bytes_little]
  | little => rw [bytes_little, hf]

/-- What is reversed in one order is in the other one. -/
theorem Reverses.bytes_little_eq (hf : Reverses f) (v : BitVec (8 * n)) :
    bytes .little (f v) = bytes .big v := by
  rw [hf.bytes_eq, bytes_little, List.reverse_reverse]

/-- **Reversing twice changes nothing.** -/
theorem Reverses.involutive (hf : Reverses f) : Function.Involutive f := fun v =>
  bytes_injective .big (by rw [hf, hf.bytes_little_eq])

/-! ## Loading -/

/-- **The word of `n` bytes** that is stored as these. -/
def load (order : ByteOrder) (n : ℕ) (bs : List (BitVec 8)) : BitVec (8 * n) :=
  match order with
  | .big => BitVec.ofNat (8 * n) (Numeral.value 256 (bs.map BitVec.toNat))
  | .little => BitVec.ofNat (8 * n) (Numeral.value 256 (bs.reverse.map BitVec.toNat))

theorem forall_toNat_lt (bs : List (BitVec 8)) : ∀ d ∈ bs.map BitVec.toNat, d < 256 := by
  intro d hd
  obtain ⟨b, -, rfl⟩ := List.mem_map.mp hd
  exact b.isLt

theorem toNat_load_big {bs : List (BitVec 8)} (h : bs.length = n) :
    (load .big n bs).toNat = Numeral.value 256 (bs.map BitVec.toNat) := by
  have hlt : Numeral.value 256 (bs.map BitVec.toNat) < 256 ^ (bs.map BitVec.toNat).length :=
    Numeral.value_lt (forall_toNat_lt bs)
  rw [List.length_map, h] at hlt
  show (BitVec.ofNat (8 * n) _).toNat = _
  rw [BitVec.toNat_ofNat, Nat.pow_mul]
  exact Nat.mod_eq_of_lt hlt

/-- **What was loaded is stored as it was.** -/
theorem bytes_load (order : ByteOrder) {bs : List (BitVec 8)} (h : bs.length = n) :
    bytes order (load order n bs) = bs := by
  have hbig : ∀ bs : List (BitVec 8), bs.length = n → bytes .big (load .big n bs) = bs := by
    intro bs h
    refine List.map_injective_iff.mpr (fun _ _ => BitVec.eq_of_toNat_eq) ?_
    rw [map_toNat_bytes_big, toNat_load_big h, ← h, ← List.length_map BitVec.toNat]
    exact Numeral.digits_value (forall_toNat_lt bs)
  cases order with
  | big => exact hbig bs h
  | little =>
    rw [bytes_little, List.reverse_eq_iff]
    exact hbig bs.reverse (by rw [List.length_reverse, h])

/-! ## Comparing -/

/-- **Bytes are compared as the word**, if the highest one comes first. -/
theorem lexCompare_bytes_big (v v' : BitVec (8 * n)) :
    Numeral.lexCompare BitVec.toNat (bytes .big v) (bytes .big v')
      = compare v.toNat v'.toNat := by
  have hmap : Numeral.lexCompare id ((bytes .big v).map BitVec.toNat)
      ((bytes .big v').map BitVec.toNat)
        = Numeral.lexCompare BitVec.toNat (bytes .big v) (bytes .big v') :=
    Numeral.lexCompare_map fun _ _ _ _ => rfl
  rw [← hmap, map_toNat_bytes_big, map_toNat_bytes_big]
  exact Numeral.lexCompare_digits (by decide) (v.isLt.trans_eq (Nat.pow_mul 2 8 n))
    (v'.isLt.trans_eq (Nat.pow_mul 2 8 n))

/-! ## A byte by itself -/

section Lanes

variable {w : ℕ}

/-- **The byte at a place of a word**, the lowest one being at place 0. -/
def lane (k : ℕ) (x : BitVec w) : BitVec 8 := x.extractLsb' (8 * k) 8

/-- The bytes moved up. -/
def up (s : ℕ) (x : BitVec w) : BitVec w := x <<< (8 * s)

/-- The bytes moved down. -/
def down (s : ℕ) (x : BitVec w) : BitVec w := x >>> (8 * s)

/-- The word with one of its bytes only. -/
def onlyLane (k : ℕ) (x : BitVec w) : BitVec w := x &&& (255#w <<< (8 * k))

theorem lane_or (k : ℕ) (x y : BitVec w) : lane k (x ||| y) = lane k x ||| lane k y :=
  BitVec.extractLsb'_or

/-- The bits that are left of a word with one of its bytes. -/
theorem getLsbD_onlyLane {k j : ℕ} (hw : 8 * k + 8 ≤ w) (x : BitVec w) :
    (onlyLane k x).getLsbD j = (x.getLsbD j && decide (8 * k ≤ j ∧ j < 8 * k + 8)) := by
  have hmask : (255#w <<< (8 * k)).getLsbD j = decide (8 * k ≤ j ∧ j < 8 * k + 8) := by
    rw [show (255#w) = BitVec.ofNat w (2 ^ 8 - 1) from rfl, BitVec.getLsbD_shiftLeft,
      BitVec.getLsbD_ofNat, Nat.testBit_two_pow_sub_one, Bool.eq_iff_iff]
    simp only [Bool.and_eq_true, Bool.not_eq_true', decide_eq_true_eq, decide_eq_false_iff_not]
    omega
  unfold onlyLane
  rw [BitVec.getLsbD_and, hmask]

/-- The byte that is left is what it was. -/
theorem lane_onlyLane_self {k : ℕ} (hw : 8 * k + 8 ≤ w) (x : BitVec w) :
    lane k (onlyLane k x) = lane k x := by
  ext j hj
  unfold lane
  rw [BitVec.getElem_extractLsb', BitVec.getElem_extractLsb', getLsbD_onlyLane hw,
    decide_eq_true ⟨Nat.le_add_right _ j, Nat.add_lt_add_left hj _⟩, Bool.and_true]

/-- The others are gone. -/
theorem lane_onlyLane_ne {k l : ℕ} (hw : 8 * k + 8 ≤ w) (h : l ≠ k) (x : BitVec w) :
    lane l (onlyLane k x) = 0#8 := by
  ext j hj
  have hout : ¬ (8 * k ≤ 8 * l + j ∧ 8 * l + j < 8 * k + 8) := by omega
  unfold lane
  rw [BitVec.getElem_extractLsb', getLsbD_onlyLane hw, decide_eq_false hout, Bool.and_false,
    BitVec.getElem_zero]

theorem lane_up {l s : ℕ} (hs : s ≤ l) (hw : 8 * l + 8 ≤ w) (x : BitVec w) :
    lane l (up s x) = lane (l - s) x := by
  ext j hj
  have hin : 8 * l + j < w := by omega
  have hfar : ¬ 8 * l + j < 8 * s := by omega
  unfold lane up
  rw [BitVec.getElem_extractLsb', BitVec.getElem_extractLsb', BitVec.getLsbD_shiftLeft,
    decide_eq_true hin, decide_eq_false hfar, Bool.true_and, Bool.not_false, Bool.true_and]
  congr 1
  omega

theorem lane_down (l s : ℕ) (x : BitVec w) : lane l (down s x) = lane (l + s) x := by
  ext j hj
  unfold lane down
  rw [BitVec.getElem_extractLsb', BitVec.getElem_extractLsb', BitVec.getLsbD_ushiftRight]
  congr 1
  omega

end Lanes

/-- **Bytes are reversed** if each stands where the one at the other end stood. -/
theorem reverses_of_lane {f : BitVec (8 * n) → BitVec (8 * n)}
    (h : ∀ x, ∀ k < n, lane (n - 1 - k) (f x) = lane k x) : Reverses f := fun x =>
  List.map_congr_left fun k hk => h x k (List.mem_range.mp hk)

/-! ## Storing -/

/-- **A word is stored as its bytes.** -/
theorem store_add {order : ByteOrder} {m : Mem} {p i : ℕ} {v : BitVec (8 * n)} (hi : i < n) :
    store order m p v (p + i) = byteAt order v i := by
  unfold store
  rw [if_pos ⟨Nat.le_add_right p i, Nat.add_lt_add_left hi p⟩, Nat.add_sub_cancel_left]

theorem store_of_lt {order : ByteOrder} {m : Mem} {p a : ℕ} {v : BitVec (8 * n)} (h : a < p) :
    store order m p v a = m a :=
  if_neg fun hp => absurd h (not_lt.mpr hp.1)

/-- **What is in memory after a word is appended**: what was there, and its bytes. -/
theorem map_store (order : ByteOrder) (m : Mem) (p : ℕ) (v : BitVec (8 * n)) :
    (List.range (p + n)).map (store order m p v) = (List.range p).map m ++ bytes order v := by
  rw [List.range_add, List.map_append, List.map_map]
  congr 1
  · exact List.map_congr_left fun i hi => store_of_lt (List.mem_range.mp hi)
  · exact List.map_congr_left fun i hi => store_add (List.mem_range.mp hi)

end WordMemory
