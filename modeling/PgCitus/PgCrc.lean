import PgCitus.Library.Crc

/-!
# CRC-32

`utils/pg_crc.h` has two ways of computing a CRC of 32 bits with a table, and uses them with
one table, that of the polynomial of Ethernet. Bytes are looked up with the bits of the
register that are shifted out: on the right by the traditional algorithm, on the left by the
legacy one, which stays for what is on disk.

The traditional one is a cyclic redundancy check (`compTraditionalCrc32_eq`), with what this
means for errors (`traditionalCrc32_eq_iff`). The legacy one shifts in the direction that the
table is not for, and is no cyclic redundancy check for any polynomial, as the comment in the
source says (`legacyCrc32_ne_crc`); about its error-detection properties, which the comment
calls unclear, this can be said: it finds every error in four bytes in a row
(`legacyCrc32_ne_of_burst`).

The table is not in the headers, and is a parameter; what is used of it is the polynomial that
it is for (`IsEthernet`).
-/

namespace PgCrc

open Polynomial

/-- A lookup table. -/
abbrev Table := BitVec 8 → BitVec 32

/-- What `COMP_CRC32_NORMAL_TABLE` does with a byte. -/
def normalTable (table : Table) (crc : BitVec 32) (byte : BitVec 8) : BitVec 32 :=
  let tabIndex := (crc ^^^ byte.setWidth 32) &&& 0xFF
  table (tabIndex.setWidth 8) ^^^ crc >>> 8

/-- What `COMP_CRC32_REFLECTED_TABLE` does with a byte. -/
def reflectedTable (table : Table) (crc : BitVec 32) (byte : BitVec 8) : BitVec 32 :=
  let tabIndex := (crc >>> 24 ^^^ byte.setWidth 32) &&& 0xFF
  table (tabIndex.setWidth 8) ^^^ crc <<< 8

/-- The bytes from an address on. -/
def bytes (data : ℕ → BitVec 8) (len : ℕ) : List (BitVec 8) := (List.range len).map data

/-- The loop of both macros. `__len` is a `uint32`. -/
def comp (step : BitVec 32 → BitVec 8 → BitVec 32) (crc : BitVec 32) (data : ℕ → BitVec 8)
    (len : ℕ) : BitVec 32 := (bytes data (len % 2 ^ 32)).foldl step crc

variable (pgCrc32Table : Table)

/-- `COMP_TRADITIONAL_CRC32`. -/
def compTraditionalCrc32 : BitVec 32 → (ℕ → BitVec 8) → ℕ → BitVec 32 :=
  comp (normalTable pgCrc32Table)

/-- `COMP_LEGACY_CRC32`. -/
def compLegacyCrc32 : BitVec 32 → (ℕ → BitVec 8) → ℕ → BitVec 32 :=
  comp (reflectedTable pgCrc32Table)

/-- `INIT_TRADITIONAL_CRC32` and `INIT_LEGACY_CRC32`. -/
def initCrc32 : BitVec 32 := 0xFFFFFFFF

/-- `FIN_TRADITIONAL_CRC32` and `FIN_LEGACY_CRC32`. -/
def finCrc32 (crc : BitVec 32) : BitVec 32 := crc ^^^ 0xFFFFFFFF

/-- The traditional CRC of some bytes. -/
def traditionalCrc32 (data : ℕ → BitVec 8) (len : ℕ) : BitVec 32 :=
  finCrc32 (compTraditionalCrc32 pgCrc32Table initCrc32 data len)

/-- The legacy CRC of some bytes. -/
def legacyCrc32 (data : ℕ → BitVec 8) (len : ℕ) : BitVec 32 :=
  finCrc32 (compLegacyCrc32 pgCrc32Table initCrc32 data len)

/-- The polynomial of Ethernet, less its leading term, from the constant on. -/
def ethernet : BitVec 32 := 0xEDB88320

/-- The table for it. -/
def ethernetTable : Table := fun i => (Crc.shift ethernet)^[8] (i.setWidth 32)

/-- A table is the one for the polynomial of Ethernet. -/
def IsEthernet (table : Table) : Prop := ∀ i, table i = ethernetTable i

/-- The bits of bytes, the low ones of each first. -/
def bits (data : ℕ → BitVec 8) (len : ℕ) : List Bool := (bytes data len).flatMap Crc.toBits

variable {pgCrc32Table} {data data' : ℕ → BitVec 8} {len : ℕ}

theorem finCrc32_injective : Function.Injective finCrc32 := fun _ _ h =>
  (BitVec.xor_left_inj _).mp h

theorem bytes_add (data : ℕ → BitVec 8) (n m : ℕ) :
    bytes data (n + m) = bytes data n ++ bytes (fun i => data (n + i)) m := by
  unfold bytes
  rw [List.range_add, List.map_append, List.map_map]
  rfl

theorem length_bits (data : ℕ → BitVec 8) (len : ℕ) : (bits data len).length = len * 8 := by
  unfold bits
  rw [List.length_flatMap, List.map_congr_left fun b _ => Crc.length_toBits b,
    List.map_const', List.sum_replicate_nat]
  simp [bytes]

/-- The index into the table is eight bits. -/
theorem setWidth_and_255 (x : BitVec 32) : (x &&& 0xFF).setWidth 8 = x.setWidth 8 := by
  rw [BitVec.setWidth_and, show (0xFF : BitVec 32).setWidth 8 = BitVec.allOnes 8 by decide,
    BitVec.and_allOnes]

/-! ## The traditional algorithm -/

/-- The polynomial of Ethernet. -/
noncomputable def ethernetPolynomial : (ZMod 2)[X] :=
  X ^ 32 + X ^ 26 + X ^ 23 + X ^ 22 + X ^ 16 + X ^ 12 + X ^ 11 + X ^ 10 + X ^ 8 + X ^ 7 + X ^ 5 +
    X ^ 4 + X ^ 2 + X + 1

theorem generator_ethernet : Crc.generator ethernet = ethernetPolynomial := by
  have hbit : ∀ i ∈ Finset.range 32, Crc.bit (ethernet.getMsbD i) =
      if i ∈ [0, 1, 2, 4, 5, 7, 8, 10, 11, 12, 16, 22, 23, 26] then 1 else 0 := by
    decide +kernel
  unfold Crc.generator Crc.toPoly ethernetPolynomial
  rw [Finset.sum_congr rfl fun i hi => by rw [hbit i hi]]
  simp only [Finset.sum_range_succ]
  simp
  ring

/-- **A byte looked up** is eight bits read. -/
theorem normalTable_eq (h : IsEthernet pgCrc32Table) (crc : BitVec 32) (byte : BitVec 8) :
    normalTable pgCrc32Table crc byte = Crc.run ethernet crc (Crc.toBits byte) := by
  have hhigh : (crc ^^^ byte.setWidth 32) >>> 8 = crc >>> 8 := by
    ext i hi
    simp
  rw [Crc.run_toBits (by decide), Crc.iterate_shift, hhigh]
  show pgCrc32Table (((crc ^^^ byte.setWidth 32) &&& 0xFF).setWidth 8) ^^^ crc >>> 8 = _
  rw [setWidth_and_255, h]
  rfl

/-- **The traditional algorithm reads bits into a shift register.** -/
theorem compTraditionalCrc32_run (h : IsEthernet pgCrc32Table) (crc : BitVec 32)
    (data : ℕ → BitVec 8) (len : ℕ) : compTraditionalCrc32 pgCrc32Table crc data len =
      Crc.run ethernet crc (bits data (len % 2 ^ 32)) := by
  unfold compTraditionalCrc32 comp bits
  generalize bytes data (len % 2 ^ 32) = bs
  induction bs generalizing crc with
  | nil => rfl
  | cons b bs ih =>
    rw [List.foldl_cons, ih, normalTable_eq h, List.flatMap_cons, Crc.run_append]

/-- **The traditional algorithm is a cyclic redundancy check.** Whatever is in the accumulator,
`COMP_TRADITIONAL_CRC32` makes of it, and of the bytes that the low half of the length says,
the remainder by the polynomial of Ethernet; and bytes can be accumulated a few at a time. -/
theorem compTraditionalCrc32_eq (h : IsEthernet pgCrc32Table) (crc : BitVec 32)
    (data : ℕ → BitVec 8) (len : ℕ) :
    Crc.toPoly (compTraditionalCrc32 pgCrc32Table crc data len) =
        (Crc.toPoly crc * X ^ (len % 2 ^ 32 * 8) +
          Crc.message (bits data (len % 2 ^ 32)) * X ^ 32) %ₘ ethernetPolynomial ∧
      ∀ n ≤ len, len < 2 ^ 32 → compTraditionalCrc32 pgCrc32Table crc data len =
        compTraditionalCrc32 pgCrc32Table (compTraditionalCrc32 pgCrc32Table crc data n)
          (fun i => data (n + i)) (len - n) := by
  constructor
  · rw [compTraditionalCrc32_run h, Crc.toPoly_run (by decide), length_bits,
      generator_ethernet]
  · intro n hn hlen
    unfold compTraditionalCrc32 comp
    rw [Nat.mod_eq_of_lt hlen, Nat.mod_eq_of_lt (hn.trans_lt hlen),
      Nat.mod_eq_of_lt ((Nat.sub_le len n).trans_lt hlen), ← List.foldl_append, ← bytes_add,
      Nat.add_sub_cancel' hn]

/-- The nine digits that implementations are compared by. -/
theorem compTraditionalCrc32_eq_digits :
    Crc.toPoly (compTraditionalCrc32 ethernetTable initCrc32 (fun i => 0x31 + BitVec.ofNat 8 i) 9) =
      (Crc.toPoly initCrc32 * X ^ (9 % 2 ^ 32 * 8) +
        Crc.message (bits (fun i => 0x31 + BitVec.ofNat 8 i) (9 % 2 ^ 32)) * X ^ 32) %ₘ
          ethernetPolynomial ∧
      traditionalCrc32 ethernetTable (fun i => 0x31 + BitVec.ofNat 8 i) 9 = 0xCBF43926 :=
  ⟨(compTraditionalCrc32_eq (fun _ => rfl) initCrc32 _ 9).1, by decide +kernel⟩

/-- **What the traditional CRC finds.** Two buffers of one length have the same CRC if and only
if the polynomial of Ethernet divides the difference of what is read of them; so it finds
every error in 32 bits in a row, the low bits of each byte being first. -/
theorem traditionalCrc32_eq_iff (h : IsEthernet pgCrc32Table) (data data' : ℕ → BitVec 8)
    (len : ℕ) :
    (traditionalCrc32 pgCrc32Table data len = traditionalCrc32 pgCrc32Table data' len ↔
      ethernetPolynomial ∣ Crc.message (bits data (len % 2 ^ 32)) -
        Crc.message (bits data' (len % 2 ^ 32))) ∧
      ∀ u a a' v, bits data (len % 2 ^ 32) = u ++ a ++ v →
        bits data' (len % 2 ^ 32) = u ++ a' ++ v → a.length ≤ 32 → a ≠ a' →
        traditionalCrc32 pgCrc32Table data len ≠ traditionalCrc32 pgCrc32Table data' len := by
  have hlen : (bits data (len % 2 ^ 32)).length = (bits data' (len % 2 ^ 32)).length := by
    rw [length_bits, length_bits]
  unfold traditionalCrc32
  rw [finCrc32_injective.eq_iff, compTraditionalCrc32_run h, compTraditionalCrc32_run h,
    ← generator_ethernet]
  refine ⟨Crc.run_eq_iff (by decide) _ hlen, fun u a a' v hu hu' ha hne heq => ?_⟩
  rw [hu, hu'] at hlen
  have hlen' : a.length = a'.length := by simpa using hlen
  exact Crc.run_ne_of_burst (by decide) initCrc32 u v hlen' ha hne
    (hu ▸ hu' ▸ finCrc32_injective heq)

/-- One bit that differs. -/
theorem traditionalCrc32_eq_iff_bit :
    traditionalCrc32 ethernetTable (fun _ => 0) 1 ≠ traditionalCrc32 ethernetTable (fun _ => 4) 1 :=
  (traditionalCrc32_eq_iff (fun _ => rfl) _ _ 1).2 [false, false] [false] [true]
    [false, false, false, false, false] rfl rfl (by decide) (by decide)

/-! ## The legacy algorithm -/

/-- The bytes on the right of the table's words are all different. -/
def LowInjective (table : Table) : Prop := Function.Injective fun i => (table i).setWidth 8

/-- So it is for the polynomial of Ethernet. -/
theorem IsEthernet.lowInjective (h : IsEthernet pgCrc32Table) : LowInjective pgCrc32Table := by
  have hzero : ∀ i : Fin 256, (ethernetTable (BitVec.ofFin i)).setWidth 8 = 0 → i = 0 := by
    decide +kernel
  intro i j hij
  have hxor : (ethernetTable (i ^^^ j)).setWidth 8 = 0 := by
    unfold ethernetTable
    rw [BitVec.setWidth_xor, Crc.iterate_shift_xor, BitVec.setWidth_xor]
    show (ethernetTable i).setWidth 8 ^^^ (ethernetTable j).setWidth 8 = 0
    rw [← h, ← h]
    exact BitVec.xor_eq_zero_iff.mpr hij
  exact BitVec.xor_eq_zero_iff.mp (BitVec.eq_of_toFin_eq (hzero (i ^^^ j).toFin hxor))

/-- What is looked up for a byte. -/
theorem reflectedTable_eq (table : Table) (crc : BitVec 32) (byte : BitVec 8) :
    reflectedTable table crc byte = table ((crc >>> 24).setWidth 8 ^^^ byte) ^^^ crc <<< 8 := by
  have hbyte : (byte.setWidth 32).setWidth 8 = byte := by simp
  show table (((crc >>> 24 ^^^ byte.setWidth 32) &&& 0xFF).setWidth 8) ^^^ _ = _
  rw [setWidth_and_255, BitVec.setWidth_xor, hbyte]

/-- What comes out on the right is of the table alone. -/
theorem setWidth_reflectedTable (table : Table) (crc : BitVec 32) (byte : BitVec 8) :
    (reflectedTable table crc byte).setWidth 8 =
      (table ((crc >>> 24).setWidth 8 ^^^ byte)).setWidth 8 := by
  have hshift : (crc <<< 8).setWidth 8 = 0 := by
    ext i hi
    simp
  rw [reflectedTable_eq, BitVec.setWidth_xor, hshift]
  exact BitVec.xor_zero

/-- A byte stays in the register while three more are read. -/
theorem setWidth_eq_of_shiftLeft_eq {x y : BitVec 32} {k : ℕ} (hk : k ≤ 3)
    (h : x <<< (8 * k) = y <<< (8 * k)) : x.setWidth 8 = y.setWidth 8 := by
  have moved (z : BitVec 32) {i : ℕ} (hi : i < 8) :
      (z <<< (8 * k)).getLsbD (i + 8 * k) = (z.setWidth 8).getLsbD i := by
    rw [BitVec.getLsbD_shiftLeft, BitVec.getLsbD_setWidth, Nat.add_sub_cancel]
    simp [hi, show i + 8 * k < 32 by omega]
  exact BitVec.eq_of_getLsbD_eq fun i hi => by rw [← moved x hi, h, moved y hi]

/-- **What is left of two states** that the same is made of. -/
theorem shiftLeft_eq_of_foldl_eq {table : Table} (h : LowInjective table)
    {v v' : List (BitVec 8)} {s s' : BitVec 32} (hlen : v.length = v'.length)
    (hv : v.length ≤ 4)
    (heq : v.foldl (reflectedTable table) s = v'.foldl (reflectedTable table) s') :
    s <<< (8 * v.length) = s' <<< (8 * v.length) := by
  induction v generalizing s s' v' with
  | nil =>
    obtain rfl := List.length_eq_zero_iff.mp hlen.symm
    rw [show s = s' from heq]
  | cons b v ih =>
    cases v' with
    | nil => exact absurd hlen (Nat.succ_ne_zero _)
    | cons b' v' =>
      have hk : v.length ≤ 3 := Nat.le_of_succ_le_succ hv
      have hstep := ih (Nat.succ.inj hlen) (hk.trans (by decide)) heq
      -- the same word was looked up
      have hlow := setWidth_eq_of_shiftLeft_eq hk hstep
      rw [setWidth_reflectedTable, setWidth_reflectedTable] at hlow
      rw [reflectedTable_eq, reflectedTable_eq, h hlow, BitVec.shiftLeft_xor_distrib,
        BitVec.shiftLeft_xor_distrib, BitVec.xor_right_inj, ← BitVec.shiftLeft_add,
        ← BitVec.shiftLeft_add] at hstep
      rw [List.length_cons, Nat.mul_succ, Nat.add_comm]
      exact hstep

/-- A byte can be taken back. -/
theorem reflectedTable_injective {table : Table} (h : LowInjective table) (byte : BitVec 8) :
    Function.Injective fun crc => reflectedTable table crc byte := by
  intro s s' heq
  have heq' : reflectedTable table s byte = reflectedTable table s' byte := heq
  have hlow := congrArg (fun c : BitVec 32 => c.setWidth 8) heq'
  simp only [setWidth_reflectedTable] at hlow
  have hhigh := (BitVec.xor_left_inj byte).mp (h hlow)
  rw [reflectedTable_eq, reflectedTable_eq, hhigh, BitVec.xor_right_inj] at heq'
  have low (z : BitVec 32) {i : ℕ} (hi : i < 24) : (z <<< 8).getLsbD (i + 8) = z.getLsbD i := by
    rw [BitVec.getLsbD_shiftLeft, Nat.add_sub_cancel]
    simp [show i + 8 < 32 by omega]
  have high (z : BitVec 32) {i : ℕ} (hi : ¬ i < 24) (hi' : i < 32) :
      ((z >>> 24).setWidth 8).getLsbD (i - 24) = z.getLsbD i := by
    rw [BitVec.getLsbD_setWidth, BitVec.getLsbD_ushiftRight, show 24 + (i - 24) = i by omega]
    simp [show i - 24 < 8 by omega]
  refine BitVec.eq_of_getLsbD_eq fun i hi => ?_
  by_cases hi24 : i < 24
  · rw [← low s hi24, heq', low s' hi24]
  · rw [← high s hi24 hi, hhigh, high s' hi24 hi]

/-- Four bytes are told apart. -/
theorem foldl_reflectedTable_ne {table : Table} (h : LowInjective table)
    {a a' : List (BitVec 8)} {s : BitVec 32} (hlen : a.length = a'.length) (ha : a.length ≤ 4)
    (hne : a ≠ a') :
    a.foldl (reflectedTable table) s ≠ a'.foldl (reflectedTable table) s := by
  induction a generalizing s a' with
  | nil => exact absurd (List.length_eq_zero_iff.mp hlen.symm).symm hne
  | cons b a ih =>
    cases a' with
    | nil => exact absurd hlen (Nat.succ_ne_zero _)
    | cons b' a' =>
      have hlen' : a.length = a'.length := Nat.succ.inj hlen
      have ha' : a.length ≤ 3 := Nat.le_of_succ_le_succ ha
      by_cases hb : b = b'
      · subst hb
        exact ih hlen' (ha'.trans (by decide)) fun h => hne (h ▸ rfl)
      · intro heq
        have hlow := setWidth_eq_of_shiftLeft_eq ha'
          (shiftLeft_eq_of_foldl_eq h hlen' (ha'.trans (by decide)) heq)
        rw [setWidth_reflectedTable, setWidth_reflectedTable] at hlow
        exact hb ((BitVec.xor_right_inj _).mp (h hlow))

/-- **What the legacy CRC finds**: every error in four bytes in a row, wherever they are. -/
theorem legacyCrc32_ne_of_burst (h : IsEthernet pgCrc32Table) (data datb : ℕ → BitVec 8)
    (len : ℕ) (u a b v : List (BitVec 8)) (hu : bytes data (len % 2 ^ 32) = u ++ a ++ v)
    (hu' : bytes datb (len % 2 ^ 32) = u ++ b ++ v) (ha : a.length ≤ 4) (hne : a ≠ b) :
    legacyCrc32 pgCrc32Table data len ≠ legacyCrc32 pgCrc32Table datb len := by
  have hlen : (u ++ a ++ v).length = (u ++ b ++ v).length := by
    rw [← hu, ← hu']
    simp [bytes]
  have hlen' : a.length = b.length := by simpa using hlen
  intro heq
  have hcomp := finCrc32_injective heq
  unfold compLegacyCrc32 comp at hcomp
  rw [hu, hu', List.foldl_append, List.foldl_append, List.foldl_append, List.foldl_append] at hcomp
  -- what comes after can be taken back
  have hback (v : List (BitVec 8)) (s s' : BitVec 32)
      (hv : v.foldl (reflectedTable pgCrc32Table) s = v.foldl (reflectedTable pgCrc32Table) s') :
      s = s' := by
    induction v generalizing s s' with
    | nil => exact hv
    | cons x v ih => exact reflectedTable_injective h.lowInjective x (ih _ _ hv)
  exact foldl_reflectedTable_ne h.lowInjective hlen' ha hne (hback v _ _ hcomp)

/-- Four bytes turned round. -/
theorem legacyCrc32_ne_of_burst_reversed :
    legacyCrc32 ethernetTable (fun i => BitVec.ofNat 8 i) 4 ≠
      legacyCrc32 ethernetTable (fun i => BitVec.ofNat 8 (3 - i)) 4 :=
  legacyCrc32_ne_of_burst (fun _ => rfl) _ _ 4 [] [0, 1, 2, 3] [3, 2, 1, 0] [] rfl rfl (by decide)
    (by decide)

/-! ## Other algorithms -/

/-- The parameters of a cyclic redundancy check of 32 bits. -/
structure Parameters where
  /-- The polynomial, less its leading term, with the constant on the right. -/
  poly : BitVec 32
  init : BitVec 32
  /-- Whether the low bits of a byte come first. -/
  refIn : Bool
  /-- Whether the result is turned round. -/
  refOut : Bool
  xorOut : BitVec 32

/-- A bit read into a register that is shifted to the left. -/
def feed (poly crc : BitVec 32) (b : Bool) : BitVec 32 :=
  crc <<< 1 ^^^ if crc.msb ^^ b then poly else 0

/-- The bits of a byte. -/
def bitsOf (refIn : Bool) (byte : BitVec 8) : List Bool :=
  if refIn then Crc.toBits byte else (Crc.toBits byte).reverse

/-- The result, turned round or not. -/
def turn (refOut : Bool) (crc : BitVec 32) : BitVec 32 := if refOut then crc.reverse else crc

/-- The cyclic redundancy check with these parameters. -/
def Parameters.crc (P : Parameters) (bytes : List (BitVec 8)) : BitVec 32 :=
  turn P.refOut ((bytes.flatMap (bitsOf P.refIn)).foldl (feed P.poly) P.init) ^^^ P.xorOut

/-- What `TRADITIONAL_CRC32` is. -/
def traditional : Parameters := ⟨0x04C11DB7, 0xFFFFFFFF, true, true, 0xFFFFFFFF⟩

theorem turn_xor (refOut : Bool) (c d : BitVec 32) :
    turn refOut (c ^^^ d) = turn refOut c ^^^ turn refOut d := by
  cases refOut with
  | false => rfl
  | true =>
    refine BitVec.eq_of_getLsbD_eq fun i hi => ?_
    show (c ^^^ d).reverse.getLsbD i = (c.reverse ^^^ d.reverse).getLsbD i
    rw [BitVec.getLsbD_xor, BitVec.getLsbD_reverse, BitVec.getLsbD_reverse,
      BitVec.getLsbD_reverse, BitVec.getMsbD_xor]

theorem turn_turn (c : BitVec 32) : turn true (turn true c) = c := BitVec.reverse_reverse_eq

/-- Turned round, the register is shifted to the right. -/
theorem reverse_feed (crc : BitVec 32) (b : Bool) :
    (feed traditional.poly crc b).reverse = Crc.feed ethernet crc.reverse b := by
  have hpoly : (if crc.msb ^^ b then traditional.poly else 0).reverse =
      if crc.msb ^^ b then ethernet else 0 := by
    cases crc.msb ^^ b <;> decide +kernel
  have hmoved : (crc <<< 1).reverse = (crc.reverse ^^^ (BitVec.ofBool b).setWidth 32) >>> 1 := by
    refine BitVec.eq_of_getLsbD_eq fun i hi => ?_
    rw [BitVec.getLsbD_reverse, BitVec.getMsbD_shiftLeft, BitVec.getLsbD_ushiftRight,
      BitVec.getLsbD_xor, BitVec.getLsbD_reverse, Nat.add_comm i 1, BitVec.getLsbD_setWidth,
      BitVec.getLsbD_ofBool]
    simp
  have hout : (crc.reverse ^^^ (BitVec.ofBool b).setWidth 32).getLsbD 0 = (crc.msb ^^ b) := by
    rw [BitVec.getLsbD_xor, BitVec.getLsbD_reverse, ← BitVec.msb_eq_getMsbD_zero,
      BitVec.getLsbD_setWidth, BitVec.getLsbD_ofBool]
    simp
  have hxor : ∀ c d : BitVec 32, (c ^^^ d).reverse = c.reverse ^^^ d.reverse := turn_xor true
  unfold feed Crc.feed Crc.shift
  rw [hxor, hpoly, hmoved, hout]

/-- A difference goes through the register by itself. -/
theorem feed_xor (poly c d : BitVec 32) (b : Bool) :
    feed poly (c ^^^ d) b = feed poly c b ^^^ feed poly d false := by
  have hif : (if (c ^^^ d).msb ^^ b then poly else 0) =
      (if c.msb ^^ b then poly else 0) ^^^ if d.msb ^^ false then poly else 0 := by
    rw [BitVec.msb_xor]
    cases c.msb <;> cases d.msb <;> cases b <;> simp
  unfold feed
  rw [hif, BitVec.shiftLeft_xor_distrib, BitVec.xor_assoc, BitVec.xor_assoc,
    ← BitVec.xor_assoc (d <<< 1), BitVec.xor_comm (d <<< 1), BitVec.xor_assoc]

theorem foldl_feed_xor (poly c d : BitVec 32) (bits : List Bool) :
    bits.foldl (feed poly) (c ^^^ d) =
      bits.foldl (feed poly) c ^^^ (bits.map fun _ => false).foldl (feed poly) d := by
  induction bits generalizing c d with
  | nil => rfl
  | cons b bits ih =>
    rw [List.foldl_cons, feed_xor, ih]
    rfl

/-- What a message comes to by itself. -/
def linear (poly : BitVec 32) (refIn refOut : Bool) (bytes : List (BitVec 8)) : BitVec 32 :=
  turn refOut ((bytes.flatMap (bitsOf refIn)).foldl (feed poly) 0)

/-- **The bytes of a message**, whatever the register starts with, and whatever is added in the
end. -/
theorem Parameters.crc_xor (P : Parameters) (bytes : List (BitVec 8)) :
    P.crc bytes ^^^ P.crc (bytes.map fun _ => 0) = linear P.poly P.refIn P.refOut bytes := by
  have hzero : (bytes.map fun _ => (0 : BitVec 8)).flatMap (bitsOf P.refIn) =
      (bytes.flatMap (bitsOf P.refIn)).map fun _ => false := by
    have hbyte (b : BitVec 8) : bitsOf P.refIn 0 = (bitsOf P.refIn b).map fun _ => false := by
      cases P.refIn with
      | true => rfl
      | false => rfl
    rw [List.flatMap_map, List.map_flatMap]
    exact congrArg (fun f => bytes.flatMap f) (funext hbyte)
  have hreg (bits : List Bool) : bits.foldl (feed P.poly) P.init =
      bits.foldl (feed P.poly) 0 ^^^ (bits.map fun _ => false).foldl (feed P.poly) P.init := by
    rw [← foldl_feed_xor]
    exact congrArg (fun c => bits.foldl (feed P.poly) c) BitVec.zero_xor.symm
  have hcancel (a z x : BitVec 32) : a ^^^ z ^^^ x ^^^ (z ^^^ x) = a := by
    rw [BitVec.xor_assoc a z x, BitVec.xor_assoc a, BitVec.xor_self, BitVec.xor_zero]
  unfold Parameters.crc linear
  rw [hzero, hreg, turn_xor, hcancel]

/-- Nothing happens before the first bit that is set, which brings the polynomial in. -/
theorem linear_eq {poly : BitVec 32} {refIn refOut : Bool} {bytes : List (BitVec 8)} (n : ℕ)
    (bits : List Bool)
    (h : bytes.flatMap (bitsOf refIn) = List.replicate n false ++ true :: bits) :
    linear poly refIn refOut bytes = turn refOut (bits.foldl (feed poly) poly) := by
  have hfeed : feed poly 0 false = 0 := by
    unfold feed
    simp
  have hzero : (List.replicate n false).foldl (feed poly) 0 = 0 := by
    clear h
    induction n with
    | zero => rfl
    | succ n ih => rw [List.replicate_succ, List.foldl_cons, hfeed, ih]
  have hfirst : feed poly 0 true = poly := by
    unfold feed
    simp
  unfold linear
  rw [h, List.foldl_append, hzero, List.foldl_cons, hfirst]

/-- The legacy CRC of a list of bytes. -/
theorem legacyCrc32_getD (table : Table) {bs : List (BitVec 8)} (hbs : bs.length < 2 ^ 32) :
    bytes (fun i => bs.getD i 0) bs.length = bs ∧
      legacyCrc32 table (fun i => bs.getD i 0) bs.length =
        finCrc32 (bs.foldl (reflectedTable table) initCrc32) := by
  have hbytes : bytes (fun i => bs.getD i 0) bs.length = bs := by
    refine List.ext_getElem (by simp [bytes]) fun i hi hi' => ?_
    simp [bytes, hi']
  refine ⟨hbytes, ?_⟩
  unfold legacyCrc32 compLegacyCrc32 comp
  rw [Nat.mod_eq_of_lt hbs, hbytes]

/-- **Which CRCs these are.** The traditional one is the one of Ethernet, with bytes and result
turned round. The legacy one is not that of any polynomial, whatever the register starts
with, whichever of bytes and result are turned round, and whatever is added in the end: they
differ on messages of two bytes or less. -/
theorem crc32_parameters (h : IsEthernet pgCrc32Table) :
    (∀ data len, traditionalCrc32 pgCrc32Table data len =
      traditional.crc (bytes data (len % 2 ^ 32))) ∧
    ∀ P : Parameters, ∃ data len, len ≤ 2 ∧
      legacyCrc32 pgCrc32Table data len ≠ P.crc (bytes data len) := by
  obtain rfl : pgCrc32Table = ethernetTable := funext h
  constructor
  · intro data len
    unfold traditionalCrc32
    rw [compTraditionalCrc32_run h]
    have hrun (bits : List Bool) (c : BitVec 32) :
        (bits.foldl (feed traditional.poly) c).reverse = Crc.run ethernet c.reverse bits := by
      induction bits generalizing c with
      | nil => rfl
      | cons b bits ih =>
        rw [List.foldl_cons, ih, reverse_feed]
        rfl
    have hinit : traditional.init.reverse = initCrc32 := by decide +kernel
    have hcrc (bytes : List (BitVec 8)) : traditional.crc bytes =
        finCrc32 ((bytes.flatMap Crc.toBits).foldl (feed traditional.poly)
          traditional.init).reverse := rfl
    rw [hcrc, hrun, hinit]
    rfl
  · intro P
    by_contra hall
    push Not at hall
    have hlinear (bs : List (BitVec 8)) (hbs : bs.length ≤ 2) :
        linear P.poly P.refIn P.refOut bs =
          finCrc32 (bs.foldl (reflectedTable ethernetTable) initCrc32) ^^^
            finCrc32 ((bs.map fun _ => 0).foldl (reflectedTable ethernetTable) initCrc32) := by
      have hcrc (bs : List (BitVec 8)) (hbs : bs.length ≤ 2) :
          finCrc32 (bs.foldl (reflectedTable ethernetTable) initCrc32) = P.crc bs := by
        have hget := legacyCrc32_getD ethernetTable (hbs.trans_lt (by decide))
        rw [← hget.2, hall _ _ hbs, hget.1]
      rw [hcrc bs hbs, hcrc _ (by rwa [List.length_map]), P.crc_xor]
    generalize P.poly = poly at hlinear
    -- a byte with one bit gives the polynomial, and another message does not agree
    match hin : P.refIn, hout : P.refOut with
    | false, false =>
      rw [hin, hout] at hlinear
      have h1 := hlinear [1] (by decide)
      have h4 := hlinear [4] (by decide)
      rw [linear_eq 7 [] rfl] at h1
      obtain rfl : poly = 0x77073096 := h1.trans (by decide +kernel)
      exact absurd h4 (by decide +kernel)
    | false, true =>
      rw [hin, hout] at hlinear
      have h1 := hlinear [1] (by decide)
      have h4 := hlinear [4] (by decide)
      rw [linear_eq 7 [] rfl] at h1
      obtain rfl : poly = 0x690CE0EE := (turn_turn poly).symm.trans
        ((congrArg (turn true) h1).trans (by decide +kernel))
      exact absurd h4 (by decide +kernel)
    | true, false =>
      rw [hin, hout] at hlinear
      have h64 := hlinear [64] (by decide)
      have h128 := hlinear [128] (by decide)
      rw [linear_eq 7 [] rfl] at h128
      obtain rfl : poly = 0xEDB88320 := h128.trans (by decide +kernel)
      exact absurd h64 (by decide +kernel)
    | true, true =>
      rw [hin, hout] at hlinear
      have h128 := hlinear [128] (by decide)
      have h1 := hlinear [1, 0] (by decide)
      rw [linear_eq 7 [] rfl] at h128
      obtain rfl : poly = 0x04C11DB7 := (turn_turn poly).symm.trans
        ((congrArg (turn true) h128).trans (by decide +kernel))
      exact absurd h1 (by decide +kernel)

/-- A message that the parameters of Ethernet, as they are written down mostly, give another
result for. -/
theorem crc32_parameters_ethernet : ∃ data len, len ≤ 2 ∧
    legacyCrc32 ethernetTable data len ≠ traditional.crc (bytes data len) :=
  (crc32_parameters fun _ => rfl).2 traditional

end PgCrc
