import Mathlib.Tactic.IntervalCases
import PgCitus.Library.WordBytes

/-!
# Byte swapping

The portable functions of `port/pg_bswap.h`: words with their bytes reversed, the
conversions to and from network byte order, and `DatumBigEndianToNative`. The byte order
of the machine is a parameter.

A swap is a union of shifted words, each with a mask that leaves one byte of it. So a byte
of the result is the one byte that the mask of its place lets through
(`lane_onlyLane_self`), which is the byte at the other end (`reverses_pgBswap64` and the like).
-/

namespace PgBswap

open WordMemory

/-! ## The functions -/

/-- `pg_bswap16`. -/
def pgBswap16 (x : BitVec 16) : BitVec 16 :=
  (x <<< 8 &&& 0xff00#16) |||
  (x >>> 8 &&& 0x00ff#16)

/-- `pg_bswap32`. -/
def pgBswap32 (x : BitVec 32) : BitVec 32 :=
  (x <<< 24 &&& 0xff000000#32) |||
  (x <<< 8 &&& 0x00ff0000#32) |||
  (x >>> 8 &&& 0x0000ff00#32) |||
  (x >>> 24 &&& 0x000000ff#32)

/-- `pg_bswap64`. -/
def pgBswap64 (x : BitVec 64) : BitVec 64 :=
  (x <<< 56 &&& 0xff00000000000000#64) |||
  (x <<< 40 &&& 0x00ff000000000000#64) |||
  (x <<< 24 &&& 0x0000ff0000000000#64) |||
  (x <<< 8 &&& 0x000000ff00000000#64) |||
  (x >>> 8 &&& 0x00000000ff000000#64) |||
  (x >>> 24 &&& 0x0000000000ff0000#64) |||
  (x >>> 40 &&& 0x000000000000ff00#64) |||
  (x >>> 56 &&& 0x00000000000000ff#64)

/-- `pg_hton16`. -/
def pgHton16 (order : ByteOrder) (x : BitVec 16) : BitVec 16 :=
  match order with
  | .big => x
  | .little => pgBswap16 x

/-- `pg_hton32`. -/
def pgHton32 (order : ByteOrder) (x : BitVec 32) : BitVec 32 :=
  match order with
  | .big => x
  | .little => pgBswap32 x

/-- `pg_hton64`. -/
def pgHton64 (order : ByteOrder) (x : BitVec 64) : BitVec 64 :=
  match order with
  | .big => x
  | .little => pgBswap64 x

/-- `SIZEOF_DATUM`. -/
inductive SizeofDatum where
  | four
  | eight

/-- How many bytes that are. -/
def SizeofDatum.bytes : SizeofDatum → ℕ
  | four => 4
  | eight => 8

/-- A `Datum`, an unsigned integer. -/
abbrev Datum (size : SizeofDatum) := BitVec (8 * size.bytes)

/-- `DatumBigEndianToNative`. -/
def datumBigEndianToNative (order : ByteOrder) : {size : SizeofDatum} → Datum size → Datum size
  | .eight, x =>
    match order with
    | .big => x
    | .little => pgBswap64 x
  | .four, x =>
    match order with
    | .big => x
    | .little => pgBswap32 x

/-- `memcmp` of two strings of one length. Only the sign of its result counts. -/
def memcmp (s t : List (BitVec 8)) : Ordering := Numeral.lexCompare BitVec.toNat s t

/-! ## The bytes of a swapped word -/

/-- **`pg_bswap16` reverses the bytes.** -/
theorem reverses_pgBswap16 : Reverses (n := 2) pgBswap16 := by
  refine reverses_of_lane fun x k hk => ?_
  have hswap : pgBswap16 x = onlyLane 1 (up 1 x) ||| onlyLane 0 (down 1 x) := rfl
  rw [hswap]
  interval_cases k <;>
    simp (disch := decide) only [lane_or, lane_onlyLane_self, lane_onlyLane_ne, lane_up,
      lane_down, BitVec.or_zero, BitVec.zero_or, Nat.reduceSub, Nat.reduceAdd]

/-- **`pg_bswap32` reverses the bytes.** -/
theorem reverses_pgBswap32 : Reverses (n := 4) pgBswap32 := by
  refine reverses_of_lane fun x k hk => ?_
  have hswap : pgBswap32 x = onlyLane 3 (up 3 x) ||| onlyLane 2 (up 1 x) |||
      onlyLane 1 (down 1 x) ||| onlyLane 0 (down 3 x) := rfl
  rw [hswap]
  interval_cases k <;>
    simp (disch := decide) only [lane_or, lane_onlyLane_self, lane_onlyLane_ne, lane_up,
      lane_down, BitVec.or_zero, BitVec.zero_or, Nat.reduceSub, Nat.reduceAdd]

/-- **`pg_bswap64` reverses the bytes.** -/
theorem reverses_pgBswap64 : Reverses (n := 8) pgBswap64 := by
  refine reverses_of_lane fun x k hk => ?_
  have hswap : pgBswap64 x = onlyLane 7 (up 7 x) ||| onlyLane 6 (up 5 x) |||
      onlyLane 5 (up 3 x) ||| onlyLane 4 (up 1 x) ||| onlyLane 3 (down 1 x) |||
      onlyLane 2 (down 3 x) ||| onlyLane 1 (down 5 x) ||| onlyLane 0 (down 7 x) := rfl
  rw [hswap]
  interval_cases k <;>
    simp (disch := decide) only [lane_or, lane_onlyLane_self, lane_onlyLane_ne, lane_up,
      lane_down, BitVec.or_zero, BitVec.zero_or, Nat.reduceSub, Nat.reduceAdd]

/-! ## Network byte order -/

/-- What goes over the network is the value with its highest byte first. -/
theorem bytes_pgHton16 (order : ByteOrder) (x : BitVec 16) :
    bytes (n := 2) order (pgHton16 order x) = bytes (n := 2) .big x := by
  cases order with
  | big => rfl
  | little => exact reverses_pgBswap16.bytes_little_eq x

theorem bytes_pgHton32 (order : ByteOrder) (x : BitVec 32) :
    bytes (n := 4) order (pgHton32 order x) = bytes (n := 4) .big x := by
  cases order with
  | big => rfl
  | little => exact reverses_pgBswap32.bytes_little_eq x

theorem bytes_pgHton64 (order : ByteOrder) (x : BitVec 64) :
    bytes (n := 8) order (pgHton64 order x) = bytes (n := 8) .big x := by
  cases order with
  | big => rfl
  | little => exact reverses_pgBswap64.bytes_little_eq x

/-! ## Comparing keys as words -/

/-- **The highest byte of the result is the first one in memory.** -/
theorem bytes_datumBigEndianToNative (order : ByteOrder) {size : SizeofDatum} (x : Datum size) :
    bytes .big (datumBigEndianToNative order x) = bytes order x := by
  cases size with
  | four =>
    cases order with
    | big => rfl
    | little => exact reverses_pgBswap32 x
  | eight =>
    cases order with
    | big => rfl
    | little => exact reverses_pgBswap64 x

theorem datumBigEndianToNative_involutive (order : ByteOrder) (size : SizeofDatum) :
    Function.Involutive (datumBigEndianToNative order : Datum size → Datum size) := by
  cases order with
  | big => cases size <;> exact fun _ => rfl
  | little =>
    cases size with
    | four => exact reverses_pgBswap32.involutive
    | eight => exact reverses_pgBswap64.involutive

/-- **Comparing the words is comparing the strings**, for strings as long as a `Datum`. -/
theorem compare_datumBigEndianToNative (order : ByteOrder) {size : SizeofDatum}
    {s t : List (BitVec 8)} (hs : s.length = size.bytes) (ht : t.length = size.bytes) :
    compare (datumBigEndianToNative order (load order size.bytes s)).toNat
      (datumBigEndianToNative order (load order size.bytes t)).toNat = memcmp s t := by
  unfold memcmp
  rw [← lexCompare_bytes_big, bytes_datumBigEndianToNative, bytes_datumBigEndianToNative,
    bytes_load order hs, bytes_load order ht]

/-- **A `Datum` that holds the first bytes of a key** may be compared, after
`DatumBigEndianToNative`, instead of the bytes: on machines of either byte order, with a
`Datum` of either size. The conversion loses nothing, and the portable swaps reverse the
bytes of every word. -/
theorem datumBigEndianToNative_correct :
    (∀ (order : ByteOrder) (size : SizeofDatum) (s t : List (BitVec 8)),
      s.length = size.bytes → t.length = size.bytes →
      compare (datumBigEndianToNative order (load order size.bytes s)).toNat
        (datumBigEndianToNative order (load order size.bytes t)).toNat = memcmp s t) ∧
    (∀ (order : ByteOrder) (size : SizeofDatum),
      Function.Bijective (datumBigEndianToNative order : Datum size → Datum size) ∧
      Function.Involutive (datumBigEndianToNative order : Datum size → Datum size)) ∧
    (∀ (order : ByteOrder) (x : BitVec 16),
      bytes (n := 2) order (pgBswap16 x) = (bytes (n := 2) order x).reverse) ∧
    (∀ (order : ByteOrder) (x : BitVec 32),
      bytes (n := 4) order (pgBswap32 x) = (bytes (n := 4) order x).reverse) ∧
    ∀ (order : ByteOrder) (x : BitVec 64),
      bytes (n := 8) order (pgBswap64 x) = (bytes (n := 8) order x).reverse := by
  refine ⟨fun order size s t hs ht => compare_datumBigEndianToNative order hs ht,
    fun order size => ?_, reverses_pgBswap16.bytes_eq, reverses_pgBswap32.bytes_eq,
    reverses_pgBswap64.bytes_eq⟩
  have hinv := datumBigEndianToNative_involutive order size
  exact ⟨hinv.bijective, hinv⟩

end PgBswap
