import PgCitus.Tupmacs

/-!
# Arrays as they are stored

A flat array of `utils/array.h`: a header, the dimensions and their lower bounds, a bitmap
of the elements that are not null, and the data. `FlatArray` is what the storage rules at
the head of that file leave open: how far the data is from its beginning, as long as that
is `MAXALIGN`ed, what is in the padding, and the bits of the bitmap after the last element.

A pointer is an address together with the memory from there on, as far as it may be read.
A `Datum` passed by reference is such a pointer.
-/

namespace PgArray

open Tupmacs

/-! ## Pointers and words -/

/-- A `char *`: an address, and the memory from there on. -/
structure CharPtr where
  addr : ℕ
  mem : Ptr

/-- Adding to a pointer. -/
def CharPtr.add (p : CharPtr) (k : ℕ) : CharPtr := ⟨p.addr + k, p.mem.drop k⟩

/-- The pointer to an address further on. -/
def CharPtr.moveTo (p : CharPtr) (addr : ℕ) : CharPtr := p.add (addr - p.addr)

/-- The little-endian word of `n` bytes at a pointer. -/
def readWord : (n : ℕ) → Ptr → Option (BitVec (8 * n))
  | 0, _ => some 0#0
  | _ + 1, [] => none
  | n + 1, b :: ptr => (readWord n ptr).map fun w => w ++ b

/-- **A word that was stored is read back**, as far as it has been stored. -/
theorem readWord_wordBytes (n : ℕ) {w : ℕ} (v : BitVec w) (rest : Ptr) :
    readWord n (wordBytes n v ++ rest) = some (v.setWidth (8 * n)) := by
  induction n generalizing w with
  | zero =>
    exact congrArg some (BitVec.eq_of_getLsbD_eq fun j hj => absurd hj (Nat.not_lt_zero j))
  | succ n ih =>
    have htail : ((List.range n).map fun i => v.extractLsb' (8 * (i + 1)) 8) =
        wordBytes n (v >>> 8) := by
      refine List.map_congr_left fun i _ => ?_
      ext j hj
      rw [BitVec.getElem_extractLsb', BitVec.getElem_extractLsb', BitVec.getLsbD_ushiftRight]
      congr 1
      omega
    rw [wordBytes_head, htail, List.cons_append, readWord, ih, Option.map_some]
    congr 1
    refine BitVec.eq_of_getLsbD_eq fun j hj => ?_
    have hj : j < 8 * n + 8 := hj
    rw [BitVec.getLsbD_append, BitVec.getLsbD_setWidth, BitVec.getLsbD_extractLsb',
      BitVec.getLsbD_setWidth, BitVec.getLsbD_ushiftRight, Nat.zero_add,
      show decide (j < 8 * (n + 1)) = true from decide_eq_true hj, Bool.true_and]
    split_ifs with h8
    · rw [decide_eq_true h8, Bool.true_and]
    · rw [decide_eq_true (show j - 8 < 8 * n by omega), Bool.true_and,
        Nat.add_sub_cancel' (Nat.le_of_not_lt h8)]

/-! ## The macros of `array.h` -/

/-- `MAXDIM`. -/
def maxdim : ℕ := 6

/-- `sizeof(ArrayType)`. -/
def sizeofArrayType : ℕ := 16

/-- `MAXALIGN`. -/
def maxalign (len : ℕ) : ℕ := typealign 8 len

/-- `ARR_NDIM`. -/
def arrNdim (a : CharPtr) : Option (BitVec 32) := readWord 4 (a.add 4).mem

/-- The field `dataoffset`. -/
def arrDataoffset (a : CharPtr) : Option (BitVec 32) := readWord 4 (a.add 8).mem

/-- `ARR_HASNULL`. -/
def arrHasnull (a : CharPtr) : Option Bool := (arrDataoffset a).map fun off => off != 0

/-- `ARR_NULLBITMAP`: a pointer or `NULL`. -/
def arrNullbitmap (a : CharPtr) : Option (Option CharPtr) := do
  if ← arrHasnull a then
    let ndim ← arrNdim a
    return some (a.add (sizeofArrayType + 2 * 4 * ndim.toNat))
  else return none

/-- `ARR_OVERHEAD_NONULLS`. -/
def arrOverheadNonulls (ndims : ℕ) : ℕ := maxalign (sizeofArrayType + 2 * 4 * ndims)

/-- `ARR_DATA_OFFSET`. -/
def arrDataOffset (a : CharPtr) : Option ℕ := do
  if ← arrHasnull a then
    let off ← arrDataoffset a
    return off.toNat
  else
    let ndim ← arrNdim a
    return arrOverheadNonulls ndim.toNat

/-- `ARR_DATA_PTR`. -/
def arrDataPtr (a : CharPtr) : Option CharPtr := (arrDataOffset a).map a.add

/-! ## Elements -/

/-- What is known of the type of the elements. -/
structure ElementType where
  elmlen : ℤ
  elmbyval : Bool
  elmalign : TypAlign

/-- Whether values of the kind are passed by value. -/
def attbyval : Value → Bool
  | .byVal _ _ _ => true
  | _ => false

/-- **A value of the type.** -/
def ElementType.Has (T : ElementType) (v : Value) : Prop :=
  v.attlen = T.elmlen ∧ attbyval v = T.elmbyval

/-- The alignment in bytes. -/
def alignval : TypAlign → ℕ
  | .char => 1
  | .short => 2
  | .int => 4
  | .double => 8

/-- **Elements packed one after the other**, from an offset on: each that is not null is
followed by padding up to the alignment of the type. -/
inductive Packed (elmalign : TypAlign) : ℕ → List (Option Value) → Ptr → Prop where
  | nil {off : ℕ} : Packed elmalign off [] []
  | null {off : ℕ} {elements : List (Option Value)} {data : Ptr}
      (h : Packed elmalign off elements data) : Packed elmalign off (none :: elements) data
  | value {off : ℕ} {elements : List (Option Value)} {data : Ptr} (v : Value) (pad : Ptr)
      (hpad : off + v.bytes.length + pad.length =
        attAlignNominal (off + v.bytes.length) elmalign)
      (h : Packed elmalign (off + v.bytes.length + pad.length) elements data) :
      Packed elmalign off (some v :: elements) (v.bytes ++ (pad ++ data))

/-! ## Flat arrays -/

/-- The parts of an array that are stored. -/
structure ArrayParts where
  dims : List (BitVec 32)
  lbounds : List (BitVec 32)
  elemtype : BitVec 32
  /-- The bitmap, if there is one. -/
  nullbitmap : Option Ptr
  /-- The padding before the data. -/
  pad : Ptr
  data : Ptr

/-- The offset of the data. -/
def ArrayParts.offset (A : ArrayParts) : ℕ :=
  sizeofArrayType + 2 * 4 * A.dims.length + (A.nullbitmap.getD []).length + A.pad.length

/-- The size of the array. -/
def ArrayParts.size (A : ArrayParts) : ℕ := A.offset + A.data.length

/-- **The bytes of an array**, as the comment at the head of `array.h` lists them. -/
def ArrayParts.bytes (A : ArrayParts) : Ptr :=
  wordBytes 4 (setVarsize4b A.size) ++
  (wordBytes 4 (BitVec.ofNat 32 A.dims.length) ++
  (wordBytes 4 (if A.nullbitmap.isSome then BitVec.ofNat 32 A.offset else 0) ++
  (wordBytes 4 A.elemtype ++
  (A.dims.flatMap (wordBytes 4) ++ A.lbounds.flatMap (wordBytes 4) ++
  (A.nullbitmap.getD [] ++ (A.pad ++ A.data))))))

/-- **An array laid out by the storage rules**, with elements of a type. -/
structure FlatArray (T : ElementType) extends ArrayParts where
  elements : List (Option Value)
  typed : ∀ v, some v ∈ elements → T.Has v
  ndim_le : dims.length ≤ maxdim
  lbounds_length : lbounds.length = dims.length
  /-- The bitmap has a bit for each element. -/
  bitmap_length : ∀ bits, nullbitmap = some bits → bits.length = (elements.length + 7) / 8
  /-- A one stands for an element that is not null, and the lowest bit comes first. -/
  bitmap_bit : ∀ bits, nullbitmap = some bits → ∀ i e, elements[i]? = some e →
    ∃ b, bits[i / 8]? = some b ∧ b.getLsbD (i % 8) = e.isSome
  /-- It may be omitted if no element is null. -/
  no_bitmap : nullbitmap = none → none ∉ elements
  /-- The data starts at a `MAXALIGN`ed offset. -/
  offset_aligned : 8 ∣ toArrayParts.offset
  /-- Where no offset is stored, it is computed. -/
  offset_eq : nullbitmap = none → toArrayParts.offset = arrOverheadNonulls dims.length
  packed : Packed T.elmalign toArrayParts.offset elements data
  /-- The length fits the header. -/
  size_lt : toArrayParts.size < 2 ^ 30

/-! ## What the macros find -/

variable {T : ElementType} (A : FlatArray T) (addr : ℕ) (rest : Ptr)

/-- A pointer to the array, in a memory that goes on behind it. -/
def FlatArray.ptr : CharPtr := ⟨addr, A.bytes ++ rest⟩

theorem readWord_wordBytes_four (v : BitVec 32) (rest : Ptr) :
    readWord 4 (wordBytes 4 v ++ rest) = some v := by
  rw [readWord_wordBytes]
  exact congrArg some (BitVec.setWidth_eq v)

theorem drop_wordBytes_four (v : BitVec 32) (k : ℕ) (rest : Ptr) :
    (wordBytes 4 v ++ rest).drop (4 + k) = rest.drop k := by
  rw [← List.drop_drop, List.drop_left' (wordBytes_length 4 v)]

theorem flatMap_wordBytes_length (l : List (BitVec 32)) :
    (l.flatMap (wordBytes 4)).length = 4 * l.length := by
  induction l with
  | nil => rfl
  | cons v l ih =>
    rw [List.flatMap_cons, List.length_append, ih, wordBytes_length, List.length_cons]
    omega

theorem arrNdim_ptr : arrNdim (A.ptr addr rest) = some (BitVec.ofNat 32 A.dims.length) := by
  show readWord 4 ((A.bytes ++ rest).drop (4 + 0)) = _
  rw [ArrayParts.bytes, List.append_assoc, drop_wordBytes_four, List.drop_zero,
    List.append_assoc, readWord_wordBytes_four]

theorem arrDataoffset_ptr : arrDataoffset (A.ptr addr rest) =
    some (if A.nullbitmap.isSome then BitVec.ofNat 32 A.offset else 0) := by
  show readWord 4 ((A.bytes ++ rest).drop (4 + (4 + 0))) = _
  rw [ArrayParts.bytes, List.append_assoc, drop_wordBytes_four, List.append_assoc,
    drop_wordBytes_four, List.drop_zero, List.append_assoc, readWord_wordBytes_four]

/-- What comes after the dimensions. -/
theorem drop_dims : (A.bytes ++ rest).drop (sizeofArrayType + 2 * 4 * A.dims.length) =
    A.nullbitmap.getD [] ++ (A.pad ++ (A.data ++ rest)) := by
  have hdims : (A.dims.flatMap (wordBytes 4) ++ A.lbounds.flatMap (wordBytes 4)).length =
      2 * 4 * A.dims.length := by
    rw [List.length_append, flatMap_wordBytes_length, flatMap_wordBytes_length,
      A.lbounds_length]
    omega
  have hsize : sizeofArrayType + 2 * 4 * A.dims.length =
      4 + (4 + (4 + (4 + 2 * 4 * A.dims.length))) := by
    rw [sizeofArrayType]
    omega
  rw [hsize, ArrayParts.bytes]
  simp only [List.append_assoc, drop_wordBytes_four]
  rw [← List.append_assoc (A.dims.flatMap _), List.drop_left' hdims]

/-- And after the padding. -/
theorem drop_offset : (A.bytes ++ rest).drop A.offset = A.data ++ rest := by
  have hoffset : A.offset = sizeofArrayType + 2 * 4 * A.dims.length +
      ((A.nullbitmap.getD []).length + A.pad.length) := by
    rw [ArrayParts.offset, Nat.add_assoc]
  rw [hoffset, ← List.drop_drop, drop_dims, ← List.append_assoc, List.drop_left' (by
    rw [List.length_append])]

end PgArray
