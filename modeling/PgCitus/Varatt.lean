import Mathlib.Tactic.IntervalCases
import PgCitus.Library.BitField
import PgCitus.Library.WordMemory
import PgCitus.Tupmacs

/-!
# Headers of variable-length values

The macros of `postgres.h` that write and read the header of a `varlena`, for both byte
orders, and those that pack a size and a compression method into `va_extinfo` and
`va_tcinfo`. A header is one or four bytes long and says in its first byte which of the
two; two bits of the four-byte header and one of the other tell the kinds of values
apart, and the rest is the length.

The two byte orders put the bits in different places: the flags are always in the byte
that comes first, which on a big-endian machine holds the high end of the length word.
The length is masked there, and shifted otherwise.
-/

namespace Varatt

open WordMemory BitField
open Tupmacs (vartagSize varhdrszExternal vartagOndisk)

variable (order : ByteOrder) (m : Mem) (ptr : ℕ)

/-! ## The endian-dependent macros -/

/-- `VARATT_IS_4B_U`. -/
def varattIs4bU : Bool :=
  match order with
  | .big => m ptr &&& 0xC0#8 == 0x00#8
  | .little => m ptr &&& 0x03#8 == 0x00#8

/-- `VARATT_IS_4B_C`. -/
def varattIs4bC : Bool :=
  match order with
  | .big => m ptr &&& 0xC0#8 == 0x40#8
  | .little => m ptr &&& 0x03#8 == 0x02#8

/-- `VARATT_IS_1B`. -/
def varattIs1b : Bool :=
  match order with
  | .big => m ptr &&& 0x80#8 == 0x80#8
  | .little => m ptr &&& 0x01#8 == 0x01#8

/-- `VARATT_IS_1B_E`. -/
def varattIs1bE : Bool :=
  match order with
  | .big => m ptr == 0x80#8
  | .little => m ptr == 0x01#8

/-- `VARSIZE_4B`. -/
def varsize4b : ℕ :=
  match order with
  | .big => (load32 .big m ptr &&& 0x3FFFFFFF#32).toNat
  | .little => ((load32 .little m ptr >>> 2) &&& 0x3FFFFFFF#32).toNat

/-- `VARSIZE_1B`. -/
def varsize1b : ℕ :=
  match order with
  | .big => (m ptr &&& 0x7F#8).toNat
  | .little => ((m ptr >>> 1) &&& 0x7F#8).toNat

/-- `VARTAG_1B_E`. -/
def vartag1bE : BitVec 8 := m (ptr + 1)

/-- `SET_VARSIZE_4B`. -/
def setVarsize4b (len : ℕ) : Mem :=
  store32 order m ptr
    (match order with
    | .big => BitVec.ofNat 32 len &&& 0x3FFFFFFF#32
    | .little => BitVec.ofNat 32 len <<< 2)

/-- `SET_VARSIZE_4B_C`. -/
def setVarsize4bC (len : ℕ) : Mem :=
  store32 order m ptr
    (match order with
    | .big => (BitVec.ofNat 32 len &&& 0x3FFFFFFF#32) ||| 0x40000000#32
    | .little => (BitVec.ofNat 32 len <<< 2) ||| 0x02#32)

/-- `SET_VARSIZE_1B`. -/
def setVarsize1b (len : ℕ) : Mem :=
  Function.update m ptr
    (match order with
    | .big => BitVec.ofNat 8 len ||| 0x80#8
    | .little => (BitVec.ofNat 8 len <<< 1) ||| 0x01#8)

/-- `SET_VARTAG_1B_E`. -/
def setVartag1bE (tag : BitVec 8) : Mem :=
  Function.update
    (Function.update m ptr
      (match order with
      | .big => 0x80#8
      | .little => 0x01#8))
    (ptr + 1) tag

/-! ## The externally visible macros -/

/-- `VARSIZE`. -/
def varsize : ℕ := varsize4b order m ptr
/-- `VARSIZE_SHORT`. -/
def varsizeShort : ℕ := varsize1b order m ptr
/-- `VARTAG_EXTERNAL`. -/
def vartagExternal : BitVec 8 := vartag1bE m ptr

/-- `VARSIZE_EXTERNAL`. -/
def varsizeExternal : Option ℕ :=
  (vartagSize (vartagExternal m ptr)).map fun size => varhdrszExternal + size

/-- `VARATT_IS_COMPRESSED`. -/
def varattIsCompressed : Bool := varattIs4bC order m ptr
/-- `VARATT_IS_EXTERNAL`. -/
def varattIsExternal : Bool := varattIs1bE order m ptr
/-- `VARATT_IS_SHORT`. -/
def varattIsShort : Bool := varattIs1b order m ptr
/-- `VARATT_IS_EXTENDED`. -/
def varattIsExtended : Bool := !varattIs4bU order m ptr

/-- `SET_VARSIZE`. -/
def setVarsize (len : ℕ) : Mem := setVarsize4b order m ptr len
/-- `SET_VARSIZE_SHORT`. -/
def setVarsizeShort (len : ℕ) : Mem := setVarsize1b order m ptr len
/-- `SET_VARSIZE_COMPRESSED`. -/
def setVarsizeCompressed (len : ℕ) : Mem := setVarsize4bC order m ptr len
/-- `SET_VARTAG_EXTERNAL`. -/
def setVartagExternal (tag : BitVec 8) : Mem := setVartag1bE order m ptr tag

/-- `VARSIZE_ANY`. -/
def varsizeAny : Option ℕ :=
  if varattIs1bE order m ptr then varsizeExternal m ptr
  else if varattIs1b order m ptr then some (varsize1b order m ptr)
  else some (varsize4b order m ptr)

/-! ## Size and compression method -/

/-- `VARLENA_EXTSIZE_BITS`. -/
def varlenaExtsizeBits : ℕ := 30

/-- `VARLENA_EXTSIZE_MASK`. -/
def varlenaExtsizeMask : BitVec 32 := (1#32 <<< varlenaExtsizeBits) - 1#32

/-- `TOAST_PGLZ_COMPRESSION_ID`. -/
def toastPglzCompressionId : ℕ := 0
/-- `TOAST_LZ4_COMPRESSION_ID`. -/
def toastLz4CompressionId : ℕ := 1

/-- The word that packs a size and a method. -/
def packInfo (len cm : ℕ) : BitVec 32 :=
  BitVec.ofNat 32 len ||| (BitVec.ofNat 32 cm <<< varlenaExtsizeBits)

/-- `struct varatt_external`. -/
structure VarattExternal where
  vaRawsize : BitVec 32
  vaExtinfo : BitVec 32
  vaValueid : BitVec 32
  vaToastrelid : BitVec 32
deriving DecidableEq, Repr

/-- `VARATT_EXTERNAL_GET_EXTSIZE`. -/
def varattExternalGetExtsize (toastPointer : VarattExternal) : ℕ :=
  (toastPointer.vaExtinfo &&& varlenaExtsizeMask).toNat

/-- `VARATT_EXTERNAL_GET_COMPRESS_METHOD`. -/
def varattExternalGetCompressMethod (toastPointer : VarattExternal) : ℕ :=
  (toastPointer.vaExtinfo >>> varlenaExtsizeBits).toNat

/-- `VARATT_EXTERNAL_SET_SIZE_AND_COMPRESS_METHOD`. -/
def varattExternalSetSizeAndCompressMethod (toastPointer : VarattExternal) (len cm : ℕ) :
    Option VarattExternal :=
  if cm = toastPglzCompressionId ∨ cm = toastLz4CompressionId then
    some { toastPointer with vaExtinfo := packInfo len cm }
  else none

/-- `VARDATA_COMPRESSED_GET_EXTSIZE`. -/
def vardataCompressedGetExtsize : ℕ := (load32 order m (ptr + 4) &&& varlenaExtsizeMask).toNat

/-- `VARDATA_COMPRESSED_GET_COMPRESS_METHOD`. -/
def vardataCompressedGetCompressMethod : ℕ :=
  (load32 order m (ptr + 4) >>> varlenaExtsizeBits).toNat

/-- `TOAST_COMPRESS_SET_SIZE_AND_COMPRESS_METHOD`. -/
def toastCompressSetSizeAndCompressMethod (len cmMethod : ℕ) : Option Mem :=
  if 0 < len ∧ len ≤ varlenaExtsizeMask.toNat then
    if cmMethod = toastPglzCompressionId ∨ cmMethod = toastLz4CompressionId then
      some (store32 order m (ptr + 4) (packInfo len cmMethod))
    else none
  else none

/-! ## What is written

A header, with what the macro that writes it is called with. -/

/-- The classes of values. -/
inductive VarattClass where
  | uncompressed
  | compressed
  | short
  | external
deriving DecidableEq, Repr

/-- **A header**: one of the four macros, and a length that it can hold. -/
inductive Header where
  /-- `SET_VARSIZE`. -/
  | uncompressed (len : ℕ) (hlen : 4 ≤ len ∧ len < 2 ^ 30)
  /-- `SET_VARSIZE_COMPRESSED`. -/
  | compressed (len : ℕ) (hlen : 4 ≤ len ∧ len < 2 ^ 30)
  /-- `SET_VARSIZE_SHORT`. -/
  | short (len : ℕ) (hlen : 1 ≤ len ∧ len ≤ 127)
  /-- `SET_VARTAG_EXTERNAL`. -/
  | external (tag : BitVec 8) (size : ℕ) (hsize : vartagSize tag = some size)

/-- The class of the value. -/
def Header.class : Header → VarattClass
  | .uncompressed _ _ => .uncompressed
  | .compressed _ _ => .compressed
  | .short _ _ => .short
  | .external _ _ _ => .external

/-- The length of the value, its header included. -/
def Header.size : Header → ℕ
  | .uncompressed len _ | .compressed len _ | .short len _ => len
  | .external _ size _ => varhdrszExternal + size

/-- The memory after the header is written. -/
def Header.write : Header → Mem
  | .uncompressed len _ => setVarsize order m ptr len
  | .compressed len _ => setVarsizeCompressed order m ptr len
  | .short len _ => setVarsizeShort order m ptr len
  | .external tag _ _ => setVartagExternal order m ptr tag

/-- The macro that recognises a class. -/
def isOfClass : VarattClass → Bool
  | .uncompressed => varattIs4bU order m ptr
  | .compressed => varattIs4bC order m ptr
  | .short => varattIs1b order m ptr
  | .external => varattIs1bE order m ptr

/-- The class recognised, where external values are looked for before short ones, as the
comment on the macros asks for. -/
def recognises : VarattClass → Bool
  | .short => varattIs1b order m ptr && !varattIs1bE order m ptr
  | c => isOfClass order m ptr c

/-- The macro that reads the length of the values of a class. -/
def sizeOfClass : VarattClass → Option ℕ
  | .uncompressed | .compressed => some (varsize order m ptr)
  | .short => some (varsizeShort order m ptr)
  | .external => varsizeExternal m ptr

/-! ## The first byte decides -/

/-- The bit layouts, as the comment in the source lists them. -/
def classOfByte (b : BitVec 8) : VarattClass :=
  match order with
  | .big =>
    if b &&& 0xC0#8 = 0x00#8 then .uncompressed
    else if b &&& 0xC0#8 = 0x40#8 then .compressed
    else if b = 0x80#8 then .external
    else .short
  | .little =>
    if b &&& 0x03#8 = 0x00#8 then .uncompressed
    else if b &&& 0x03#8 = 0x02#8 then .compressed
    else if b = 0x01#8 then .external
    else .short

variable {order m ptr}

/-- What the macro of a class says by itself: `VARATT_IS_1B` holds of external values
too. -/
theorem isOfClass_eq (c : VarattClass) :
    isOfClass order m ptr c = decide (c = classOfByte order (m ptr) ∨
      c = .short ∧ classOfByte order (m ptr) = .external) := by
  cases order <;> cases c <;>
    simp only [isOfClass, varattIs4bU, varattIs4bC, varattIs1b, varattIs1bE, classOfByte] <;>
    generalize m ptr = b <;> revert b <;> decide

/-- **Exactly one class is recognised**, whatever the first byte is. -/
theorem recognises_eq (c : VarattClass) :
    recognises order m ptr c = decide (c = classOfByte order (m ptr)) := by
  cases c with
  | short =>
    show (isOfClass order m ptr .short && !isOfClass order m ptr .external) = _
    rw [isOfClass_eq, isOfClass_eq]
    cases classOfByte order (m ptr) <;> rfl
  | uncompressed =>
    refine (isOfClass_eq .uncompressed).trans (decide_eq_decide.mpr (or_iff_left ?_))
    exact fun h => nomatch h.1
  | compressed =>
    refine (isOfClass_eq .compressed).trans (decide_eq_decide.mpr (or_iff_left ?_))
    exact fun h => nomatch h.1
  | external =>
    refine (isOfClass_eq .external).trans (decide_eq_decide.mpr (or_iff_left ?_))
    exact fun h => nomatch h.1

/-! ## The length -/

/-- A length below the mask is not changed by it. -/
theorem toNat_ofNat_and_mask {len : ℕ} (h : len < 2 ^ 30) :
    (BitVec.ofNat 32 len &&& 0x3FFFFFFF#32).toNat = len := by
  rw [BitVec.toNat_and, BitVec.toNat_ofNat, Nat.mod_eq_of_lt (by omega)]
  show len &&& 2 ^ 30 - 1 = len
  rw [Nat.and_two_pow_sub_one_eq_mod, Nat.mod_eq_of_lt h]

/-- The two shifts of a little-endian length cancel, below the mask. -/
theorem shiftLeft_ushiftRight_and_mask (v : BitVec 32) :
    ((v <<< 2) >>> 2) &&& 0x3FFFFFFF#32 = v &&& 0x3FFFFFFF#32 := by
  ext i hi
  simp only [BitVec.getElem_and, BitVec.getElem_ushiftRight, BitVec.getLsbD_shiftLeft]
  by_cases h30 : i < 30
  · rw [decide_eq_true (show 2 + i < 32 by omega),
      decide_eq_false (show ¬ 2 + i < 2 by omega), Nat.add_sub_cancel_left,
      BitVec.getLsbD_eq_getElem hi]
    simp only [Bool.true_and, Bool.not_false]
  · have hmask : (0x3FFFFFFF#32)[i] = false := by
      interval_cases i <;> first | omega | simp
    rw [hmask, Bool.and_false, Bool.and_false]

theorem varsize4b_setVarsize4b {len : ℕ} (h : len < 2 ^ 30) :
    varsize4b order (setVarsize4b order m ptr len) ptr = len := by
  cases order with
  | big =>
    show (load32 _ (store32 _ m ptr _) ptr &&& _).toNat = len
    rw [load32_store32, BitVec.and_assoc, BitVec.and_self]
    exact toNat_ofNat_and_mask h
  | little =>
    show ((load32 _ (store32 _ m ptr _) ptr >>> 2) &&& _).toNat = len
    rw [load32_store32, shiftLeft_ushiftRight_and_mask]
    exact toNat_ofNat_and_mask h

/-- The flag of compressed values does not show in the length. -/
theorem varsize4b_setVarsize4bC {len : ℕ} (h : len < 2 ^ 30) :
    varsize4b order (setVarsize4bC order m ptr len) ptr = len := by
  cases order with
  | big =>
    have hwithin : Within 0x3FFFFFFF#32 (BitVec.ofNat 32 len &&& 0x3FFFFFFF#32) := by
      show _ &&& _ &&& _ = _
      rw [BitVec.and_assoc, BitVec.and_self]
    show (load32 _ (store32 _ m ptr _) ptr &&& _).toNat = len
    rw [load32_store32, read_left hwithin (show Within 0x40000000#32 _ by decide) (by decide)]
    exact toNat_ofNat_and_mask h
  | little =>
    show ((load32 _ (store32 _ m ptr _) ptr >>> 2) &&& _).toNat = len
    rw [load32_store32, BitVec.ushiftRight_or_distrib, show 0x02#32 >>> 2 = 0#32 by rfl,
      BitVec.or_zero, shiftLeft_ushiftRight_and_mask]
    exact toNat_ofNat_and_mask h

/-- Short lengths fill the seven bits beside their flag. -/
theorem varsize1b_setVarsize1b {len : ℕ} (h : len < 128) :
    varsize1b order (setVarsize1b order m ptr len) ptr = len := by
  cases order <;>
    simp only [varsize1b, setVarsize1b, Function.update_self] <;>
    revert len <;> decide

/-! ## Each header has its class -/

variable (order) in
/-- The flag bits of a length word. -/
def flagMask : BitVec 32 :=
  match order with
  | .big => 0xC0000000#32
  | .little => 0x03#32

variable (order) in
/-- The flag of compressed values. -/
def compressedFlag : BitVec 32 :=
  match order with
  | .big => 0x40000000#32
  | .little => 0x02#32

variable (order) in
/-- The length, where a length word has it. -/
def lengthField (len : ℕ) : BitVec 32 :=
  match order with
  | .big => BitVec.ofNat 32 len &&& 0x3FFFFFFF#32
  | .little => BitVec.ofNat 32 len <<< 2

theorem setVarsize4b_eq (len : ℕ) :
    setVarsize4b order m ptr len = store32 order m ptr (lengthField order len) := by
  cases order <;> rfl

theorem setVarsize4bC_eq (len : ℕ) :
    setVarsize4bC order m ptr len
      = store32 order m ptr (lengthField order len ||| compressedFlag order) := by
  cases order <;> rfl

/-- A length keeps off the flags. -/
theorem lengthField_and_flagMask (len : ℕ) : lengthField order len &&& flagMask order = 0#32 := by
  cases order with
  | big =>
    show BitVec.ofNat 32 len &&& _ &&& _ = _
    rw [BitVec.and_assoc, show 0x3FFFFFFF#32 &&& flagMask .big = 0#32 by decide, BitVec.and_zero]
  | little =>
    show BitVec.ofNat 32 len <<< 2 &&& 0x03#32 = 0#32
    ext i hi
    rw [BitVec.getElem_and, BitVec.getElem_shiftLeft]
    by_cases h2 : i < 2
    · simp [h2]
    · have hmask : (0x03#32)[i] = false := by
        interval_cases i <;> first | omega | simp
      rw [hmask, Bool.and_false, BitVec.getElem_zero]

theorem lengthField_or_and_flagMask (len : ℕ) :
    (lengthField order len ||| compressedFlag order) &&& flagMask order = compressedFlag order := by
  rw [BitVec.and_or_distrib_right, lengthField_and_flagMask, BitVec.zero_or]
  cases order <;> decide

/-- **The flags of a length word are in the byte that comes first.** -/
theorem classOfByte_store32 {w : BitVec 32} :
    (w &&& flagMask order = 0#32 →
        classOfByte order (store32 order m ptr w ptr) = .uncompressed) ∧
      (w &&& flagMask order = compressedFlag order →
        classOfByte order (store32 order m ptr w ptr) = .compressed) := by
  rw [store32_self]
  cases order with
  | big =>
    have hbyte : w.extractLsb' 24 8 &&& 0xC0#8 = (w &&& flagMask .big).extractLsb' 24 8 := by
      rw [BitVec.extractLsb'_and]
      rfl
    refine ⟨fun h => ?_, fun h => ?_⟩ <;> rw [h] at hbyte
    · exact if_pos hbyte
    · exact (if_neg (by rw [byteOf, hbyte]; decide)).trans (if_pos hbyte)
  | little =>
    have hbyte : w.extractLsb' 0 8 &&& 0x03#8 = (w &&& flagMask .little).extractLsb' 0 8 := by
      rw [BitVec.extractLsb'_and]
      rfl
    refine ⟨fun h => ?_, fun h => ?_⟩ <;> rw [h] at hbyte
    · exact if_pos hbyte
    · exact (if_neg (by rw [byteOf, hbyte]; decide)).trans (if_pos hbyte)

/-- A short length is not zero, so that its header is not the one of external values. -/
theorem classOfByte_setVarsize1b {len : ℕ} (h : 1 ≤ len ∧ len ≤ 127) :
    classOfByte order (setVarsize1b order m ptr len ptr) = .short := by
  obtain ⟨hpos, hlen⟩ := h
  have hlt : len < 128 := Nat.lt_succ_of_le hlen
  cases order <;>
    simp only [setVarsize1b, Function.update_self] <;>
    revert len <;> decide

theorem classOfByte_setVartag1bE (tag : BitVec 8) :
    classOfByte order (setVartag1bE order m ptr tag ptr) = .external := by
  unfold setVartag1bE
  rw [Function.update_of_ne (Nat.ne_of_lt (Nat.lt_succ_self ptr)), Function.update_self]
  cases order <;> rfl

/-- **Each macro writes a header of its class.** -/
theorem classOfByte_write (hd : Header) :
    classOfByte order (hd.write order m ptr ptr) = hd.class := by
  cases hd with
  | uncompressed len hlen =>
    show classOfByte order (setVarsize4b order m ptr len ptr) = _
    rw [setVarsize4b_eq]
    exact classOfByte_store32.1 (lengthField_and_flagMask len)
  | compressed len hlen =>
    show classOfByte order (setVarsize4bC order m ptr len ptr) = _
    rw [setVarsize4bC_eq]
    exact classOfByte_store32.2 (lengthField_or_and_flagMask len)
  | short len hlen => exact classOfByte_setVarsize1b hlen
  | external tag size hsize => exact classOfByte_setVartag1bE tag

/-- The macro for the length of its class reads the length that was written. -/
theorem sizeOfClass_write (hd : Header) :
    sizeOfClass order (hd.write order m ptr) ptr hd.class = some hd.size := by
  cases hd with
  | uncompressed len hlen => exact congrArg some (varsize4b_setVarsize4b hlen.2)
  | compressed len hlen => exact congrArg some (varsize4b_setVarsize4bC hlen.2)
  | short len hlen => exact congrArg some (varsize1b_setVarsize1b (Nat.lt_succ_of_le hlen.2))
  | external tag size hsize =>
    have htag : vartagExternal (setVartag1bE order m ptr tag) ptr = tag := by
      unfold vartagExternal vartag1bE setVartag1bE
      rw [Function.update_self]
    show varsizeExternal (setVartag1bE order m ptr tag) ptr = _
    rw [varsizeExternal, htag, hsize]
    rfl

/-- `VARSIZE_ANY` chooses the macro by the class recognised. -/
theorem varsizeAny_eq :
    varsizeAny order m ptr = sizeOfClass order m ptr (classOfByte order (m ptr)) := by
  have hE : varattIs1bE order m ptr = _ := isOfClass_eq .external
  have hS : varattIs1b order m ptr = _ := isOfClass_eq .short
  unfold varsizeAny
  rw [hE, hS]
  cases classOfByte order (m ptr) <;> simp [sizeOfClass, varsize, varsizeShort]

/-- Whatever is in the words after it, a header is written the same. -/
theorem write_store32_comm (hd : Header) (w : BitVec 32) :
    hd.write order (store32 order m (ptr + 4) w) ptr
      = store32 order (hd.write order m ptr) (ptr + 4) w := by
  cases hd with
  | uncompressed len hlen => exact store32_comm (Or.inl le_rfl)
  | compressed len hlen => exact store32_comm (Or.inl le_rfl)
  | short len hlen => exact update_store32_comm (Or.inl (by omega))
  | external tag size hsize =>
    show setVartag1bE _ _ _ _ = store32 _ (setVartag1bE _ _ _ _) _ _
    unfold setVartag1bE
    rw [update_store32_comm (Or.inl (by omega)), update_store32_comm (Or.inl (by omega))]

/-! ## Size and method side by side -/

/-- **What is packed is read back**, the size and the method. -/
theorem packInfo_read {len cm : ℕ} (hlen : len < 2 ^ 30) (hcm : cm < 4) :
    (packInfo len cm &&& varlenaExtsizeMask).toNat = len ∧
      (packInfo len cm >>> varlenaExtsizeBits).toNat = cm := by
  have hmask : varlenaExtsizeMask = 0x3FFFFFFF#32 := by decide
  have hlenNat : (BitVec.ofNat 32 len).toNat = len := by
    rw [BitVec.toNat_ofNat, Nat.mod_eq_of_lt (by omega)]
  have hwithin : Within 0x3FFFFFFF#32 (BitVec.ofNat 32 len) :=
    (within_low_iff (n := 30) rfl).2 (by rw [hlenNat]; exact hlen)
  have hmethod : Within 0xC0000000#32 (BitVec.ofNat 32 cm <<< varlenaExtsizeBits) := by
    revert cm
    decide
  constructor
  · rw [packInfo, hmask, read_left hwithin hmethod (by decide), hlenNat]
  · have hlow : BitVec.ofNat 32 len >>> varlenaExtsizeBits = 0#32 := by
      refine BitVec.eq_of_toNat_eq ?_
      rw [BitVec.toNat_ushiftRight, hlenNat, Nat.shiftRight_eq_div_pow]
      exact Nat.div_eq_of_lt hlen
    rw [packInfo, BitVec.ushiftRight_or_distrib, hlow, BitVec.zero_or]
    revert cm
    decide

/-! ## Reading back -/

variable (order m ptr) in
/-- **A header is read as what was written**: its class is recognised and no other one,
of the macros by themselves only `VARATT_IS_1B` says more, and the length is the one
written. -/
structure ReadsAs (hd : Header) : Prop where
  recognised : ∀ c, recognises order m ptr c = decide (c = hd.class)
  isOfClass : ∀ c,
    isOfClass order m ptr c = decide (c = hd.class ∨ c = .short ∧ hd.class = .external)
  isExtended : varattIsExtended order m ptr = decide (hd.class ≠ .uncompressed)
  isShort : varattIsShort order m ptr = decide (hd.class = .short ∨ hd.class = .external)
  isCompressed : varattIsCompressed order m ptr = decide (hd.class = .compressed)
  isExternal : varattIsExternal order m ptr = decide (hd.class = .external)
  size : sizeOfClass order m ptr hd.class = some hd.size
  sizeAny : varsizeAny order m ptr = some hd.size

theorem readsAs_write (hd : Header) : ReadsAs order (hd.write order m ptr) ptr hd := by
  have hbyte : classOfByte order (hd.write order m ptr ptr) = hd.class := classOfByte_write hd
  have hsize : sizeOfClass order (hd.write order m ptr) ptr hd.class = some hd.size :=
    sizeOfClass_write hd
  have hclass : ∀ c, isOfClass order (hd.write order m ptr) ptr c
      = decide (c = hd.class ∨ c = .short ∧ hd.class = .external) := fun c => by
    rw [isOfClass_eq, hbyte]
  refine ⟨fun c => ?_, hclass, ?_, ?_, ?_, ?_, hsize, ?_⟩
  · rw [recognises_eq, hbyte]
  · have h := hclass .uncompressed
    show (!isOfClass order _ ptr .uncompressed) = _
    rw [h]
    cases hd.class <;> rfl
  · have h := hclass .short
    show isOfClass order _ ptr .short = _
    rw [h]
    cases hd.class <;> rfl
  · have h := hclass .compressed
    show isOfClass order _ ptr .compressed = _
    rw [h]
    cases hd.class <;> rfl
  · have h := hclass .external
    show isOfClass order _ ptr .external = _
    rw [h]
    cases hd.class <;> rfl
  · rw [varsizeAny_eq, hbyte, hsize]

variable (order m ptr) in
/-- The second word of a compressed value is read as the size and the method packed. -/
structure InfoReadsAs (len cm : ℕ) : Prop where
  size : vardataCompressedGetExtsize order m ptr = len
  method : vardataCompressedGetCompressMethod order m ptr = cm

theorem infoReadsAs_store32 {len cm : ℕ} (hlen : len < 2 ^ 30) (hcm : cm < 4) :
    InfoReadsAs order (store32 order m (ptr + 4) (packInfo len cm)) ptr len cm := by
  constructor
  · rw [vardataCompressedGetExtsize, load32_store32]
    exact (packInfo_read hlen hcm).1
  · rw [vardataCompressedGetCompressMethod, load32_store32]
    exact (packInfo_read hlen hcm).2

theorem toastCompressSetSizeAndCompressMethod_eq {len cm : ℕ} (hpos : 0 < len)
    (hlen : len < 2 ^ 30) (hcm : cm = toastPglzCompressionId ∨ cm = toastLz4CompressionId) :
    toastCompressSetSizeAndCompressMethod order m ptr len cm
      = some (store32 order m (ptr + 4) (packInfo len cm)) := by
  have hmask : varlenaExtsizeMask.toNat = 2 ^ 30 - 1 := by decide
  unfold toastCompressSetSizeAndCompressMethod
  rw [if_pos ⟨hpos, by omega⟩, if_pos hcm]

/-- **Headers of values, and what is packed beside them.** For both byte orders and
whatever was in memory, a header is read as what was written. The size and the method
packed in `va_extinfo` are read back, with the other fields of the pointer as they were;
so are those in `va_tcinfo`, whether they are set before the header or after it, and the
header is read the same. -/
theorem headers_and_info_read_back (order : ByteOrder) (m : Mem) (ptr : ℕ) (hd : Header)
    (toastPointer : VarattExternal) {len cm : ℕ} (hlen : len < 2 ^ 30)
    (hcm : cm = toastPglzCompressionId ∨ cm = toastLz4CompressionId) :
    ReadsAs order (hd.write order m ptr) ptr hd ∧
      (∃ tp, varattExternalSetSizeAndCompressMethod toastPointer len cm = some tp ∧
        varattExternalGetExtsize tp = len ∧ varattExternalGetCompressMethod tp = cm ∧
        tp.vaRawsize = toastPointer.vaRawsize ∧ tp.vaValueid = toastPointer.vaValueid ∧
        tp.vaToastrelid = toastPointer.vaToastrelid) ∧
      (0 < len →
        (∃ m', toastCompressSetSizeAndCompressMethod order m ptr len cm = some m' ∧
          ReadsAs order (hd.write order m' ptr) ptr hd ∧
          InfoReadsAs order (hd.write order m' ptr) ptr len cm) ∧
        (∃ m', toastCompressSetSizeAndCompressMethod order (hd.write order m ptr) ptr len cm
            = some m' ∧ ReadsAs order m' ptr hd ∧ InfoReadsAs order m' ptr len cm)) := by
  have hfour : cm < 4 := by
    rcases hcm with rfl | rfl <;> decide
  refine ⟨readsAs_write hd, ?_, fun hpos => ⟨?_, ?_⟩⟩
  · exact ⟨_, if_pos hcm, (packInfo_read hlen hfour).1, (packInfo_read hlen hfour).2,
      rfl, rfl, rfl⟩
  · refine ⟨_, toastCompressSetSizeAndCompressMethod_eq hpos hlen hcm, readsAs_write hd, ?_⟩
    rw [write_store32_comm]
    exact infoReadsAs_store32 hlen hfour
  · refine ⟨_, toastCompressSetSizeAndCompressMethod_eq hpos hlen hcm, ?_,
      infoReadsAs_store32 hlen hfour⟩
    rw [← write_store32_comm]
    exact readsAs_write hd

/-- A compressed value of five hundred bytes, which were a thousand before `lz4`. -/
theorem headers_and_info_read_back_lz4 :
    ∃ m', toastCompressSetSizeAndCompressMethod .big
        ((Header.compressed 500 (by decide)).write .big (fun _ => 0) 0) 0 1000 1 = some m' ∧
      ReadsAs .big m' 0 (Header.compressed 500 (by decide)) ∧ InfoReadsAs .big m' 0 1000 1 :=
  ((headers_and_info_read_back .big (fun _ => 0) 0 (Header.compressed 500 (by decide))
    ⟨0, 0, 0, 0⟩ (by decide : 1000 < 2 ^ 30) (Or.inr rfl)).2.2 (by decide)).2

/-- After `SET_VARTAG_EXTERNAL`, two of the macros recognise their class. -/
theorem external_is_1b_too :
    isOfClass .little (setVartagExternal .little (fun _ => 0) 0 vartagOndisk) 0 .external = true ∧
      isOfClass .little (setVartagExternal .little (fun _ => 0) 0 vartagOndisk) 0 .short = true :=
  ⟨rfl, rfl⟩

end Varatt
