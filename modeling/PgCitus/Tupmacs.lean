import Mathlib.Data.BitVec
import Mathlib.Data.Nat.Bitwise
import Mathlib.Data.Nat.Size
import PgCitus.Library.Layout

/-!
# Attributes in a tuple

The macros of `access/tupmacs.h` that lay attributes out one after another, on the
headers of variable-length values as `postgres.h` has them for a little-endian
machine. A pointer is the memory from where it points on; a macro that reads past
the end of that memory, or fails an assertion, gives `none`.

A tuple stores no offsets. Whoever walks it peeks at the byte it has come to: a zero
byte is padding, or the first byte of an aligned length word, and any other one is
the header of a value that is not aligned, or the first byte of an aligned length
word. That is sound because headers of one byte are odd and padding is zero
(`tupRules_sound`), so that every attribute is found where it was put
(`attStarts_agree`).
-/

namespace Tupmacs

/-- Memory, from the place a pointer points to. -/
abbrev Ptr := List (BitVec 8)

/-! ## Headers of variable-length values -/

/-- The header of `varattrib_1b`. -/
def vaHeader1b (ptr : Ptr) : Option (BitVec 8) := ptr.head?

/-- The header of `varattrib_4b`, a little-endian word. -/
def vaHeader4b : Ptr → Option (BitVec 32)
  | b₀ :: b₁ :: b₂ :: b₃ :: _ => some (b₃ ++ b₂ ++ b₁ ++ b₀)
  | _ => none

/-- `VARATT_IS_1B`. True of external values as well. -/
def varattIs1b (ptr : Ptr) : Option Bool := (vaHeader1b ptr).map fun h => h &&& 0x01 == 0x01

/-- `VARATT_IS_1B_E`. -/
def varattIs1bE (ptr : Ptr) : Option Bool := (vaHeader1b ptr).map fun h => h == 0x01

/-- `VARATT_NOT_PAD_BYTE`. -/
def varattNotPadByte (ptr : Ptr) : Option Bool := ptr.head?.map fun b => b != 0

/-- `VARSIZE_4B`. -/
def varsize4b (ptr : Ptr) : Option ℕ :=
  (vaHeader4b ptr).map fun h : BitVec 32 => ((h >>> 2) &&& 0x3FFFFFFF#32).toNat

/-- `VARSIZE_1B`. -/
def varsize1b (ptr : Ptr) : Option ℕ :=
  (vaHeader1b ptr).map fun h : BitVec 8 => ((h >>> 1) &&& 0x7F#8).toNat

/-- `VARTAG_1B_E`. -/
def vartag1bE (ptr : Ptr) : Option (BitVec 8) := ptr[1]?

/-- `VARTAG_INDIRECT`. -/
def vartagIndirect : BitVec 8 := 1
/-- `VARTAG_EXPANDED_RO`. -/
def vartagExpandedRo : BitVec 8 := 2
/-- `VARTAG_ONDISK`. -/
def vartagOndisk : BitVec 8 := 18

/-- `VARTAG_SIZE`: the size of a pointer, of a pointer, or of `varatt_external`, which
has four words. -/
def vartagSize (tag : BitVec 8) : Option ℕ :=
  if tag = vartagIndirect then some 8
  else if tag &&& ~~~1 = vartagExpandedRo then some 8
  else if tag = vartagOndisk then some 16
  else none

/-- `VARHDRSZ_EXTERNAL`. -/
def varhdrszExternal : ℕ := 2

/-- `VARSIZE_EXTERNAL`. -/
def varsizeExternal (ptr : Ptr) : Option ℕ := do
  let tag ← vartag1bE ptr
  let size ← vartagSize tag
  return varhdrszExternal + size

/-- `VARSIZE_ANY`. -/
def varsizeAny (ptr : Ptr) : Option ℕ := do
  if ← varattIs1bE ptr then varsizeExternal ptr
  else if ← varattIs1b ptr then varsize1b ptr
  else varsize4b ptr

/-- `strlen`. -/
def strlen : Ptr → Option ℕ
  | [] => none
  | b :: ptr => if b = 0 then some 0 else (strlen ptr).map (· + 1)

/-! ## The macros that lay out attributes -/

/-- `TYPEALIGN`. -/
def typealign (alignval len : ℕ) : ℕ := Nat.ldiff (len + (alignval - 1)) (alignval - 1)

/-- The values of `attalign`: `TYPALIGN_CHAR`, `TYPALIGN_SHORT`, `TYPALIGN_INT` and
`TYPALIGN_DOUBLE`. -/
inductive TypAlign where
  | char
  | short
  | int
  | double

/-- `att_align_nominal`. -/
def attAlignNominal (curOffset : ℕ) : TypAlign → ℕ
  | .int => typealign 4 curOffset
  | .char => curOffset
  | .double => typealign 8 curOffset
  | .short => typealign 2 curOffset

/-- `att_align_datum`. -/
def attAlignDatum (curOffset : ℕ) (attalign : TypAlign) (attlen : ℤ) (attdatum : Ptr) :
    Option ℕ := do
  if attlen = -1 then
    if ← varattIs1b attdatum then return curOffset
    else return attAlignNominal curOffset attalign
  else return attAlignNominal curOffset attalign

/-- `att_align_pointer`. -/
def attAlignPointer (curOffset : ℕ) (attalign : TypAlign) (attlen : ℤ) (attptr : Ptr) :
    Option ℕ := do
  if attlen = -1 then
    if ← varattNotPadByte attptr then return curOffset
    else return attAlignNominal curOffset attalign
  else return attAlignNominal curOffset attalign

/-- `att_addlength_pointer`. -/
def attAddlengthPointer (curOffset : ℕ) (attlen : ℤ) (attptr : Ptr) : Option ℕ :=
  if attlen > 0 then some (curOffset + attlen.toNat)
  else if attlen = -1 then (varsizeAny attptr).map (curOffset + ·)
  else if attlen = -2 then (strlen attptr).map fun n => curOffset + (n + 1)
  else none

/-- `att_addlength_datum`. -/
def attAddlengthDatum (curOffset : ℕ) (attlen : ℤ) (attdatum : Ptr) : Option ℕ :=
  attAddlengthPointer curOffset attlen attdatum

/-! ## Values -/

/-- The bytes of a little-endian word of `n` bytes. -/
def wordBytes (n : ℕ) {w : ℕ} (v : BitVec w) : Ptr :=
  (List.range n).map fun i => v.extractLsb' (8 * i) 8

/-- `SET_VARSIZE_1B`. -/
def setVarsize1b (len : ℕ) : BitVec 8 := (BitVec.ofNat 8 len <<< 1) ||| 0x01

/-- `SET_VARSIZE_4B`. -/
def setVarsize4b (len : ℕ) : BitVec 32 := BitVec.ofNat 32 len <<< 2

/-- `SET_VARSIZE_4B_C`. -/
def setVarsize4bC (len : ℕ) : BitVec 32 := (BitVec.ofNat 32 len <<< 2) ||| 0x02

/-- **The value of an attribute**, of one of the kinds there are, with what every value
of the kind is known to be: a variable-length value has the length its header can
hold, and a string has no zero byte in it. -/
inductive Value where
  /-- Fixed length, passed by value: `store_att_byval` knows these lengths. -/
  | byVal (attlen : ℕ) (hlen : attlen ∈ [1, 2, 4, 8]) (datum : BitVec 64)
  /-- Fixed length, passed by reference. -/
  | byRef (bytes : Ptr) (hne : bytes ≠ [])
  /-- Variable length, with a header of one byte. -/
  | short (data : Ptr) (hlen : data.length + 1 ≤ 0x7F)
  /-- Variable length, with a header of four bytes. -/
  | fourByte (data : Ptr) (hlen : data.length + 4 < 2 ^ 30)
  /-- The same, compressed in line. -/
  | compressed (data : Ptr) (hlen : data.length + 4 < 2 ^ 30)
  /-- An external TOAST pointer. -/
  | external (tag : BitVec 8) (data : Ptr) (hsize : vartagSize tag = some data.length)
  /-- A string. -/
  | cstring (chars : Ptr) (hzero : 0 ∉ chars)

/-- `attlen`. -/
def Value.attlen : Value → ℤ
  | .byVal attlen _ _ => attlen
  | .byRef bytes _ => bytes.length
  | .short _ _ | .fourByte _ _ | .compressed _ _ | .external _ _ _ => -1
  | .cstring _ _ => -2

/-- The bytes of the value, as they are copied. -/
def Value.bytes : Value → Ptr
  | .byVal attlen _ datum => wordBytes attlen datum
  | .byRef bytes _ => bytes
  | .short data _ => setVarsize1b (data.length + 1) :: data
  | .fourByte data _ => wordBytes 4 (setVarsize4b (data.length + 4)) ++ data
  | .compressed data _ => wordBytes 4 (setVarsize4bC (data.length + 4)) ++ data
  | .external tag data _ => 0x01 :: tag :: data
  | .cstring chars _ => chars ++ [0]

/-- An attribute: its value, and the alignment of its type. -/
structure Att where
  attalign : TypAlign
  value : Value

/-- What whoever walks a tuple knows of an attribute: `attlen` and `attalign`. -/
structure AttDesc where
  attlen : ℤ
  attalign : TypAlign

/-- **The rules**: the writer aligns with `att_align_datum`, copies the value, and
advances with `att_addlength_datum`; the reader uses `att_align_pointer` and
`att_addlength_pointer`. -/
def tupRules : Rules Att AttDesc (BitVec 8) where
  desc att := ⟨att.value.attlen, att.attalign⟩
  bytes att := att.value.bytes
  alignDatum att off := attAlignDatum off att.attalign att.value.attlen att.value.bytes
  addDatum att off := attAddlengthDatum off att.value.attlen att.value.bytes
  alignPointer desc off ptr := attAlignPointer off desc.attalign desc.attlen ptr
  addPointer desc off ptr := attAddlengthPointer off desc.attlen ptr

/-! ## Alignment -/

/-- Aligning to a power of two clears the bits below it. -/
theorem ldiff_two_pow (x k : ℕ) : Nat.ldiff x (2 ^ k - 1) = x / 2 ^ k * 2 ^ k := by
  rw [← Nat.shiftRight_eq_div_pow, ← Nat.shiftLeft_eq]
  refine Nat.eq_of_testBit_eq fun i => ?_
  rw [Nat.testBit_ldiff, Nat.testBit_two_pow_sub_one, Nat.testBit_shiftLeft,
    Nat.testBit_shiftRight]
  by_cases h : i < k
  · simp [h]
  · simp [h, Nat.le_of_not_lt h, Nat.add_sub_cancel' (Nat.le_of_not_lt h)]

theorem le_typealign (k len : ℕ) : len ≤ typealign (2 ^ k) len := by
  have hpos : 0 < 2 ^ k := Nat.two_pow_pos k
  have hmod := Nat.mod_lt (len + (2 ^ k - 1)) hpos
  have hdiv := Nat.div_add_mod' (len + (2 ^ k - 1)) (2 ^ k)
  rw [typealign, ldiff_two_pow]
  omega

theorem le_attAlignNominal (off : ℕ) (attalign : TypAlign) :
    off ≤ attAlignNominal off attalign := by
  cases attalign with
  | char => exact le_refl off
  | short => exact le_typealign 1 off
  | int => exact le_typealign 2 off
  | double => exact le_typealign 3 off

/-! ## What the headers say -/

theorem setVarsize1b_toNat {len : ℕ} (h : len < 128) : (setVarsize1b len).toNat = 2 * len + 1 := by
  have hor := Nat.shiftLeft_add_eq_or_of_lt (show 1 < 2 ^ 1 by decide) len
  rw [setVarsize1b, BitVec.toNat_or, BitVec.toNat_shiftLeft, BitVec.toNat_ofNat,
    Nat.mod_eq_of_lt (show len < 2 ^ 8 by omega), Nat.mod_eq_of_lt (by omega)]
  show len <<< 1 ||| 1 = _
  rw [← hor, Nat.shiftLeft_eq]
  omega

theorem setVarsize4b_toNat {len : ℕ} (h : len < 2 ^ 30) : (setVarsize4b len).toNat = 4 * len := by
  rw [setVarsize4b, BitVec.toNat_shiftLeft, BitVec.toNat_ofNat, Nat.mod_eq_of_lt (by omega),
    Nat.shiftLeft_eq]
  omega

theorem setVarsize4bC_toNat {len : ℕ} (h : len < 2 ^ 30) :
    (setVarsize4bC len).toNat = 4 * len + 2 := by
  have hor := Nat.shiftLeft_add_eq_or_of_lt (show 2 < 2 ^ 2 by decide) len
  have hset := setVarsize4b_toNat h
  rw [setVarsize4b] at hset
  rw [setVarsize4bC, BitVec.toNat_or, hset]
  show 4 * len ||| 2 = _
  rw [show 4 * len = len <<< 2 by rw [Nat.shiftLeft_eq]; omega, ← hor, Nat.shiftLeft_eq]

/-- A byte is odd where its lowest bit is set. -/
theorem and_one_eq (b : BitVec 8) : (b &&& 0x01 == 0x01) = decide (b.toNat % 2 = 1) := by
  rw [Bool.eq_iff_iff, beq_iff_eq, decide_eq_true_iff, ← BitVec.toNat_inj, BitVec.toNat_and]
  show b.toNat &&& 1 = 1 ↔ _
  rw [Nat.and_one_is_mod]

/-- The bytes of a word, read as a word. -/
theorem vaHeader4b_wordBytes (w : BitVec 32) (rest : Ptr) :
    vaHeader4b (wordBytes 4 w ++ rest) = some w := by
  show some (w.extractLsb' (8 * 3) 8 ++ w.extractLsb' (8 * 2) 8 ++ w.extractLsb' (8 * 1) 8
    ++ w.extractLsb' (8 * 0) 8) = some w
  rw [BitVec.extractLsb'_append_extractLsb'_eq_extractLsb' (by rfl),
    BitVec.extractLsb'_append_extractLsb'_eq_extractLsb' (by rfl),
    BitVec.extractLsb'_append_extractLsb'_eq_extractLsb' (by rfl)]
  simp

/-- The lowest byte of a word comes first. -/
theorem wordBytes_head (n : ℕ) {w : ℕ} (v : BitVec w) :
    wordBytes (n + 1) v = v.extractLsb' 0 8 :: (List.range n).map fun i =>
      v.extractLsb' (8 * (i + 1)) 8 := by
  rw [wordBytes, List.range_succ_eq_map, List.map_cons, List.map_map]
  rfl

/-! ## What is found where a value starts -/

/-- **A value with a header of one byte**: it is not padding, and it is as long as its
header says. -/
theorem short_header {data : Ptr} (rest : Ptr) (h : data.length + 1 ≤ 0x7F) :
    varattIs1b (setVarsize1b (data.length + 1) :: data) = some true ∧
      varattNotPadByte (setVarsize1b (data.length + 1) :: data ++ rest) = some true ∧
      varsizeAny (setVarsize1b (data.length + 1) :: data ++ rest)
        = some (data.length + 1) := by
  have hn := setVarsize1b_toNat (show data.length + 1 < 128 by omega)
  have hodd : (setVarsize1b (data.length + 1) &&& 0x01 == 0x01) = true := by
    rw [and_one_eq, decide_eq_true_iff, hn]
    omega
  have hnotE : (setVarsize1b (data.length + 1) == 0x01) = false := by
    rw [beq_eq_false_iff_ne, ne_eq, ← BitVec.toNat_inj, hn]
    show ¬ _ = 1
    omega
  have hne : (setVarsize1b (data.length + 1) != 0) = true := by
    rw [bne_iff_ne, ne_eq, ← BitVec.toNat_inj, hn]
    show ¬ _ = 0
    omega
  have hsize : ((setVarsize1b (data.length + 1) >>> 1) &&& 0x7F#8).toNat = data.length + 1 := by
    rw [BitVec.toNat_and, BitVec.toNat_ushiftRight, hn, Nat.shiftRight_eq_div_pow]
    show _ &&& 127 = _
    rw [show (127 : ℕ) = 2 ^ 7 - 1 by rfl, Nat.and_two_pow_sub_one_eq_mod]
    omega
  refine ⟨?_, ?_, ?_⟩
  · simp only [varattIs1b, vaHeader1b, List.head?_cons, Option.map_some, hodd]
  · simp only [varattNotPadByte, List.cons_append, List.head?_cons, Option.map_some, hne]
  · simp only [varsizeAny, varattIs1bE, varattIs1b, varsize1b, vaHeader1b, List.cons_append,
      List.head?_cons, Option.map_some, hnotE, hodd, hsize]
    rfl

/-- **An external value**: the same. -/
theorem external_header {tag : BitVec 8} {data : Ptr} (rest : Ptr)
    (h : vartagSize tag = some data.length) :
    varattIs1b (0x01 :: tag :: data) = some true ∧
      varattNotPadByte (0x01 :: tag :: data ++ rest) = some true ∧
      varsizeAny (0x01 :: tag :: data ++ rest) = some (data.length + 2) := by
  refine ⟨rfl, rfl, ?_⟩
  show (vartagSize tag).bind (fun size => some (varhdrszExternal + size)) = _
  rw [h, Nat.add_comm]
  rfl

/-- **A value with a header of four bytes** is not taken for one with a header of one
byte, and is as long as its header says. -/
theorem fourByte_header {w : BitVec 32} (data rest : Ptr) (heven : w.toNat % 2 = 0)
    (hlen : w.toNat / 4 = data.length + 4) :
    varattIs1b (wordBytes 4 w ++ data) = some false ∧
      varsizeAny (wordBytes 4 w ++ data ++ rest) = some (data.length + 4) := by
  have hword := vaHeader4b_wordBytes w (data ++ rest)
  have hlow : (w.extractLsb' 0 8).toNat % 2 = 0 := by
    rw [BitVec.extractLsb'_toNat, Nat.shiftRight_zero]
    omega
  have heven' : (w.extractLsb' 0 8 &&& 0x01 == 0x01) = false := by
    rw [and_one_eq, decide_eq_false_iff_not]
    omega
  have hnotE : (w.extractLsb' 0 8 == 0x01) = false := by
    rw [beq_eq_false_iff_ne]
    intro he
    rw [he] at hlow
    exact absurd hlow (by decide)
  have hsize : ((w >>> 2) &&& 0x3FFFFFFF#32).toNat = data.length + 4 := by
    have hw := w.isLt
    rw [BitVec.toNat_and, BitVec.toNat_ushiftRight, Nat.shiftRight_eq_div_pow]
    show _ &&& 1073741823 = _
    rw [show (1073741823 : ℕ) = 2 ^ 30 - 1 by rfl, Nat.and_two_pow_sub_one_eq_mod]
    omega
  rw [wordBytes_head] at hword ⊢
  rw [List.cons_append] at hword
  refine ⟨?_, ?_⟩
  · simp only [varattIs1b, vaHeader1b, List.cons_append, List.head?_cons, Option.map_some,
      heven']
  · simp only [varsizeAny, varattIs1bE, varattIs1b, varsize4b, vaHeader1b, List.cons_append,
      List.append_assoc, List.head?_cons, Option.map_some, hnotE, heven', hword, hsize]
    rfl

/-- A string, up to its end. -/
theorem strlen_append {chars : Ptr} (rest : Ptr) (h : 0 ∉ chars) :
    strlen (chars ++ [0] ++ rest) = some chars.length := by
  induction chars with
  | nil => rfl
  | cons c chars ih =>
    rw [List.mem_cons, not_or] at h
    show (if c = 0 then _ else (strlen (chars ++ [0] ++ rest)).map (· + 1)) = _
    rw [if_neg (Ne.symm h.1), ih h.2]
    rfl

/-- **Peeking at a place to align from**: it is padding unless it is aligned. -/
theorem attAlignPointer_nominal (off : ℕ) (attalign : TypAlign) (attlen : ℤ) {bytes : Ptr}
    (rest : Ptr) (hne : bytes ≠ []) :
    attAlignPointer off attalign attlen
        (List.replicate (attAlignNominal off attalign - off) 0 ++ bytes ++ rest)
      = some (attAlignNominal off attalign) := by
  have hle := le_attAlignNominal off attalign
  rw [attAlignPointer]
  by_cases hlen : attlen = -1
  · rw [if_pos hlen]
    cases hpad : attAlignNominal off attalign - off with
    | zero =>
      -- the place is aligned, so that it does not matter what is there
      have heq : attAlignNominal off attalign = off := by omega
      obtain ⟨b, l, rfl⟩ := List.exists_cons_of_ne_nil hne
      rw [heq]
      show (if (b != 0) = true then some off else some off) = some off
      rw [ite_self]
    | succ p => rfl
  · rw [if_neg hlen]
    rfl

theorem wordBytes_length (n : ℕ) {w : ℕ} (v : BitVec w) : (wordBytes n v).length = n := by
  rw [wordBytes, List.length_map, List.length_range]

theorem Value.bytes_ne_nil (value : Value) : value.bytes ≠ [] := by
  rw [← List.length_pos_iff]
  cases value with
  | byVal attlen hlen datum =>
    rw [bytes, wordBytes_length]
    rcases List.mem_cons.mp hlen with rfl | hlen
    · exact Nat.one_pos
    · simp only [List.mem_cons, List.not_mem_nil, or_false] at hlen
      omega
  | byRef bytes hne => exact List.length_pos_iff.mpr hne
  | short data hlen => exact Nat.succ_pos _
  | fourByte data hlen => exact Nat.succ_pos _
  | compressed data hlen => exact Nat.succ_pos _
  | external tag data hsize => exact Nat.succ_pos _
  | cstring chars hzero => simp [bytes]

/-- The length of a value of fixed length is not one of the lengths that stand for
something else. -/
theorem Value.attlen_pos {value : Value} (h : value.attlen ≠ -1) (h' : value.attlen ≠ -2) :
    0 < value.attlen ∧ value.attlen.toNat = value.bytes.length := by
  have hpos := List.length_pos_iff.mpr value.bytes_ne_nil
  cases value with
  | byVal attlen hlen datum =>
    rw [Value.bytes, wordBytes_length] at hpos ⊢
    rw [Value.attlen]
    omega
  | byRef bytes hne =>
    rw [Value.bytes] at hpos ⊢
    rw [Value.attlen]
    omega
  | short data hlen => exact absurd rfl h
  | fourByte data hlen => exact absurd rfl h
  | compressed data hlen => exact absurd rfl h
  | external tag data hsize => exact absurd rfl h
  | cstring chars hzero => exact absurd rfl h'

/-- What `VARSIZE_ANY` and the peeking macros find of a variable-length value. -/
theorem Value.varlena_header {value : Value} (h : value.attlen = -1) (rest : Ptr) :
    varsizeAny (value.bytes ++ rest) = some value.bytes.length ∧
      ∃ is1b, varattIs1b value.bytes = some is1b ∧
        (is1b = true → varattNotPadByte (value.bytes ++ rest) = some true) := by
  cases value with
  | byVal attlen hlen datum => rw [Value.attlen] at h; omega
  | byRef bytes hne => rw [Value.attlen] at h; omega
  | short data hlen =>
    obtain ⟨h₁, h₂, h₃⟩ := short_header rest hlen
    exact ⟨h₃, true, h₁, fun _ => h₂⟩
  | fourByte data hlen =>
    have hn := setVarsize4b_toNat hlen
    obtain ⟨h₁, h₂⟩ := fourByte_header (w := setVarsize4b (data.length + 4)) data rest
      (by omega) (by omega)
    refine ⟨h₂.trans ?_, false, h₁, fun hf => absurd hf (by decide)⟩
    rw [Value.bytes, List.length_append, wordBytes_length, Nat.add_comm]
  | compressed data hlen =>
    have hn := setVarsize4bC_toNat hlen
    obtain ⟨h₁, h₂⟩ := fourByte_header (w := setVarsize4bC (data.length + 4)) data rest
      (by omega) (by omega)
    refine ⟨h₂.trans ?_, false, h₁, fun hf => absurd hf (by decide)⟩
    rw [Value.bytes, List.length_append, wordBytes_length, Nat.add_comm]
  | external tag data hsize =>
    obtain ⟨h₁, h₂, h₃⟩ := external_header rest hsize
    exact ⟨h₃, true, h₁, fun _ => h₂⟩
  | cstring chars hzero => exact absurd h (show ¬ (-2 : ℤ) = -1 by decide)

/-- **The reader aligns as the writer does**, from what it finds in the tuple. -/
theorem attAlign_agree (att : Att) (off : ℕ) : ∃ start, off ≤ start ∧
    attAlignDatum off att.attalign att.value.attlen att.value.bytes = some start ∧
    ∀ rest, attAlignPointer off att.attalign att.value.attlen
      (List.replicate (start - off) 0 ++ att.value.bytes ++ rest) = some start := by
  have hnominal := fun rest => attAlignPointer_nominal off att.attalign att.value.attlen rest
    att.value.bytes_ne_nil
  have hle := le_attAlignNominal off att.attalign
  by_cases hlen : att.value.attlen = -1
  · obtain ⟨-, is1b, h1b, -⟩ := att.value.varlena_header hlen []
    rw [attAlignDatum, if_pos hlen, h1b]
    cases is1b with
    | false => exact ⟨_, hle, rfl, hnominal⟩
    | true =>
      -- what is not aligned is not padded, and its header is not a pad byte
      refine ⟨off, le_refl off, rfl, fun rest => ?_⟩
      obtain ⟨-, is1b', h1b', hpad⟩ := att.value.varlena_header hlen rest
      rw [h1b, Option.some.injEq] at h1b'
      rw [attAlignPointer, if_pos hlen, Nat.sub_self]
      show (varattNotPadByte (att.value.bytes ++ rest)).bind _ = _
      rw [hpad h1b'.symm]
      rfl
  · rw [attAlignDatum, if_neg hlen]
    exact ⟨_, hle, rfl, hnominal⟩

/-- **The reader advances as the writer does.** -/
theorem attAddlength_agree (value : Value) (off : ℕ) (rest : Ptr) :
    attAddlengthPointer off value.attlen (value.bytes ++ rest)
      = some (off + value.bytes.length) := by
  rw [attAddlengthPointer]
  by_cases h₁ : value.attlen = -1
  · rw [if_neg (by omega), if_pos h₁, (value.varlena_header h₁ rest).1]
    rfl
  by_cases h₂ : value.attlen = -2
  · rw [if_neg (by omega), if_neg h₁, if_pos h₂]
    cases value with
    | byVal attlen hlen datum => rw [Value.attlen] at h₂; omega
    | byRef bytes hne => rw [Value.attlen] at h₂; omega
    | short data hlen => exact absurd h₂ (show ¬ (-1 : ℤ) = -2 by decide)
    | fourByte data hlen => exact absurd h₂ (show ¬ (-1 : ℤ) = -2 by decide)
    | compressed data hlen => exact absurd h₂ (show ¬ (-1 : ℤ) = -2 by decide)
    | external tag data hsize => exact absurd h₂ (show ¬ (-1 : ℤ) = -2 by decide)
    | cstring chars hzero =>
      rw [Value.bytes, strlen_append rest hzero, List.length_append]
      rfl
  · obtain ⟨hpos, hnat⟩ := Value.attlen_pos h₁ h₂
    rw [if_pos hpos, hnat]

/-- Where an attribute is put. -/
def attPlace (att : Att) (off : ℕ) : ℕ :=
  (attAlignDatum off att.attalign att.value.attlen att.value.bytes).getD off

/-- **The rules are sound.** -/
theorem tupRules_sound : tupRules.Sound attPlace := by
  have halign : ∀ att off, off ≤ attPlace att off ∧
      attAlignDatum off att.attalign att.value.attlen att.value.bytes
        = some (attPlace att off) ∧
      ∀ rest, attAlignPointer off att.attalign att.value.attlen
        (List.replicate (attPlace att off - off) 0 ++ att.value.bytes ++ rest)
        = some (attPlace att off) := by
    intro att off
    obtain ⟨start, hle, hdatum, hptr⟩ := attAlign_agree att off
    have hplace : attPlace att off = start := by rw [attPlace, hdatum, Option.getD_some]
    rw [hplace]
    exact ⟨hle, hdatum, hptr⟩
  refine ⟨fun att off => (halign att off).1, fun att off => (halign att off).2.1,
    fun att off => ?_, fun att off rest => (halign att off).2.2 rest,
    fun att off rest => attAddlength_agree att.value off rest⟩
  have := attAddlength_agree att.value off []
  rwa [List.append_nil] at this

/-- The space a tuple of the attributes needs. -/
def attsLength (atts : List Att) : ℕ := (tupRules.encode attPlace 0 atts).length

/-- **Every attribute is found where it was put.** Laying out any attributes into an
area of zeros that has the space for them succeeds, and whoever walks the tuple, with
the alignments and the lengths of the types and the bytes of the tuple, computes for
every attribute the offset where it was put, at which the bytes of its value are. -/
theorem attStarts_agree (atts : List Att) (spare : ℕ) : ∃ starts area,
    tupRules.write (List.replicate (attsLength atts + spare) 0) 0 atts
      = some (starts, area) ∧
    tupRules.read area 0 (atts.map tupRules.desc) = some starts ∧
    List.Forall₂ (fun att start => att.value.bytes <+: area.drop start) atts starts :=
  tupRules_sound.read_write atts (Nat.le_add_right _ _)

end Tupmacs
