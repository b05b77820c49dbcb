import Mathlib.Data.Int.Notation
import Mathlib.Data.List.Basic
import Mathlib.Data.List.TakeWhile
import PgCitus.Library.Numeral

/-!
# Names of WAL files

`access/xlog_internal.h`: a position in the write-ahead log is a 64-bit number, the
log is cut into segments of a size that is a power of two between 1 MB and 1 GB, and
the file of a segment has a name of 24 hexadecimal digits. The first eight are the
timeline; the others are the segment number, written as a quotient and a remainder by
the number of segments in 4 GB.

Everything is computed in 64 bits, the size being an `int` that is widened, and the
quotient and the remainder are cut to 32 bits before they are written. For segments
whose bytes have an address nothing is lost by that (`log_lt`), and since the fields
have a fixed width the names are in the order of the timelines and, within one, of the
segments (`walNames`).
-/

namespace XlogInternal

/-! ## Segments -/

/-- `IsPowerOf2`. -/
def isPowerOf2 (x : BitVec 32) : Bool := x.toInt > 0 ∧ x &&& (x - 1) = 0

/-- `IsValidWalSegSize`. -/
def isValidWalSegSize (size : BitVec 32) : Bool :=
  isPowerOf2 size ∧ size.toInt ≥ 1024 * 1024 ∧ size.toInt ≤ 1024 * 1024 * 1024

/-- An `int` where a `uint64` is needed. -/
def asUint64 (x : BitVec 32) : BitVec 64 := x.signExtend 64

/-- `XLogSegmentsPerXLogId`. -/
def xlogSegmentsPerXLogId (walSegszBytes : BitVec 32) : BitVec 64 :=
  0x100000000#64 / asUint64 walSegszBytes

/-- `XLogSegNoOffsetToRecPtr`. -/
def xlogSegNoOffsetToRecPtr (segno offset : BitVec 64) (walSegszBytes : BitVec 32) :
    BitVec 64 :=
  segno * asUint64 walSegszBytes + offset

/-- `XLogSegmentOffset`. -/
def xlogSegmentOffset (xlogptr : BitVec 64) (walSegszBytes : BitVec 32) : BitVec 64 :=
  xlogptr &&& asUint64 (walSegszBytes - 1)

/-- `XLByteToSeg`. -/
def xlByteToSeg (xlrp : BitVec 64) (walSegszBytes : BitVec 32) : BitVec 64 :=
  xlrp / asUint64 walSegszBytes

/-- `XLByteToPrevSeg`: a boundary byte is taken to be in the previous segment. -/
def xlByteToPrevSeg (xlrp : BitVec 64) (walSegszBytes : BitVec 32) : BitVec 64 :=
  (xlrp - 1) / asUint64 walSegszBytes

/-! ## Names -/

/-- The characters a name is made of. -/
def hexDigits : List Char := "0123456789ABCDEF".toList

/-- `%08X` of a `uint32`, which has no more than eight digits. -/
def format08X (n : BitVec 32) : List Char :=
  (Numeral.digits 16 8 n.toNat).map fun d => hexDigits.getD d '0'

/-- `XLogFileName`. -/
def xlogFileName (tli : BitVec 32) (logSegNo : BitVec 64) (walSegszBytes : BitVec 32) :
    List Char :=
  format08X tli
    ++ format08X ((logSegNo / xlogSegmentsPerXLogId walSegszBytes).setWidth 32)
    ++ format08X ((logSegNo % xlogSegmentsPerXLogId walSegszBytes).setWidth 32)

/-- `XLogFileNameById`. -/
def xlogFileNameById (tli log seg : BitVec 32) : List Char :=
  format08X tli ++ format08X log ++ format08X seg

/-- `XLOG_FNAME_LEN`. -/
def xlogFnameLen : ℕ := 24

/-- `IsXLogFileName`, with `strspn` of the digits. -/
def isXLogFileName (fname : List Char) : Bool :=
  fname.length = xlogFnameLen ∧
    (fname.takeWhile fun c => hexDigits.contains c).length = xlogFnameLen

/-- `isspace`. -/
def isSpace (c : Char) : Bool :=
  c = ' ' ∨ c = '\t' ∨ c = '\n' ∨ c = '\x0b' ∨ c = '\x0c' ∨ c = '\r'

/-- The value of a hexadecimal digit, of either case. -/
def hexVal (c : Char) : Option ℕ :=
  if '0' ≤ c ∧ c ≤ '9' then some (c.toNat - '0'.toNat)
  else if 'A' ≤ c ∧ c ≤ 'F' then some (c.toNat - 'A'.toNat + 10)
  else if 'a' ≤ c ∧ c ≤ 'f' then some (c.toNat - 'a'.toNat + 10)
  else none

/-- The digits of `%X`: at most `width` of them, and at least one. -/
def scanDigits (width : ℕ) (s : List Char) : Option (BitVec 32 × List Char) :=
  let ds := (s.take width).takeWhile fun c => (hexVal c).isSome
  if ds = [] then none
  else some (BitVec.ofNat 32 (Numeral.value 16 (ds.filterMap hexVal)), s.drop ds.length)

/-- The prefix `%X` accepts in front of the digits, which counts as two characters. -/
def scanPrefix (width : ℕ) : List Char → ℕ × List Char
  | c₀ :: c₁ :: s =>
    if c₀ = '0' ∧ (c₁ = 'x' ∨ c₁ = 'X') ∧ 2 ≤ width then (width - 2, s)
    else (width, c₀ :: c₁ :: s)
  | s => (width, s)

/-- `%X` with a width, as `sscanf` reads it: white space is skipped, a sign is accepted,
and so is a prefix. -/
def scanX (width : ℕ) (s : List Char) : Option (BitVec 32 × List Char) :=
  match s.dropWhile isSpace with
  | '-' :: s =>
    let (width, s) := scanPrefix (width - 1) s
    (scanDigits width s).map fun r => (-r.1, r.2)
  | '+' :: s =>
    let (width, s) := scanPrefix (width - 1) s
    scanDigits width s
  | s =>
    let (width, s) := scanPrefix width s
    scanDigits width s

/-- `XLogFromFileName`; of a name that cannot be scanned, nothing is known. -/
def xlogFromFileName (fname : List Char) (walSegszBytes : BitVec 32) :
    Option (BitVec 32 × BitVec 64) := do
  let (tli, fname) ← scanX 8 fname
  let (log, fname) ← scanX 8 fname
  let (seg, _) ← scanX 8 fname
  return (tli,
    log.setWidth 64 * xlogSegmentsPerXLogId walSegszBytes + seg.setWidth 64)

/-- `strcmp`, of strings of ASCII characters: the byte order. -/
def strcmp (a b : List Char) : Ordering := Numeral.lexCompare Char.toNat a b

/-- **The file of a segment is addressable**: the positions in it have 64 bits. -/
def Addressable (walSegszBytes : BitVec 32) (segno : BitVec 64) : Prop :=
  segno.toNat * walSegszBytes.toNat < 2 ^ 64

/-! ## Sizes -/

/-- A size that is valid, as a power of two. -/
theorem isValidWalSegSize_pow {size : BitVec 32} (h : isValidWalSegSize size = true) :
    ∃ k, 20 ≤ k ∧ k ≤ 30 ∧ size.toNat = 2 ^ k := by
  rw [isValidWalSegSize, isPowerOf2, decide_eq_true_iff, decide_eq_true_iff] at h
  obtain ⟨⟨hpos, hand⟩, hmin, hmax⟩ := h
  have hlt := size.isLt
  have hnat : size.toInt = size.toNat := by
    rw [BitVec.toInt_eq_toNat_cond] at hpos hmin hmax ⊢
    split_ifs at hpos hmin hmax ⊢ <;> omega
  have hpred : (size - 1).toNat = size.toNat - 1 := by
    rw [BitVec.toNat_sub]
    show (2 ^ 32 - 1 + size.toNat) % 2 ^ 32 = _
    omega
  have hzero : size.toNat &&& (size.toNat - 1) = 0 := by
    rw [← hpred, ← BitVec.toNat_and, hand]
    rfl
  obtain ⟨k, hk⟩ := (Nat.and_sub_one_eq_zero_iff_isPowerOfTwo (by omega)).mp hzero
  refine ⟨k, ?_, ?_, hk⟩
  · exact (Nat.pow_le_pow_iff_right (show 1 < 2 by decide)).mp (by omega)
  · exact (Nat.pow_le_pow_iff_right (show 1 < 2 by decide)).mp (by omega)

/-- **What is known of a valid size**, `2 ^ k`: as it is used in 64 bits, as a mask, and
by the number of segments in 4 GB. -/
structure SizePow (walSegszBytes : BitVec 32) (k : ℕ) : Prop where
  le : k ≤ 30
  size_toNat : walSegszBytes.toNat = 2 ^ k
  wide_toNat : (asUint64 walSegszBytes).toNat = 2 ^ k
  mask_toNat : (asUint64 (walSegszBytes - 1)).toNat = 2 ^ k - 1
  perId_toNat : (xlogSegmentsPerXLogId walSegszBytes).toNat = 2 ^ (32 - k)

theorem asUint64_toNat {x : BitVec 32} (h : x.toNat < 2 ^ 31) : (asUint64 x).toNat = x.toNat := by
  have hmsb : x.msb = false := by
    rw [BitVec.msb_eq_false_iff_two_mul_lt]
    omega
  rw [asUint64, BitVec.signExtend_eq_setWidth_of_msb_false hmsb, BitVec.toNat_setWidth,
    Nat.mod_eq_of_lt (by omega)]

variable {walSegszBytes : BitVec 32} {k : ℕ}

theorem sizePow_of_isValid (h : isValidWalSegSize walSegszBytes = true) :
    ∃ k, SizePow walSegszBytes k := by
  obtain ⟨k, hmin, hmax, hk⟩ := isValidWalSegSize_pow h
  have hle : 2 ^ k ≤ 2 ^ 30 := Nat.pow_le_pow_right (by decide) hmax
  have hpos : 0 < 2 ^ k := Nat.two_pow_pos k
  have hpred : (walSegszBytes - 1).toNat = 2 ^ k - 1 := by
    rw [BitVec.toNat_sub, hk]
    show (2 ^ 32 - 1 + 2 ^ k) % 2 ^ 32 = _
    omega
  have hwide : (asUint64 walSegszBytes).toNat = 2 ^ k := by
    rw [asUint64_toNat (by omega), hk]
  refine ⟨k, hmax, hk, hwide, ?_, ?_⟩
  · rw [asUint64_toNat (by omega), hpred]
  · rw [xlogSegmentsPerXLogId, BitVec.toNat_udiv, hwide]
    show 2 ^ 32 / 2 ^ k = _
    exact Nat.pow_div (by omega) (by decide)

namespace SizePow

theorem perId_mul (h : SizePow walSegszBytes k) : 2 ^ (32 - k) * 2 ^ k = 2 ^ 32 := by
  have := h.le
  rw [← Nat.pow_add, Nat.sub_add_cancel (by omega)]

theorem seg_toNat (h : SizePow walSegszBytes k) (lsn : BitVec 64) :
    (xlByteToSeg lsn walSegszBytes).toNat = lsn.toNat / 2 ^ k := by
  rw [xlByteToSeg, BitVec.toNat_udiv, h.wide_toNat]

theorem offset_toNat (h : SizePow walSegszBytes k) (lsn : BitVec 64) :
    (xlogSegmentOffset lsn walSegszBytes).toNat = lsn.toNat % 2 ^ k := by
  rw [xlogSegmentOffset, BitVec.toNat_and, h.mask_toNat, Nat.and_two_pow_sub_one_eq_mod]

/-- A position in a segment with an address, which is computed without overflow. -/
theorem recPtr_toNat (h : SizePow walSegszBytes k) (segno offset : BitVec 64)
    (hlt : segno.toNat * 2 ^ k + offset.toNat < 2 ^ 64) :
    (xlogSegNoOffsetToRecPtr segno offset walSegszBytes).toNat
      = segno.toNat * 2 ^ k + offset.toNat := by
  rw [xlogSegNoOffsetToRecPtr, BitVec.toNat_add, BitVec.toNat_mul, h.wide_toNat,
    Nat.mod_add_mod, Nat.mod_eq_of_lt hlt]

/-- **The quotient fits**: the segments with an address are few enough. -/
theorem log_lt (h : SizePow walSegszBytes k) {segno : BitVec 64}
    (ha : Addressable walSegszBytes segno) : segno.toNat / 2 ^ (32 - k) < 2 ^ 32 := by
  rw [Addressable, h.size_toNat] at ha
  refine Nat.div_lt_of_lt_mul ?_
  refine Nat.lt_of_mul_lt_mul_right (a := 2 ^ k) ?_
  calc segno.toNat * 2 ^ k < 2 ^ 32 * 2 ^ 32 := ha
    _ = 2 ^ (32 - k) * 2 ^ 32 * 2 ^ k := by
      rw [Nat.mul_right_comm, h.perId_mul]

/-- The remainder always fits. -/
theorem seg_lt (segno : BitVec 64) (k : ℕ) : segno.toNat % 2 ^ (32 - k) < 2 ^ 32 :=
  Nat.lt_of_lt_of_le (Nat.mod_lt _ (Nat.two_pow_pos _))
    (Nat.pow_le_pow_right (by decide) (Nat.sub_le 32 k))

theorem log_toNat (h : SizePow walSegszBytes k) {segno : BitVec 64}
    (ha : Addressable walSegszBytes segno) :
    ((segno / xlogSegmentsPerXLogId walSegszBytes).setWidth 32).toNat
      = segno.toNat / 2 ^ (32 - k) := by
  rw [BitVec.toNat_setWidth, BitVec.toNat_udiv, h.perId_toNat, Nat.mod_eq_of_lt (h.log_lt ha)]

theorem rem_toNat (h : SizePow walSegszBytes k) (segno : BitVec 64) :
    ((segno % xlogSegmentsPerXLogId walSegszBytes).setWidth 32).toNat
      = segno.toNat % 2 ^ (32 - k) := by
  rw [BitVec.toNat_setWidth, BitVec.toNat_umod, h.perId_toNat,
    Nat.mod_eq_of_lt (seg_lt segno k)]

end SizePow

/-! ## Fields of a name -/

/-- The digits, as `%08X` writes and `%X` reads them. -/
theorem hexDigit_facts : ∀ d < 16, hexVal (hexDigits.getD d '0') = some d ∧
    hexDigits.contains (hexDigits.getD d '0') = true ∧
    isSpace (hexDigits.getD d '0') = false ∧ hexDigits.getD d '0' ≠ '-' ∧
    hexDigits.getD d '0' ≠ '+' ∧ hexDigits.getD d '0' ≠ 'x' ∧ hexDigits.getD d '0' ≠ 'X' := by
  decide

/-- The digits are in byte order. -/
theorem hexDigit_compare : ∀ a < 16, ∀ b < 16,
    compare (hexDigits.getD a '0').toNat (hexDigits.getD b '0').toNat = compare a b := by
  decide

theorem digits08X_lt (n : BitVec 32) : ∀ d ∈ Numeral.digits 16 8 n.toNat, d < 16 :=
  Numeral.digits_lt (by decide) n.isLt

theorem length_format08X (n : BitVec 32) : (format08X n).length = 8 := by
  rw [format08X, List.length_map, Numeral.length_digits]

theorem format08X_mem {n : BitVec 32} {c : Char} (hc : c ∈ format08X n) :
    ∃ d < 16, c = hexDigits.getD d '0' := by
  obtain ⟨d, hd, rfl⟩ := List.mem_map.mp hc
  exact ⟨d, digits08X_lt n d hd, rfl⟩

/-- **The byte order of two fields** is the order of the numbers. -/
theorem strcmp_format08X (n m : BitVec 32) :
    strcmp (format08X n) (format08X m) = compare n.toNat m.toNat := by
  have hchars : strcmp (format08X n) (format08X m)
      = Numeral.lexCompare id (Numeral.digits 16 8 n.toNat) (Numeral.digits 16 8 m.toNat) :=
    Numeral.lexCompare_map fun a ha b hb =>
      hexDigit_compare a (digits08X_lt n a ha) b (digits08X_lt m b hb)
  rw [hchars]
  exact Numeral.lexCompare_digits (by decide) n.isLt m.isLt

/-- The digits of a field are scanned. -/
theorem scanDigits_format08X (n : BitVec 32) (rest : List Char) :
    scanDigits 8 (format08X n ++ rest) = some (n, rest) := by
  have hlen := length_format08X n
  have hall : (format08X n).takeWhile (fun c => (hexVal c).isSome) = format08X n := by
    rw [List.takeWhile_eq_self_iff]
    intro c hc
    obtain ⟨d, hd, rfl⟩ := format08X_mem hc
    rw [(hexDigit_facts d hd).1]
    rfl
  have hne : format08X n ≠ [] := by
    rw [← List.length_pos_iff, hlen]
    decide
  have hvals : (format08X n).filterMap hexVal = Numeral.digits 16 8 n.toNat := by
    have hsome : ∀ d ∈ Numeral.digits 16 8 n.toNat,
        (hexVal ∘ fun d => hexDigits.getD d '0') d = some d :=
      fun d hd => (hexDigit_facts d (digits08X_lt n d hd)).1
    rw [format08X, List.filterMap_map, List.filterMap_congr hsome, List.filterMap_some]
  have hvalue : Numeral.value 16 (Numeral.digits 16 8 n.toNat) = n.toNat :=
    Numeral.value_digits (by decide) n.isLt
  rw [scanDigits, List.take_left' hlen, hall, if_neg hne, hvals, hvalue, BitVec.ofNat_toNat,
    List.drop_left' rfl, BitVec.setWidth_eq]

/-- What is neither a prefix nor the beginning of one. -/
theorem scanPrefix_of {c₀ c₁ : Char} (s : List Char) (width : ℕ) (hx : c₁ ≠ 'x')
    (hX : c₁ ≠ 'X') : scanPrefix width (c₀ :: c₁ :: s) = (width, c₀ :: c₁ :: s) := by
  rw [scanPrefix, if_neg]
  rintro ⟨-, h | h, -⟩
  · exact hx h
  · exact hX h

/-- What begins with neither white space nor a sign. -/
theorem scanX_of {c : Char} (s : List Char) (width : ℕ) (hspace : isSpace c = false)
    (hminus : c ≠ '-') (hplus : c ≠ '+') :
    scanX width (c :: s)
      = scanDigits (scanPrefix width (c :: s)).1 (scanPrefix width (c :: s)).2 := by
  rw [scanX, List.dropWhile_cons_of_neg (by rw [hspace]; decide)]
  split
  · rename_i heq
    exact absurd (List.cons.inj heq).1 hminus
  · rename_i heq
    exact absurd (List.cons.inj heq).1 hplus
  · rfl

/-- **A field is read back**, and what comes after it is left. -/
theorem scanX_format08X (n : BitVec 32) (rest : List Char) :
    scanX 8 (format08X n ++ rest) = some (n, rest) := by
  have hscan := scanDigits_format08X n rest
  obtain ⟨c₀, c₁, s, hs⟩ : ∃ c₀ c₁ s, format08X n = c₀ :: c₁ :: s := ⟨_, _, _, rfl⟩
  obtain ⟨d₀, hd₀, rfl⟩ := format08X_mem (n := n) (c := c₀) (by rw [hs]; exact List.mem_cons_self)
  obtain ⟨d₁, hd₁, rfl⟩ := format08X_mem (n := n) (c := c₁)
    (by rw [hs]; exact List.mem_cons_of_mem _ List.mem_cons_self)
  obtain ⟨-, -, hspace, hminus, hplus, -, -⟩ := hexDigit_facts d₀ hd₀
  obtain ⟨-, -, -, -, -, hx, hX⟩ := hexDigit_facts d₁ hd₁
  rw [hs] at hscan ⊢
  rw [List.cons_append, List.cons_append, scanX_of _ _ hspace hminus hplus,
    scanPrefix_of _ _ hx hX]
  exact hscan

/-! ## Names -/

variable {tli tli' : BitVec 32} {segno segno' : BitVec 64}

/-- **A name is read back.** -/
theorem xlogFromFileName_xlogFileName (h : SizePow walSegszBytes k)
    (ha : Addressable walSegszBytes segno) :
    xlogFromFileName (xlogFileName tli segno walSegszBytes) walSegszBytes
      = some (tli, segno) := by
  have hlast : ∀ n, scanX 8 (format08X n) = some (n, []) := fun n => by
    have := scanX_format08X n []
    rwa [List.append_nil] at this
  have hsegno : ((segno / xlogSegmentsPerXLogId walSegszBytes).setWidth 32).setWidth 64
        * xlogSegmentsPerXLogId walSegszBytes
      + ((segno % xlogSegmentsPerXLogId walSegszBytes).setWidth 32).setWidth 64 = segno := by
    have hwiden : ∀ x : BitVec 32, (x.setWidth 64).toNat = x.toNat := fun x => by
      rw [BitVec.toNat_setWidth, Nat.mod_eq_of_lt (by omega)]
    apply BitVec.eq_of_toNat_eq
    rw [BitVec.toNat_add, BitVec.toNat_mul, hwiden, hwiden, h.log_toNat ha, h.rem_toNat,
      h.perId_toNat, Nat.mod_add_mod, Nat.div_add_mod', Nat.mod_eq_of_lt segno.isLt]
  rw [xlogFromFileName, xlogFileName, List.append_assoc, scanX_format08X]
  simp only [Option.bind_eq_bind, Option.bind_some]
  rw [scanX_format08X]
  simp only [Option.bind_some]
  rw [hlast]
  simp only [Option.bind_some, hsegno]
  rfl

/-- **A name is a name.** -/
theorem isXLogFileName_xlogFileName (tli : BitVec 32) (segno : BitVec 64)
    (walSegszBytes : BitVec 32) :
    isXLogFileName (xlogFileName tli segno walSegszBytes) = true := by
  have hlen : (xlogFileName tli segno walSegszBytes).length = xlogFnameLen := by
    rw [xlogFileName, List.length_append, List.length_append, length_format08X,
      length_format08X, length_format08X]
    rfl
  have hall : (xlogFileName tli segno walSegszBytes).takeWhile (fun c => hexDigits.contains c)
      = xlogFileName tli segno walSegszBytes := by
    rw [List.takeWhile_eq_self_iff]
    intro c hc
    rw [xlogFileName, List.mem_append, List.mem_append] at hc
    obtain ⟨d, hd, rfl⟩ : ∃ d < 16, c = hexDigits.getD d '0' := by
      rcases hc with (hc | hc) | hc <;> exact format08X_mem hc
    exact (hexDigit_facts d hd).2.1
  rw [isXLogFileName, decide_eq_true_iff, hall]
  exact ⟨hlen, hlen⟩

/-- **The byte order of two names** is that of the timelines, and then of the segments. -/
theorem strcmp_xlogFileName (h : SizePow walSegszBytes k)
    (ha : Addressable walSegszBytes segno) (ha' : Addressable walSegszBytes segno') :
    strcmp (xlogFileName tli segno walSegszBytes) (xlogFileName tli' segno' walSegszBytes)
      = (compare tli.toNat tli'.toNat).then (compare segno.toNat segno'.toNat) := by
  have happend : ∀ {n m : BitVec 32} {s t : List Char},
      strcmp (format08X n ++ s) (format08X m ++ t)
        = (compare n.toNat m.toNat).then (strcmp s t) := fun {n m s t} => by
    rw [← strcmp_format08X]
    exact Numeral.lexCompare_append (by rw [length_format08X, length_format08X])
  rw [xlogFileName, xlogFileName, List.append_assoc, List.append_assoc, happend, happend,
    strcmp_format08X, h.log_toNat ha, h.log_toNat ha', h.rem_toNat, h.rem_toNat,
    ← Numeral.compare_eq_then]

/-- The positions in a segment. -/
theorem recPtr_segment (h : SizePow walSegszBytes k) {offset : BitVec 64}
    (ha : Addressable walSegszBytes segno) (ho : offset.toNat < walSegszBytes.toNat) :
    xlByteToSeg (xlogSegNoOffsetToRecPtr segno offset walSegszBytes) walSegszBytes = segno ∧
      xlogSegmentOffset (xlogSegNoOffsetToRecPtr segno offset walSegszBytes) walSegszBytes
        = offset := by
  rw [Addressable, h.size_toNat] at ha
  rw [h.size_toNat] at ho
  -- the segments end where the positions do
  have hend : segno.toNat * 2 ^ k + 2 ^ k ≤ 2 ^ 64 := by
    have hk := h.le
    have hsplit : 2 ^ 64 = 2 ^ (64 - k) * 2 ^ k := by
      rw [← Nat.pow_add, Nat.sub_add_cancel (by omega)]
    rw [hsplit] at ha ⊢
    rw [← Nat.succ_mul]
    exact Nat.mul_le_mul_right _ (Nat.lt_of_mul_lt_mul_right ha)
  have hptr := h.recPtr_toNat segno offset (by omega)
  constructor
  · apply BitVec.eq_of_toNat_eq
    rw [h.seg_toNat, hptr, Nat.add_comm, Nat.add_mul_div_right _ _ (Nat.two_pow_pos k),
      Nat.div_eq_of_lt ho, Nat.zero_add]
  · apply BitVec.eq_of_toNat_eq
    rw [h.offset_toNat, hptr, Nat.add_comm, Nat.add_mul_mod_self_right, Nat.mod_eq_of_lt ho]

/-- Eight digits are a field. -/
theorem exists_format08X {cs : List Char} (hlen : cs.length = 8)
    (hcs : ∀ c ∈ cs, hexDigits.contains c = true) : ∃ n, cs = format08X n := by
  have hdigit : ∀ c, hexDigits.contains c = true → ∃ d < 16, hexDigits.getD d '0' = c := by
    intro c hc
    rw [List.contains_iff_mem] at hc
    obtain ⟨d, hd, rfl⟩ := List.mem_iff_getElem.mp hc
    refine ⟨d, hd, ?_⟩
    rw [List.getD_eq_getElem?_getD, List.getElem?_eq_getElem hd, Option.getD_some]
  obtain ⟨ds, hds, rfl⟩ : ∃ ds : List ℕ, (∀ d ∈ ds, d < 16) ∧
      ds.map (fun d => hexDigits.getD d '0') = cs := by
    clear hlen
    induction cs with
    | nil => exact ⟨[], fun d hd => absurd hd List.not_mem_nil, rfl⟩
    | cons c cs ih =>
      obtain ⟨d, hd, hdc⟩ := hdigit c (hcs c List.mem_cons_self)
      obtain ⟨ds, hds, hmap⟩ := ih fun e he => hcs e (List.mem_cons_of_mem _ he)
      refine ⟨d :: ds, fun e he => ?_, by rw [List.map_cons, hdc, hmap]⟩
      rcases List.mem_cons.mp he with rfl | he
      · exact hd
      · exact hds e he
  rw [List.length_map] at hlen
  have hlt := Numeral.value_lt hds
  have hval := Numeral.digits_value hds
  have hpow : 16 ^ 8 = 2 ^ 32 := by decide
  rw [hlen] at hlt hval
  rw [hpow] at hlt
  refine ⟨BitVec.ofNat 32 (Numeral.value 16 ds), ?_⟩
  rw [format08X, BitVec.toNat_ofNat, Nat.mod_eq_of_lt hlt, hval]

/-- **What is found to be a name** has three fields. -/
theorem exists_xlogFileNameById {fname : List Char} (h : isXLogFileName fname = true) :
    ∃ tli log seg, fname = xlogFileNameById tli log seg := by
  rw [isXLogFileName, decide_eq_true_iff] at h
  obtain ⟨hlen, hspan⟩ := h
  have hall : ∀ c ∈ fname, hexDigits.contains c = true := by
    rw [← List.takeWhile_eq_self_iff]
    exact (List.takeWhile_prefix _).eq_of_length (hspan.trans hlen.symm)
  have hlen' : fname.length = 24 := hlen
  obtain ⟨tli, htli⟩ : ∃ n, fname.take 8 = format08X n :=
    exists_format08X (by simp [hlen']) fun c hc => hall c (List.mem_of_mem_take hc)
  obtain ⟨log, hlog⟩ : ∃ n, (fname.drop 8).take 8 = format08X n :=
    exists_format08X (by simp [hlen']) fun c hc =>
      hall c (List.mem_of_mem_drop (List.mem_of_mem_take hc))
  obtain ⟨seg, hseg⟩ : ∃ n, (fname.drop 8).drop 8 = format08X n :=
    exists_format08X (by simp [hlen']) fun c hc =>
      hall c (List.mem_of_mem_drop (List.mem_of_mem_drop hc))
  refine ⟨tli, log, seg, ?_⟩
  rw [xlogFileNameById, ← htli, ← hlog, ← hseg, List.append_assoc, List.take_append_drop,
    List.take_append_drop]

/-- A name whose last field is the number of a segment in 4 GB is that of a segment. -/
theorem xlogFileName_of_byId (h : SizePow walSegszBytes k) (tli log : BitVec 32)
    {seg : BitVec 32} (hseg : seg.toNat < (xlogSegmentsPerXLogId walSegszBytes).toNat) :
    ∃ segno, Addressable walSegszBytes segno ∧
      xlogFileName tli segno walSegszBytes = xlogFileNameById tli log seg := by
  rw [h.perId_toNat] at hseg
  have hpos : 0 < 2 ^ (32 - k) := Nat.two_pow_pos _
  have hmul := h.perId_mul
  have hle : 2 ^ (32 - k) ≤ 2 ^ 32 := Nat.pow_le_pow_right (by decide) (Nat.sub_le 32 k)
  have hlog : (log.toNat + 1) * 2 ^ (32 - k) ≤ 2 ^ 32 * 2 ^ (32 - k) :=
    Nat.mul_le_mul_right _ log.isLt
  rw [Nat.succ_mul] at hlog
  have hlt : log.toNat * 2 ^ (32 - k) + seg.toNat < 2 ^ 64 := by omega
  have hnat : (BitVec.ofNat 64 (log.toNat * 2 ^ (32 - k) + seg.toNat)).toNat
      = log.toNat * 2 ^ (32 - k) + seg.toNat := by
    rw [BitVec.toNat_ofNat, Nat.mod_eq_of_lt hlt]
  have ha : Addressable walSegszBytes
      (BitVec.ofNat 64 (log.toNat * 2 ^ (32 - k) + seg.toNat)) := by
    rw [Addressable, hnat, h.size_toNat]
    calc (log.toNat * 2 ^ (32 - k) + seg.toNat) * 2 ^ k
        < 2 ^ 32 * 2 ^ (32 - k) * 2 ^ k :=
          Nat.mul_lt_mul_of_pos_right (by omega) (Nat.two_pow_pos k)
      _ = 2 ^ 64 := by
          rw [Nat.mul_assoc, hmul, ← Nat.pow_add]
  refine ⟨_, ha, ?_⟩
  have hquot : (BitVec.ofNat 64 (log.toNat * 2 ^ (32 - k) + seg.toNat)
      / xlogSegmentsPerXLogId walSegszBytes).setWidth 32 = log := by
    apply BitVec.eq_of_toNat_eq
    rw [h.log_toNat ha, hnat, Nat.add_comm, Nat.add_mul_div_right _ _ hpos,
      Nat.div_eq_of_lt hseg, Nat.zero_add]
  have hrem : (BitVec.ofNat 64 (log.toNat * 2 ^ (32 - k) + seg.toNat)
      % xlogSegmentsPerXLogId walSegszBytes).setWidth 32 = seg := by
    apply BitVec.eq_of_toNat_eq
    rw [h.rem_toNat, hnat, Nat.add_comm, Nat.add_mul_mod_self_right, Nat.mod_eq_of_lt hseg]
  rw [xlogFileName, hquot, hrem]
  rfl

/-- **Names, segments and positions.** For every valid segment size: a name is read back
as the timeline and the segment it was made of; a position is that of its offset in its
segment, and the other way round; the previous segment of a position is the segment of
the position before; every name is found to be one, and what is found to be one is the
name of what it is read as, if its last field is the number of a segment in 4 GB; and the
byte order of names is the order of the timelines, and within one, of the segments. -/
theorem walNames (walSegszBytes : BitVec 32) (hvalid : isValidWalSegSize walSegszBytes = true) :
    (∀ tli segno, Addressable walSegszBytes segno →
      xlogFromFileName (xlogFileName tli segno walSegszBytes) walSegszBytes
        = some (tli, segno)) ∧
    (∀ lsn, Addressable walSegszBytes (xlByteToSeg lsn walSegszBytes) ∧
      xlogSegNoOffsetToRecPtr (xlByteToSeg lsn walSegszBytes)
        (xlogSegmentOffset lsn walSegszBytes) walSegszBytes = lsn) ∧
    (∀ segno offset, Addressable walSegszBytes segno →
      offset.toNat < walSegszBytes.toNat →
      xlByteToSeg (xlogSegNoOffsetToRecPtr segno offset walSegszBytes) walSegszBytes = segno ∧
      xlogSegmentOffset (xlogSegNoOffsetToRecPtr segno offset walSegszBytes) walSegszBytes
        = offset) ∧
    (∀ lsn, xlByteToPrevSeg lsn walSegszBytes = xlByteToSeg (lsn - 1) walSegszBytes ∧
      (xlByteToSeg lsn walSegszBytes).toNat = lsn.toNat / walSegszBytes.toNat) ∧
    (∀ tli segno, isXLogFileName (xlogFileName tli segno walSegszBytes) = true) ∧
    (∀ fname, isXLogFileName fname = true → ∃ tli log seg,
      fname = xlogFileNameById tli log seg ∧
      (seg.toNat < (xlogSegmentsPerXLogId walSegszBytes).toNat → ∃ segno,
        Addressable walSegszBytes segno ∧
        xlogFromFileName fname walSegszBytes = some (tli, segno) ∧
        xlogFileName tli segno walSegszBytes = fname)) ∧
    ∀ tli tli' segno segno', Addressable walSegszBytes segno →
      Addressable walSegszBytes segno' →
      strcmp (xlogFileName tli segno walSegszBytes) (xlogFileName tli' segno' walSegszBytes)
        = (compare tli.toNat tli'.toNat).then (compare segno.toNat segno'.toNat) := by
  obtain ⟨k, h⟩ := sizePow_of_isValid hvalid
  refine ⟨fun tli segno ha => xlogFromFileName_xlogFileName h ha, fun lsn => ?_,
    fun segno offset ha ho => recPtr_segment h ha ho, fun lsn => ⟨rfl, ?_⟩,
    fun tli segno => isXLogFileName_xlogFileName tli segno walSegszBytes,
    fun fname hf => ?_,
    fun tli tli' segno segno' ha ha' => strcmp_xlogFileName h ha ha'⟩
  · have hdiv := Nat.div_add_mod' lsn.toNat (2 ^ k)
    have hseg := h.seg_toNat lsn
    have hoff := h.offset_toNat lsn
    have hlt := lsn.isLt
    constructor
    · rw [Addressable, h.size_toNat, hseg]
      omega
    · apply BitVec.eq_of_toNat_eq
      rw [h.recPtr_toNat _ _ (by rw [hseg, hoff, hdiv]; exact hlt), hseg, hoff, hdiv]
  · rw [h.seg_toNat, h.size_toNat]
  · obtain ⟨tli, log, seg, rfl⟩ := exists_xlogFileNameById hf
    refine ⟨tli, log, seg, rfl, fun hseg => ?_⟩
    obtain ⟨segno, ha, hname⟩ := xlogFileName_of_byId h tli log hseg
    rw [← hname]
    exact ⟨segno, ha, xlogFromFileName_xlogFileName h ha, rfl⟩

/-- Segments of 16 MB: the second segment of the second 4 GB, on timeline one. -/
theorem walNames_16MB :
    xlogFromFileName (xlogFileName 1 257 0x1000000) 0x1000000 = some (1, 257) ∧
      xlogFileName 1 257 0x1000000 = "000000010000000100000001".toList ∧
      strcmp (xlogFileName 1 255 0x1000000) (xlogFileName 1 256 0x1000000) = .lt :=
  have h := walNames 0x1000000 (by decide)
  ⟨h.1 1 257 (by unfold Addressable; decide), by decide,
    h.2.2.2.2.2.2 1 1 255 256 (by unfold Addressable; decide) (by unfold Addressable; decide)⟩

end XlogInternal
