import Mathlib.Tactic.IntervalCases
import PgCitus.ArrayType

/-!
# Going through the elements of an array

`array_iter_setup` and `array_iter_next` of `utils/arrayaccess.h` on flat and on expanded
arrays. In a flat array nothing says where an element starts: the iterator keeps a pointer
into the data, which it takes past each element that is not null and then to the next
address that is aligned, and a mask for one bit of a byte of the bitmap.

Elements are padded by their offset in the array, and the iterator aligns addresses; the
two agree because the array itself is aligned (`attAlignNominal_add`). `iterate_walking`
follows the iterator from element to element, with any memory after the data and after
the bitmap, so that it cannot depend on what it would find there.
-/

namespace PgArray

open Tupmacs

/-- A `Datum`: a value, or a pointer. -/
inductive Datum where
  | value (x : BitVec 64)
  | pointer (p : CharPtr)

/-- `fetch_att`. `char` is signed, and so are the integers that are extended. -/
def fetchAtt (p : CharPtr) (attbyval : Bool) (attlen : ℤ) : Option Datum :=
  if attbyval then
    if attlen = 8 then (readWord 8 p.mem).map .value
    else if attlen = 4 then (readWord 4 p.mem).map fun w => .value (w.signExtend 64)
    else if attlen = 2 then (readWord 2 p.mem).map fun w => .value (w.signExtend 64)
    else if attlen = 1 then (readWord 1 p.mem).map fun w => .value (w.signExtend 64)
    else none
  else some (.pointer p)

/-- `EOH_HEADER_MAGIC`. -/
def eohHeaderMagic : BitVec 32 := -1

/-- `ExpandedArrayHeader`. -/
structure ExpandedArrayHeader where
  vlLen : BitVec 32
  /-- Expanded objects are recognised by it. -/
  magic : vlLen = eohHeaderMagic
  /-- The elements, or `NULL`. -/
  dvalues : Option (List Datum)
  /-- Which of them are null; `NULL` if there are none. -/
  dnulls : Option (List Bool)
  /-- The flat array, or `NULL`. -/
  fvalue : Option CharPtr

/-- `AnyArrayType`. -/
inductive AnyArrayType where
  | flt (a : CharPtr)
  | xpn (eah : ExpandedArrayHeader)

/-- `VARATT_IS_EXPANDED_HEADER`. -/
def varattIsExpandedHeader : AnyArrayType → Option Bool
  | .flt a => (readWord 4 a.mem).map fun header : BitVec 32 => header == eohHeaderMagic
  | .xpn eah => some (eah.vlLen == eohHeaderMagic)

/-- `array_iter`. -/
structure ArrayIter where
  datumptr : Option (List Datum)
  isnullptr : Option (List Bool)
  dataptr : Option CharPtr
  bitmapptr : Option CharPtr
  bitmask : BitVec 32

/-- An iterator for a flat array. -/
def flatSetup (a : CharPtr) : Option ArrayIter := do
  let dataptr ← arrDataPtr a
  let bitmapptr ← arrNullbitmap a
  return ⟨none, none, some dataptr, bitmapptr, 1⟩

/-- `array_iter_setup`. -/
def arrayIterSetup (a : AnyArrayType) : Option ArrayIter := do
  let expanded ← varattIsExpandedHeader a
  match expanded, a with
  | true, .xpn eah =>
    match eah.dvalues with
    | some dvalues => return ⟨some dvalues, eah.dnulls, none, none, 1⟩
    | none =>
      let fvalue ← eah.fvalue
      flatSetup fvalue
  | false, .flt a => flatSetup a
  | _, _ => none

/-- The test of the bitmap. -/
def bitmapSaysNull (it : ArrayIter) : Option Bool :=
  match it.bitmapptr with
  | some bitmapptr => bitmapptr.mem.head?.map fun b => b.setWidth 32 &&& it.bitmask == 0
  | none => some false

/-- The step to the next bit, whether there is a bitmap or not. -/
def nextBit (it : ArrayIter) : ArrayIter :=
  let bitmask := it.bitmask <<< 1
  if bitmask = 0x100 then
    { it with bitmapptr := it.bitmapptr.map (·.add 1), bitmask := 1 }
  else { it with bitmask }

/-- `isnullptr ? isnullptr[i] : false`. -/
def isnullAt (isnullptr : Option (List Bool)) (i : ℕ) : Option Bool :=
  match isnullptr with
  | some isnullptr => isnullptr[i]?
  | none => some false

/-- `array_iter_next`: the element, whether it is null, and the iterator then. -/
def arrayIterNext (it : ArrayIter) (i : ℕ) (T : ElementType) :
    Option (Datum × Bool × ArrayIter) :=
  match it.datumptr with
  | some datumptr => do
    let ret ← datumptr[i]?
    let isnull ← isnullAt it.isnullptr i
    return (ret, isnull, it)
  | none => do
    if ← bitmapSaysNull it then
      return (.value 0, true, nextBit it)
    else
      let dataptr ← it.dataptr
      let ret ← fetchAtt dataptr T.elmbyval T.elmlen
      let next ← attAddlengthPointer dataptr.addr T.elmlen dataptr.mem
      let dataptr := dataptr.moveTo (attAlignNominal next T.elmalign)
      return (ret, false, nextBit { it with dataptr := some dataptr })

/-- The elements that calls of `array_iter_next` for `i` and the following give. -/
def iterate (T : ElementType) : ℕ → ℕ → ArrayIter → Option (List (Datum × Bool))
  | 0, _, _ => some []
  | n + 1, i, it => do
    let (ret, isnull, it) ← arrayIterNext it i T
    let elements ← iterate T n (i + 1) it
    return (ret, isnull) :: elements

/-! ## What stands for an element -/

/-- The `Datum` that the conversions (`Int32GetDatum` and the like) make of a value of
some length: its lowest bytes, extended. -/
def getDatum (attlen : ℕ) (datum : BitVec 64) : BitVec 64 :=
  (datum.setWidth (8 * attlen)).signExtend 64

/-- **A `Datum` that is a value**: it has its lowest bytes, or points to its bytes. -/
def Represents (v : Value) (datum : Datum) : Prop :=
  match v, datum with
  | .byVal attlen _ d, .value x => x.setWidth (8 * attlen) = d.setWidth (8 * attlen)
  | .byVal _ _ _, .pointer _ => False
  | _, .value _ => False
  | v, .pointer p => v.bytes <+: p.mem

/-- **What is fetched of an element**: a null comes with zero, a value by value is as the
conversions make it. -/
def Fetched (e : Option Value) (elem : Datum × Bool) : Prop :=
  match e with
  | none => elem = (.value 0, true)
  | some v => elem.2 = false ∧ Represents v elem.1 ∧
      ∀ attlen hlen datum, v = .byVal attlen hlen datum →
        elem.1 = .value (getDatum attlen datum)

/-- **What an expanded array may hold for an element.** -/
def Holds (e : Option Value) (elem : Datum × Bool) : Prop :=
  match e with
  | none => elem.2 = true
  | some v => elem.2 = false ∧ Represents v elem.1

/-! ## Fetching an element -/

variable {T : ElementType}

/-- The conversions keep the value. -/
theorem setWidth_getDatum {attlen : ℕ} (h : attlen ∈ [1, 2, 4, 8]) (datum : BitVec 64) :
    (getDatum attlen datum).setWidth (8 * attlen) = datum.setWidth (8 * attlen) := by
  have hle : 8 * attlen ≤ 64 := by
    simp only [List.mem_cons, List.not_mem_nil, or_false] at h
    omega
  refine BitVec.eq_of_getLsbD_eq fun j hj => ?_
  rw [getDatum, BitVec.getLsbD_setWidth, BitVec.getLsbD_signExtend, BitVec.getLsbD_setWidth,
    if_pos hj, decide_eq_true hj, decide_eq_true (hj.trans_le hle)]
  rfl

/-- The word of a value, extended. -/
theorem readWord_getDatum (attlen : ℕ) (datum : BitVec 64) (rest : Ptr) :
    ((readWord attlen (wordBytes attlen datum ++ rest)).map fun w =>
      Datum.value (w.signExtend 64)) = some (.value (getDatum attlen datum)) := by
  rw [readWord_wordBytes]
  rfl

theorem fetchAtt_byVal {attlen : ℕ} (h : attlen ∈ [1, 2, 4, 8]) (datum : BitVec 64) (addr : ℕ)
    (rest : Ptr) : fetchAtt ⟨addr, wordBytes attlen datum ++ rest⟩ true attlen =
      some (.value (getDatum attlen datum)) := by
  simp only [List.mem_cons, List.not_mem_nil, or_false] at h
  rcases h with rfl | rfl | rfl | rfl
  · exact readWord_getDatum 1 datum rest
  · exact readWord_getDatum 2 datum rest
  · exact readWord_getDatum 4 datum rest
  · -- a whole `Datum` is not extended
    have hext := readWord_getDatum 8 datum rest
    simp only [BitVec.signExtend_eq] at hext
    exact hext

/-- **A value is fetched as it was stored.** -/
theorem fetchAtt_bytes {v : Value} (hv : T.Has v) (addr : ℕ) (rest : Ptr) :
    ∃ ret, fetchAtt ⟨addr, v.bytes ++ rest⟩ T.elmbyval T.elmlen = some ret ∧
      Fetched (some v) (ret, false) := by
  obtain ⟨hlen, hbyval⟩ := hv
  rw [← hlen, ← hbyval]
  cases v with
  | byVal attlen hmem datum =>
    refine ⟨.value (getDatum attlen datum), ?_, rfl, setWidth_getDatum hmem datum, ?_⟩
    · exact fetchAtt_byVal hmem datum addr rest
    · rintro attlen' hlen' datum' heq
      obtain ⟨rfl, rfl⟩ := Value.byVal.inj heq
      rfl
  | byRef bytes hne => exact ⟨_, rfl, rfl, List.prefix_append _ _, fun _ _ _ h => nomatch h⟩
  | short data hlen => exact ⟨_, rfl, rfl, List.prefix_append _ _, fun _ _ _ h => nomatch h⟩
  | fourByte data hlen =>
    exact ⟨_, rfl, rfl, List.prefix_append _ _, fun _ _ _ h => nomatch h⟩
  | compressed data hlen =>
    exact ⟨_, rfl, rfl, List.prefix_append _ _, fun _ _ _ h => nomatch h⟩
  | external tag data hsize =>
    exact ⟨_, rfl, rfl, List.prefix_append _ _, fun _ _ _ h => nomatch h⟩
  | cstring chars hzero =>
    exact ⟨_, rfl, rfl, List.prefix_append _ _, fun _ _ _ h => nomatch h⟩

/-! ## Alignment -/

/-- Aligning is rounding up. -/
theorem typealign_eq (k len : ℕ) : typealign (2 ^ k) len = (len + (2 ^ k - 1)) / 2 ^ k * 2 ^ k :=
  ldiff_two_pow _ k

/-- What is before an aligned place does not count. -/
theorem typealign_add {k a : ℕ} (h : 2 ^ k ∣ a) (off : ℕ) :
    typealign (2 ^ k) (a + off) = a + typealign (2 ^ k) off := by
  obtain ⟨c, rfl⟩ := h
  rw [typealign_eq, typealign_eq, Nat.add_assoc, Nat.mul_add_div (Nat.two_pow_pos k),
    Nat.add_mul, Nat.mul_comm c]

/-- **Aligning an address is aligning the offset**, in an array that is aligned. -/
theorem attAlignNominal_add {attalign : TypAlign} {addr : ℕ} (h : alignval attalign ∣ addr)
    (off : ℕ) : attAlignNominal (addr + off) attalign = addr + attAlignNominal off attalign := by
  cases attalign with
  | char => rfl
  | short => exact typealign_add (k := 1) h off
  | int => exact typealign_add (k := 2) h off
  | double => exact typealign_add (k := 3) h off

/-! ## The bitmap -/

/-- The mask for a bit of a byte. -/
def bitmaskFor (k : ℕ) : BitVec 32 := 1 <<< k

/-- The mask tests its bit. -/
theorem and_bitmaskFor {k : ℕ} (hk : k < 8) (b : BitVec 8) :
    (b.setWidth 32 &&& bitmaskFor k == 0) = !b.getLsbD k := by
  have hmask : bitmaskFor k = BitVec.twoPow 32 k := (BitVec.twoPow_eq 32 k).symm
  have hne : BitVec.twoPow 32 k ≠ 0 := by
    rw [ne_eq, ← BitVec.toNat_inj, BitVec.toNat_twoPow_of_lt (by omega)]
    exact (Nat.two_pow_pos k).ne'
  rw [hmask, BitVec.and_twoPow, BitVec.getLsbD_setWidth, decide_eq_true (show k < 32 by omega),
    Bool.true_and]
  cases b.getLsbD k with
  | true => exact beq_eq_false_iff_ne.mpr hne
  | false => rfl

/-- The mask moves to the next bit, and meets `0x100` after the last one. -/
theorem bitmaskFor_shiftLeft {k : ℕ} (hk : k < 8) :
    bitmaskFor k <<< 1 = bitmaskFor (k + 1) ∧ (bitmaskFor (k + 1) = 0x100 ↔ k = 7) := by
  refine ⟨(BitVec.shiftLeft_add (1 : BitVec 32) k 1).symm, ?_⟩
  revert k
  decide

/-- **A bitmap for the elements to come**: their bits begin with bit `k` of the byte that
the pointer is at. -/
def BitmapAt (bitmapptr : Option CharPtr) (k : ℕ) (elements : List (Option Value)) : Prop :=
  match bitmapptr with
  | none => none ∉ elements
  | some p => ∀ j e, elements[j]? = some e →
    ∃ b, p.mem[(k + j) / 8]? = some b ∧ b.getLsbD ((k + j) % 8) = e.isSome

/-- The bit of an element says whether it is null. -/
theorem BitmapAt.saysNull {bitmapptr : Option CharPtr} {k : ℕ} (hk : k < 8)
    {e : Option Value} {elements : List (Option Value)}
    (h : BitmapAt bitmapptr k (e :: elements)) (dataptr : Option CharPtr) :
    bitmapSaysNull ⟨none, none, dataptr, bitmapptr, bitmaskFor k⟩ = some e.isNone := by
  cases bitmapptr with
  | none =>
    cases e with
    | none => exact absurd List.mem_cons_self h
    | some v => rfl
  | some p =>
    obtain ⟨b, hb, hbit⟩ := h 0 e rfl
    rw [Nat.add_zero, Nat.div_eq_of_lt hk] at hb
    rw [Nat.add_zero, Nat.mod_eq_of_lt hk] at hbit
    show p.mem.head?.map _ = _
    rw [List.head?_eq_getElem?, hb, Option.map_some, and_bitmaskFor hk, hbit,
      Option.not_isSome]

/-- The next bit of the same byte. -/
theorem BitmapAt.tail {bitmapptr : Option CharPtr} {k : ℕ} {e : Option Value}
    {elements : List (Option Value)} (h : BitmapAt bitmapptr k (e :: elements)) :
    BitmapAt bitmapptr (k + 1) elements := by
  cases bitmapptr with
  | none => exact fun hmem => h (List.mem_cons_of_mem e hmem)
  | some p =>
    intro j e' hj
    have hentry := h (j + 1) e' hj
    rwa [← Nat.add_assoc, Nat.add_right_comm] at hentry

/-- Eight bits on is one byte on. -/
theorem BitmapAt.nextByte {bitmapptr : Option CharPtr} {elements : List (Option Value)}
    (h : BitmapAt bitmapptr 8 elements) : BitmapAt (bitmapptr.map (·.add 1)) 0 elements := by
  cases bitmapptr with
  | none => exact h
  | some p =>
    intro j e hj
    obtain ⟨b, hb, hbit⟩ := h j e hj
    refine ⟨b, ?_, by rwa [Nat.add_mod_left, ← Nat.zero_add j] at hbit⟩
    show (p.mem.drop 1)[(0 + j) / 8]? = _
    rw [List.getElem?_drop, Nat.zero_add, Nat.add_comm, ← Nat.add_div_left j (by decide : 0 < 8)]
    exact hb

/-- **The next bit is that of the next element.** -/
theorem BitmapAt.next {bitmapptr : Option CharPtr} {k : ℕ} (hk : k < 8) {e : Option Value}
    {elements : List (Option Value)} (h : BitmapAt bitmapptr k (e :: elements))
    (dataptr : Option CharPtr) : ∃ bitmapptr' k', k' < 8 ∧
      nextBit ⟨none, none, dataptr, bitmapptr, bitmaskFor k⟩ =
        ⟨none, none, dataptr, bitmapptr', bitmaskFor k'⟩ ∧
      BitmapAt bitmapptr' k' elements := by
  obtain ⟨hshift, hlast⟩ := bitmaskFor_shiftLeft hk
  have hnext : nextBit ⟨none, none, dataptr, bitmapptr, bitmaskFor k⟩ =
      if k = 7 then ⟨none, none, dataptr, bitmapptr.map (·.add 1), bitmaskFor 0⟩
      else ⟨none, none, dataptr, bitmapptr, bitmaskFor (k + 1)⟩ := by
    unfold nextBit
    dsimp only
    rw [hshift, if_congr hlast rfl rfl]
    rfl
  rw [hnext]
  by_cases hk7 : k = 7
  · subst hk7
    exact ⟨_, 0, by decide, if_pos rfl, h.tail.nextByte⟩
  · exact ⟨_, k + 1, by omega, if_neg hk7, h.tail⟩

/-! ## From element to element -/

/-- **An iterator on its way**: its pointer is where the elements to come are packed, and
its mask and its bitmap are at their bits. What comes after the data may be anything. -/
def Walking (T : ElementType) (addr : ℕ) (elements : List (Option Value)) (it : ArrayIter) :
    Prop :=
  ∃ off data rest bitmapptr k, k < 8 ∧ Packed T.elmalign off elements data ∧
    BitmapAt bitmapptr k elements ∧
    it = ⟨none, none, some ⟨addr + off, data ++ rest⟩, bitmapptr, bitmaskFor k⟩

/-- A pointer moved on over the bytes it is at. -/
theorem moveTo_append (addr : ℕ) (bytes rest : Ptr) {target : ℕ}
    (h : target = addr + bytes.length) :
    (CharPtr.mk addr (bytes ++ rest)).moveTo target = ⟨target, rest⟩ := by
  subst h
  show CharPtr.mk (addr + (addr + bytes.length - addr)) _ = _
  rw [Nat.add_sub_cancel_left, List.drop_left]

/-- **One call** gives the next element and leaves the iterator at the one after it. -/
theorem Walking.next {addr : ℕ} (haddr : alignval T.elmalign ∣ addr) {e : Option Value}
    {elements : List (Option Value)} (htyped : ∀ v, e = some v → T.Has v) {it : ArrayIter}
    (h : Walking T addr (e :: elements) it) (i : ℕ) :
    ∃ ret isnull it', arrayIterNext it i T = some (ret, isnull, it') ∧
      Fetched e (ret, isnull) ∧ Walking T addr elements it' := by
  obtain ⟨off, data, rest, bitmapptr, k, hk, hpacked, hbitmap, rfl⟩ := h
  unfold arrayIterNext
  dsimp only
  rw [hbitmap.saysNull hk]
  cases hpacked with
  | null hpacked =>
    obtain ⟨bitmapptr', k', hk', hnext, hbitmap'⟩ := hbitmap.next hk
      (some ⟨addr + off, data ++ rest⟩)
    refine ⟨.value 0, true, _, rfl, rfl, off, data, rest, bitmapptr', k', hk', hpacked,
      hbitmap', hnext⟩
  | @value _ _ data v pad hpad hpacked =>
    have hv := htyped v rfl
    -- where the element after this one is
    have halign : attAlignNominal (addr + off + v.bytes.length) T.elmalign =
        addr + (off + v.bytes.length + pad.length) := by
      rw [Nat.add_assoc, attAlignNominal_add haddr, ← hpad]
    have hmem : v.bytes ++ (pad ++ data) ++ rest = v.bytes ++ (pad ++ (data ++ rest)) := by
      rw [List.append_assoc, List.append_assoc]
    obtain ⟨ret, hret, hfetched⟩ := fetchAtt_bytes hv (addr + off) (pad ++ (data ++ rest))
    have hlength := attAddlength_agree v (addr + off) (pad ++ (data ++ rest))
    rw [hv.1] at hlength
    have hmove : (CharPtr.mk (addr + off) (v.bytes ++ (pad ++ (data ++ rest)))).moveTo
        (addr + (off + v.bytes.length + pad.length)) =
          ⟨addr + (off + v.bytes.length + pad.length), data ++ rest⟩ := by
      rw [← List.append_assoc]
      refine moveTo_append _ _ _ ?_
      rw [List.length_append]
      omega
    obtain ⟨bitmapptr', k', hk', hnext, hbitmap'⟩ := hbitmap.next hk
      (some ⟨addr + (off + v.bytes.length + pad.length), data ++ rest⟩)
    refine ⟨ret, false, _, ?_, hfetched, _, data, rest, bitmapptr', k', hk', hpacked,
      hbitmap', hnext⟩
    rw [hmem]
    show (fetchAtt _ _ _).bind _ = _
    rw [hret, Option.bind_some]
    show (attAddlengthPointer _ _ _).bind _ = _
    rw [hlength, Option.bind_some, halign, hmove]
    rfl

/-- **Calls for all elements give all elements.** -/
theorem iterate_walking {addr : ℕ} (haddr : alignval T.elmalign ∣ addr)
    {elements : List (Option Value)} (htyped : ∀ v, some v ∈ elements → T.Has v) (i : ℕ)
    {it : ArrayIter} (h : Walking T addr elements it) :
    ∃ l, iterate T elements.length i it = some l ∧ List.Forall₂ Fetched elements l := by
  induction elements generalizing i it with
  | nil => exact ⟨[], rfl, .nil⟩
  | cons e elements ih =>
    obtain ⟨ret, isnull, it', hnext, hfetched, hwalking⟩ := h.next haddr
      (fun v hv => htyped v (hv ▸ List.mem_cons_self)) i
    obtain ⟨l, hl, hall⟩ := ih (fun v hv => htyped v (List.mem_cons_of_mem e hv)) (i + 1)
      hwalking
    refine ⟨(ret, isnull) :: l, ?_, .cons hfetched hall⟩
    rw [List.length_cons, iterate, hnext]
    show (iterate T elements.length (i + 1) it').bind _ = _
    rw [hl]
    rfl

/-! ## Flat arrays -/

/-- A length word is not taken for that of an expanded object. -/
theorem setVarsize4b_ne_magic {len : ℕ} (h : len < 2 ^ 30) : setVarsize4b len ≠ eohHeaderMagic := by
  rw [ne_eq, ← BitVec.toNat_inj, setVarsize4b_toNat h]
  show ¬ 4 * len = 4294967295
  omega

theorem varattIsExpandedHeader_flt (A : FlatArray T) (addr : ℕ) (rest : Ptr) :
    varattIsExpandedHeader (.flt (A.ptr addr rest)) = some false := by
  show (readWord 4 (A.bytes ++ rest)).map (fun header : BitVec 32 => header == eohHeaderMagic) = _
  rw [ArrayParts.bytes, List.append_assoc, readWord_wordBytes_four, Option.map_some,
    beq_eq_false_iff_ne.mpr (setVarsize4b_ne_magic A.size_lt)]

theorem arrHasnull_ptr (A : FlatArray T) (addr : ℕ) (rest : Ptr) :
    arrHasnull (A.ptr addr rest) = some A.nullbitmap.isSome := by
  rw [arrHasnull, arrDataoffset_ptr, Option.map_some]
  cases A.nullbitmap with
  | none => rfl
  | some bits =>
    have hlt : A.offset < 2 ^ 30 := (Nat.le_add_right _ _).trans_lt A.size_lt
    have hpos : 0 < A.offset := by
      rw [ArrayParts.offset, sizeofArrayType]
      omega
    have hne : BitVec.ofNat 32 A.offset ≠ 0 := by
      rw [ne_eq, ← BitVec.toNat_inj, BitVec.toNat_ofNat, Nat.mod_eq_of_lt (by omega)]
      exact hpos.ne'
    exact congrArg some (bne_iff_ne.mpr hne)

theorem toNat_ndim (A : FlatArray T) : (BitVec.ofNat 32 A.dims.length).toNat = A.dims.length := by
  have hle : A.dims.length ≤ 6 := A.ndim_le
  rw [BitVec.toNat_ofNat, Nat.mod_eq_of_lt (by omega)]

/-- The bitmap is found where it is. -/
theorem arrNullbitmap_ptr (A : FlatArray T) (addr : ℕ) (rest : Ptr) :
    arrNullbitmap (A.ptr addr rest) = some (A.nullbitmap.map fun bits =>
      ⟨addr + (sizeofArrayType + 2 * 4 * A.dims.length),
        bits ++ (A.pad ++ (A.data ++ rest))⟩) := by
  have hdrop := drop_dims A rest
  rw [arrNullbitmap, arrHasnull_ptr, arrNdim_ptr]
  cases hbits : A.nullbitmap with
  | none => rfl
  | some bits =>
    rw [hbits] at hdrop
    show some (some (CharPtr.mk _ ((A.bytes ++ rest).drop (_ + _ * (BitVec.ofNat 32 _).toNat)))) = _
    rw [toNat_ndim, hdrop]
    rfl

/-- The data is found where it is. -/
theorem arrDataPtr_ptr (A : FlatArray T) (addr : ℕ) (rest : Ptr) :
    arrDataPtr (A.ptr addr rest) = some ⟨addr + A.offset, A.data ++ rest⟩ := by
  have hoffset : arrDataOffset (A.ptr addr rest) = some A.offset := by
    rw [arrDataOffset, arrHasnull_ptr, arrDataoffset_ptr, arrNdim_ptr]
    cases hbits : A.nullbitmap with
    | none =>
      show some (arrOverheadNonulls (BitVec.ofNat 32 A.dims.length).toNat) = _
      rw [toNat_ndim, A.offset_eq hbits]
    | some bits =>
      have hlt : A.offset < 2 ^ 30 := (Nat.le_add_right _ _).trans_lt A.size_lt
      show some (BitVec.ofNat 32 A.offset).toNat = _
      rw [BitVec.toNat_ofNat, Nat.mod_eq_of_lt (by omega)]
  rw [arrDataPtr, hoffset, ← drop_offset A rest]
  rfl

/-- **The iterator at the first element**, whatever comes after the data and the bitmap. -/
theorem walking_start (A : FlatArray T) (addr bitmapAddr : ℕ) (rest rest' : Ptr) :
    Walking T addr A.elements ⟨none, none, some ⟨addr + A.offset, A.data ++ rest⟩,
      A.nullbitmap.map fun bits => ⟨bitmapAddr, bits ++ rest'⟩, 1⟩ := by
  refine ⟨A.offset, A.data, rest, _, 0, by decide, A.packed, ?_, rfl⟩
  cases hbits : A.nullbitmap with
  | none => exact A.no_bitmap hbits
  | some bits =>
    intro j e hj
    obtain ⟨b, hb, hbit⟩ := A.bitmap_bit bits hbits j e hj
    obtain ⟨hlt, -⟩ := List.getElem?_eq_some_iff.mp hb
    refine ⟨b, ?_, by rw [Nat.zero_add]; exact hbit⟩
    rw [Nat.zero_add, List.getElem?_append_left hlt, hb]

/-- `array_iter_setup` of a flat array. -/
theorem flatSetup_ptr (A : FlatArray T) (addr : ℕ) (rest : Ptr) :
    flatSetup (A.ptr addr rest) = some ⟨none, none, some ⟨addr + A.offset, A.data ++ rest⟩,
      A.nullbitmap.map fun bits => ⟨addr + (sizeofArrayType + 2 * 4 * A.dims.length),
        bits ++ (A.pad ++ (A.data ++ rest))⟩, 1⟩ := by
  rw [flatSetup, arrDataPtr_ptr, arrNullbitmap_ptr]
  rfl

/-! ## The ends of the bitmap and of the data -/

/-- The iterator with pointers that may be read for so many bytes only. -/
def ArrayIter.within (it : ArrayIter) (bitmapBytes dataBytes : ℕ) : ArrayIter :=
  { it with
    dataptr := it.dataptr.map fun p => ⟨p.addr, p.mem.take dataBytes⟩
    bitmapptr := it.bitmapptr.map fun p => ⟨p.addr, p.mem.take bitmapBytes⟩ }

/-- Nothing behind the bitmap and behind the data is needed. -/
theorem within_walking (A : FlatArray T) (addr : ℕ) (rest : Ptr) {it : ArrayIter}
    (h : flatSetup (A.ptr addr rest) = some it) :
    Walking T addr A.elements
      (it.within ((A.elements.length + 7) / 8) A.data.length) := by
  have hstart := walking_start A addr (addr + (sizeofArrayType + 2 * 4 * A.dims.length)) [] []
  rw [flatSetup_ptr, Option.some.injEq] at h
  subst h
  have hbitmap : ((A.nullbitmap.map fun bits =>
      (⟨addr + (sizeofArrayType + 2 * 4 * A.dims.length),
        bits ++ (A.pad ++ (A.data ++ rest))⟩ : CharPtr)).map fun p =>
          (⟨p.addr, p.mem.take ((A.elements.length + 7) / 8)⟩ : CharPtr)) =
      A.nullbitmap.map fun bits =>
        ⟨addr + (sizeofArrayType + 2 * 4 * A.dims.length), bits ++ []⟩ := by
    cases hbits : A.nullbitmap with
    | none => rfl
    | some bits =>
      show some (CharPtr.mk _ ((bits ++ _).take _)) = some ⟨_, bits ++ []⟩
      rw [List.take_left' (A.bitmap_length bits hbits), List.append_nil]
  show Walking T addr A.elements ⟨none, none, some ⟨_, (A.data ++ rest).take _⟩, _, 1⟩
  rw [List.take_left, hbitmap]
  rw [List.append_nil] at hstart
  exact hstart

/-! ## Expanded arrays -/

/-- **What an expanded array holds at an index.** -/
def ExpandedArrayHeader.Entry (eah : ExpandedArrayHeader) (i : ℕ) (elem : Datum × Bool) : Prop :=
  ∃ dvalues, eah.dvalues = some dvalues ∧ dvalues[i]? = some elem.1 ∧
    isnullAt eah.dnulls i = some elem.2

/-- **An expanded array with these elements**, as a relation says. -/
def ExpandedArrayHeader.Deconstructs {α : Type*} (R : α → Datum × Bool → Prop)
    (eah : ExpandedArrayHeader) (elements : List α) : Prop :=
  eah.dvalues.isSome ∧ ∀ i e, elements[i]? = some e → ∃ elem, eah.Entry i elem ∧ R e elem

/-- The iterator goes through the arrays of an expanded array by the index. -/
theorem iterate_expanded {α : Type*} {R : α → Datum × Bool → Prop} {eah : ExpandedArrayHeader}
    {dvalues : List Datum} (hdvalues : eah.dvalues = some dvalues) (elements : List α) (i : ℕ)
    (h : ∀ j e, elements[j]? = some e → ∃ elem, eah.Entry (i + j) elem ∧ R e elem) :
    ∃ l, iterate T elements.length i ⟨some dvalues, eah.dnulls, none, none, 1⟩ = some l ∧
      List.Forall₂ R elements l := by
  induction elements generalizing i with
  | nil => exact ⟨[], rfl, .nil⟩
  | cons e elements ih =>
    obtain ⟨elem, ⟨dvalues', hdvalues', hvalue, hnull⟩, hR⟩ := h 0 e rfl
    rw [hdvalues, Option.some.injEq] at hdvalues'
    subst hdvalues'
    obtain ⟨l, hl, hall⟩ := ih (i + 1) fun j e' hj => by
      rw [Nat.add_assoc, Nat.add_comm 1]
      exact h (j + 1) e' hj
    refine ⟨elem :: l, ?_, .cons hR hall⟩
    have hnext : arrayIterNext ⟨some dvalues, eah.dnulls, none, none, 1⟩ i T =
        some (elem.1, elem.2, ⟨some dvalues, eah.dnulls, none, none, 1⟩) := by
      show dvalues[i]?.bind _ = _
      rw [show dvalues[i]? = some elem.1 from hvalue, Option.bind_some]
      show (isnullAt eah.dnulls i).bind _ = _
      rw [show isnullAt eah.dnulls i = some elem.2 from hnull]
      rfl
    rw [List.length_cons, iterate, hnext]
    show (iterate T elements.length (i + 1) _).bind _ = _
    rw [hl]
    rfl

/-- Setting up an iterator and going through an expanded array. -/
theorem iterate_setup_expanded {α : Type*} {R : α → Datum × Bool → Prop}
    {eah : ExpandedArrayHeader} {elements : List α} (h : eah.Deconstructs R elements) :
    ∃ it l, arrayIterSetup (.xpn eah) = some it ∧
      iterate T elements.length 0 it = some l ∧ List.Forall₂ R elements l := by
  obtain ⟨hsome, hentry⟩ := h
  obtain ⟨dvalues, hdvalues⟩ := Option.isSome_iff_exists.mp hsome
  obtain ⟨l, hl, hall⟩ := iterate_expanded (T := T) hdvalues elements 0 fun j e hj => by
    rw [Nat.zero_add]
    exact hentry j e hj
  refine ⟨_, l, ?_, hl, hall⟩
  rw [arrayIterSetup, varattIsExpandedHeader, eah.magic, BEq.rfl]
  show (match eah.dvalues with
    | some dvalues => some (⟨some dvalues, eah.dnulls, none, none, 1⟩ : ArrayIter)
    | none => eah.fvalue.bind flatSetup) = _
  rw [hdvalues]

/-! ## Flat and expanded arrays -/

/-- **The same element of a type**: both are null, or both stand for one value. -/
def SameElement (T : ElementType) (elem elem' : Datum × Bool) : Prop :=
  elem.2 = elem'.2 ∧
    (elem.2 = false → ∃ v, T.Has v ∧ Represents v elem.1 ∧ Represents v elem'.1)

/-- What is fetched of an element and what is held for it are the same element. -/
theorem Fetched.sameElement {e : Option Value} {elem elem' : Datum × Bool}
    (h : Fetched e elem) (h' : Holds e elem') (htyped : ∀ v, e = some v → T.Has v) :
    SameElement T elem elem' := by
  cases e with
  | none =>
    rw [show elem = (.value 0, true) from h]
    exact ⟨Eq.symm h', fun hf => absurd hf (by decide)⟩
  | some v => exact ⟨h.1.trans h'.1.symm, fun _ => ⟨v, htyped v rfl, h.2.1, h'.2⟩⟩

theorem forall₂_sameElement {elements : List (Option Value)} {l l' : List (Datum × Bool)}
    (htyped : ∀ v, some v ∈ elements → T.Has v) (h : List.Forall₂ Fetched elements l)
    (h' : List.Forall₂ Holds elements l') : List.Forall₂ (SameElement T) l l' := by
  induction h generalizing l' with
  | nil =>
    cases h'
    exact .nil
  | cons hfetched _ ih =>
    cases h' with
    | cons hholds hall =>
      refine .cons (hfetched.sameElement hholds fun v hv => ?_)
        (ih (fun v hv => htyped v (List.mem_cons_of_mem _ hv)) hall)
      exact htyped v (hv ▸ List.mem_cons_self)

/-- **The iterator gives the elements of a flat array**, and does so when it may read its
bitmap and its data up to their ends only. An expanded array with the same elements gives
the same sequence: element by element where they are held in their own way, exactly where
it holds what was fetched, and with the same iterator where it is but a flat array. -/
theorem arrayIter_elements (A : FlatArray T) {addr : ℕ} (haddr : alignval T.elmalign ∣ addr)
    (rest : Ptr) : ∃ it l, arrayIterSetup (.flt (A.ptr addr rest)) = some it ∧
      iterate T A.elements.length 0 it = some l ∧
      List.Forall₂ Fetched A.elements l ∧
      (∃ l', iterate T A.elements.length 0
          (it.within ((A.elements.length + 7) / 8) A.data.length) = some l' ∧
        List.Forall₂ Fetched A.elements l') ∧
      (∀ eah : ExpandedArrayHeader, eah.Deconstructs Holds A.elements →
        ∃ it' l', arrayIterSetup (.xpn eah) = some it' ∧
          iterate T A.elements.length 0 it' = some l' ∧
          List.Forall₂ (SameElement T) l l') ∧
      (∀ eah : ExpandedArrayHeader, eah.Deconstructs Eq l →
        ∃ it', arrayIterSetup (.xpn eah) = some it' ∧
          iterate T A.elements.length 0 it' = some l) ∧
      ∀ eah : ExpandedArrayHeader, eah.dvalues = none →
        eah.fvalue = some (A.ptr addr rest) → arrayIterSetup (.xpn eah) = some it := by
  obtain ⟨it, hit⟩ : ∃ it, flatSetup (A.ptr addr rest) = some it :=
    ⟨_, flatSetup_ptr A addr rest⟩
  have hwalking : Walking T addr A.elements it := by
    have hstart := walking_start A addr (addr + (sizeofArrayType + 2 * 4 * A.dims.length))
      rest (A.pad ++ (A.data ++ rest))
    rw [flatSetup_ptr, Option.some.injEq] at hit
    exact hit ▸ hstart
  obtain ⟨l, hl, hall⟩ := iterate_walking haddr A.typed 0 hwalking
  refine ⟨it, l, ?_, hl, hall, ?_, fun eah heah => ?_, fun eah heah => ?_, fun eah hd hf => ?_⟩
  · rw [arrayIterSetup, varattIsExpandedHeader_flt]
    exact hit
  · exact iterate_walking haddr A.typed 0 (within_walking A addr rest hit)
  · obtain ⟨it', l', hit', hl', hall'⟩ := iterate_setup_expanded (T := T) heah
    exact ⟨it', l', hit', hl', forall₂_sameElement A.typed hall hall'⟩
  · obtain ⟨it', l', hit', hl', hall'⟩ := iterate_setup_expanded (T := T) heah
    rw [List.forall₂_eq_eq_eq] at hall'
    rw [← hall.length_eq] at hl'
    exact ⟨it', hit', hall' ▸ hl'⟩
  · rw [arrayIterSetup, varattIsExpandedHeader, eah.magic, BEq.rfl]
    show (match eah.dvalues with
      | some dvalues => some (⟨some dvalues, eah.dnulls, none, none, 1⟩ : ArrayIter)
      | none => eah.fvalue.bind flatSetup) = _
    rw [hd, hf]
    exact hit

/-- The texts `a` and `b`, the second with a header of one byte, and a null between them. -/
def textElements : List (Option Value) :=
  [some (.fourByte [0x61] (by decide)), none, some (.short [0x62] (by decide))]

theorem textElements_typed (v : Value) (hv : some v ∈ textElements) :
    (⟨-1, false, .int⟩ : ElementType).Has v := by
  simp only [textElements, List.mem_cons, Option.some.injEq, reduceCtorEq, List.not_mem_nil,
    or_false, false_or] at hv
  rcases hv with rfl | rfl
  · exact ⟨rfl, rfl⟩
  · exact ⟨rfl, rfl⟩

theorem textElements_bit (bits : Ptr) (h : some [0b101] = some bits) (i : ℕ) (e : Option Value)
    (he : textElements[i]? = some e) :
    ∃ b, bits[i / 8]? = some b ∧ b.getLsbD (i % 8) = e.isSome := by
  obtain ⟨hi, rfl⟩ := List.getElem?_eq_some_iff.mp he
  obtain rfl := Option.some.inj h
  have hi : i < 3 := hi
  refine ⟨0b101, ?_, ?_⟩
  · rw [Nat.div_eq_of_lt (by omega)]
    rfl
  · interval_cases i
    · rfl
    · rfl
    · rfl

/-- An array of them. -/
def textArray : FlatArray ⟨-1, false, .int⟩ where
  dims := [3]
  lbounds := [1]
  elemtype := 25
  nullbitmap := some [0b101]
  pad := List.replicate 7 0
  data := (Value.fourByte [0x61] (by decide)).bytes ++ (List.replicate 3 0 ++
    ((Value.short [0x62] (by decide)).bytes ++ (List.replicate 2 0 ++ [])))
  elements := textElements
  typed := textElements_typed
  ndim_le := by decide
  lbounds_length := rfl
  bitmap_length := fun _ h => Option.some.inj h ▸ rfl
  bitmap_bit := textElements_bit
  no_bitmap := nofun
  offset_aligned := by decide
  offset_eq := nofun
  packed := .value _ _ (typealign_eq 2 37).symm (.null
    (.value _ _ (typealign_eq 2 42).symm .nil))
  size_lt := by decide

/-- The three elements of the array at address 16. -/
theorem arrayIter_elements_text :
    ∃ it l, arrayIterSetup (.flt (textArray.ptr 16 [])) = some it ∧
      iterate ⟨-1, false, .int⟩ 3 0 it = some l ∧ List.Forall₂ Fetched textArray.elements l := by
  obtain ⟨it, l, hit, hl, hall, -⟩ := arrayIter_elements textArray (show alignval .int ∣ 16 by decide) []
  exact ⟨it, l, hit, hl, hall⟩

end PgArray
