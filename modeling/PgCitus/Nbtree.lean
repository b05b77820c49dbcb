import PgCitus.Library.BitField

/-!
# The header of an nbtree index tuple

The accessors of `access/nbtree.h` for the three formats of a B-tree index tuple.
All three share the six bytes of `t_tid` and one reserved bit of `t_info`: a plain
tuple keeps the heap TID there, a posting list tuple the place and length of its
posting list, a pivot tuple its downlink and the number of its key attributes. A
setter whose `Assert`s fail gives `none`.

What the header says is the `Header` below, and `view` reads it off the bits. Each
setter does to the view what its name says (`apply_view`), so a whole sequence of
setters does to the view what the sequence says (`applyAll_view`) – and nothing else
to the tuple (`applyAll_rest`).
-/

namespace Nbtree

open BitField

/-! ## The tuple header -/

/-- `BlockIdData`. -/
structure BlockIdData where
  biHi : BitVec 16
  biLo : BitVec 16
deriving DecidableEq, Repr

/-- `ItemPointerData`. -/
structure ItemPointerData where
  ipBlkid : BlockIdData
  ipPosid : BitVec 16
deriving DecidableEq, Repr

/-- `IndexTupleData`: the header, which the attributes follow. -/
structure IndexTupleData where
  tTid : ItemPointerData
  tInfo : BitVec 16
deriving DecidableEq, Repr

/-- `BlockIdSet`. -/
def blockIdSet (blockNumber : BitVec 32) : BlockIdData where
  biHi := (blockNumber >>> 16).setWidth 16
  biLo := (blockNumber &&& 0xffff#32).setWidth 16

/-- `BlockIdGetBlockNumber`. -/
def blockIdGetBlockNumber (blockId : BlockIdData) : BitVec 32 :=
  blockId.biHi.setWidth 32 <<< 16 ||| blockId.biLo.setWidth 32

/-- `ItemPointerGetOffsetNumberNoCheck`. -/
def itemPointerGetOffsetNumberNoCheck (pointer : ItemPointerData) : BitVec 16 :=
  pointer.ipPosid

/-- `ItemPointerGetBlockNumberNoCheck`. -/
def itemPointerGetBlockNumberNoCheck (pointer : ItemPointerData) : BitVec 32 :=
  blockIdGetBlockNumber pointer.ipBlkid

/-- `ItemPointerSetOffsetNumber`. -/
def itemPointerSetOffsetNumber (pointer : ItemPointerData) (offsetNumber : BitVec 16) :
    ItemPointerData :=
  { pointer with ipPosid := offsetNumber }

/-- `ItemPointerSetBlockNumber`. -/
def itemPointerSetBlockNumber (pointer : ItemPointerData) (blockNumber : BitVec 32) :
    ItemPointerData :=
  { pointer with ipBlkid := blockIdSet blockNumber }

/-- `INDEX_SIZE_MASK`. -/
def indexSizeMask : BitVec 16 := 0x1FFF
/-- `INDEX_AM_RESERVED_BIT`. -/
def indexAmReservedBit : BitVec 16 := 0x2000
/-- `INDEX_VAR_MASK`. -/
def indexVarMask : BitVec 16 := 0x4000
/-- `INDEX_NULL_MASK`. -/
def indexNullMask : BitVec 16 := 0x8000
/-- `INDEX_MAX_KEYS`. -/
def indexMaxKeys : ℕ := 32

/-- `IndexTupleSize`. -/
def indexTupleSize (itup : IndexTupleData) : ℕ := (itup.tInfo &&& indexSizeMask).toNat

/-- `IndexTupleHasNulls`. -/
def indexTupleHasNulls (itup : IndexTupleData) : Bool := itup.tInfo &&& indexNullMask != 0

/-- `IndexTupleHasVarwidths`. -/
def indexTupleHasVarwidths (itup : IndexTupleData) : Bool := itup.tInfo &&& indexVarMask != 0

/-! ## The three formats -/

/-- `INDEX_ALT_TID_MASK`. -/
def indexAltTidMask : BitVec 16 := indexAmReservedBit
/-- `BT_OFFSET_MASK`. -/
def btOffsetMask : BitVec 16 := 0x0FFF
/-- `BT_STATUS_OFFSET_MASK`. -/
def btStatusOffsetMask : BitVec 16 := 0xF000
/-- `BT_PIVOT_HEAP_TID_ATTR`. -/
def btPivotHeapTidAttr : BitVec 16 := 0x1000
/-- `BT_IS_POSTING`. -/
def btIsPosting : BitVec 16 := 0x2000

/-- `MAXALIGN`, of a value converted to `uintptr_t`. -/
def maxalign (len : BitVec 64) : BitVec 64 := (len + 7) &&& ~~~7

/-- `BTreeTupleIsPivot`. -/
def btreeTupleIsPivot (itup : IndexTupleData) : Bool :=
  if itup.tInfo &&& indexAltTidMask = 0 then false
  else if itemPointerGetOffsetNumberNoCheck itup.tTid &&& btIsPosting ≠ 0 then false
  else true

/-- `BTreeTupleIsPosting`. -/
def btreeTupleIsPosting (itup : IndexTupleData) : Bool :=
  if itup.tInfo &&& indexAltTidMask = 0 then false
  else if itemPointerGetOffsetNumberNoCheck itup.tTid &&& btIsPosting = 0 then false
  else true

/-- `BTreeTupleSetPosting`. The offset is an `int`, which the comparison with its
aligned value converts to `size_t`. -/
def btreeTupleSetPosting (itup : IndexTupleData) (nhtids : BitVec 16)
    (postingoffset : BitVec 32) : Option IndexTupleData :=
  if nhtids.toNat > 1 ∧ nhtids &&& btStatusOffsetMask = 0 ∧
      postingoffset.signExtend 64 = maxalign (postingoffset.signExtend 64) ∧
      postingoffset.toInt < indexSizeMask.toNat ∧ ¬ btreeTupleIsPivot itup then
    some
      { tInfo := itup.tInfo ||| indexAltTidMask
        tTid := itemPointerSetBlockNumber
          (itemPointerSetOffsetNumber itup.tTid (nhtids ||| btIsPosting)) postingoffset }
  else none

/-- `BTreeTupleGetNPosting`. -/
def btreeTupleGetNPosting (posting : IndexTupleData) : Option (BitVec 16) :=
  if btreeTupleIsPosting posting then
    some (itemPointerGetOffsetNumberNoCheck posting.tTid &&& btOffsetMask)
  else none

/-- `BTreeTupleGetPostingOffset`. -/
def btreeTupleGetPostingOffset (posting : IndexTupleData) : Option (BitVec 32) :=
  if btreeTupleIsPosting posting then some (itemPointerGetBlockNumberNoCheck posting.tTid)
  else none

/-- A pointer to an item pointer of the tuple: how far from the start of the tuple it
points, or `none` for `NULL`. -/
abbrev ItemPointer := Option ℤ

/-- The size of `ItemPointerData`. -/
def sizeofItemPointerData : ℤ := 6

/-- `BTreeTupleGetPosting`. -/
def btreeTupleGetPosting (posting : IndexTupleData) : Option ItemPointer :=
  (btreeTupleGetPostingOffset posting).map fun off => some (off.toNat : ℤ)

/-- `BTreeTupleGetPostingN`. -/
def btreeTupleGetPostingN (posting : IndexTupleData) (n : ℤ) : Option ItemPointer :=
  (btreeTupleGetPosting posting).map fun p => p.map fun off => off + sizeofItemPointerData * n

/-- `BTreeTupleGetDownLink`. -/
def btreeTupleGetDownLink (pivot : IndexTupleData) : BitVec 32 :=
  itemPointerGetBlockNumberNoCheck pivot.tTid

/-- `BTreeTupleSetDownLink`. -/
def btreeTupleSetDownLink (pivot : IndexTupleData) (blkno : BitVec 32) : IndexTupleData :=
  { pivot with tTid := itemPointerSetBlockNumber pivot.tTid blkno }

/-- `BTreeTupleGetNAtts`, of an index with `indnatts` attributes. -/
def btreeTupleGetNAtts (itup : IndexTupleData) (indnatts : ℤ) : ℤ :=
  if btreeTupleIsPivot itup then
    ((itemPointerGetOffsetNumberNoCheck itup.tTid &&& btOffsetMask).toNat : ℤ)
  else indnatts

/-- `BTreeTupleSetNAtts`. -/
def btreeTupleSetNAtts (itup : IndexTupleData) (nkeyatts : BitVec 16) (heaptid : Bool) :
    Option IndexTupleData :=
  if nkeyatts.toNat ≤ indexMaxKeys ∧ nkeyatts &&& btStatusOffsetMask = 0 ∧
      (¬ heaptid ∨ nkeyatts.toNat > 0) ∧
      (¬ btreeTupleIsPivot itup ∨ nkeyatts = 0) then
    let nkeyatts := if heaptid then nkeyatts ||| btPivotHeapTidAttr else nkeyatts
    let itup : IndexTupleData :=
      { tInfo := itup.tInfo ||| indexAltTidMask
        -- BT_IS_POSTING bit is deliberately unset here
        tTid := itemPointerSetOffsetNumber itup.tTid nkeyatts }
    if btreeTupleIsPivot itup then some itup else none
  else none

/-- `BTreeTupleGetTopParent`. -/
def btreeTupleGetTopParent (leafhikey : IndexTupleData) : BitVec 32 :=
  itemPointerGetBlockNumberNoCheck leafhikey.tTid

/-- `BTreeTupleSetTopParent`. -/
def btreeTupleSetTopParent (leafhikey : IndexTupleData) (blkno : BitVec 32) :
    Option IndexTupleData :=
  btreeTupleSetNAtts
    { leafhikey with tTid := itemPointerSetBlockNumber leafhikey.tTid blkno } 0 false

/-- `BTreeTupleGetHeapTID`. -/
def btreeTupleGetHeapTID (itup : IndexTupleData) : Option ItemPointer :=
  if btreeTupleIsPivot itup then
    if itemPointerGetOffsetNumberNoCheck itup.tTid &&& btPivotHeapTidAttr ≠ 0 then
      some (some (indexTupleSize itup - sizeofItemPointerData))
    else some none
  else if btreeTupleIsPosting itup then btreeTupleGetPosting itup
  else some (some 0)

/-- `BTreeTupleGetMaxHeapTID`. -/
def btreeTupleGetMaxHeapTID (itup : IndexTupleData) : Option ItemPointer :=
  if btreeTupleIsPivot itup then none
  else if btreeTupleIsPosting itup then
    match btreeTupleGetNPosting itup with
    | some nposting => btreeTupleGetPostingN itup (nposting.toNat - 1)
    | none => none
  else some (some 0)

/-! ## What the header says -/

/-- The format of a tuple, with what the offset number says in it. -/
inductive Format where
  /-- A heap TID. -/
  | plain (offnum : BitVec 16)
  /-- A posting list of so many heap TIDs. -/
  | posting (nhtids : BitVec 16)
  /-- So many key attributes, and whether a heap TID follows them. -/
  | pivot (nkeyatts : BitVec 16) (heaptid : Bool)
deriving DecidableEq, Repr

/-- **What the bits of a header mean**: a format, and a block number, which is where
the heap tuple is, where the posting list starts, or the downlink. -/
structure Header where
  format : Format
  block : BitVec 32
deriving DecidableEq, Repr

/-- What the header of a tuple says. -/
def view (itup : IndexTupleData) : Header where
  format :=
    if btreeTupleIsPivot itup then
      .pivot (itup.tTid.ipPosid &&& btOffsetMask)
        (itup.tTid.ipPosid &&& btPivotHeapTidAttr != 0)
    else if btreeTupleIsPosting itup then .posting (itup.tTid.ipPosid &&& btOffsetMask)
    else .plain itup.tTid.ipPosid
  block := blockIdGetBlockNumber itup.tTid.ipBlkid

/-- What the rest of `t_info` says: the size and the flags of the attributes. -/
def rest (itup : IndexTupleData) : BitVec 16 := itup.tInfo &&& ~~~indexAltTidMask

/-- One call of a setter. -/
inductive Setter where
  | setPosting (nhtids : BitVec 16) (postingoffset : BitVec 32)
  | setDownLink (blkno : BitVec 32)
  | setNAtts (nkeyatts : BitVec 16) (heaptid : Bool)
  | setTopParent (blkno : BitVec 32)
deriving DecidableEq, Repr

/-- The call, on a tuple. -/
def Setter.apply : Setter → IndexTupleData → Option IndexTupleData
  | .setPosting nhtids off, t => btreeTupleSetPosting t nhtids off
  | .setDownLink blkno, t => some (btreeTupleSetDownLink t blkno)
  | .setNAtts nkeyatts heaptid, t => btreeTupleSetNAtts t nkeyatts heaptid
  | .setTopParent blkno, t => btreeTupleSetTopParent t blkno

/-- **A legal call**: what the opening assertions of the setter ask of its arguments and of
the tuple. -/
def Setter.Legal : Setter → IndexTupleData → Prop
  | .setPosting nhtids off, t => 1 < nhtids.toNat ∧ nhtids &&& btStatusOffsetMask = 0 ∧
      off.signExtend 64 = maxalign (off.signExtend 64) ∧ off.toInt < indexSizeMask.toNat ∧
      btreeTupleIsPivot t = false
  | .setNAtts nkeyatts heaptid, t => nkeyatts.toNat ≤ indexMaxKeys ∧
      (heaptid = true → 0 < nkeyatts.toNat) ∧ (btreeTupleIsPivot t = true → nkeyatts = 0)
  | .setDownLink _, _ | .setTopParent _, _ => True

/-- A sequence of calls, one after another. -/
def applyAll : List Setter → IndexTupleData → Option IndexTupleData
  | [], t => some t
  | s :: ss, t => s.apply t >>= applyAll ss

/-- Whether a header is a pivot tuple's. -/
def Header.IsPivot (h : Header) : Prop := ∃ n b, h.format = .pivot n b

instance (h : Header) : Decidable h.IsPivot :=
  match h with
  | ⟨.pivot n b, _⟩ => .isTrue ⟨n, b, rfl⟩
  | ⟨.plain _, _⟩ => .isFalse (by rintro ⟨_, _, h⟩; cases h)
  | ⟨.posting _, _⟩ => .isFalse (by rintro ⟨_, _, h⟩; cases h)

/-- **What a setter is for**: the header it leaves, where it may be called. -/
def Setter.meaning : Setter → Header → Option Header
  | .setPosting nhtids off, h =>
    if (1 < nhtids.toNat ∧ Within btOffsetMask nhtids) ∧
        off.signExtend 64 = maxalign (off.signExtend 64) ∧
        off.toInt < indexSizeMask.toNat ∧ ¬ h.IsPivot then
      some ⟨.posting nhtids, off⟩
    else none
  | .setDownLink blkno, h => some { h with block := blkno }
  | .setNAtts nkeyatts heaptid, h =>
    if nkeyatts.toNat ≤ indexMaxKeys ∧ (heaptid → 0 < nkeyatts.toNat) ∧
        (h.IsPivot → nkeyatts = 0) then
      some { h with format := .pivot nkeyatts heaptid }
    else none
  | .setTopParent blkno, _ => some ⟨.pivot 0 false, blkno⟩

/-- A sequence of setters, by their meanings. -/
def meaningAll : List Setter → Header → Option Header
  | [], h => some h
  | s :: ss, h => s.meaning h >>= meaningAll ss

/-! ## The bits -/

/-- **A block number survives its two halves.** -/
@[simp] theorem blockIdGetBlockNumber_set (b : BitVec 32) :
    blockIdGetBlockNumber (blockIdSet b) = b := by
  have hlow : (b &&& 0xffff#32).toNat = b.toNat % 2 ^ 16 :=
    (BitVec.toNat_and b 0xffff#32).trans (Nat.and_two_pow_sub_one_eq_mod b.toNat 16)
  have hlt : b.toNat / 2 ^ 16 < 2 ^ 16 := by
    rw [Nat.div_lt_iff_lt_mul (Nat.two_pow_pos 16), ← Nat.pow_add]
    exact b.isLt
  unfold blockIdGetBlockNumber blockIdSet
  refine BitVec.eq_of_toNat_eq ?_
  rw [toNat_pack _ _ (by decide) (by decide), BitVec.toNat_setWidth, BitVec.toNat_setWidth,
    BitVec.toNat_ushiftRight, Nat.shiftRight_eq_div_pow, hlow, Nat.mod_eq_of_lt hlt,
    Nat.mod_mod, Nat.div_add_mod']

/-- The offset bits and the status bits are the whole offset number. -/
theorem within_btOffsetMask_iff (n : BitVec 16) :
    Within btOffsetMask n ↔ n &&& btStatusOffsetMask = 0 :=
  ⟨fun h => h.and_eq_zero (by decide), within_of_and_eq_zero (by decide)⟩

theorem isPivot_iff (t : IndexTupleData) :
    btreeTupleIsPivot t = true ↔
      t.tInfo &&& indexAltTidMask ≠ 0 ∧ t.tTid.ipPosid &&& btIsPosting = 0 := by
  unfold btreeTupleIsPivot itemPointerGetOffsetNumberNoCheck
  split <;> simp_all

theorem isPosting_iff (t : IndexTupleData) :
    btreeTupleIsPosting t = true ↔
      t.tInfo &&& indexAltTidMask ≠ 0 ∧ t.tTid.ipPosid &&& btIsPosting ≠ 0 := by
  unfold btreeTupleIsPosting itemPointerGetOffsetNumberNoCheck
  split <;> simp_all

theorem view_isPivot (t : IndexTupleData) : (view t).IsPivot ↔ btreeTupleIsPivot t = true := by
  unfold view Header.IsPivot
  by_cases h : btreeTupleIsPivot t = true
  · simp [h]
  · by_cases h' : btreeTupleIsPosting t = true <;> simp [h, h']

/-- The reserved bit, once set, is there. -/
theorem alt_or (x : BitVec 16) : (x ||| indexAltTidMask) &&& indexAltTidMask ≠ 0 := by
  rw [or_and_self]
  decide

/-- Setting the reserved bit leaves the rest of `t_info` as it is. -/
theorem rest_or (x : BitVec 16) :
    (x ||| indexAltTidMask) &&& ~~~indexAltTidMask = x &&& ~~~indexAltTidMask := by
  rw [BitVec.and_or_distrib_right, show indexAltTidMask &&& ~~~indexAltTidMask = 0#16 from rfl,
    BitVec.or_zero]

/-! ## Every setter does what it is for -/

/-- **A posting list header.** -/
theorem view_posting (x nhtids : BitVec 16) (blk : BlockIdData)
    (hn : Within btOffsetMask nhtids) :
    view ⟨⟨blk, nhtids ||| btIsPosting⟩, x ||| indexAltTidMask⟩
      = ⟨.posting nhtids, blockIdGetBlockNumber blk⟩ := by
  have hbit : (nhtids ||| btIsPosting) &&& btIsPosting ≠ 0 := by
    rw [or_and_self]
    decide
  have hpivot : ¬ btreeTupleIsPivot ⟨⟨blk, nhtids ||| btIsPosting⟩, x ||| indexAltTidMask⟩ :=
    fun h => hbit ((isPivot_iff _).mp h).2
  have hposting : btreeTupleIsPosting ⟨⟨blk, nhtids ||| btIsPosting⟩, x ||| indexAltTidMask⟩ :=
    (isPosting_iff _).mpr ⟨alt_or x, hbit⟩
  unfold view
  rw [if_neg hpivot, if_pos hposting]
  exact congrArg (fun n => Header.mk (.posting n) _)
    (read_left hn (show Within btIsPosting btIsPosting by decide) (by decide))

/-- The offset number a pivot tuple stores. -/
def pivotOffnum (nkeyatts : BitVec 16) (heaptid : Bool) : BitVec 16 :=
  if heaptid then nkeyatts ||| btPivotHeapTidAttr else nkeyatts

/-- The posting bit is unset in a pivot tuple's offset number. -/
theorem pivotOffnum_posting {nkeyatts : BitVec 16} (hn : Within btOffsetMask nkeyatts)
    (heaptid : Bool) : pivotOffnum nkeyatts heaptid &&& btIsPosting = 0 := by
  cases heaptid with
  | false => exact hn.and_eq_zero (by decide)
  | true => exact read_neither (hn.and_eq_zero (by decide)) (by decide)

/-- The number of attributes is there, whether or not a heap TID is. -/
theorem pivotOffnum_natts {nkeyatts : BitVec 16} (hn : Within btOffsetMask nkeyatts)
    (heaptid : Bool) : pivotOffnum nkeyatts heaptid &&& btOffsetMask = nkeyatts := by
  cases heaptid with
  | false => exact hn
  | true => exact read_left hn (show Within btPivotHeapTidAttr _ by decide) (by decide)

/-- The heap TID bit is what it was set to, for every number of attributes. -/
theorem pivotOffnum_heaptid {nkeyatts : BitVec 16} (hn : Within btOffsetMask nkeyatts)
    (heaptid : Bool) : (pivotOffnum nkeyatts heaptid &&& btPivotHeapTidAttr != 0) = heaptid := by
  cases heaptid with
  | false =>
    show (nkeyatts &&& btPivotHeapTidAttr != 0) = false
    rw [hn.and_eq_zero (by decide)]
    rfl
  | true =>
    show ((nkeyatts ||| btPivotHeapTidAttr) &&& btPivotHeapTidAttr != 0) = true
    rw [or_and_self]
    decide

/-- A tuple with the reserved bit and a pivot tuple's offset number is a pivot
tuple. -/
theorem isPivot_pivotOffnum (x : BitVec 16) (blk : BlockIdData) {nkeyatts : BitVec 16}
    (hn : Within btOffsetMask nkeyatts) (heaptid : Bool) :
    btreeTupleIsPivot ⟨⟨blk, pivotOffnum nkeyatts heaptid⟩, x ||| indexAltTidMask⟩ = true :=
  (isPivot_iff _).mpr ⟨alt_or x, pivotOffnum_posting hn heaptid⟩

/-- **A pivot tuple header.** -/
theorem view_pivot (x : BitVec 16) (blk : BlockIdData) {nkeyatts : BitVec 16}
    (hn : Within btOffsetMask nkeyatts) (heaptid : Bool) :
    view ⟨⟨blk, pivotOffnum nkeyatts heaptid⟩, x ||| indexAltTidMask⟩
      = ⟨.pivot nkeyatts heaptid, blockIdGetBlockNumber blk⟩ := by
  unfold view
  rw [if_pos (isPivot_pivotOffnum x blk hn heaptid)]
  show Header.mk (.pivot (pivotOffnum nkeyatts heaptid &&& btOffsetMask)
    (pivotOffnum nkeyatts heaptid &&& btPivotHeapTidAttr != 0)) _ = _
  rw [pivotOffnum_natts hn, pivotOffnum_heaptid hn]

/-- Every number of key attributes an index can have fits in the offset bits. -/
theorem within_of_le_maxKeys {n : BitVec 16} (h : n.toNat ≤ indexMaxKeys) :
    Within btOffsetMask n :=
  (within_low_iff (show btOffsetMask.toNat = 2 ^ 12 - 1 from rfl)).mpr
    (lt_of_le_of_lt h (by decide))

/-- **The closing assertion of `BTreeTupleSetNAtts` never fails**: where the opening
ones hold, the call returns. -/
theorem setNAtts_eq (t : IndexTupleData) (nkeyatts : BitVec 16) (heaptid : Bool) :
    btreeTupleSetNAtts t nkeyatts heaptid =
      if nkeyatts.toNat ≤ indexMaxKeys ∧ (heaptid → 0 < nkeyatts.toNat) ∧
          (btreeTupleIsPivot t → nkeyatts = 0) then
        some ⟨⟨t.tTid.ipBlkid, pivotOffnum nkeyatts heaptid⟩, t.tInfo ||| indexAltTidMask⟩
      else none := by
  by_cases hle : nkeyatts.toNat ≤ indexMaxKeys
  · have hn := within_of_le_maxKeys hle
    have hst := (within_btOffsetMask_iff nkeyatts).mp hn
    have hp := isPivot_pivotOffnum t.tInfo t.tTid.ipBlkid hn heaptid
    unfold btreeTupleSetNAtts itemPointerSetOffsetNumber
    refine if_congr ?_ (if_pos hp) rfl
    simp only [hle, hst, true_and, gt_iff_lt, imp_iff_not_or]
  · unfold btreeTupleSetNAtts
    rw [if_neg (fun h => hle h.1), if_neg (fun h => hle h.1)]

/-- `BTreeTupleSetTopParent` can always be called: no attributes are a legal number
of attributes for every tuple. -/
theorem setTopParent_eq (t : IndexTupleData) (blkno : BitVec 32) :
    btreeTupleSetTopParent t blkno
      = some ⟨⟨blockIdSet blkno, pivotOffnum 0 false⟩, t.tInfo ||| indexAltTidMask⟩ := by
  unfold btreeTupleSetTopParent
  rw [setNAtts_eq, if_pos ⟨by decide, by decide, fun _ => rfl⟩]
  rfl

/-- **A call returns exactly if it is legal.** -/
theorem apply_isSome_iff (s : Setter) (t : IndexTupleData) :
    (s.apply t).isSome ↔ s.Legal t := by
  cases s with
  | setPosting nhtids off =>
    show (btreeTupleSetPosting t nhtids off).isSome ↔ _
    unfold btreeTupleSetPosting
    rw [Option.isSome_ite, Bool.not_eq_true]
    exact Iff.rfl
  | setDownLink blkno => exact iff_of_true rfl trivial
  | setNAtts nkeyatts heaptid =>
    show (btreeTupleSetNAtts t nkeyatts heaptid).isSome ↔ _
    rw [setNAtts_eq, Option.isSome_ite]
    exact Iff.rfl
  | setTopParent blkno =>
    show (btreeTupleSetTopParent t blkno).isSome ↔ _
    rw [setTopParent_eq]
    exact iff_of_true rfl trivial

/-- **A setter does to the header what it is for**, and may be called where it is
meant to be. -/
theorem apply_view (s : Setter) (t : IndexTupleData) :
    (s.apply t).map view = s.meaning (view t) := by
  cases s with
  | setPosting nhtids off =>
    show (btreeTupleSetPosting t nhtids off).map view = _
    unfold btreeTupleSetPosting Setter.meaning
    by_cases hn : Within btOffsetMask nhtids
    · have hst := (within_btOffsetMask_iff nhtids).mp hn
      simp only [hn, hst, view_isPivot, and_true, true_and, gt_iff_lt]
      split
      · show some (view ⟨⟨blockIdSet off, nhtids ||| btIsPosting⟩, _⟩) = _
        rw [view_posting _ _ _ hn, blockIdGetBlockNumber_set]
      · rfl
    · have hst := fun h => hn ((within_btOffsetMask_iff nhtids).mpr h)
      rw [if_neg (fun h => hst h.2.1)]
      exact (if_neg (fun h => hn h.1.2)).symm
  | setDownLink blkno =>
    show some (view (btreeTupleSetDownLink t blkno)) = some { view t with block := blkno }
    exact congrArg (fun b => some (Header.mk (view t).format b)) (blockIdGetBlockNumber_set blkno)
  | setNAtts nkeyatts heaptid =>
    show (btreeTupleSetNAtts t nkeyatts heaptid).map view = _
    rw [setNAtts_eq]
    simp only [Setter.meaning, view_isPivot]
    split
    · next h =>
      exact congrArg some (view_pivot _ _ (within_of_le_maxKeys h.1) heaptid)
    · rfl
  | setTopParent blkno =>
    show (btreeTupleSetTopParent t blkno).map view = _
    rw [setTopParent_eq]
    refine congrArg some ((view_pivot _ _ (by decide) false).trans ?_)
    rw [blockIdGetBlockNumber_set]

/-- A setter keeps the rest of `t_info`. -/
theorem apply_rest {s : Setter} {t t' : IndexTupleData} (h : s.apply t = some t') :
    rest t' = rest t := by
  have hor : ∀ tid, rest ⟨tid, t.tInfo ||| indexAltTidMask⟩ = rest t := fun _ => rest_or t.tInfo
  cases s with
  | setPosting nhtids off =>
    simp only [Setter.apply, btreeTupleSetPosting, Option.ite_none_right_eq_some] at h
    rw [← Option.some.inj h.2]
    exact hor _
  | setDownLink blkno =>
    rw [← Option.some.inj h]
    rfl
  | setNAtts nkeyatts heaptid =>
    simp only [Setter.apply, setNAtts_eq, Option.ite_none_right_eq_some] at h
    rw [← Option.some.inj h.2]
    exact hor _
  | setTopParent blkno =>
    simp only [Setter.apply, setTopParent_eq] at h
    rw [← Option.some.inj h]
    exact hor _

/-! ## Sequences of setters -/

/-- **A sequence of setters does to the header what it is for.** -/
theorem applyAll_view (ss : List Setter) (t : IndexTupleData) :
    (applyAll ss t).map view = meaningAll ss (view t) := by
  induction ss generalizing t with
  | nil => rfl
  | cons s ss ih =>
    show (s.apply t >>= applyAll ss).map view = (s.meaning (view t)) >>= meaningAll ss
    rw [← apply_view]
    cases s.apply t with
    | none => rfl
    | some t₁ => exact ih t₁

/-- **A sequence of setters keeps the rest of `t_info`.** -/
theorem applyAll_rest {ss : List Setter} {t t' : IndexTupleData}
    (h : applyAll ss t = some t') : rest t' = rest t := by
  induction ss generalizing t with
  | nil => rw [Option.some.inj h]
  | cons s ss ih =>
    obtain ⟨t₁, h₁, h₂⟩ := Option.bind_eq_some_iff.mp h
    rw [ih h₂, apply_rest h₁]

theorem applyAll_append (pre post : List Setter) (t : IndexTupleData) :
    applyAll (pre ++ post) t = applyAll pre t >>= applyAll post := by
  induction pre generalizing t with
  | nil => rfl
  | cons s pre ih =>
    show s.apply t >>= applyAll (pre ++ post) = (s.apply t >>= applyAll pre) >>= applyAll post
    rw [bind_assoc]
    exact congrArg (s.apply t >>= ·) (funext ih)

/-- The tuple a setter in the middle of a sequence leaves, on the way to the last one. -/
theorem applyAll_split {pre post : List Setter} {s : Setter} {t t' : IndexTupleData}
    (h : applyAll (pre ++ s :: post) t = some t') :
    ∃ t₁ t₂, s.apply t₁ = some t₂ ∧ s.meaning (view t₁) = some (view t₂) ∧
      applyAll post t₂ = some t' ∧ meaningAll post (view t₂) = some (view t') := by
  rw [applyAll_append] at h
  obtain ⟨t₁, _, h₁⟩ := Option.bind_eq_some_iff.mp h
  obtain ⟨t₂, hs, hpost⟩ := Option.bind_eq_some_iff.mp h₁
  refine ⟨t₁, t₂, hs, ?_, hpost, ?_⟩
  · rw [← apply_view, hs]
    rfl
  · rw [← applyAll_view, hpost]
    rfl

/-- Setters of the downlink. -/
def Setter.IsDownLink (s : Setter) : Prop := ∃ blkno, s = .setDownLink blkno

/-- Setters of the number of attributes. -/
def Setter.IsNAtts (s : Setter) : Prop := ∃ nkeyatts heaptid, s = .setNAtts nkeyatts heaptid

/-- Setting downlinks leaves the format. -/
theorem meaningAll_downLinks {ss : List Setter} {h h' : Header}
    (hss : ∀ s ∈ ss, s.IsDownLink) (hrun : meaningAll ss h = some h') :
    h'.format = h.format := by
  induction ss generalizing h with
  | nil => rw [Option.some.inj hrun]
  | cons s ss ih =>
    obtain ⟨blkno, rfl⟩ := hss s List.mem_cons_self
    have hrun' : meaningAll ss { h with block := blkno } = some h' := hrun
    have hrest := ih (fun s hs => hss s (List.mem_cons_of_mem _ hs)) hrun'
    exact hrest

/-- Setting numbers of attributes leaves the block. -/
theorem meaningAll_nAtts {ss : List Setter} {h h' : Header}
    (hss : ∀ s ∈ ss, s.IsNAtts) (hrun : meaningAll ss h = some h') :
    h'.block = h.block := by
  induction ss generalizing h with
  | nil => rw [Option.some.inj hrun]
  | cons s ss ih =>
    obtain ⟨nkeyatts, heaptid, rfl⟩ := hss s List.mem_cons_self
    obtain ⟨h₁, hs, hrun⟩ := Option.bind_eq_some_iff.mp hrun
    rw [ih (fun s hs => hss s (List.mem_cons_of_mem _ hs)) hrun]
    simp only [Setter.meaning, Option.ite_none_right_eq_some] at hs
    rw [← Option.some.inj hs.2]

/-! ## The three classes -/

/-- The classes of index tuples. -/
inductive TupleClass where
  | plain
  | posting
  | pivot
deriving DecidableEq, Repr

/-- **The class a tuple is recognised as**: a pivot tuple, a posting list tuple, or,
being neither, a plain one. -/
def Recognised (t : IndexTupleData) : TupleClass → Prop
  | .plain => btreeTupleIsPivot t = false ∧ btreeTupleIsPosting t = false
  | .posting => btreeTupleIsPosting t = true
  | .pivot => btreeTupleIsPivot t = true

/-- The class of a format. -/
def Format.tupleClass : Format → TupleClass
  | .plain _ => .plain
  | .posting _ => .posting
  | .pivot _ _ => .pivot

/-- The class a setter gives, if it gives one. -/
def Setter.tupleClass? : Setter → Option TupleClass
  | .setPosting _ _ => some .posting
  | .setDownLink _ => none
  | .setNAtts _ _ => some .pivot
  | .setTopParent _ => some .pivot

/-- No tuple is both a pivot tuple and a posting list tuple. -/
theorem isPosting_of_isPivot {t : IndexTupleData} (h : btreeTupleIsPivot t = true) :
    btreeTupleIsPosting t = false := by
  refine Bool.eq_false_iff.mpr fun h' => ?_
  exact ((isPosting_iff t).mp h').2 ((isPivot_iff t).mp h).2

/-- **A tuple is recognised as what its header says**, and as nothing else. -/
theorem recognised_iff (t : IndexTupleData) (c : TupleClass) :
    Recognised t c ↔ c = (view t).format.tupleClass := by
  unfold view
  by_cases hp : btreeTupleIsPivot t = true
  · have hq := isPosting_of_isPivot hp
    cases c <;> simp [Recognised, Format.tupleClass, hp, hq]
  · by_cases hq : btreeTupleIsPosting t = true <;>
      cases c <;> simp [Recognised, Format.tupleClass, hp, hq]

/-- One setter: the class it gives, or the class there was. -/
theorem meaning_tupleClass {s : Setter} {h h' : Header} (hs : s.meaning h = some h') :
    h'.format.tupleClass = s.tupleClass?.getD h.format.tupleClass := by
  cases s with
  | setPosting nhtids off =>
    simp only [Setter.meaning, Option.ite_none_right_eq_some] at hs
    rw [← Option.some.inj hs.2]
    rfl
  | setDownLink blkno =>
    rw [← Option.some.inj hs]
    rfl
  | setNAtts nkeyatts heaptid =>
    simp only [Setter.meaning, Option.ite_none_right_eq_some] at hs
    rw [← Option.some.inj hs.2]
    rfl
  | setTopParent blkno =>
    rw [← Option.some.inj hs]
    rfl

/-- **The last setter that gives a class decides.** -/
theorem meaningAll_tupleClass {ss : List Setter} {h h' : Header}
    (hss : meaningAll ss h = some h') :
    h'.format.tupleClass = (ss.filterMap Setter.tupleClass?).getLastD h.format.tupleClass := by
  induction ss generalizing h with
  | nil =>
    rw [Option.some.inj hss]
    rfl
  | cons s ss ih =>
    obtain ⟨h₁, hs, hss⟩ := Option.bind_eq_some_iff.mp hss
    rw [ih hss, meaning_tupleClass hs]
    cases hc : s.tupleClass? with
    | none => rw [List.filterMap_cons_none hc, Option.getD_none]
    | some c => rw [List.filterMap_cons_some hc, Option.getD_some, List.getLastD_cons]

/-! ## What the readers return -/

/-- A posting list tuple, read. -/
theorem read_posting {t : IndexTupleData} {n : BitVec 16} {off : BitVec 32}
    (h : view t = ⟨.posting n, off⟩) :
    btreeTupleIsPosting t = true ∧ btreeTupleIsPivot t = false ∧
      btreeTupleGetNPosting t = some n ∧ btreeTupleGetPostingOffset t = some off := by
  have hq : btreeTupleIsPosting t = true :=
    (recognised_iff t .posting).mpr (by rw [h]; rfl)
  have hp : btreeTupleIsPivot t = false :=
    Bool.eq_false_iff.mpr fun hp => Bool.false_ne_true ((isPosting_of_isPivot hp).symm.trans hq)
  unfold view at h
  rw [if_neg (Bool.eq_false_iff.mp hp), if_pos hq, Header.mk.injEq, Format.posting.injEq] at h
  refine ⟨hq, hp, ?_, ?_⟩
  · exact (if_pos hq).trans (congrArg some h.1)
  · exact (if_pos hq).trans (congrArg some h.2)

/-- A pivot tuple, read. -/
theorem read_pivot {t : IndexTupleData} {n : BitVec 16} {heaptid : Bool}
    (h : (view t).format = .pivot n heaptid) :
    btreeTupleIsPivot t = true ∧ btreeTupleIsPosting t = false ∧
      (∀ indnatts, btreeTupleGetNAtts t indnatts = (n.toNat : ℤ)) ∧
      btreeTupleGetHeapTID t
        = some (if heaptid then some (indexTupleSize t - sizeofItemPointerData) else none) := by
  have hp : btreeTupleIsPivot t = true := (recognised_iff t .pivot).mpr (by rw [h]; rfl)
  unfold view at h
  simp only [hp, if_true, Format.pivot.injEq] at h
  refine ⟨hp, isPosting_of_isPivot hp, fun indnatts => ?_, ?_⟩
  · rw [← h.1]
    exact if_pos hp
  · rw [← h.2]
    unfold btreeTupleGetHeapTID itemPointerGetOffsetNumberNoCheck
    rw [if_pos hp]
    by_cases hb : t.tTid.ipPosid &&& btPivotHeapTidAttr = 0
    · rw [if_neg (not_not_intro hb), hb]
      rfl
    · rw [if_pos hb, if_pos (bne_iff_ne.mpr hb)]

/-- **A posting list tuple's heap TIDs lie one after another**, from where its posting
list starts: the first is the lowest, and the last one is as many items on as there
are TIDs, less one. -/
theorem heapTIDs_posting {t : IndexTupleData} {n : BitVec 16} {off : BitVec 32}
    (h : view t = ⟨.posting n, off⟩) :
    btreeTupleGetHeapTID t = some (some (off.toNat : ℤ)) ∧
      btreeTupleGetMaxHeapTID t
        = some (some (off.toNat + sizeofItemPointerData * (n.toNat - 1))) := by
  have ⟨hq, hp, hn, hoff⟩ := read_posting h
  constructor
  · simp [btreeTupleGetHeapTID, btreeTupleGetPosting, hq, hp, hoff]
  · simp [btreeTupleGetMaxHeapTID, btreeTupleGetPostingN, btreeTupleGetPosting, hq, hp, hn, hoff]

/-- **The setters of an nbtree tuple header, in every order their assertions allow.**
The size and the other flags stay. The tuple is always recognised as exactly one
class, the one the last setter that gives a class gave it – and as a plain tuple as
long as none did. What a setter stored is what the readers of that class return: the
posting list's length and place, the number of attributes and whether there is a heap
TID, however many downlinks are set after it, and the downlink, however many numbers
of attributes are set after that. And any setter may be called next whose opening assertions
hold. -/
theorem setters_recognised {t t' : IndexTupleData} (halt : t.tInfo &&& indexAltTidMask = 0)
    {ss : List Setter} (hrun : applyAll ss t = some t') :
    (indexTupleSize t' = indexTupleSize t ∧ rest t' = t.tInfo) ∧
    (∃! c, Recognised t' c) ∧
    Recognised t' ((ss.filterMap Setter.tupleClass?).getLastD .plain) ∧
    (∀ pre nhtids postingoffset, ss = pre ++ [.setPosting nhtids postingoffset] →
      btreeTupleIsPosting t' = true ∧ btreeTupleIsPivot t' = false ∧
        btreeTupleGetNPosting t' = some nhtids ∧
        btreeTupleGetPostingOffset t' = some postingoffset) ∧
    (∀ pre nkeyatts heaptid post, ss = pre ++ .setNAtts nkeyatts heaptid :: post →
      (∀ s ∈ post, s.IsDownLink) →
      btreeTupleIsPivot t' = true ∧ btreeTupleIsPosting t' = false ∧
        (∀ indnatts, btreeTupleGetNAtts t' indnatts = (nkeyatts.toNat : ℤ)) ∧
        ∃ p, btreeTupleGetHeapTID t' = some p ∧ (p ≠ none ↔ heaptid = true)) ∧
    (∀ pre blkno post, ss = pre ++ .setDownLink blkno :: post → (∀ s ∈ post, s.IsNAtts) →
      btreeTupleGetDownLink t' = blkno) ∧
    (∀ pre blkno, ss = pre ++ [.setTopParent blkno] →
      btreeTupleIsPivot t' = true ∧ btreeTupleIsPosting t' = false ∧
        (∀ indnatts, btreeTupleGetNAtts t' indnatts = 0) ∧
        btreeTupleGetTopParent t' = blkno) ∧
    ∀ s : Setter, (s.apply t').isSome ↔ s.Legal t' := by
  have hrest : rest t' = rest t := applyAll_rest hrun
  have hview : meaningAll ss (view t) = some (view t') := by
    rw [← applyAll_view, hrun]
    rfl
  have hplain : (view t).format.tupleClass = .plain :=
    ((recognised_iff t .plain).mp ⟨if_pos halt, if_pos halt⟩).symm
  refine ⟨⟨?_, ?_⟩, ⟨_, (recognised_iff t' _).mpr rfl, fun c => (recognised_iff t' c).mp⟩, ?_,
    ?_, ?_, ?_, ?_, fun s => apply_isSome_iff s t'⟩
  · have hsize : ∀ u : IndexTupleData, u.tInfo &&& indexSizeMask = rest u &&& indexSizeMask :=
      fun u => (BitVec.and_assoc u.tInfo (~~~indexAltTidMask) indexSizeMask).symm
    exact congrArg BitVec.toNat ((hsize t').trans (hrest ▸ (hsize t).symm))
  · rw [hrest]
    exact within_of_and_eq_zero (by decide) halt
  · rw [recognised_iff, meaningAll_tupleClass hview, hplain]
  · rintro pre nhtids off rfl
    obtain ⟨t₁, t₂, -, hs, -, hpost⟩ := applyAll_split hrun
    simp only [Setter.meaning, Option.ite_none_right_eq_some] at hs
    exact read_posting ((Option.some.inj hpost).symm.trans (Option.some.inj hs.2).symm)
  · rintro pre nkeyatts heaptid post rfl hpost
    obtain ⟨t₁, t₂, -, hs, -, hrun'⟩ := applyAll_split hrun
    simp only [Setter.meaning, Option.ite_none_right_eq_some] at hs
    have hf : (view t').format = .pivot nkeyatts heaptid := by
      rw [meaningAll_downLinks hpost hrun', ← Option.some.inj hs.2]
    have ⟨hp, hq, hn, htid⟩ := read_pivot hf
    refine ⟨hp, hq, hn, _, htid, ?_⟩
    cases heaptid <;> simp
  · rintro pre blkno post rfl hpost
    obtain ⟨t₁, t₂, -, hs, -, hrun'⟩ := applyAll_split hrun
    show (view t').block = blkno
    rw [meaningAll_nAtts hpost hrun', ← Option.some.inj hs]
  · rintro pre blkno rfl
    obtain ⟨t₁, t₂, -, hs, -, hpost⟩ := applyAll_split hrun
    have hv : view t' = ⟨.pivot 0 false, blkno⟩ :=
      (Option.some.inj hpost).symm.trans (Option.some.inj hs).symm
    have ⟨hp, hq, hn, _⟩ := read_pivot (congrArg Header.format hv)
    exact ⟨hp, hq, hn, congrArg Header.block hv⟩

/-- A tuple that was made a posting list tuple, then a pivot tuple with a heap TID,
then given a downlink. -/
theorem setters_recognised_pivot :
    btreeTupleGetNAtts ⟨⟨⟨1, 0x2345⟩, 0x1002⟩, 0x6028⟩ 3 = 2 := by
  have hrun : applyAll [.setPosting 3 16, .setNAtts 2 true, .setDownLink 0x12345]
      ⟨⟨⟨0, 1⟩, 5⟩, 0x4028⟩ = some ⟨⟨⟨1, 0x2345⟩, 0x1002⟩, 0x6028⟩ := rfl
  have ⟨_, _, hnatts, _⟩ := (setters_recognised (by decide) hrun).2.2.2.2.1
    [.setPosting 3 16] 2 true [.setDownLink 0x12345] rfl
    (fun s hs => ⟨0x12345, List.mem_singleton.mp hs⟩)
  exact hnatts 3

end Nbtree
