import PgCitus.Library.Run
import PgCitus.Library.WordMemory
import PgCitus.Nbtree

/-!
# The header of a heap tuple

The accessors of `access/htup_details.h`. A header keeps its virtual fields in three words,
which a tuple that is a datum uses otherwise, in `t_ctid`, which can be the place of a tuple,
a token of a speculative insertion, or a mark that the row is in another partition, and in the
bits of two masks. A macro whose `Assert` fails gives `none`.

What a header says is a record of fields that have nothing to do with each other
(`Virtual`), and `view` reads it off the bits, all of them (`view_injective`). However many
macros write to a header, each does to the record what its name says, and every accessor
answers from the record (`run_view`). The transaction that inserted a tuple is known to be
committed, or to be aborted, from some time on; no run of the macros takes that back, or
says both (`xminStatus_run`).
-/

namespace HtupDetails

open BitField Nbtree
open WordMemory (ByteOrder)

/-! ## The header -/

/-- `HeapTupleHeaderData`, up to `t_infomask`. A datum has its length in `tXmin`, its typmod in
`tXmax`, and its type in `tField3`. -/
structure HeapTupleHeaderData where
  tXmin : BitVec 32
  tXmax : BitVec 32
  /-- `t_cid`, or `t_xvac`. -/
  tField3 : BitVec 32
  tCtid : ItemPointerData
  tInfomask2 : BitVec 16
  tInfomask : BitVec 16
deriving DecidableEq, Repr

/-- `HEAP_HASEXTERNAL`. -/
def heapHasexternal : BitVec 16 := 0x0004
/-- `HEAP_COMBOCID`. -/
def heapCombocid : BitVec 16 := 0x0020
/-- `HEAP_XMAX_LOCK_ONLY`. -/
def heapXmaxLockOnly : BitVec 16 := 0x0080
/-- `HEAP_XMIN_COMMITTED`. -/
def heapXminCommitted : BitVec 16 := 0x0100
/-- `HEAP_XMIN_INVALID`. -/
def heapXminInvalid : BitVec 16 := 0x0200
/-- `HEAP_XMIN_FROZEN`. -/
def heapXminFrozen : BitVec 16 := heapXminCommitted ||| heapXminInvalid
/-- `HEAP_XMAX_INVALID`. -/
def heapXmaxInvalid : BitVec 16 := 0x0800
/-- `HEAP_XMAX_IS_MULTI`. -/
def heapXmaxIsMulti : BitVec 16 := 0x1000
/-- `HEAP_MOVED`. -/
def heapMoved : BitVec 16 := 0x4000 ||| 0x8000
/-- `HEAP_NATTS_MASK`. -/
def heapNattsMask : BitVec 16 := 0x07FF
/-- `HEAP_HOT_UPDATED`. -/
def heapHotUpdated : BitVec 16 := 0x4000
/-- `HEAP_ONLY_TUPLE`. -/
def heapOnlyTuple : BitVec 16 := 0x8000
/-- `HEAP_TUPLE_HAS_MATCH`, a temporary flag of hash joins. -/
def heapTupleHasMatch : BitVec 16 := heapOnlyTuple
/-- `MaxTupleAttributeNumber`. -/
def maxTupleAttributeNumber : ℕ := 1664

/-- `SpecTokenOffsetNumber`. -/
def specTokenOffsetNumber : BitVec 16 := 0xfffe
/-- `MovedPartitionsOffsetNumber`. -/
def movedPartitionsOffsetNumber : BitVec 16 := 0xfffd
/-- `MovedPartitionsBlockNumber`. -/
def movedPartitionsBlockNumber : BitVec 32 := 0xFFFFFFFF
/-- `FrozenTransactionId`. -/
def frozenTransactionId : BitVec 32 := 2
/-- `InvalidTransactionId`. -/
def invalidTransactionId : BitVec 32 := 0

/-- `ItemPointerSet`. -/
def itemPointerSet (blockNumber : BitVec 32) (offNum : BitVec 16) : ItemPointerData :=
  ⟨blockIdSet blockNumber, offNum⟩

/-- `ItemPointerGetOffsetNumber`. -/
def itemPointerGetOffsetNumber (pointer : ItemPointerData) : Option (BitVec 16) :=
  if pointer.ipPosid ≠ 0 then some (itemPointerGetOffsetNumberNoCheck pointer) else none

/-- `ItemPointerGetBlockNumber`. -/
def itemPointerGetBlockNumber (pointer : ItemPointerData) : Option (BitVec 32) :=
  if pointer.ipPosid ≠ 0 then some (itemPointerGetBlockNumberNoCheck pointer) else none

/-- `ItemPointerIndicatesMovedPartitions`. -/
def itemPointerIndicatesMovedPartitions (pointer : ItemPointerData) : Option Bool :=
  (itemPointerGetOffsetNumber pointer).map fun offnum =>
    decide (offnum = movedPartitionsOffsetNumber) &&
      decide (itemPointerGetBlockNumberNoCheck pointer = movedPartitionsBlockNumber)

/-! ## Reading -/

section

variable (tup : HeapTupleHeaderData)

/-- `HeapTupleHeaderGetRawXmin`. -/
def heapTupleHeaderGetRawXmin : BitVec 32 := tup.tXmin

/-- `HeapTupleHeaderXminCommitted`. -/
def heapTupleHeaderXminCommitted : Bool := tup.tInfomask &&& heapXminCommitted != 0

/-- `HeapTupleHeaderXminInvalid`. -/
def heapTupleHeaderXminInvalid : Bool :=
  tup.tInfomask &&& (heapXminCommitted ||| heapXminInvalid) == heapXminInvalid

/-- `HeapTupleHeaderXminFrozen`. -/
def heapTupleHeaderXminFrozen : Bool := tup.tInfomask &&& heapXminFrozen == heapXminFrozen

/-- `HeapTupleHeaderGetXmin`. -/
def heapTupleHeaderGetXmin : BitVec 32 :=
  if heapTupleHeaderXminFrozen tup then frozenTransactionId else heapTupleHeaderGetRawXmin tup

/-- `HeapTupleHeaderGetRawXmax`. -/
def heapTupleHeaderGetRawXmax : BitVec 32 := tup.tXmax

/-- `HeapTupleHeaderGetUpdateXid`. To find the id among those of several transactions is left to
`HeapTupleGetUpdateXid`. -/
def heapTupleHeaderGetUpdateXid (heapTupleGetUpdateXid : HeapTupleHeaderData → BitVec 32) :
    BitVec 32 :=
  if tup.tInfomask &&& heapXmaxInvalid = 0 ∧ tup.tInfomask &&& heapXmaxIsMulti ≠ 0 ∧
      tup.tInfomask &&& heapXmaxLockOnly = 0 then heapTupleGetUpdateXid tup
  else heapTupleHeaderGetRawXmax tup

/-- `HeapTupleHeaderGetRawCommandId`. -/
def heapTupleHeaderGetRawCommandId : BitVec 32 := tup.tField3

/-- `HeapTupleHeaderGetXvac`. -/
def heapTupleHeaderGetXvac : BitVec 32 :=
  if tup.tInfomask &&& heapMoved ≠ 0 then tup.tField3 else invalidTransactionId

/-- `HeapTupleHeaderIsSpeculative`. -/
def heapTupleHeaderIsSpeculative : Bool :=
  itemPointerGetOffsetNumberNoCheck tup.tCtid == specTokenOffsetNumber

/-- `HeapTupleHeaderGetSpeculativeToken`. -/
def heapTupleHeaderGetSpeculativeToken : Option (BitVec 32) :=
  if heapTupleHeaderIsSpeculative tup then itemPointerGetBlockNumber tup.tCtid else none

/-- `HeapTupleHeaderIndicatesMovedPartitions`. -/
def heapTupleHeaderIndicatesMovedPartitions : Option Bool :=
  itemPointerIndicatesMovedPartitions tup.tCtid

/-- `HeapTupleHeaderGetDatumLength`, which is `VARSIZE`. -/
def heapTupleHeaderGetDatumLength : ByteOrder → BitVec 32
  | .big => tup.tXmin &&& 0x3FFFFFFF#32
  | .little => (tup.tXmin >>> 2) &&& 0x3FFFFFFF#32

/-- `HeapTupleHeaderGetTypeId`. -/
def heapTupleHeaderGetTypeId : BitVec 32 := tup.tField3

/-- `HeapTupleHeaderGetTypMod`. -/
def heapTupleHeaderGetTypMod : BitVec 32 := tup.tXmax

/-- `HeapTupleHeaderIsHotUpdated`. -/
def heapTupleHeaderIsHotUpdated : Bool :=
  tup.tInfomask2 &&& heapHotUpdated != 0 && tup.tInfomask &&& heapXmaxInvalid == 0 &&
    !heapTupleHeaderXminInvalid tup

/-- `HeapTupleHeaderIsHeapOnly`. -/
def heapTupleHeaderIsHeapOnly : Bool := tup.tInfomask2 &&& heapOnlyTuple != 0

/-- `HeapTupleHeaderHasMatch`. -/
def heapTupleHeaderHasMatch : Bool := tup.tInfomask2 &&& heapTupleHasMatch != 0

/-- `HeapTupleHeaderGetNatts`. -/
def heapTupleHeaderGetNatts : BitVec 16 := tup.tInfomask2 &&& heapNattsMask

/-- `HeapTupleHeaderHasExternal`. -/
def heapTupleHeaderHasExternal : Bool := tup.tInfomask &&& heapHasexternal != 0

end

/-! ## Writing -/

section

variable (tup : HeapTupleHeaderData)

/-- `HeapTupleHeaderSetXmin`. -/
def heapTupleHeaderSetXmin (xid : BitVec 32) : HeapTupleHeaderData := { tup with tXmin := xid }

/-- `HeapTupleHeaderSetXminCommitted`. -/
def heapTupleHeaderSetXminCommitted : Option HeapTupleHeaderData :=
  if heapTupleHeaderXminInvalid tup then none
  else some { tup with tInfomask := tup.tInfomask ||| heapXminCommitted }

/-- `HeapTupleHeaderSetXminInvalid`. -/
def heapTupleHeaderSetXminInvalid : Option HeapTupleHeaderData :=
  if heapTupleHeaderXminCommitted tup then none
  else some { tup with tInfomask := tup.tInfomask ||| heapXminInvalid }

/-- `HeapTupleHeaderSetXminFrozen`. -/
def heapTupleHeaderSetXminFrozen : Option HeapTupleHeaderData :=
  if heapTupleHeaderXminInvalid tup then none
  else some { tup with tInfomask := tup.tInfomask ||| heapXminFrozen }

/-- `HeapTupleHeaderSetXmax`. -/
def heapTupleHeaderSetXmax (xid : BitVec 32) : HeapTupleHeaderData := { tup with tXmax := xid }

/-- `HeapTupleHeaderSetCmin`. -/
def heapTupleHeaderSetCmin (cid : BitVec 32) : Option HeapTupleHeaderData :=
  if tup.tInfomask &&& heapMoved ≠ 0 then none
  else some { tup with tField3 := cid, tInfomask := tup.tInfomask &&& ~~~heapCombocid }

/-- `HeapTupleHeaderSetCmax`. -/
def heapTupleHeaderSetCmax (cid : BitVec 32) (iscombo : Bool) : Option HeapTupleHeaderData :=
  if tup.tInfomask &&& heapMoved ≠ 0 then none
  else some
    { tup with
      tField3 := cid
      tInfomask :=
        if iscombo then tup.tInfomask ||| heapCombocid else tup.tInfomask &&& ~~~heapCombocid }

/-- `HeapTupleHeaderSetXvac`. -/
def heapTupleHeaderSetXvac (xid : BitVec 32) : Option HeapTupleHeaderData :=
  if tup.tInfomask &&& heapMoved ≠ 0 then some { tup with tField3 := xid } else none

/-- `HeapTupleHeaderSetSpeculativeToken`. -/
def heapTupleHeaderSetSpeculativeToken (token : BitVec 32) : HeapTupleHeaderData :=
  { tup with tCtid := itemPointerSet token specTokenOffsetNumber }

/-- `HeapTupleHeaderSetMovedPartitions`. -/
def heapTupleHeaderSetMovedPartitions : HeapTupleHeaderData :=
  { tup with tCtid := itemPointerSet movedPartitionsBlockNumber movedPartitionsOffsetNumber }

/-- The length word of `SET_VARSIZE`. -/
def lengthWord : ByteOrder → BitVec 32 → BitVec 32
  | .big, len => len &&& 0x3FFFFFFF#32
  | .little, len => len <<< 2

/-- `HeapTupleHeaderSetDatumLength`, which is `SET_VARSIZE`. -/
def heapTupleHeaderSetDatumLength (order : ByteOrder) (len : BitVec 32) : HeapTupleHeaderData :=
  { tup with tXmin := lengthWord order len }

/-- `HeapTupleHeaderSetTypeId`. -/
def heapTupleHeaderSetTypeId (typeid : BitVec 32) : HeapTupleHeaderData :=
  { tup with tField3 := typeid }

/-- `HeapTupleHeaderSetTypMod`. -/
def heapTupleHeaderSetTypMod (typmod : BitVec 32) : HeapTupleHeaderData :=
  { tup with tXmax := typmod }

/-- `HeapTupleHeaderSetHotUpdated`. -/
def heapTupleHeaderSetHotUpdated : HeapTupleHeaderData :=
  { tup with tInfomask2 := tup.tInfomask2 ||| heapHotUpdated }

/-- `HeapTupleHeaderClearHotUpdated`. -/
def heapTupleHeaderClearHotUpdated : HeapTupleHeaderData :=
  { tup with tInfomask2 := tup.tInfomask2 &&& ~~~heapHotUpdated }

/-- `HeapTupleHeaderSetHeapOnly`. -/
def heapTupleHeaderSetHeapOnly : HeapTupleHeaderData :=
  { tup with tInfomask2 := tup.tInfomask2 ||| heapOnlyTuple }

/-- `HeapTupleHeaderClearHeapOnly`. -/
def heapTupleHeaderClearHeapOnly : HeapTupleHeaderData :=
  { tup with tInfomask2 := tup.tInfomask2 &&& ~~~heapOnlyTuple }

/-- `HeapTupleHeaderSetMatch`. -/
def heapTupleHeaderSetMatch : HeapTupleHeaderData :=
  { tup with tInfomask2 := tup.tInfomask2 ||| heapTupleHasMatch }

/-- `HeapTupleHeaderClearMatch`. -/
def heapTupleHeaderClearMatch : HeapTupleHeaderData :=
  { tup with tInfomask2 := tup.tInfomask2 &&& ~~~heapTupleHasMatch }

/-- `HeapTupleHeaderSetNatts`. -/
def heapTupleHeaderSetNatts (natts : BitVec 16) : HeapTupleHeaderData :=
  { tup with tInfomask2 := tup.tInfomask2 &&& ~~~heapNattsMask ||| natts }

end

/-- A number of attributes that a tuple may have. -/
abbrev Natts := {natts : BitVec 16 // natts.toNat ≤ maxTupleAttributeNumber}

/-- One use of a macro that writes to a header. -/
inductive Setter where
  | setXmin (xid : BitVec 32)
  | setXminCommitted
  | setXminInvalid
  | setXminFrozen
  | setXmax (xid : BitVec 32)
  | setCmin (cid : BitVec 32)
  | setCmax (cid : BitVec 32) (iscombo : Bool)
  | setXvac (xid : BitVec 32)
  /-- `ItemPointerSet` of `t_ctid`. -/
  | setCtid (blockNumber : BitVec 32) (offNum : BitVec 16)
  | setSpeculativeToken (token : BitVec 32)
  | setMovedPartitions
  | setDatumLength (order : ByteOrder) (len : BitVec 32)
  | setTypeId (typeid : BitVec 32)
  | setTypMod (typmod : BitVec 32)
  | setHotUpdated
  | clearHotUpdated
  | setHeapOnly
  | clearHeapOnly
  | setMatch
  | clearMatch
  | setNatts (natts : Natts)

/-- The use of it, on a header. -/
def apply (tup : HeapTupleHeaderData) : Setter → Option HeapTupleHeaderData
  | .setXmin xid => some (heapTupleHeaderSetXmin tup xid)
  | .setXminCommitted => heapTupleHeaderSetXminCommitted tup
  | .setXminInvalid => heapTupleHeaderSetXminInvalid tup
  | .setXminFrozen => heapTupleHeaderSetXminFrozen tup
  | .setXmax xid => some (heapTupleHeaderSetXmax tup xid)
  | .setCmin cid => heapTupleHeaderSetCmin tup cid
  | .setCmax cid iscombo => heapTupleHeaderSetCmax tup cid iscombo
  | .setXvac xid => heapTupleHeaderSetXvac tup xid
  | .setCtid blockNumber offNum => some { tup with tCtid := itemPointerSet blockNumber offNum }
  | .setSpeculativeToken token => some (heapTupleHeaderSetSpeculativeToken tup token)
  | .setMovedPartitions => some (heapTupleHeaderSetMovedPartitions tup)
  | .setDatumLength order len => some (heapTupleHeaderSetDatumLength tup order len)
  | .setTypeId typeid => some (heapTupleHeaderSetTypeId tup typeid)
  | .setTypMod typmod => some (heapTupleHeaderSetTypMod tup typmod)
  | .setHotUpdated => some (heapTupleHeaderSetHotUpdated tup)
  | .clearHotUpdated => some (heapTupleHeaderClearHotUpdated tup)
  | .setHeapOnly => some (heapTupleHeaderSetHeapOnly tup)
  | .clearHeapOnly => some (heapTupleHeaderClearHeapOnly tup)
  | .setMatch => some (heapTupleHeaderSetMatch tup)
  | .clearMatch => some (heapTupleHeaderClearMatch tup)
  | .setNatts natts => some (heapTupleHeaderSetNatts tup natts)

/-! ## What a header says -/

/-- What is known of the transaction that inserted a tuple. -/
inductive XminStatus where
  | inProgress
  | committed
  | invalid
  | frozen
deriving DecidableEq, Repr

/-- The two bits. -/
def XminStatus.ofBits : (committed invalid : Bool) → XminStatus
  | false, false => inProgress
  | true, false => committed
  | false, true => invalid
  | true, true => frozen

/-- The transaction is found to have committed. -/
def XminStatus.commit : XminStatus → Option XminStatus
  | inProgress | committed => some committed
  | frozen => some frozen
  | invalid => none

/-- The transaction is found to have aborted. -/
def XminStatus.abort : XminStatus → Option XminStatus
  | inProgress | invalid => some invalid
  | committed | frozen => none

/-- The transaction is found to be older than every snapshot. -/
def XminStatus.freeze : XminStatus → Option XminStatus
  | inProgress | committed | frozen => some frozen
  | invalid => none

/-- What there may be in `t_ctid`. -/
inductive Ctid where
  | tid (blockNumber : BitVec 32) (offNum : BitVec 16)
  | speculative (token : BitVec 32)
  | movedPartitions
deriving DecidableEq, Repr

/-- What an item pointer says as `t_ctid`. -/
def Ctid.of (blockNumber : BitVec 32) (offNum : BitVec 16) : Ctid :=
  if offNum = specTokenOffsetNumber then speculative blockNumber
  else if offNum = movedPartitionsOffsetNumber ∧ blockNumber = movedPartitionsBlockNumber then
    movedPartitions
  else tid blockNumber offNum

/-- **The fields that a header has room for.** -/
@[ext] structure Virtual where
  /-- The transaction that inserted the tuple, or the length word of a datum. -/
  xmin : BitVec 32
  xminStatus : XminStatus
  xmax : BitVec 32
  /-- The command id, or the id of the old `VACUUM FULL`. -/
  field3 : BitVec 32
  combo : Bool
  ctid : Ctid
  natts : BitVec 16
  hotUpdated : Bool
  heapOnly : Bool
  /-- The flags that are set in other ways. -/
  others : BitVec 16
  others2 : BitVec 16
deriving DecidableEq, Repr

/-- The bits of `t_infomask` that the macros write to. -/
def written : BitVec 16 := heapXminFrozen ||| heapCombocid

/-- The bits of `t_infomask2` that the macros write to. -/
def written2 : BitVec 16 := heapHotUpdated ||| heapOnlyTuple ||| heapNattsMask

/-- What a header says. -/
def view (tup : HeapTupleHeaderData) : Virtual where
  xmin := tup.tXmin
  xminStatus := .ofBits (tup.tInfomask.getLsbD 8) (tup.tInfomask.getLsbD 9)
  xmax := tup.tXmax
  field3 := tup.tField3
  combo := tup.tInfomask.getLsbD 5
  ctid := .of (blockIdGetBlockNumber tup.tCtid.ipBlkid) tup.tCtid.ipPosid
  natts := tup.tInfomask2 &&& heapNattsMask
  hotUpdated := tup.tInfomask2.getLsbD 14
  heapOnly := tup.tInfomask2.getLsbD 15
  others := tup.tInfomask &&& ~~~written
  others2 := tup.tInfomask2 &&& ~~~written2

/-- The tuple was moved by the old `VACUUM FULL`. -/
def Virtual.moved (v : Virtual) : Bool := v.others &&& heapMoved != 0

/-- **What a macro is for**: the fields after it, where it may be used. -/
def meaning (v : Virtual) : Setter → Option Virtual
  | .setXmin xid => some { v with xmin := xid }
  | .setXminCommitted => v.xminStatus.commit.map fun status => { v with xminStatus := status }
  | .setXminInvalid => v.xminStatus.abort.map fun status => { v with xminStatus := status }
  | .setXminFrozen => v.xminStatus.freeze.map fun status => { v with xminStatus := status }
  | .setXmax xid | .setTypMod xid => some { v with xmax := xid }
  | .setCmin cid => if v.moved then none else some { v with field3 := cid, combo := false }
  | .setCmax cid iscombo =>
    if v.moved then none else some { v with field3 := cid, combo := iscombo }
  | .setXvac xid => if v.moved then some { v with field3 := xid } else none
  | .setCtid blockNumber offNum => some { v with ctid := .of blockNumber offNum }
  | .setSpeculativeToken token => some { v with ctid := .speculative token }
  | .setMovedPartitions => some { v with ctid := .movedPartitions }
  | .setDatumLength order len => some { v with xmin := lengthWord order len }
  | .setTypeId typeid => some { v with field3 := typeid }
  | .setHotUpdated => some { v with hotUpdated := true }
  | .clearHotUpdated => some { v with hotUpdated := false }
  | .setHeapOnly | .setMatch => some { v with heapOnly := true }
  | .clearHeapOnly | .clearMatch => some { v with heapOnly := false }
  | .setNatts natts => some { v with natts := natts }

/-! ## The bits -/

/-- The bits of `HEAP_XMIN_FROZEN`. -/
theorem and_heapXminFrozen (x : BitVec 16) : x &&& heapXminFrozen =
    (if x.getLsbD 8 then heapXminCommitted else 0#16) |||
      if x.getLsbD 9 then heapXminInvalid else 0#16 := by
  have h8 : heapXminCommitted = BitVec.twoPow 16 8 := by decide
  have h9 : heapXminInvalid = BitVec.twoPow 16 9 := by decide
  unfold heapXminFrozen
  rw [BitVec.and_or_distrib_left, h8, h9, BitVec.and_twoPow, BitVec.and_twoPow]

theorem xminCommitted_view (t : HeapTupleHeaderData) : heapTupleHeaderXminCommitted t =
    decide ((view t).xminStatus = .committed ∨ (view t).xminStatus = .frozen) := by
  have hbit := and_twoPow_ne_zero (m := heapXminCommitted) (i := 8) (by decide) (by decide)
    t.tInfomask
  rw [Bool.eq_iff_iff, decide_eq_true_iff]
  show (t.tInfomask &&& heapXminCommitted != 0) = true ↔
    (XminStatus.ofBits (t.tInfomask.getLsbD 8) (t.tInfomask.getLsbD 9) = .committed ∨
      XminStatus.ofBits (t.tInfomask.getLsbD 8) (t.tInfomask.getLsbD 9) = .frozen)
  rw [bne_iff_ne, hbit]
  cases t.tInfomask.getLsbD 8 <;> cases t.tInfomask.getLsbD 9 <;> decide

theorem xminInvalid_view (t : HeapTupleHeaderData) :
    heapTupleHeaderXminInvalid t = decide ((view t).xminStatus = .invalid) := by
  show (t.tInfomask &&& heapXminFrozen == heapXminInvalid) = decide
    (XminStatus.ofBits (t.tInfomask.getLsbD 8) (t.tInfomask.getLsbD 9) = .invalid)
  rw [and_heapXminFrozen]
  cases t.tInfomask.getLsbD 8 <;> cases t.tInfomask.getLsbD 9 <;> decide

theorem xminFrozen_view (t : HeapTupleHeaderData) :
    heapTupleHeaderXminFrozen t = decide ((view t).xminStatus = .frozen) := by
  show (t.tInfomask &&& heapXminFrozen == heapXminFrozen) = decide
    (XminStatus.ofBits (t.tInfomask.getLsbD 8) (t.tInfomask.getLsbD 9) = .frozen)
  rw [and_heapXminFrozen]
  cases t.tInfomask.getLsbD 8 <;> cases t.tInfomask.getLsbD 9 <;> decide

/-- The flags that the macros do not write to are read as they are. -/
theorem others_and (x : BitVec 16) {k : BitVec 16} (h : Apart written k) :
    (x &&& ~~~written) &&& k = x &&& k := clear_read h x

theorem moved_view (t : HeapTupleHeaderData) :
    (view t).moved = (t.tInfomask &&& heapMoved != 0) := by
  show ((t.tInfomask &&& ~~~written) &&& heapMoved != 0) = _
  rw [others_and _ (by decide)]

/-- Flags that are set. -/
theorem view_or (t : HeapTupleHeaderData) {m : BitVec 16} (h : Apart m (~~~written)) :
    view { t with tInfomask := t.tInfomask ||| m } =
      { view t with
        xminStatus := .ofBits (m.getLsbD 8 || t.tInfomask.getLsbD 8)
          (m.getLsbD 9 || t.tInfomask.getLsbD 9)
        combo := m.getLsbD 5 || t.tInfomask.getLsbD 5 } := by
  unfold view
  simp only [BitVec.getLsbD_or, set_read h, Bool.or_comm]

/-- Flags that are cleared. -/
theorem view_clear (t : HeapTupleHeaderData) {m : BitVec 16} (h : Apart m (~~~written)) :
    view { t with tInfomask := t.tInfomask &&& ~~~m } =
      { view t with
        xminStatus := .ofBits (!m.getLsbD 8 && t.tInfomask.getLsbD 8)
          (!m.getLsbD 9 && t.tInfomask.getLsbD 9)
        combo := !m.getLsbD 5 && t.tInfomask.getLsbD 5 } := by
  unfold view
  simp only [BitVec.getLsbD_and, BitVec.getLsbD_not, clear_read h, Bool.and_comm]
  simp

/-- Flags that are set in the other mask. -/
theorem view_or2 (t : HeapTupleHeaderData) {m : BitVec 16} (h : Apart m (~~~written2))
    (hn : Apart m heapNattsMask) :
    view { t with tInfomask2 := t.tInfomask2 ||| m } =
      { view t with
        hotUpdated := m.getLsbD 14 || t.tInfomask2.getLsbD 14
        heapOnly := m.getLsbD 15 || t.tInfomask2.getLsbD 15 } := by
  unfold view
  simp only [BitVec.getLsbD_or, set_read h, set_read hn, Bool.or_comm]

/-- Flags that are cleared in the other mask. -/
theorem view_clear2 (t : HeapTupleHeaderData) {m : BitVec 16} (h : Apart m (~~~written2))
    (hn : Apart m heapNattsMask) :
    view { t with tInfomask2 := t.tInfomask2 &&& ~~~m } =
      { view t with
        hotUpdated := !m.getLsbD 14 && t.tInfomask2.getLsbD 14
        heapOnly := !m.getLsbD 15 && t.tInfomask2.getLsbD 15 } := by
  unfold view
  simp only [BitVec.getLsbD_and, BitVec.getLsbD_not, clear_read h, clear_read hn, Bool.and_comm]
  simp

/-- Where the transaction may be found to have committed. -/
theorem commit_view (t : HeapTupleHeaderData) : (view t).xminStatus.commit =
    if heapTupleHeaderXminInvalid t then none
    else some (.ofBits true (t.tInfomask.getLsbD 9)) := by
  rw [xminInvalid_view]
  show (XminStatus.ofBits (t.tInfomask.getLsbD 8) (t.tInfomask.getLsbD 9)).commit =
    if decide (XminStatus.ofBits (t.tInfomask.getLsbD 8) (t.tInfomask.getLsbD 9) = .invalid) then
      none else _
  cases t.tInfomask.getLsbD 8 <;> cases t.tInfomask.getLsbD 9 <;> rfl

/-- Where it may be found to have aborted. -/
theorem abort_view (t : HeapTupleHeaderData) : (view t).xminStatus.abort =
    if heapTupleHeaderXminCommitted t then none
    else some (.ofBits (t.tInfomask.getLsbD 8) true) := by
  rw [xminCommitted_view]
  show (XminStatus.ofBits (t.tInfomask.getLsbD 8) (t.tInfomask.getLsbD 9)).abort =
    if decide (XminStatus.ofBits (t.tInfomask.getLsbD 8) (t.tInfomask.getLsbD 9) = .committed ∨
      XminStatus.ofBits (t.tInfomask.getLsbD 8) (t.tInfomask.getLsbD 9) = .frozen) then none else _
  cases t.tInfomask.getLsbD 8 <;> cases t.tInfomask.getLsbD 9 <;> rfl

/-- Where it may be found to be older than every snapshot. -/
theorem freeze_view (t : HeapTupleHeaderData) : (view t).xminStatus.freeze =
    if heapTupleHeaderXminInvalid t then none else some (.ofBits true true) := by
  rw [xminInvalid_view]
  show (XminStatus.ofBits (t.tInfomask.getLsbD 8) (t.tInfomask.getLsbD 9)).freeze =
    if decide (XminStatus.ofBits (t.tInfomask.getLsbD 8) (t.tInfomask.getLsbD 9) = .invalid) then
      none else _
  cases t.tInfomask.getLsbD 8 <;> cases t.tInfomask.getLsbD 9 <;> rfl

/-- A number of attributes keeps within its bits. -/
theorem within_natts (natts : Natts) : Within heapNattsMask natts.1 :=
  (within_low_iff (show heapNattsMask.toNat = 2 ^ 11 - 1 from rfl)).mpr
    (natts.2.trans_lt (by decide))

/-- What is written over a number of attributes. -/
theorem view_natts (t : HeapTupleHeaderData) (natts : Natts) :
    view (heapTupleHeaderSetNatts t natts) = { view t with natts := natts } := by
  have hn := within_natts natts
  have hzero : (t.tInfomask2 &&& ~~~heapNattsMask) &&& heapNattsMask = 0#16 := by
    rw [BitVec.and_assoc, show ~~~heapNattsMask &&& heapNattsMask = 0#16 by decide,
      BitVec.and_zero]
  have hflag {i : ℕ} (hi : i < 16) (hm : heapNattsMask.getLsbD i = false) :
      (t.tInfomask2 &&& ~~~heapNattsMask ||| natts.1).getLsbD i = t.tInfomask2.getLsbD i := by
    rw [BitVec.getLsbD_or, ← show natts.1 &&& heapNattsMask = natts.1 from hn, BitVec.getLsbD_and,
      BitVec.getLsbD_and, BitVec.getLsbD_not, hm]
    simp [hi]
  have hothers : (t.tInfomask2 &&& ~~~heapNattsMask ||| natts.1) &&& ~~~written2 =
      t.tInfomask2 &&& ~~~written2 := by
    rw [BitVec.and_or_distrib_right, hn.and_eq_zero (by decide), BitVec.or_zero,
      clear_read (by decide)]
  unfold view heapTupleHeaderSetNatts
  rw [hflag (by decide) (by decide), hflag (by decide) (by decide), hothers,
    BitVec.and_or_distrib_right, hzero, BitVec.zero_or, hn]

/-- **A macro does to the fields what it is for.** -/
theorem apply_view (t : HeapTupleHeaderData) (s : Setter) :
    (apply t s).map view = meaning (view t) s := by
  cases s with
  | setXmin xid => rfl
  | setXminCommitted =>
    show (heapTupleHeaderSetXminCommitted t).map view = (view t).xminStatus.commit.map _
    unfold heapTupleHeaderSetXminCommitted
    rw [commit_view]
    split
    · rfl
    · exact congrArg some (view_or t (by decide))
  | setXminInvalid =>
    show (heapTupleHeaderSetXminInvalid t).map view = (view t).xminStatus.abort.map _
    unfold heapTupleHeaderSetXminInvalid
    rw [abort_view]
    split
    · rfl
    · exact congrArg some (view_or t (by decide))
  | setXminFrozen =>
    show (heapTupleHeaderSetXminFrozen t).map view = (view t).xminStatus.freeze.map _
    unfold heapTupleHeaderSetXminFrozen
    rw [freeze_view]
    split
    · rfl
    · exact congrArg some (view_or t (by decide))
  | setXmax xid => rfl
  | setCmin cid =>
    show (heapTupleHeaderSetCmin t cid).map view = if (view t).moved then none else _
    unfold heapTupleHeaderSetCmin
    rw [moved_view]
    simp only [bne_iff_ne]
    split
    · rfl
    · exact congrArg some (view_clear { t with tField3 := cid } (by decide))
  | setCmax cid iscombo =>
    show (heapTupleHeaderSetCmax t cid iscombo).map view = if (view t).moved then none else _
    unfold heapTupleHeaderSetCmax
    rw [moved_view]
    simp only [bne_iff_ne]
    split
    · rfl
    · cases iscombo with
      | false => exact congrArg some (view_clear { t with tField3 := cid } (by decide))
      | true => exact congrArg some (view_or { t with tField3 := cid } (by decide))
  | setXvac xid =>
    show (heapTupleHeaderSetXvac t xid).map view = if (view t).moved then _ else none
    unfold heapTupleHeaderSetXvac
    rw [moved_view]
    simp only [bne_iff_ne]
    split
    · rfl
    · rfl
  | setCtid blockNumber offNum =>
    show some { view t with
      ctid := .of (blockIdGetBlockNumber (blockIdSet blockNumber)) offNum } = _
    rw [blockIdGetBlockNumber_set]
    rfl
  | setSpeculativeToken token =>
    show some { view t with
      ctid := .of (blockIdGetBlockNumber (blockIdSet token)) specTokenOffsetNumber } =
        some { view t with ctid := .speculative token }
    rw [blockIdGetBlockNumber_set, show Ctid.of token specTokenOffsetNumber = .speculative token
      from if_pos rfl]
  | setMovedPartitions =>
    have hctid : Ctid.of (blockIdGetBlockNumber (blockIdSet movedPartitionsBlockNumber))
        movedPartitionsOffsetNumber = .movedPartitions := by decide
    exact congrArg (fun ctid => some { view t with ctid := ctid }) hctid
  | setDatumLength order len => rfl
  | setTypeId typeid => rfl
  | setTypMod typmod => rfl
  | setHotUpdated => exact congrArg some (view_or2 t (by decide) (by decide))
  | clearHotUpdated => exact congrArg some (view_clear2 t (by decide) (by decide))
  | setHeapOnly => exact congrArg some (view_or2 t (by decide) (by decide))
  | clearHeapOnly => exact congrArg some (view_clear2 t (by decide) (by decide))
  | setMatch => exact congrArg some (view_or2 t (by decide) (by decide))
  | clearMatch => exact congrArg some (view_clear2 t (by decide) (by decide))
  | setNatts natts => exact congrArg some (view_natts t natts)

/-- Two halves of a block number are those of one only. -/
theorem blockIdGetBlockNumber_injective : Function.Injective blockIdGetBlockNumber := by
  intro b c h
  have hnat := congrArg BitVec.toNat h
  unfold blockIdGetBlockNumber at hnat
  rw [toNat_pack _ _ (by decide) (by decide), toNat_pack _ _ (by decide) (by decide)] at hnat
  have hb := b.biLo.isLt
  have hc := c.biLo.isLt
  have hhi : b.biHi = c.biHi := BitVec.eq_of_toNat_eq (by omega)
  have hlo : b.biLo = c.biLo := BitVec.eq_of_toNat_eq (by omega)
  cases b
  cases c
  exact congrArg₂ BlockIdData.mk hhi hlo

theorem Ctid.of_injective {b c : BitVec 32} {i j : BitVec 16} (h : Ctid.of b i = Ctid.of c j) :
    b = c ∧ i = j := by
  unfold Ctid.of at h
  split_ifs at h
  · exact ⟨Ctid.speculative.inj h, ‹i = _›.trans ‹j = _›.symm⟩
  · have hi := ‹i = _ ∧ b = _›
    have hj := ‹j = _ ∧ c = _›
    exact ⟨hi.2.trans hj.2.symm, hi.1.trans hj.1.symm⟩
  · exact Ctid.tid.inj h

theorem XminStatus.ofBits_injective {a b c d : Bool} (h : ofBits a b = ofBits c d) :
    a = c ∧ b = d := by
  cases a <;> cases b <;> cases c <;> cases d <;> first | exact ⟨rfl, rfl⟩ | exact nomatch h

/-- **Everything that is in a header** is in one of the fields. -/
theorem view_injective : Function.Injective view := by
  intro t u h
  have hwritten : ∀ i : Fin 16, (~~~written).getLsbD i = true ∨ i = 5 ∨ i = 8 ∨ i = 9 := by decide
  have hwritten2 : ∀ i : Fin 16, (~~~written2).getLsbD i = true ∨
      heapNattsMask.getLsbD i = true ∨ i = 14 ∨ i = 15 := by decide
  -- a bit that is not masked out
  have hmasked {x y m : BitVec 16} (hxy : x &&& m = y &&& m) {i : ℕ} (hm : m.getLsbD i = true) :
      x.getLsbD i = y.getLsbD i := by
    have hbit := congrArg (fun z : BitVec 16 => z.getLsbD i) hxy
    simpa [hm] using hbit
  have hmask : t.tInfomask = u.tInfomask := by
    obtain ⟨h8, h9⟩ := XminStatus.ofBits_injective (congrArg Virtual.xminStatus h)
    refine BitVec.eq_of_getLsbD_eq fun i hi => ?_
    rcases hwritten ⟨i, hi⟩ with hm | hi | hi | hi
    · exact hmasked (congrArg Virtual.others h) hm
    · rw [show i = 5 from congrArg Fin.val hi]
      exact congrArg Virtual.combo h
    · rw [show i = 8 from congrArg Fin.val hi, h8]
    · rw [show i = 9 from congrArg Fin.val hi, h9]
  have hmask2 : t.tInfomask2 = u.tInfomask2 := by
    refine BitVec.eq_of_getLsbD_eq fun i hi => ?_
    rcases hwritten2 ⟨i, hi⟩ with hm | hm | hi | hi
    · exact hmasked (congrArg Virtual.others2 h) hm
    · exact hmasked (congrArg Virtual.natts h) hm
    · rw [show i = 14 from congrArg Fin.val hi]
      exact congrArg Virtual.hotUpdated h
    · rw [show i = 15 from congrArg Fin.val hi]
      exact congrArg Virtual.heapOnly h
  obtain ⟨hblock, hoff⟩ := Ctid.of_injective (congrArg Virtual.ctid h)
  have hctid : t.tCtid = u.tCtid :=
    congrArg₂ ItemPointerData.mk (blockIdGetBlockNumber_injective hblock) hoff
  have hxmin : t.tXmin = u.tXmin := congrArg Virtual.xmin h
  have hxmax : t.tXmax = u.tXmax := congrArg Virtual.xmax h
  have hfield3 : t.tField3 = u.tField3 := congrArg Virtual.field3 h
  cases t
  cases u
  simp only [HeapTupleHeaderData.mk.injEq]
  exact ⟨hxmin, hxmax, hfield3, hctid, hmask2, hmask⟩

/-! ## Answers -/

/-- What all accessors say. -/
@[ext] structure Answers where
  rawXmin : BitVec 32
  xmin : BitVec 32
  xminCommitted : Bool
  xminInvalid : Bool
  xminFrozen : Bool
  rawXmax : BitVec 32
  /-- With what `HeapTupleGetUpdateXid` says. -/
  updateXid : BitVec 32 → BitVec 32
  rawCommandId : BitVec 32
  xvac : BitVec 32
  isSpeculative : Bool
  speculativeToken : Option (BitVec 32)
  indicatesMovedPartitions : Option Bool
  datumLength : ByteOrder → BitVec 32
  typeId : BitVec 32
  typMod : BitVec 32
  isHotUpdated : Bool
  isHeapOnly : Bool
  hasMatch : Bool
  natts : BitVec 16
  hasExternal : Bool

/-- The answers of the macros. -/
def answers (tup : HeapTupleHeaderData) : Answers where
  rawXmin := heapTupleHeaderGetRawXmin tup
  xmin := heapTupleHeaderGetXmin tup
  xminCommitted := heapTupleHeaderXminCommitted tup
  xminInvalid := heapTupleHeaderXminInvalid tup
  xminFrozen := heapTupleHeaderXminFrozen tup
  rawXmax := heapTupleHeaderGetRawXmax tup
  updateXid xid := heapTupleHeaderGetUpdateXid tup fun _ => xid
  rawCommandId := heapTupleHeaderGetRawCommandId tup
  xvac := heapTupleHeaderGetXvac tup
  isSpeculative := heapTupleHeaderIsSpeculative tup
  speculativeToken := heapTupleHeaderGetSpeculativeToken tup
  indicatesMovedPartitions := heapTupleHeaderIndicatesMovedPartitions tup
  datumLength := heapTupleHeaderGetDatumLength tup
  typeId := heapTupleHeaderGetTypeId tup
  typMod := heapTupleHeaderGetTypMod tup
  isHotUpdated := heapTupleHeaderIsHotUpdated tup
  isHeapOnly := heapTupleHeaderIsHeapOnly tup
  hasMatch := heapTupleHeaderHasMatch tup
  natts := heapTupleHeaderGetNatts tup
  hasExternal := heapTupleHeaderHasExternal tup

/-- What a `t_ctid` says as a token. -/
def Ctid.token : Ctid → Option (BitVec 32)
  | speculative token => some token
  | tid _ _ | movedPartitions => none

/-- Whether it says that the row is in another partition; offset number zero is no place. -/
def Ctid.moved : Ctid → Option Bool
  | tid _ offNum => if offNum = 0 then none else some false
  | speculative _ => some false
  | movedPartitions => some true

/-- The answers, from the fields. -/
def Virtual.answers (v : Virtual) : Answers where
  rawXmin := v.xmin
  xmin := if v.xminStatus = .frozen then frozenTransactionId else v.xmin
  xminCommitted := decide (v.xminStatus = .committed ∨ v.xminStatus = .frozen)
  xminInvalid := decide (v.xminStatus = .invalid)
  xminFrozen := decide (v.xminStatus = .frozen)
  rawXmax := v.xmax
  updateXid xid :=
    if v.others &&& heapXmaxInvalid = 0 ∧ v.others &&& heapXmaxIsMulti ≠ 0 ∧
        v.others &&& heapXmaxLockOnly = 0 then xid
    else v.xmax
  rawCommandId := v.field3
  xvac := if v.moved then v.field3 else invalidTransactionId
  isSpeculative := v.ctid.token.isSome
  speculativeToken := v.ctid.token
  indicatesMovedPartitions := v.ctid.moved
  datumLength
    | .big => v.xmin &&& 0x3FFFFFFF#32
    | .little => (v.xmin >>> 2) &&& 0x3FFFFFFF#32
  typeId := v.field3
  typMod := v.xmax
  isHotUpdated :=
    v.hotUpdated && v.others &&& heapXmaxInvalid == 0 && decide (v.xminStatus ≠ .invalid)
  isHeapOnly := v.heapOnly
  hasMatch := v.heapOnly
  natts := v.natts
  hasExternal := v.others &&& heapHasexternal != 0

/-- A token. -/
theorem token_of (block : BlockIdData) (offNum : BitVec 16) :
    (Ctid.of (blockIdGetBlockNumber block) offNum).token =
      if offNum = specTokenOffsetNumber then some (blockIdGetBlockNumber block) else none := by
  unfold Ctid.of
  split_ifs <;> rfl

/-- The mark of a row that is in another partition. -/
theorem moved_of (block : BlockIdData) (offNum : BitVec 16) :
    (Ctid.of (blockIdGetBlockNumber block) offNum).moved =
      itemPointerIndicatesMovedPartitions ⟨block, offNum⟩ := by
  unfold Ctid.of itemPointerIndicatesMovedPartitions itemPointerGetOffsetNumber
    itemPointerGetOffsetNumberNoCheck itemPointerGetBlockNumberNoCheck
  by_cases hspec : offNum = specTokenOffsetNumber
  · rw [if_pos hspec, hspec]
    rfl
  · rw [if_neg hspec]
    by_cases hmoved : offNum = movedPartitionsOffsetNumber ∧
        blockIdGetBlockNumber block = movedPartitionsBlockNumber
    · rw [if_pos hmoved, hmoved.1, hmoved.2]
      rfl
    · rw [if_neg hmoved]
      show (if offNum = 0 then none else some false) = _
      by_cases hzero : offNum = 0
      · simp [hzero]
      · simp only [ne_eq, hzero, not_false_iff, if_true, if_false, Option.map_some,
          ← Bool.decide_and, hmoved, decide_false]

/-- **Every accessor answers from the fields.** -/
theorem answers_view (t : HeapTupleHeaderData) : answers t = (view t).answers := by
  have htoken : (view t).ctid.token =
      if t.tCtid.ipPosid = specTokenOffsetNumber then
        some (blockIdGetBlockNumber t.tCtid.ipBlkid) else none := token_of _ _
  have hspec : heapTupleHeaderIsSpeculative t = (view t).ctid.token.isSome := by
    rw [htoken]
    show decide (t.tCtid.ipPosid = specTokenOffsetNumber) = _
    split_ifs with h
    · exact decide_eq_true h
    · exact decide_eq_false h
  have honly : heapTupleHeaderIsHeapOnly t = (view t).heapOnly := by
    have hbit := and_twoPow_ne_zero (m := heapOnlyTuple) (i := 15) (by decide) (by decide)
      t.tInfomask2
    rw [Bool.eq_iff_iff, ← show _ ↔ (view t).heapOnly = true from hbit]
    exact bne_iff_ne
  have hhot : (t.tInfomask2 &&& heapHotUpdated != 0) = (view t).hotUpdated := by
    have hbit := and_twoPow_ne_zero (m := heapHotUpdated) (i := 14) (by decide) (by decide)
      t.tInfomask2
    rw [Bool.eq_iff_iff, ← show _ ↔ (view t).hotUpdated = true from hbit]
    exact bne_iff_ne
  ext1
  case rawXmin => rfl
  case xmin =>
    show heapTupleHeaderGetXmin t = _
    unfold heapTupleHeaderGetXmin
    rw [xminFrozen_view]
    exact if_congr decide_eq_true_iff rfl rfl
  case xminCommitted => exact xminCommitted_view t
  case xminInvalid => exact xminInvalid_view t
  case xminFrozen => exact xminFrozen_view t
  case rawXmax => rfl
  case updateXid =>
    funext xid
    show heapTupleHeaderGetUpdateXid t (fun _ => xid) =
      if (t.tInfomask &&& ~~~written) &&& heapXmaxInvalid = 0 ∧
        (t.tInfomask &&& ~~~written) &&& heapXmaxIsMulti ≠ 0 ∧
        (t.tInfomask &&& ~~~written) &&& heapXmaxLockOnly = 0 then xid else t.tXmax
    rw [others_and _ (by decide), others_and _ (by decide), others_and _ (by decide)]
    rfl
  case rawCommandId => rfl
  case xvac =>
    show heapTupleHeaderGetXvac t = if (view t).moved then t.tField3 else _
    rw [moved_view]
    exact if_congr bne_iff_ne.symm rfl rfl
  case isSpeculative => exact hspec
  case speculativeToken =>
    show heapTupleHeaderGetSpeculativeToken t = (view t).ctid.token
    unfold heapTupleHeaderGetSpeculativeToken
    rw [hspec, htoken]
    by_cases h : t.tCtid.ipPosid = specTokenOffsetNumber
    · rw [if_pos h]
      unfold itemPointerGetBlockNumber
      rw [h]
      rfl
    · rw [if_neg h]
      rfl
  case indicatesMovedPartitions => exact (moved_of _ _).symm
  case datumLength =>
    funext order
    cases order <;> rfl
  case typeId => rfl
  case typMod => rfl
  case isHotUpdated =>
    show heapTupleHeaderIsHotUpdated t = ((view t).hotUpdated &&
      (t.tInfomask &&& ~~~written) &&& heapXmaxInvalid == 0 && _)
    unfold heapTupleHeaderIsHotUpdated
    rw [others_and _ (by decide), hhot, xminInvalid_view, decide_not]
  case isHeapOnly => exact honly
  case hasMatch => exact honly
  case natts => rfl
  case hasExternal =>
    show (t.tInfomask &&& heapHasexternal != 0) =
      ((t.tInfomask &&& ~~~written) &&& heapHasexternal != 0)
    rw [others_and _ (by decide)]

/-- **The length of a datum is read back**, if it fits its bits. -/
theorem heapTupleHeaderGetDatumLength_set (t : HeapTupleHeaderData) (order : ByteOrder)
    {len : BitVec 32} (h : len.toNat < 2 ^ 30) :
    heapTupleHeaderGetDatumLength (heapTupleHeaderSetDatumLength t order len) order = len := by
  have hlow : Within 0x3FFFFFFF#32 len :=
    (within_low_iff (show (0x3FFFFFFF#32).toNat = 2 ^ 30 - 1 from rfl)).mpr h
  cases order with
  | big =>
    show (len &&& 0x3FFFFFFF#32) &&& 0x3FFFFFFF#32 = len
    rw [show len &&& 0x3FFFFFFF#32 = len from hlow]
    exact hlow
  | little =>
    have hshift : (len <<< 2) >>> 2 = len := by
      refine BitVec.eq_of_toNat_eq ?_
      rw [BitVec.toNat_ushiftRight, BitVec.toNat_shiftLeft, Nat.shiftLeft_eq,
        Nat.shiftRight_eq_div_pow]
      omega
    show ((len <<< 2) >>> 2) &&& 0x3FFFFFFF#32 = len
    rw [hshift]
    exact hlow

/-! ## Runs -/

/-- **The macros keep to the fields.** Any number of macros, each on what the one before left,
does to the fields what they are for, and fails exactly where one of them may not be used; from
the fields after it, all accessors answer. Nothing else is in a header. -/
theorem run_view (t : HeapTupleHeaderData) (ss : List Setter) :
    (Run.run apply t ss).map view = Run.run meaning (view t) ss ∧
      (Run.run apply t ss).map answers = (Run.run meaning (view t) ss).map Virtual.answers ∧
      Function.Injective view := by
  have hrun := Run.run_map view apply_view t ss
  refine ⟨hrun, ?_, view_injective⟩
  rw [← hrun, Option.map_map, show Virtual.answers ∘ view = answers from
    funext fun t => (answers_view t).symm]

/-- The transaction is said to be committed. -/
def Setter.confirms : Setter → Bool
  | setXminCommitted | setXminFrozen => true
  | _ => false

/-- The transaction is said to be aborted. -/
def Setter.denies : Setter → Bool
  | setXminInvalid => true
  | _ => false

/-- The transaction is said to be older than every snapshot. -/
def Setter.freezes : Setter → Bool
  | setXminFrozen => true
  | _ => false

/-- What is written as the transaction that inserted the tuple. The length of a datum is written
over it. -/
def Setter.xid : Setter → Option (BitVec 32)
  | setXmin xid => some xid
  | setDatumLength order len => some (lengthWord order len)
  | _ => none

/-- The third field is used for what the flags of the old `VACUUM FULL` say it is for. -/
def Setter.fits (moved : Bool) : Setter → Bool
  | setCmin _ | setCmax _ _ => !moved
  | setXvac _ => moved
  | _ => true

/-- Committed, be it long ago. -/
def XminStatus.isCommitted : XminStatus → Bool
  | committed | frozen => true
  | inProgress | invalid => false

/-- What is known after one thing more. -/
theorem XminStatus.commit_some {a b : XminStatus} (h : a.commit = some b) :
    b.isCommitted = true ∧ decide (b = invalid) = decide (a = invalid) ∧
      decide (b = frozen) = decide (a = frozen) := by
  cases a <;> cases h <;> decide

theorem XminStatus.abort_some {a b : XminStatus} (h : a.abort = some b) :
    b.isCommitted = a.isCommitted ∧ b = invalid ∧
      decide (b = frozen) = decide (a = frozen) := by
  cases a <;> cases h <;> decide

theorem XminStatus.freeze_some {a b : XminStatus} (h : a.freeze = some b) :
    b = frozen ∧ decide (b = invalid) = decide (a = invalid) := by
  cases a <;> cases h <;> decide

/-- **What is said of the transaction** between one header and a later one. -/
structure Says (v v' : Virtual) (xid : Option (BitVec 32)) (confirms denies freezes : Bool) :
    Prop where
  moved : v'.moved = v.moved
  xmin : v'.xmin = xid.getD v.xmin
  committed : v'.xminStatus.isCommitted = (v.xminStatus.isCommitted || confirms)
  invalid : decide (v'.xminStatus = .invalid) = (decide (v.xminStatus = .invalid) || denies)
  frozen : decide (v'.xminStatus = .frozen) = (decide (v.xminStatus = .frozen) || freezes)

theorem Says.refl (v : Virtual) : Says v v none false false false where
  moved := rfl
  xmin := rfl
  committed := (Bool.or_false _).symm
  invalid := (Bool.or_false _).symm
  frozen := (Bool.or_false _).symm

theorem Says.trans {v v' v'' : Virtual} {xid xid' : Option (BitVec 32)} {c d f c' d' f' : Bool}
    (h : Says v v' xid c d f) (h' : Says v' v'' xid' c' d' f') :
    Says v v'' (xid'.or xid) (c || c') (d || d') (f || f') where
  moved := h'.moved.trans h.moved
  xmin := by
    rw [h'.xmin, h.xmin]
    cases xid' <;> rfl
  committed := by rw [h'.committed, h.committed, Bool.or_assoc]
  invalid := by rw [h'.invalid, h.invalid, Bool.or_assoc]
  frozen := by rw [h'.frozen, h.frozen, Bool.or_assoc]

/-- What one macro says of the transaction. -/
theorem says_step {v v' : Virtual} {s : Setter} (h : meaning v s = some v') :
    Says v v' s.xid s.confirms s.denies s.freezes := by
  cases s with
  | setXmin xid =>
    obtain rfl := Option.some.inj h
    exact { Says.refl v with xmin := rfl }
  | setDatumLength order len =>
    obtain rfl := Option.some.inj h
    exact { Says.refl v with xmin := rfl }
  | setXminCommitted =>
    obtain ⟨status, hstatus, rfl⟩ := Option.map_eq_some_iff.mp h
    obtain ⟨hc, hi, hf⟩ := XminStatus.commit_some hstatus
    exact ⟨rfl, rfl, hc.trans (Bool.or_true _).symm, hi.trans (Bool.or_false _).symm,
      hf.trans (Bool.or_false _).symm⟩
  | setXminInvalid =>
    obtain ⟨status, hstatus, rfl⟩ := Option.map_eq_some_iff.mp h
    obtain ⟨hc, hi, hf⟩ := XminStatus.abort_some hstatus
    exact ⟨rfl, rfl, hc.trans (Bool.or_false _).symm,
      (decide_eq_true hi).trans (Bool.or_true _).symm, hf.trans (Bool.or_false _).symm⟩
  | setXminFrozen =>
    obtain ⟨status, hstatus, rfl⟩ := Option.map_eq_some_iff.mp h
    obtain ⟨rfl, hi⟩ := XminStatus.freeze_some hstatus
    exact ⟨rfl, rfl, (Bool.or_true _).symm, hi.trans (Bool.or_false _).symm,
      (Bool.or_true _).symm⟩
  | setCmin cid =>
    obtain ⟨-, hv⟩ := Option.ite_none_left_eq_some.mp h
    obtain rfl := Option.some.inj hv
    exact { Says.refl v with moved := rfl }
  | setCmax cid iscombo =>
    obtain ⟨-, hv⟩ := Option.ite_none_left_eq_some.mp h
    obtain rfl := Option.some.inj hv
    exact { Says.refl v with moved := rfl }
  | setXvac xid =>
    obtain ⟨-, hv⟩ := Option.ite_none_right_eq_some.mp h
    obtain rfl := Option.some.inj hv
    exact { Says.refl v with moved := rfl }
  | _ =>
    obtain rfl := Option.some.inj h
    exact { Says.refl v with moved := rfl }

/-- Where a macro may be used. -/
theorem isSome_step (v : Virtual) (s : Setter) : (meaning v s).isSome =
    (s.fits v.moved && !((v.xminStatus.isCommitted || s.confirms) &&
      (decide (v.xminStatus = .invalid) || s.denies))) := by
  -- no status is of both kinds
  have hboth : (v.xminStatus.isCommitted && decide (v.xminStatus = .invalid)) = false := by
    cases v.xminStatus <;> decide
  have hkept {s : Setter} (hc : s.confirms = false) (hd : s.denies = false) :
      (s.fits v.moved && !((v.xminStatus.isCommitted || s.confirms) &&
        (decide (v.xminStatus = .invalid) || s.denies))) = s.fits v.moved := by
    rw [hc, hd, Bool.or_false, Bool.or_false, hboth, Bool.not_false, Bool.and_true]
  cases s with
  | setXminCommitted =>
    show (v.xminStatus.commit.map _).isSome = _
    rw [Option.isSome_map]
    cases v.xminStatus <;> rfl
  | setXminInvalid =>
    show (v.xminStatus.abort.map _).isSome = _
    rw [Option.isSome_map]
    cases v.xminStatus <;> rfl
  | setXminFrozen =>
    show (v.xminStatus.freeze.map _).isSome = _
    rw [Option.isSome_map]
    cases v.xminStatus <;> rfl
  | setCmin cid =>
    rw [hkept rfl rfl]
    show (if v.moved then none else some _).isSome = !v.moved
    cases v.moved <;> rfl
  | setCmax cid iscombo =>
    rw [hkept rfl rfl]
    show (if v.moved then none else some _).isSome = !v.moved
    cases v.moved <;> rfl
  | setXvac xid =>
    rw [hkept rfl rfl]
    show (if v.moved then some _ else none).isSome = v.moved
    cases v.moved <;> rfl
  | _ =>
    rw [hkept rfl rfl]
    rfl

/-- What is said along a run. -/
theorem says_run {v v' : Virtual} {ss : List Setter} (h : Run.run meaning v ss = some v') :
    Says v v' (ss.filterMap Setter.xid).getLast? (ss.any Setter.confirms)
      (ss.any Setter.denies) (ss.any Setter.freezes) := by
  refine Run.run_induction (P := fun ss v' => Says v v' (ss.filterMap Setter.xid).getLast?
    (ss.any Setter.confirms) (ss.any Setter.denies) (ss.any Setter.freezes)) (.refl v) ?_ h
  intro ss v₁ s v₂ _ ih hs
  have hxid : ((ss ++ [s]).filterMap Setter.xid).getLast? =
      s.xid.or (ss.filterMap Setter.xid).getLast? := by
    rw [List.filterMap_append, List.getLast?_append]
    cases h : s.xid <;> simp [h]
  have hany (f : Setter → Bool) : (ss ++ [s]).any f = (ss.any f || f s) := by
    rw [List.any_append, List.any_cons, List.any_nil, Bool.or_false]
  rw [hxid, hany, hany, hany]
  exact ih.trans (says_step hs)

/-- Where the macros may be used, one after another. -/
theorem isSome_run (v : Virtual) (ss : List Setter) : (Run.run meaning v ss).isSome =
    (ss.all (Setter.fits v.moved) && !((v.xminStatus.isCommitted || ss.any Setter.confirms) &&
      (decide (v.xminStatus = .invalid) || ss.any Setter.denies))) := by
  induction ss generalizing v with
  | nil =>
    show true = (true && !((v.xminStatus.isCommitted || false) && _))
    cases v.xminStatus <;> rfl
  | cons s ss ih =>
    show ((meaning v s).bind fun v' => Run.run meaning v' ss).isSome = _
    have hstep := isSome_step v s
    rw [List.all_cons, List.any_cons, List.any_cons]
    cases hs : meaning v s with
    | none =>
      rw [hs] at hstep
      -- what is refused at once is refused however it goes on
      have hnone : ∀ fits c₀ c i₀ i all cs is : Bool,
          false = (fits && !((c₀ || c) && (i₀ || i))) →
            false = (fits && all && !((c₀ || (c || cs)) && (i₀ || (i || is)))) := by decide
      exact hnone _ _ _ _ _ _ _ _ hstep
    | some v' =>
      rw [hs] at hstep
      have hsays := says_step hs
      show (Run.run meaning v' ss).isSome = _
      rw [ih v', hsays.moved, hsays.committed, hsays.invalid, ← Bool.or_assoc, ← Bool.or_assoc,
        ((Bool.and_eq_true _ _).mp hstep.symm).1, Bool.true_and]

/-- What the two macros for it say of the status. -/
theorem isCommitted_view (t : HeapTupleHeaderData) :
    (view t).xminStatus.isCommitted = heapTupleHeaderXminCommitted t := by
  rw [xminCommitted_view]
  cases (view t).xminStatus <;> rfl

/-- **What is known of a transaction stays so.** Used one after another, the macros fail exactly
if together they, and the header, say of the transaction that inserted the tuple both that it is
committed and that it is aborted, or if the third field is used for what it is not for. Where
they do not fail, the order of them does not matter for what is known afterwards, the id that is
read is the last one written, or `FrozenTransactionId` from the first `SetXminFrozen` on, and
the last one written is there to be read also then. -/
theorem xminStatus_run (t : HeapTupleHeaderData) (ss : List Setter) :
    (Run.run apply t ss).isSome = (ss.all (Setter.fits (t.tInfomask &&& heapMoved != 0)) &&
      !((heapTupleHeaderXminCommitted t || ss.any Setter.confirms) &&
        (heapTupleHeaderXminInvalid t || ss.any Setter.denies))) ∧
    ∀ t', Run.run apply t ss = some t' →
      heapTupleHeaderXminCommitted t' =
          (heapTupleHeaderXminCommitted t || ss.any Setter.confirms) ∧
        heapTupleHeaderXminInvalid t' = (heapTupleHeaderXminInvalid t || ss.any Setter.denies) ∧
        heapTupleHeaderXminFrozen t' = (heapTupleHeaderXminFrozen t || ss.any Setter.freezes) ∧
        heapTupleHeaderGetRawXmin t' =
          (ss.filterMap Setter.xid).getLast?.getD (heapTupleHeaderGetRawXmin t) ∧
        heapTupleHeaderGetXmin t' =
          if heapTupleHeaderXminFrozen t || ss.any Setter.freezes then frozenTransactionId
          else (ss.filterMap Setter.xid).getLast?.getD (heapTupleHeaderGetRawXmin t) := by
  have hrun := Run.run_map view apply_view t ss
  constructor
  · rw [← Option.isSome_map, hrun, isSome_run, moved_view, isCommitted_view, xminInvalid_view]
  · intro t' ht'
    rw [ht'] at hrun
    have hsays := says_run hrun.symm
    have hfrozen : heapTupleHeaderXminFrozen t' =
        (heapTupleHeaderXminFrozen t || ss.any Setter.freezes) := by
      rw [xminFrozen_view, xminFrozen_view, hsays.frozen]
    have hraw : heapTupleHeaderGetRawXmin t' =
        (ss.filterMap Setter.xid).getLast?.getD (heapTupleHeaderGetRawXmin t) := hsays.xmin
    refine ⟨?_, ?_, hfrozen, hraw, ?_⟩
    · rw [← isCommitted_view, ← isCommitted_view, hsays.committed]
    · rw [xminInvalid_view, xminInvalid_view, hsays.invalid]
    · unfold heapTupleHeaderGetXmin
      rw [hfrozen, hraw]

/-- A tuple that is inserted, found committed, and frozen. -/
theorem xminStatus_run_frozen :
    ∃ t', Run.run apply ⟨0, 0, 0, ⟨⟨0, 0⟩, 0⟩, 0, 0⟩
        [.setXmin 700, .setXminCommitted, .setXminFrozen] = some t' ∧
      heapTupleHeaderXminCommitted t' = true ∧ heapTupleHeaderGetXmin t' = 2 ∧
      heapTupleHeaderGetRawXmin t' = 700 := by
  refine ⟨_, rfl, ?_⟩
  obtain ⟨hcommitted, -, -, hraw, hxmin⟩ := (xminStatus_run ⟨0, 0, 0, ⟨⟨0, 0⟩, 0⟩, 0, 0⟩
    [.setXmin 700, .setXminCommitted, .setXminFrozen]).2 _ rfl
  exact ⟨hcommitted, hxmin, hraw⟩

end HtupDetails
