import PgCitus.GinPrivate
import PgCitus.TsVector

/-!
# Posting tree pages of a GIN index

The pages of `access/ginblock.h` that hold item pointers. A leaf page has segments, each a posting
list with its first item, the number of bytes that follow and these, compressed in a way that
only other modules know; an inner page has an array of posting items. `pd_lower` says where the
segments end, and there is nothing else to say how many there are.

Whatever the segments, with `pd_lower` set by `GinDataPageSetDataSize`, steps of
`GinNextPostingListSegment` lead from the first segment through all of them, and end exactly
where the size of the lists says (`leafPage_walk`). An inner page has room for one more item
exactly if its free space says so (`innerPage_reads`).
-/

namespace GinBlock

open GinPrivate (blcksz maxalign)
open Nbtree (BlockIdData ItemPointerData blockIdGetBlockNumber)
open PgArray (CharPtr readWord readWord_wordBytes typealign_eq)
open TsVector (shortalign)
open Tupmacs (Ptr wordBytes wordBytes_length le_typealign)

/-! ## Pages -/

/-- `GinPageOpaqueData`. -/
structure GinPageOpaqueData where
  rightlink : BitVec 32
  maxoff : BitVec 16
  flags : BitVec 16

/-- `SizeOfPageHeaderData`. -/
def sizeOfPageHeaderData : ℕ := 24
/-- `sizeof(ItemPointerData)`. -/
def sizeofItemPointerData : ℕ := 6
/-- `sizeof(GinPageOpaqueData)`. -/
def sizeofGinPageOpaqueData : ℕ := 8
/-- `sizeof(PostingItem)`. -/
def sizeofPostingItem : ℕ := 10

/-- A page of a GIN index: the field of its header that is used, what is between the header and
the special space, and the special space. -/
structure GinPage where
  pdLower : BitVec 16
  contents : Ptr
  special : GinPageOpaqueData
  length_contents : contents.length =
    blcksz - maxalign sizeOfPageHeaderData - maxalign sizeofGinPageOpaqueData

/-- `GinDataPageMaxDataSize`. -/
def ginDataPageMaxDataSize : ℕ :=
  blcksz - maxalign sizeOfPageHeaderData - maxalign sizeofItemPointerData -
    maxalign sizeofGinPageOpaqueData

/-- `GIN_COMPRESSED`. -/
def ginCompressed : BitVec 16 := 1 <<< 7

/-- `GinPageIsCompressed`. -/
def ginPageIsCompressed (page : GinPage) : Bool := page.special.flags &&& ginCompressed != 0

/-- `GinPageSetCompressed`. -/
def ginPageSetCompressed (page : GinPage) : GinPage :=
  { page with special := { page.special with flags := page.special.flags ||| ginCompressed } }

/-- `PageGetContents`, of the page at an address. -/
def pageGetContents (addr : ℕ) (page : GinPage) : CharPtr :=
  ⟨addr + maxalign sizeOfPageHeaderData, page.contents⟩

/-- `GinDataPageGetData`. -/
def ginDataPageGetData (addr : ℕ) (page : GinPage) : CharPtr :=
  (pageGetContents addr page).add (maxalign sizeofItemPointerData)

/-- An item pointer in memory. -/
def readItemPointer (p : CharPtr) : Option ItemPointerData := do
  let biHi ← readWord 2 p.mem
  let biLo ← readWord 2 (p.add 2).mem
  let ipPosid ← readWord 2 (p.add 4).mem
  return ⟨⟨biHi, biLo⟩, ipPosid⟩

/-- `*GinDataPageGetRightBound(page)`. -/
def ginDataPageGetRightBound (addr : ℕ) (page : GinPage) : Option ItemPointerData :=
  readItemPointer (pageGetContents addr page)

/-- `GinDataPageSetDataSize`. -/
def ginDataPageSetDataSize (page : GinPage) (size : ℕ) : Option GinPage :=
  if size ≤ ginDataPageMaxDataSize then some
    { page with
      pdLower := BitVec.ofNat 16
        (size + maxalign sizeOfPageHeaderData + maxalign sizeofItemPointerData) }
  else none

/-! ## Leaf pages -/

/-- `GinDataLeafPageGetPostingList`. -/
def ginDataLeafPageGetPostingList (addr : ℕ) (page : GinPage) : CharPtr :=
  (pageGetContents addr page).add (maxalign sizeofItemPointerData)

/-- `GinDataLeafPageGetPostingListSize`, a `Size`. -/
def ginDataLeafPageGetPostingListSize (page : GinPage) : BitVec 64 :=
  page.pdLower.setWidth 64 - BitVec.ofNat 64 (maxalign sizeOfPageHeaderData) -
    BitVec.ofNat 64 (maxalign sizeofItemPointerData)

/-- `GinDataLeafPageIsEmpty`. -/
def ginDataLeafPageIsEmpty (page : GinPage) : Bool :=
  if ginPageIsCompressed page then ginDataLeafPageGetPostingListSize page == 0
  else decide (page.special.maxoff.toNat < 1)

/-- The field `first` of a `GinPostingList`. -/
def postingListFirst (plist : CharPtr) : Option ItemPointerData := readItemPointer plist

/-- The field `nbytes` of a `GinPostingList`. -/
def postingListNbytes (plist : CharPtr) : Option (BitVec 16) := readWord 2 (plist.add 6).mem

/-- `offsetof(GinPostingList, bytes)`. -/
def offsetofBytes : ℕ := 8

/-- `SizeOfGinPostingList`. -/
def sizeOfGinPostingList (plist : CharPtr) : Option ℕ :=
  (postingListNbytes plist).map fun nbytes => offsetofBytes + shortalign nbytes.toNat

/-- `GinNextPostingListSegment`. -/
def ginNextPostingListSegment (cur : CharPtr) : Option CharPtr :=
  (sizeOfGinPostingList cur).map cur.add

/-! ## Inner pages -/

/-- `GinDataPageGetPostingItem`. -/
def ginDataPageGetPostingItem (addr : ℕ) (page : GinPage) (i : ℕ) : CharPtr :=
  (ginDataPageGetData addr page).add ((i - 1) * sizeofPostingItem)

/-- `PostingItemGetBlockNumber`. -/
def postingItemGetBlockNumber (pointer : CharPtr) : Option (BitVec 32) := do
  let biHi ← readWord 2 pointer.mem
  let biLo ← readWord 2 (pointer.add 2).mem
  return blockIdGetBlockNumber ⟨biHi, biLo⟩

/-- The field `key` of a `PostingItem`. -/
def postingItemKey (pointer : CharPtr) : Option ItemPointerData := readItemPointer (pointer.add 4)

/-- `GinNonLeafDataPageGetFreeSpace`, a `Size`. -/
def ginNonLeafDataPageGetFreeSpace (page : GinPage) : BitVec 64 :=
  BitVec.ofNat 64 ginDataPageMaxDataSize -
    page.special.maxoff.setWidth 64 * BitVec.ofNat 64 sizeofPostingItem

/-! ## What is stored -/

/-- The bytes of an item pointer. -/
def itemPointerBytes (p : ItemPointerData) : Ptr :=
  wordBytes 2 p.ipBlkid.biHi ++ (wordBytes 2 p.ipBlkid.biLo ++ wordBytes 2 p.ipPosid)

theorem length_itemPointerBytes (p : ItemPointerData) :
    (itemPointerBytes p).length = sizeofItemPointerData := rfl

/-- A half of an item pointer. -/
theorem readWord_two (v : BitVec 16) (rest : Ptr) :
    readWord 2 (wordBytes 2 v ++ rest) = some v := by
  rw [readWord_wordBytes]
  exact congrArg some (BitVec.setWidth_eq v)

/-- An item pointer is read back. -/
theorem readItemPointer_bytes (addr : ℕ) (p : ItemPointerData) (rest : Ptr) :
    readItemPointer ⟨addr, itemPointerBytes p ++ rest⟩ = some p := by
  have hhi : readWord 2 (itemPointerBytes p ++ rest) = some p.ipBlkid.biHi := by
    rw [itemPointerBytes, List.append_assoc, readWord_two]
  have hlo : readWord 2 ((itemPointerBytes p ++ rest).drop 2) = some p.ipBlkid.biLo := by
    rw [itemPointerBytes, List.append_assoc, List.drop_left' (wordBytes_length 2 _),
      List.append_assoc, readWord_two]
  have hposid : readWord 2 ((itemPointerBytes p ++ rest).drop 4) = some p.ipPosid := by
    rw [itemPointerBytes, List.append_assoc, ← List.drop_drop (i := 2) (j := 2),
      List.drop_left' (wordBytes_length 2 _), List.append_assoc,
      List.drop_left' (wordBytes_length 2 _), readWord_two]
  show (do
    let biHi ← readWord 2 (itemPointerBytes p ++ rest)
    let biLo ← readWord 2 ((itemPointerBytes p ++ rest).drop 2)
    let ipPosid ← readWord 2 ((itemPointerBytes p ++ rest).drop 4)
    return (⟨⟨biHi, biLo⟩, ipPosid⟩ : ItemPointerData)) = some p
  rw [hhi, hlo, hposid]
  rfl

/-- A posting list; `pad` is the byte after an odd number of bytes. -/
structure Segment where
  first : ItemPointerData
  bytes : Ptr
  pad : BitVec 8
  bytes_lt : bytes.length < 2 ^ 16

/-- The bytes of a posting list, up to the next one. -/
def Segment.data (s : Segment) : Ptr :=
  itemPointerBytes s.first ++ (wordBytes 2 (BitVec.ofNat 16 s.bytes.length) ++
    (s.bytes ++ List.replicate (shortalign s.bytes.length - s.bytes.length) s.pad))

theorem le_shortalign (len : ℕ) : len ≤ shortalign len := le_typealign 1 len

theorem two_dvd_shortalign (len : ℕ) : 2 ∣ shortalign len := by
  rw [show shortalign len = (len + 1) / 2 * 2 from typealign_eq 1 len]
  exact Nat.dvd_mul_left 2 _

theorem length_data (s : Segment) :
    s.data.length = offsetofBytes + shortalign s.bytes.length := by
  have hle := le_shortalign s.bytes.length
  rw [Segment.data, List.length_append, List.length_append, List.length_append,
    List.length_replicate, wordBytes_length, length_itemPointerBytes]
  unfold sizeofItemPointerData offsetofBytes
  omega

/-- **What is read of a posting list.** -/
theorem postingList_read (addr : ℕ) (s : Segment) (rest : Ptr) :
    postingListFirst ⟨addr, s.data ++ rest⟩ = some s.first ∧
      postingListNbytes ⟨addr, s.data ++ rest⟩ = some (BitVec.ofNat 16 s.bytes.length) ∧
      (CharPtr.add ⟨addr, s.data ++ rest⟩ offsetofBytes).mem.take s.bytes.length = s.bytes := by
  have hnbytes : (s.data ++ rest).drop 6 = wordBytes 2 (BitVec.ofNat 16 s.bytes.length) ++
      (s.bytes ++ (List.replicate (shortalign s.bytes.length - s.bytes.length) s.pad ++ rest)) := by
    have hlen : (itemPointerBytes s.first).length = 6 := length_itemPointerBytes s.first
    rw [Segment.data, List.append_assoc, List.drop_left' hlen, List.append_assoc,
      List.append_assoc]
  refine ⟨?_, ?_, ?_⟩
  · rw [postingListFirst, Segment.data, List.append_assoc, readItemPointer_bytes]
  · show readWord 2 ((s.data ++ rest).drop 6) = _
    rw [hnbytes, readWord_two]
  · show ((s.data ++ rest).drop (6 + 2)).take s.bytes.length = s.bytes
    rw [← List.drop_drop, hnbytes, List.drop_left' (wordBytes_length 2 _), List.take_left]

/-- **The next segment** is where the bytes of this one end. -/
theorem ginNextPostingListSegment_data (addr : ℕ) (s : Segment) (rest : Ptr) :
    ginNextPostingListSegment ⟨addr, s.data ++ rest⟩ =
      some (CharPtr.add ⟨addr, s.data ++ rest⟩ s.data.length) := by
  unfold ginNextPostingListSegment sizeOfGinPostingList
  rw [(postingList_read addr s rest).2.1, length_data, Option.map_some, Option.map_some,
    BitVec.toNat_ofNat, Nat.mod_eq_of_lt s.bytes_lt]

/-! ## Leaf pages -/

/-- A byte string that has room on a page, together with the right bound. -/
theorem ginDataPageMaxDataSize_eq : ginDataPageMaxDataSize = 8152 := rfl

variable {page : GinPage} {bound free : Ptr} {segs : List Segment}

/-- What is on a page has room on it. -/
theorem length_le (hbound : bound.length = maxalign sizeofItemPointerData) {data : Ptr}
    (hc : page.contents = bound ++ (data ++ free)) : data.length ≤ ginDataPageMaxDataSize := by
  have hlen := page.length_contents
  rw [hc, List.length_append, List.length_append, hbound] at hlen
  have hpage : blcksz - maxalign sizeOfPageHeaderData - maxalign sizeofGinPageOpaqueData =
      maxalign sizeofItemPointerData + ginDataPageMaxDataSize := rfl
  omega

/-- **The size that was set** is read back. -/
theorem size_setDataSize {size : ℕ} (h : size ≤ ginDataPageMaxDataSize) :
    ∃ page', ginDataPageSetDataSize page size = some page' ∧ page'.contents = page.contents ∧
      page'.special = page.special ∧ (ginDataLeafPageGetPostingListSize page').toNat = size := by
  refine ⟨_, if_pos h, rfl, rfl, ?_⟩
  rw [ginDataPageMaxDataSize_eq] at h
  show ((BitVec.ofNat 16 (size + 24 + 8)).setWidth 64 - 24#64 - 8#64).toNat = size
  bv_omega

/-- Moving on twice. -/
theorem add_add (p : CharPtr) (j k : ℕ) : (p.add j).add k = p.add (j + k) := by
  unfold CharPtr.add
  rw [List.drop_drop, Nat.add_assoc]

/-- Where a segment starts, from the first one on. -/
def segmentStart (segs : List Segment) (i : ℕ) : ℕ := Pack.start (fun _ => Segment.data) 0 segs i

theorem segmentStart_length :
    segmentStart segs segs.length = (segs.flatMap Segment.data).length := by
  rw [segmentStart, Pack.start_length, Pack.pack_eq_flatMap, Nat.zero_add]

/-- **The memory from a segment on.** -/
theorem drop_segment {list : CharPtr} (hlist : list.mem = segs.flatMap Segment.data ++ free)
    {i : ℕ} {s : Segment} (h : segs[i]? = some s) :
    ∃ rest, list.add (segmentStart segs i) = ⟨list.addr + segmentStart segs i, s.data ++ rest⟩ := by
  have hle : segmentStart segs i ≤ (segs.flatMap Segment.data).length := by
    have hend := Pack.start_le (fun _ => Segment.data) 0 segs i
    rwa [Pack.pack_eq_flatMap, Nat.zero_add] at hend
  have hdrop := Pack.drop_start (fun _ => Segment.data) 0 h
  rw [Pack.pack_eq_flatMap, Nat.sub_zero] at hdrop
  refine ⟨Pack.pack (fun _ => Segment.data) (segmentStart segs (i + 1)) (segs.drop (i + 1)) ++ free,
    ?_⟩
  rw [CharPtr.add, hlist, List.drop_append_of_le_length hle, ← List.append_assoc]
  exact congrArg (fun data => CharPtr.mk _ (data ++ free)) hdrop

/-- **The steps from segment to segment.** -/
theorem iter_segments {list : CharPtr} (hlist : list.mem = segs.flatMap Segment.data ++ free)
    {i : ℕ} (hi : i ≤ segs.length) :
    Loop.iter ginNextPostingListSegment i list = some (list.add (segmentStart segs i)) := by
  have hstep : ∀ j s, segs[j]? = some s →
      ginNextPostingListSegment (list.add (segmentStart segs j)) =
        some (list.add (segmentStart segs (j + 1))) := by
    intro j s h
    obtain ⟨rest, hrest⟩ := drop_segment hlist h
    rw [hrest, ginNextPostingListSegment_data, ← hrest, add_add]
    exact congrArg (fun off => some (list.add off)) (Pack.start_succ h).symm
  have hiter := Pack.iter_start list.add hstep (j := 0) (n := i) (by omega)
  rwa [Nat.zero_add] at hiter

/-- A segment is aligned. -/
theorem two_dvd_segmentStart {i : ℕ} (hi : i ≤ segs.length) : 2 ∣ segmentStart segs i := by
  induction i with
  | zero => exact Nat.dvd_zero 2
  | succ i ih =>
    rw [segmentStart, Pack.start_succ (List.getElem?_eq_getElem hi), length_data]
    exact Nat.dvd_add (ih (Nat.le_of_succ_le hi))
      (Nat.dvd_add (by decide) (two_dvd_shortalign _))

/-- No segment is of no length. -/
theorem length_flatMap_eq_zero_iff : (segs.flatMap Segment.data).length = 0 ↔ segs = [] := by
  constructor
  · intro h
    cases segs with
    | nil => rfl
    | cons s segs =>
      rw [List.flatMap_cons, List.length_append, length_data] at h
      unfold offsetofBytes at h
      omega
  · rintro rfl
    rfl

/-- **The segments of a leaf page.** `GinDataPageSetDataSize` with the length of the posting
lists does not fail, and after it the size of the lists is that length, and zero exactly if
there is none. From the first posting list, any number of steps of `GinNextPostingListSegment`
leads to that one of them, at an aligned address, where its first item, the number of its bytes
and these are read; and as many steps as there are lists lead exactly to their end. -/
theorem leafPage_walk (hbound : bound.length = maxalign sizeofItemPointerData)
    (hc : page.contents = bound ++ (segs.flatMap Segment.data ++ free)) (addr : ℕ) :
    ∃ page', ginDataPageSetDataSize page (segs.flatMap Segment.data).length = some page' ∧
      (ginPageIsCompressed page = true → (ginDataLeafPageIsEmpty page' = true ↔ segs = [])) ∧
      ∀ i ≤ segs.length, ∃ p, Loop.iter ginNextPostingListSegment i
          (ginDataLeafPageGetPostingList addr page') = some p ∧ (8 ∣ addr → 2 ∣ p.addr) ∧
        (∀ s, segs[i]? = some s → postingListFirst p = some s.first ∧
          postingListNbytes p = some (BitVec.ofNat 16 s.bytes.length) ∧
          (p.add offsetofBytes).mem.take s.bytes.length = s.bytes) ∧
        (i = segs.length → p.addr = (ginDataLeafPageGetPostingList addr page').addr +
          (ginDataLeafPageGetPostingListSize page').toNat) := by
  obtain ⟨page', hset, hcontents, hspecial, hsize⟩ := size_setDataSize (length_le hbound hc)
  have hlist : (ginDataLeafPageGetPostingList addr page').mem =
      segs.flatMap Segment.data ++ free := by
    show page'.contents.drop (maxalign sizeofItemPointerData) = _
    rw [hcontents, hc, List.drop_left' hbound]
  refine ⟨page', hset, fun hcompressed => ?_, fun i hi => ?_⟩
  · have hcompressed' : ginPageIsCompressed page' = true := by
      rw [ginPageIsCompressed, hspecial]
      exact hcompressed
    rw [ginDataLeafPageIsEmpty, if_pos hcompressed', ← length_flatMap_eq_zero_iff, ← hsize,
      beq_iff_eq, BitVec.toNat_eq]
    rfl
  · refine ⟨_, iter_segments hlist hi, fun haddr => ?_, fun s hs => ?_, fun hend => ?_⟩
    · have heven := two_dvd_segmentStart hi
      show 2 ∣ addr + 24 + 8 + segmentStart segs i
      omega
    · obtain ⟨rest, hrest⟩ := drop_segment hlist hs
      rw [hrest]
      exact postingList_read _ s rest
    · rw [hend, hsize, ← segmentStart_length]
      rfl

/-- Two posting lists, of three bytes and of none. -/
def twoLists : List Segment :=
  [⟨⟨⟨0, 7⟩, 1⟩, [5, 6, 7], 0, by decide⟩, ⟨⟨⟨0, 9⟩, 1⟩, [], 0, by decide⟩]

/-- A page with them. -/
def twoListsPage : GinPage where
  pdLower := 0
  contents := List.replicate 8 0 ++ (twoLists.flatMap Segment.data ++ List.replicate 8132 0)
  special := ⟨0, 0, ginCompressed⟩
  length_contents := by
    have hfour : shortalign 3 = 4 := typealign_eq 1 3
    have hzero : shortalign 0 = 0 := typealign_eq 1 0
    simp only [twoLists, List.length_append, List.length_replicate, List.flatMap_cons,
      List.flatMap_nil, length_data, List.length_cons, List.length_nil, Nat.zero_add,
      Nat.reduceAdd, hfour, hzero]
    decide

/-- One step leads to the second of them. -/
theorem leafPage_walk_two :
    ∃ page' p, ginDataPageSetDataSize twoListsPage (twoLists.flatMap Segment.data).length =
        some page' ∧
      Loop.iter ginNextPostingListSegment 1 (ginDataLeafPageGetPostingList 0 page') = some p ∧
      postingListFirst p = some ⟨⟨0, 9⟩, 1⟩ ∧ ginDataLeafPageIsEmpty page' ≠ true := by
  have hcontents : twoListsPage.contents = List.replicate 8 0 ++
      (twoLists.flatMap Segment.data ++ List.replicate 8132 0) := rfl
  have hbound : (List.replicate 8 (0 : UInt8)).length = maxalign sizeofItemPointerData := rfl
  obtain ⟨page', hset, hempty, hwalk⟩ := leafPage_walk hbound hcontents 0
  obtain ⟨p, hp, -, hread, -⟩ := hwalk 1 (by decide)
  exact ⟨page', p, hset, hp, (hread _ rfl).1,
    fun h => List.cons_ne_nil _ _ ((hempty (by decide)).mp h)⟩

/-! ## Inner pages -/

/-- `PostingItem`. -/
structure PostingItem where
  childBlkno : BlockIdData
  key : ItemPointerData

/-- The bytes of a posting item. -/
def PostingItem.bytes (item : PostingItem) : Ptr :=
  wordBytes 2 item.childBlkno.biHi ++ (wordBytes 2 item.childBlkno.biLo ++
    itemPointerBytes item.key)

theorem length_postingItem (item : PostingItem) : item.bytes.length = sizeofPostingItem := rfl

/-- **What is read of a posting item.** -/
theorem postingItem_read (addr : ℕ) (item : PostingItem) (rest : Ptr) :
    postingItemGetBlockNumber ⟨addr, item.bytes ++ rest⟩ =
        some (blockIdGetBlockNumber item.childBlkno) ∧
      postingItemKey ⟨addr, item.bytes ++ rest⟩ = some item.key := by
  have hlo : (item.bytes ++ rest).drop 2 = wordBytes 2 item.childBlkno.biLo ++
      (itemPointerBytes item.key ++ rest) := by
    rw [PostingItem.bytes, List.append_assoc, List.drop_left' (wordBytes_length 2 _),
      List.append_assoc]
  constructor
  · show (do
      let biHi ← readWord 2 (item.bytes ++ rest)
      let biLo ← readWord 2 ((item.bytes ++ rest).drop 2)
      return blockIdGetBlockNumber ⟨biHi, biLo⟩) = _
    rw [hlo, readWord_two, PostingItem.bytes, List.append_assoc, readWord_two]
    rfl
  · show readItemPointer ⟨addr + 4, (item.bytes ++ rest).drop (2 + 2)⟩ = _
    rw [← List.drop_drop, hlo, List.drop_left' (wordBytes_length 2 _), readItemPointer_bytes]

/-- **The items of an inner page.** With the number of them in the special space, each is read
where `GinDataPageGetPostingItem` finds it, and the free space is what the items leave. -/
theorem innerPage_reads {items : List PostingItem}
    (hbound : bound.length = maxalign sizeofItemPointerData)
    (hc : page.contents = bound ++ (items.flatMap PostingItem.bytes ++ free))
    (hmaxoff : page.special.maxoff.toNat = items.length) (addr : ℕ) :
    (∀ i item, items[i]? = some item →
      postingItemGetBlockNumber (ginDataPageGetPostingItem addr page (i + 1)) =
          some (blockIdGetBlockNumber item.childBlkno) ∧
        postingItemKey (ginDataPageGetPostingItem addr page (i + 1)) = some item.key) ∧
      (ginNonLeafDataPageGetFreeSpace page).toNat = free.length := by
  have hlen : (items.flatMap PostingItem.bytes).length = sizeofPostingItem * items.length := by
    rw [← Pack.pack_eq_flatMap _ 0, ← Nat.zero_add (Pack.pack _ _ _).length, ← Pack.start_length,
      Pack.start_eq_mul (fun _ => length_postingItem) (Nat.le_refl _), Nat.zero_add]
  constructor
  · intro i item h
    have hmem : (ginDataPageGetPostingItem addr page (i + 1)).mem =
        item.bytes ++ ((items.drop (i + 1)).flatMap PostingItem.bytes ++ free) := by
      show (page.contents.drop (maxalign sizeofItemPointerData)).drop
        ((i + 1 - 1) * sizeofPostingItem) = _
      rw [hc, List.drop_left' hbound, Nat.add_sub_cancel, Nat.mul_comm,
        Pack.drop_flatMap length_postingItem h]
    have hread := postingItem_read (ginDataPageGetPostingItem addr page (i + 1)).addr item
      ((items.drop (i + 1)).flatMap PostingItem.bytes ++ free)
    rwa [← hmem] at hread
  · have hpage := page.length_contents
    rw [hc, List.length_append, List.length_append, hbound, hlen] at hpage
    have hroom : sizeofPostingItem * items.length + free.length = ginDataPageMaxDataSize := by
      have hsum : blcksz - maxalign sizeOfPageHeaderData - maxalign sizeofGinPageOpaqueData =
        maxalign sizeofItemPointerData + ginDataPageMaxDataSize := rfl
      omega
    rw [ginDataPageMaxDataSize_eq, sizeofPostingItem, ← hmaxoff] at hroom
    show (8152#64 - page.special.maxoff.setWidth 64 * 10#64).toNat = free.length
    bv_omega

end GinBlock
