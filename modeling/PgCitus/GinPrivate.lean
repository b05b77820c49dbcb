import Mathlib.Data.Prod.Lex
import PgCitus.Library.Merge
import PgCitus.Library.ThreeWay
import PgCitus.Nbtree

/-!
# Item pointers in GIN scans

`ginCompareItemPointers` of `access/gin_private.h` packs a block number and an offset
into a word of 64 bits and compares the words. That is the lexicographic order of the two
(`ginCompareItemPointers_neg_iff`), the block number being read from its two halves.

`access/ginblock.h` uses three kinds of item pointers that no heap tuple has: one before
all others, one after all others, and for each block one that stands for the whole page,
with the greatest offset there is. They are told apart from one another and from heap
tuples, and stand where they have to, so that scans which return them can be merged as
any others (`gin_merged`).
-/

namespace GinPrivate

open Nbtree ThreeWay

/-! ## The macros -/

/-- `ItemPointerSet`. -/
def itemPointerSet (pointer : ItemPointerData) (blockNumber : BitVec 32) (offNum : BitVec 16) :
    ItemPointerData :=
  { pointer with ipBlkid := blockIdSet blockNumber, ipPosid := offNum }

/-- `InvalidBlockNumber`. -/
def invalidBlockNumber : BitVec 32 := 0xFFFFFFFF

/-- `GinItemPointerGetBlockNumber`. -/
def ginItemPointerGetBlockNumber (pointer : ItemPointerData) : BitVec 32 :=
  itemPointerGetBlockNumberNoCheck pointer

/-- `GinItemPointerGetOffsetNumber`. -/
def ginItemPointerGetOffsetNumber (pointer : ItemPointerData) : BitVec 16 :=
  itemPointerGetOffsetNumberNoCheck pointer

/-- `ItemPointerSetMin`. -/
def itemPointerSetMin (p : ItemPointerData) : ItemPointerData := itemPointerSet p 0 0

/-- `ItemPointerIsMin`. -/
def itemPointerIsMin (p : ItemPointerData) : Bool :=
  ginItemPointerGetOffsetNumber p == 0 && ginItemPointerGetBlockNumber p == 0

/-- `ItemPointerSetMax`. -/
def itemPointerSetMax (p : ItemPointerData) : ItemPointerData :=
  itemPointerSet p invalidBlockNumber 0xffff

/-- `ItemPointerSetLossyPage`. -/
def itemPointerSetLossyPage (p : ItemPointerData) (b : BitVec 32) : ItemPointerData :=
  itemPointerSet p b 0xffff

/-- `ItemPointerIsLossyPage`. -/
def itemPointerIsLossyPage (p : ItemPointerData) : Bool :=
  ginItemPointerGetOffsetNumber p == 0xffff &&
    ginItemPointerGetBlockNumber p != invalidBlockNumber

/-- The word that `ginCompareItemPointers` packs an item pointer into. -/
def ginWord (a : ItemPointerData) : BitVec 64 :=
  (ginItemPointerGetBlockNumber a).setWidth 64 <<< 32 |||
    (ginItemPointerGetOffsetNumber a).setWidth 64

/-- `ginCompareItemPointers`. -/
def ginCompareItemPointers (a b : ItemPointerData) : ℤ :=
  let ia := ginWord a
  let ib := ginWord b
  if ia = ib then 0 else if ia > ib then 1 else -1

/-! ## Heap tuples -/

/-- `BLCKSZ`. -/
def blcksz : ℕ := 8192

/-- `MAXALIGN`. -/
def maxalign (len : ℕ) : ℕ := (len + 7) / 8 * 8

/-- `MaxHeapTuplesPerPage`: a page header of 24 bytes, and for each tuple a header of 23
and a line pointer of 4. -/
def maxHeapTuplesPerPage : ℕ := (blcksz - 24) / (maxalign 23 + 4)

/-- **An item pointer of a heap tuple.** -/
structure IsHeap (p : ItemPointerData) : Prop where
  block : ginItemPointerGetBlockNumber p < invalidBlockNumber
  offset_pos : 1 ≤ (ginItemPointerGetOffsetNumber p).toNat
  offset_le : (ginItemPointerGetOffsetNumber p).toNat ≤ maxHeapTuplesPerPage

/-- **An item pointer that stands for a page.** -/
def IsLossy (p : ItemPointerData) : Prop :=
  ∃ q b, b < invalidBlockNumber ∧ p = itemPointerSetLossyPage q b

/-! ## The order -/

/-- The block number, from its halves, and the offset. -/
def position (p : ItemPointerData) : ℕ × ℕ :=
  (p.ipBlkid.biHi.toNat * 2 ^ 16 + p.ipBlkid.biLo.toNat, p.ipPosid.toNat)

/-- The block number is put together from its halves. -/
theorem toNat_blockNumber (p : ItemPointerData) :
    (ginItemPointerGetBlockNumber p).toNat = (position p).1 :=
  BitField.toNat_pack p.ipBlkid.biHi p.ipBlkid.biLo (by decide) (by decide)

theorem toNat_offsetNumber (p : ItemPointerData) :
    (ginItemPointerGetOffsetNumber p).toNat = (position p).2 := rfl

theorem toNat_ginWord (p : ItemPointerData) :
    (ginWord p).toNat = (position p).1 * 2 ^ 32 + (position p).2 := by
  unfold ginWord
  rw [BitField.toNat_pack _ _ (by decide) (by decide), toNat_blockNumber]
  rfl

/-- The offset leaves the block number alone. -/
theorem position_snd_lt (p : ItemPointerData) : (position p).2 < 2 ^ 16 := p.ipPosid.isLt

/-- **Item pointers are told apart by their positions.** -/
theorem position_injective : Function.Injective position := by
  intro ⟨⟨hi, lo⟩, posid⟩ ⟨⟨hi', lo'⟩, posid'⟩ h
  have hblock : hi.toNat * 2 ^ 16 + lo.toNat = hi'.toNat * 2 ^ 16 + lo'.toNat :=
    congrArg Prod.fst h
  have hoffset : posid.toNat = posid'.toNat := congrArg Prod.snd h
  have hlo := lo.isLt
  have hlo' := lo'.isLt
  rw [BitVec.eq_of_toNat_eq hoffset, BitVec.eq_of_toNat_eq (show hi.toNat = hi'.toNat by omega),
    BitVec.eq_of_toNat_eq (show lo.toNat = lo'.toNat by omega)]

/-- **The words are ordered as the positions**, block number first. -/
theorem ginWord_lt_iff (a b : ItemPointerData) :
    ginWord a < ginWord b ↔ toLex (position a) < toLex (position b) := by
  have ha := position_snd_lt a
  have hb := position_snd_lt b
  rw [BitVec.lt_def, toNat_ginWord, toNat_ginWord, Prod.Lex.toLex_lt_toLex]
  omega

theorem ginWord_eq_iff (a b : ItemPointerData) : ginWord a = ginWord b ↔ a = b := by
  refine ⟨fun h => position_injective ?_, congrArg ginWord⟩
  have hword := congrArg BitVec.toNat h
  have ha := position_snd_lt a
  have hb := position_snd_lt b
  rw [toNat_ginWord, toNat_ginWord] at hword
  exact Prod.ext (by omega) (by omega)

theorem ginCompareItemPointers_eq (a b : ItemPointerData) :
    ginCompareItemPointers a b = ofLinearOrder (toLex (position a)) (toLex (position b)) := by
  have heq : ginWord a = ginWord b ↔ toLex (position a) = toLex (position b) := by
    rw [ginWord_eq_iff, toLex_inj, position_injective.eq_iff]
  exact if_congr heq rfl (if_congr (ginWord_lt_iff b a) rfl rfl)

/-- **`ginCompareItemPointers` is the lexicographic order** of block number and offset. -/
theorem ginCompareItemPointers_neg_iff (a b : ItemPointerData) :
    ginCompareItemPointers a b < 0 ↔ toLex (position a) < toLex (position b) := by
  rw [ginCompareItemPointers_eq, ofLinearOrder_neg_iff]

theorem ginCompareItemPointers_pos_iff (a b : ItemPointerData) :
    0 < ginCompareItemPointers a b ↔ toLex (position b) < toLex (position a) := by
  rw [ginCompareItemPointers_eq, ofLinearOrder_pos_iff]

theorem ginCompareItemPointers_eq_zero_iff (a b : ItemPointerData) :
    ginCompareItemPointers a b = 0 ↔ a = b := by
  rw [ginCompareItemPointers_eq, ofLinearOrder_eq_zero_iff, toLex_inj, position_injective.eq_iff]

/-- A comparator for merging. -/
theorem totalPreorder_gin : Quicksort.TotalPreorder ginCompareItemPointers := by
  have hkey := totalPreorder_comap totalPreorder_ofLinearOrder fun p => toLex (position p)
  exact totalPreorder_congr hkey fun a b => congrArg Int.sign (ginCompareItemPointers_eq a b)

/-- **An item pointer before another one**, as scans are merged. -/
def GinLt (a b : ItemPointerData) : Prop := ginCompareItemPointers a b < 0

/-- **That is a strict total order**, on all item pointers there are. -/
theorem isStrictTotalOrder_ginLt : IsStrictTotalOrder ItemPointerData GinLt where
  irrefl a h := lt_irrefl _ ((ginCompareItemPointers_neg_iff a a).mp h)
  trans a b c hab hbc := by
    have h := lt_trans ((ginCompareItemPointers_neg_iff a b).mp hab)
      ((ginCompareItemPointers_neg_iff b c).mp hbc)
    exact (ginCompareItemPointers_neg_iff a c).mpr h
  trichotomous a b hab hba := by
    unfold GinLt at hab hba
    rw [ginCompareItemPointers_neg_iff, not_lt] at hab hba
    exact position_injective (toLex_inj.mp (le_antisymm hba hab))

/-! ## The special item pointers -/

@[simp] theorem block_itemPointerSet (p : ItemPointerData) (b : BitVec 32) (off : BitVec 16) :
    ginItemPointerGetBlockNumber (itemPointerSet p b off) = b :=
  blockIdGetBlockNumber_set b

@[simp] theorem offset_itemPointerSet (p : ItemPointerData) (b : BitVec 32) (off : BitVec 16) :
    ginItemPointerGetOffsetNumber (itemPointerSet p b off) = off := rfl

/-- Where an item pointer that was set stands. -/
theorem position_itemPointerSet (p : ItemPointerData) (b : BitVec 32) (off : BitVec 16) :
    position (itemPointerSet p b off) = (b.toNat, off.toNat) := by
  refine Prod.ext ?_ rfl
  rw [← toNat_blockNumber, block_itemPointerSet]

/-- **An item pointer is its block number and its offset.** -/
theorem eq_itemPointerSet_iff (p q : ItemPointerData) (b : BitVec 32) (off : BitVec 16) :
    p = itemPointerSet q b off ↔
      ginItemPointerGetOffsetNumber p = off ∧ ginItemPointerGetBlockNumber p = b := by
  constructor
  · rintro rfl
    exact ⟨rfl, block_itemPointerSet q b off⟩
  · rintro ⟨rfl, rfl⟩
    refine position_injective ?_
    rw [position_itemPointerSet, toNat_blockNumber, toNat_offsetNumber]

/-- **`ItemPointerIsMin`** is true of what `ItemPointerSetMin` sets, and of nothing else. -/
theorem itemPointerIsMin_iff (p : ItemPointerData) :
    itemPointerIsMin p = true ↔ p = itemPointerSetMin p := by
  unfold itemPointerIsMin itemPointerSetMin
  rw [eq_itemPointerSet_iff, Bool.and_eq_true, beq_iff_eq, beq_iff_eq]

/-- Every block number but the invalid one is below it. -/
theorem lt_invalidBlockNumber_iff (b : BitVec 32) :
    b < invalidBlockNumber ↔ b ≠ invalidBlockNumber := by
  have hle : b.toNat < 2 ^ 32 := b.isLt
  rw [BitVec.lt_def, Ne, ← BitVec.toNat_inj]
  show b.toNat < 2 ^ 32 - 1 ↔ ¬ b.toNat = 2 ^ 32 - 1
  omega

/-- **`ItemPointerIsLossyPage`** is true of what `ItemPointerSetLossyPage` sets for a block
there may be, and of nothing else: not of the last item pointer, which has the same offset. -/
theorem itemPointerIsLossyPage_iff (p : ItemPointerData) :
    itemPointerIsLossyPage p = true ↔ IsLossy p := by
  unfold itemPointerIsLossyPage IsLossy itemPointerSetLossyPage
  simp only [eq_itemPointerSet_iff, Bool.and_eq_true, beq_iff_eq, bne_iff_ne,
    ← lt_invalidBlockNumber_iff]
  constructor
  · rintro ⟨hoff, hb⟩
    exact ⟨p, _, hb, hoff, rfl⟩
  · rintro ⟨_, b, hb, hoff, rfl⟩
    exact ⟨hoff, hb⟩

/-- The order, by block number and offset. -/
theorem ginLt_iff (a b : ItemPointerData) :
    GinLt a b ↔ ginItemPointerGetBlockNumber a < ginItemPointerGetBlockNumber b ∨
      ginItemPointerGetBlockNumber a = ginItemPointerGetBlockNumber b ∧
        ginItemPointerGetOffsetNumber a < ginItemPointerGetOffsetNumber b := by
  unfold GinLt
  rw [ginCompareItemPointers_neg_iff, Prod.Lex.toLex_lt_toLex, BitVec.lt_def, BitVec.lt_def,
    ← BitVec.toNat_inj, toNat_blockNumber, toNat_blockNumber, toNat_offsetNumber,
    toNat_offsetNumber]

section Special

variable {p : ItemPointerData}

/-- The offsets of heap tuples end far below the offset that stands for a page. -/
theorem IsHeap.offset_lt (h : IsHeap p) : ginItemPointerGetOffsetNumber p < 0xffff := by
  have hle : (ginItemPointerGetOffsetNumber p).toNat ≤ 291 := h.offset_le
  rw [BitVec.lt_def]
  exact hle.trans_lt (by decide)

theorem IsHeap.zero_lt_offset (h : IsHeap p) : 0 < ginItemPointerGetOffsetNumber p :=
  BitVec.lt_def.mpr h.offset_pos

theorem IsLossy.block (h : IsLossy p) : ginItemPointerGetBlockNumber p < invalidBlockNumber := by
  obtain ⟨q, b, hb, rfl⟩ := h
  rw [itemPointerSetLossyPage, block_itemPointerSet]
  exact hb

theorem IsLossy.zero_lt_offset (h : IsLossy p) : 0 < ginItemPointerGetOffsetNumber p := by
  obtain ⟨q, b, -, rfl⟩ := h
  rw [itemPointerSetLossyPage, offset_itemPointerSet]
  decide

/-- The first item pointer is before whatever has an offset. -/
theorem itemPointerSetMin_lt (q : ItemPointerData) (h : 0 < ginItemPointerGetOffsetNumber p) :
    GinLt (itemPointerSetMin q) p := by
  rw [ginLt_iff, itemPointerSetMin, block_itemPointerSet, offset_itemPointerSet]
  rcases Nat.eq_zero_or_pos (ginItemPointerGetBlockNumber p).toNat with hb | hb
  · exact .inr ⟨(BitVec.eq_of_toNat_eq hb).symm, h⟩
  · exact .inl (BitVec.lt_def.mpr hb)

/-- The last item pointer is after whatever is in a block there may be. -/
theorem lt_itemPointerSetMax (q : ItemPointerData)
    (h : ginItemPointerGetBlockNumber p < invalidBlockNumber) : GinLt p (itemPointerSetMax q) := by
  rw [ginLt_iff, itemPointerSetMax, block_itemPointerSet]
  exact .inl h

/-- The pointer that stands for a page is after the tuples of the page. -/
theorem IsHeap.lt_lossy (h : IsHeap p) (q : ItemPointerData) :
    GinLt p (itemPointerSetLossyPage q (ginItemPointerGetBlockNumber p)) := by
  rw [ginLt_iff, itemPointerSetLossyPage, block_itemPointerSet, offset_itemPointerSet]
  exact .inr ⟨rfl, h.offset_lt⟩

/-- And before everything in later blocks. -/
theorem lossy_lt (q : ItemPointerData) {b : BitVec 32} (h : b < ginItemPointerGetBlockNumber p) :
    GinLt (itemPointerSetLossyPage q b) p := by
  rw [ginLt_iff, itemPointerSetLossyPage, block_itemPointerSet]
  exact .inl h

end Special

/-- **The special item pointers stand where they have to**, and are told apart, so that
scans that return them are merged in order. -/
theorem gin_merged :
    IsStrictTotalOrder ItemPointerData GinLt ∧
    (∀ a b, (ginCompareItemPointers a b < 0 ↔ toLex (position a) < toLex (position b)) ∧
      (ginCompareItemPointers a b = 0 ↔ a = b) ∧
      (0 < ginCompareItemPointers a b ↔ toLex (position b) < toLex (position a))) ∧
    (∀ p q, IsHeap p ∨ IsLossy p →
      GinLt (itemPointerSetMin q) p ∧ GinLt p (itemPointerSetMax q)) ∧
    (∀ p q b, IsHeap p → ginItemPointerGetBlockNumber p = b →
      GinLt p (itemPointerSetLossyPage q b)) ∧
    (∀ p q b, IsHeap p ∨ IsLossy p → b < ginItemPointerGetBlockNumber p →
      GinLt (itemPointerSetLossyPage q b) p) ∧
    (∀ p, (itemPointerIsMin p = true ↔ p = itemPointerSetMin p) ∧
      (itemPointerIsLossyPage p = true ↔ IsLossy p)) ∧
    ∀ scans : List (List ItemPointerData),
      (∀ s ∈ scans, s.Pairwise fun a b => ginCompareItemPointers a b ≤ 0) →
      (∃ out, Merge.Merged ginCompareItemPointers scans out) ∧
      ∀ out, Merge.Merged ginCompareItemPointers scans out →
        out.Pairwise (fun a b => ginCompareItemPointers a b ≤ 0) ∧ out.Perm scans.flatten := by
  refine ⟨isStrictTotalOrder_ginLt, fun a b => ?_, fun p q h => ?_, fun p q b h hb => ?_,
    fun p q b _ hb => lossy_lt q hb, fun p => ?_, fun scans hsorted => ?_⟩
  · exact ⟨ginCompareItemPointers_neg_iff a b, ginCompareItemPointers_eq_zero_iff a b,
      ginCompareItemPointers_pos_iff a b⟩
  · have hoffset := h.elim IsHeap.zero_lt_offset IsLossy.zero_lt_offset
    have hblock := h.elim IsHeap.block IsLossy.block
    exact ⟨itemPointerSetMin_lt q hoffset, lt_itemPointerSetMax q hblock⟩
  · rw [← hb]
    exact h.lt_lossy q
  · exact ⟨itemPointerIsMin_iff p, itemPointerIsLossyPage_iff p⟩
  · exact ⟨Merge.exists_merged totalPreorder_gin scans, fun out hout =>
      ⟨hout.pairwise totalPreorder_gin hsorted, hout.perm⟩⟩

end GinPrivate
