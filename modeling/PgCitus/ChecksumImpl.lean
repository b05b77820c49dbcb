import Mathlib.Data.BitVec
import PgCitus.Library.CastingOut
import PgCitus.Library.Lanes

/-!
# Page checksums

The checksum of a page, from `storage/checksum_impl.h`, on a little-endian machine. A
page is its bytes; the header fields and the words that are hashed are two views of
them, as the union in the source has it. `pg_checksum_page` zeroes the stored checksum
in the page while it computes, and puts it back after; it is a function to its result
and the page it leaves, and fails where its assertion does.

The words of the page are 64 rows of 32 columns, with one running sum to each column.
The source goes row by row, for the sake of vector instructions; that is the same as
hashing each column by itself (`pgChecksumBlock_eq`).

The block number is mixed in by exclusive or, and the result reduced modulo 65535, where
a word is the sum of its halves. So a page that has been moved shows, unless two halves
make up for each other or one has all its bits turned over (`pgChecksumPage_moved`).
-/

namespace ChecksumImpl

open Lanes

/-! ## Pages -/

/-- `BLCKSZ`. -/
abbrev blcksz : ℕ := 8192

/-- The bytes of a page. -/
abbrev Page := Vector (BitVec 8) blcksz

/-- `pd_checksum`, which follows the eight bytes of `pd_lsn`. -/
def pdChecksum (page : Page) : BitVec 16 := page[9] ++ page[8]

/-- Storing into `pd_checksum`. -/
def setPdChecksum (page : Page) (checksum : BitVec 16) : Page :=
  (page.set 8 (checksum.extractLsb' 0 8)).set 9 (checksum.extractLsb' 8 8)

/-- `pd_upper`, which follows `pd_checksum`, `pd_flags` and `pd_lower`. -/
def pdUpper (page : Page) : BitVec 16 := page[15] ++ page[14]

/-- `PageIsNew`. -/
def pageIsNew (page : Page) : Bool := pdUpper page == 0

/-! ## The checksum -/

/-- `N_SUMS`. -/
abbrev nSums : ℕ := 32

/-- `FNV_PRIME`. -/
def fnvPrime : BitVec 32 := 16777619

/-- `BLCKSZ / (sizeof(uint32) * N_SUMS)`: how many rows there are. -/
abbrev nRows : ℕ := blcksz / (4 * nSums)

/-- The words of the union are bytes of the page. -/
theorem data_lt (i : Fin nRows) (j : Fin nSums) {k : ℕ} (hk : k < 4) :
    4 * (nSums * i + j) + k < blcksz := by
  have hi : (i : ℕ) < 64 := i.isLt
  have hj : (j : ℕ) < 32 := j.isLt
  show 4 * (32 * (i : ℕ) + j) + k < 8192
  omega

/-- `data[i][j]`: the words of the page. -/
def data (page : Page) (i : Fin nRows) (j : Fin nSums) : BitVec 32 :=
  have h₀ : 4 * (nSums * i + j) < blcksz := data_lt i j (k := 0) (by decide)
  have h₁ : 4 * (nSums * i + j) + 1 < blcksz := data_lt i j (by decide)
  have h₂ : 4 * (nSums * i + j) + 2 < blcksz := data_lt i j (by decide)
  have h₃ : 4 * (nSums * i + j) + 3 < blcksz := data_lt i j (by decide)
  page[4 * (nSums * i + j) + 3] ++ page[4 * (nSums * i + j) + 2] ++
    page[4 * (nSums * i + j) + 1] ++ page[4 * (nSums * i + j)]

/-- `checksumBaseOffsets`. -/
def checksumBaseOffsets : Vector (BitVec 32) nSums :=
  #v[0x5B1F36E9, 0xB8525960, 0x02AB50AA, 0x1DE66D2A,
    0x79FF467A, 0x9BB9F8A3, 0x217E7CD2, 0x83E13D2C,
    0xF8D4474F, 0xE39EB970, 0x42C6AE16, 0x993216FA,
    0x7B093B5D, 0x98DAFF3C, 0xF718902A, 0x0B1C9CDB,
    0xE58F764B, 0x187636BC, 0x5D7B3BB1, 0xE73DE7DE,
    0x92BEC979, 0xCCA6C0B2, 0x304A0979, 0x85AA43D4,
    0x783125BB, 0x6CA8EAA2, 0xE407EAC6, 0x4B5CFC3E,
    0x9FBF8C76, 0x15CA20BE, 0xF2CA9FD3, 0x959BD756]

/-- `CHECKSUM_COMP`. -/
def checksumComp (checksum value : BitVec 32) : BitVec 32 :=
  let tmp := checksum ^^^ value
  tmp * fnvPrime ^^^ tmp >>> 17

/-- `pg_checksum_block`. -/
def pgChecksumBlock (page : Page) : BitVec 32 :=
  -- initialize partial checksums to their corresponding offsets
  let sums := checksumBaseOffsets
  -- main checksum calculation
  let sums := (List.finRange nRows).foldl (fun sums i =>
    (List.finRange nSums).foldl (fun sums (j : Fin nSums) => sums.set j (checksumComp sums[j] (data page i j)))
      sums) sums
  -- finally add in two rounds of zeroes for additional mixing
  let sums := (List.range 2).foldl (fun sums _ =>
    (List.finRange nSums).foldl (fun sums (j : Fin nSums) => sums.set j (checksumComp sums[j] 0)) sums) sums
  -- xor fold partial checksums together
  (List.finRange nSums).foldl (fun result i => result ^^^ sums[i]) 0

/-- `pg_checksum_page`: the checksum, and the page as it is left. -/
def pgChecksumPage (page : Page) (blkno : BitVec 32) : Option (BitVec 16 × Page) :=
  if pageIsNew page then none
  else
    let saveChecksum := pdChecksum page
    let cpage := setPdChecksum page 0
    let checksum := pgChecksumBlock cpage
    let cpage := setPdChecksum cpage saveChecksum
    let checksum := checksum ^^^ blkno
    some ((checksum % 65535 + 1).setWidth 16, cpage)

/-! ## Each column by itself -/

/-- **A column's checksum**: its words folded in from its own offset, and two zeroes. -/
def columnChecksum (page : Page) (j : Fin nSums) : BitVec 32 :=
  let sum := (List.finRange nRows).foldl (fun sum i => checksumComp sum (data page i j))
    checksumBaseOffsets[j]
  checksumComp (checksumComp sum 0) 0

/-- **The block checksum is that of the columns**, put together. -/
theorem pgChecksumBlock_eq (page : Page) :
    pgChecksumBlock page
      = (List.finRange nSums).foldl (fun result j => result ^^^ columnChecksum page j) 0 := by
  unfold pgChecksumBlock
  refine congrArg (fun f => (List.finRange nSums).foldl f 0)
    (funext fun result => funext fun j => congrArg (result ^^^ ·) ?_)
  have hzero := getElem_rows (fun (_ : ℕ) (_ : Fin nSums) sum => checksumComp sum 0) (List.range 2)
    ((List.finRange nRows).foldl (fun sums i =>
      pass (fun j sum => checksumComp sum (data page i j)) (List.finRange nSums) sums)
        checksumBaseOffsets) j
  have hrows := getElem_rows (fun i j sum => checksumComp sum (data page i j))
    (List.finRange nRows) checksumBaseOffsets j
  rw [hrows] at hzero
  exact hzero

/-! ## Saving and restoring -/

/-- A byte that is not of `pd_checksum` is left by storing there. -/
theorem getElem_setPdChecksum (page : Page) (c : BitVec 16) {k : ℕ} (hk : k < blcksz)
    (h₈ : k ≠ 8) (h₉ : k ≠ 9) : (setPdChecksum page c)[k] = page[k] := by
  unfold setPdChecksum
  rw [Vector.getElem_set_ne _ _ (Ne.symm h₉), Vector.getElem_set_ne _ _ (Ne.symm h₈)]

/-- Storing twice is storing the second time. -/
theorem setPdChecksum_set (page : Page) (c d : BitVec 16) :
    setPdChecksum (setPdChecksum page c) d = setPdChecksum page d := by
  refine Vector.ext fun k hk => ?_
  by_cases h₉ : k = 9
  · subst h₉
    unfold setPdChecksum
    rw [Vector.getElem_set_self, Vector.getElem_set_self]
  · by_cases h₈ : k = 8
    · subst h₈
      unfold setPdChecksum
      rw [Vector.getElem_set_ne _ _ (by decide), Vector.getElem_set_self,
        Vector.getElem_set_ne _ _ (by decide), Vector.getElem_set_self]
    · rw [getElem_setPdChecksum _ _ hk h₈ h₉, getElem_setPdChecksum _ _ hk h₈ h₉,
        getElem_setPdChecksum _ _ hk h₈ h₉]

theorem low_append (hi lo : BitVec 8) : (hi ++ lo).extractLsb' 0 8 = lo := by
  ext i h
  rw [BitVec.getElem_extractLsb', Nat.zero_add, BitVec.getLsbD_append, if_pos h,
    BitVec.getLsbD_eq_getElem h]

theorem high_append (hi lo : BitVec 8) : (hi ++ lo).extractLsb' 8 8 = hi := by
  ext i h
  rw [BitVec.getElem_extractLsb', BitVec.getLsbD_append,
    if_neg (Nat.not_lt.mpr (Nat.le_add_right 8 i)),
    Nat.add_sub_cancel_left, BitVec.getLsbD_eq_getElem h]

/-- Storing what is there changes nothing. -/
theorem setPdChecksum_self (page : Page) : setPdChecksum page (pdChecksum page) = page := by
  refine Vector.ext fun k hk => ?_
  by_cases h₉ : k = 9
  · subst h₉
    unfold setPdChecksum pdChecksum
    rw [Vector.getElem_set_self]
    exact high_append page[9] page[8]
  · by_cases h₈ : k = 8
    · subst h₈
      unfold setPdChecksum pdChecksum
      rw [Vector.getElem_set_ne _ _ (by decide), Vector.getElem_set_self]
      exact low_append page[9] page[8]
    · rw [getElem_setPdChecksum _ _ hk h₈ h₉]

/-- Whether a page is new does not depend on its checksum. -/
theorem pageIsNew_setPdChecksum (page : Page) (c : BitVec 16) :
    pageIsNew (setPdChecksum page c) = pageIsNew page := by
  unfold pageIsNew pdUpper
  rw [getElem_setPdChecksum _ _ _ (by decide) (by decide),
    getElem_setPdChecksum _ _ _ (by decide) (by decide)]

/-- The checksum of a page, of the page with no checksum stored. -/
def checksumOf (page : Page) (blkno : BitVec 32) : BitVec 16 :=
  ((pgChecksumBlock (setPdChecksum page 0) ^^^ blkno) % 65535 + 1).setWidth 16

/-- **Computing the checksum of a page leaves the page as it is.** -/
theorem pgChecksumPage_eq {page : Page} (h : pageIsNew page = false) (blkno : BitVec 32) :
    pgChecksumPage page blkno = some (checksumOf page blkno, page) := by
  have hpage : setPdChecksum (setPdChecksum page 0) (pdChecksum page) = page := by
    rw [setPdChecksum_set, setPdChecksum_self]
  unfold pgChecksumPage
  rw [if_neg (Bool.eq_false_iff.mp h)]
  exact congrArg (fun p => some (checksumOf page blkno, p)) hpage

/-- The checksum does not depend on the one that is stored. -/
theorem checksumOf_setPdChecksum (page : Page) (c : BitVec 16) (blkno : BitVec 32) :
    checksumOf (setPdChecksum page c) blkno = checksumOf page blkno := by
  unfold checksumOf
  rw [setPdChecksum_set]

/-- The checksum of the block, with none stored, and the block number mixed in. -/
def mixed (page : Page) (blkno : BitVec 32) : BitVec 32 :=
  pgChecksumBlock (setPdChecksum page 0) ^^^ blkno

theorem toNat_checksumOf_eq (page : Page) (blkno : BitVec 32) :
    (checksumOf page blkno).toNat = (mixed page blkno).toNat % 65535 + 1 := by
  unfold checksumOf mixed
  rw [BitVec.toNat_setWidth, BitVec.toNat_add, BitVec.toNat_umod]
  show ((_ ^^^ blkno : BitVec 32).toNat % 65535 + 1) % 2 ^ 32 % 2 ^ 16 = _
  omega

/-- A checksum is never zero, and fits sixteen bits. -/
theorem toNat_checksumOf (page : Page) (blkno : BitVec 32) :
    1 ≤ (checksumOf page blkno).toNat ∧ (checksumOf page blkno).toNat ≤ 65535 := by
  have hlt : (mixed page blkno).toNat % 65535 < 65535 := Nat.mod_lt _ (by decide)
  rw [toNat_checksumOf_eq]
  omega

/-- **Page checksums.** The block checksum is that of the columns, each hashed by
itself. For an initialised page and any block number there is a checksum, between 1
and 65535; computing it leaves every byte of the page, and it comes out the same
whatever checksum is stored in the page – itself, among others. -/
theorem pgChecksumPage_spec {page : Page} (hinit : pageIsNew page = false) (blkno : BitVec 32) :
    (∀ image, pgChecksumBlock image
      = (List.finRange nSums).foldl (fun result j => result ^^^ columnChecksum image j) 0) ∧
    ∃ checksum, pgChecksumPage page blkno = some (checksum, page) ∧
      1 ≤ checksum.toNat ∧ checksum.toNat ≤ 65535 ∧
      ∀ stored, pgChecksumPage (setPdChecksum page stored) blkno
        = some (checksum, setPdChecksum page stored) := by
  have hrange := toNat_checksumOf page blkno
  refine ⟨pgChecksumBlock_eq, checksumOf page blkno, pgChecksumPage_eq hinit blkno, hrange.1,
    hrange.2, fun stored => ?_⟩
  have hnew : pageIsNew (setPdChecksum page stored) = false := by
    rw [pageIsNew_setPdChecksum, hinit]
  rw [pgChecksumPage_eq hnew, checksumOf_setPdChecksum]

theorem pageIsNew_ones : pageIsNew (Vector.replicate blcksz 1) = false := by
  unfold pageIsNew pdUpper
  rw [Vector.getElem_replicate, Vector.getElem_replicate]
  rfl

/-- A page full of ones. -/
theorem pgChecksumPage_spec_ones :
    ∃ checksum, pgChecksumPage (Vector.replicate blcksz 1) 7
      = some (checksum, Vector.replicate blcksz 1) := by
  obtain ⟨checksum, h, _⟩ := (pgChecksumPage_spec pageIsNew_ones 7).2
  exact ⟨checksum, h⟩

/-! ## Transposed pages -/

/-- A word is its two halves. -/
theorem halves (x : BitVec 32) : x.extractLsb' 16 16 ++ x.extractLsb' 0 16 = x := by
  rw [BitVec.extractLsb'_append_extractLsb'_eq_extractLsb' (by decide)]
  exact BitVec.extractLsb'_eq_self

/-- Mixed into the same checksum, two block numbers differ in each part as before. -/
theorem extract_mixed_xor (page : Page) (b₁ b₂ : BitVec 32) (i k : ℕ) :
    (mixed page b₁).extractLsb' i k ^^^ (mixed page b₂).extractLsb' i k
      = b₁.extractLsb' i k ^^^ b₂.extractLsb' i k := by
  unfold mixed
  rw [BitVec.extractLsb'_xor, BitVec.extractLsb'_xor, BitVec.xor_comm _ (b₁.extractLsb' i k),
    BitVec.xor_assoc, ← BitVec.xor_assoc _ _ (b₂.extractLsb' i k), BitVec.xor_self,
    BitVec.zero_xor]

theorem extract_mixed_eq {page : Page} {b₁ b₂ : BitVec 32} {i k : ℕ}
    (h : b₁.extractLsb' i k = b₂.extractLsb' i k) :
    (mixed page b₁).extractLsb' i k = (mixed page b₂).extractLsb' i k := by
  rw [← BitVec.xor_eq_zero_iff, extract_mixed_xor, h, BitVec.xor_self]

/-- Halves that are mixed alike are alike. -/
theorem eq_of_extract_mixed {page : Page} {b₁ b₂ : BitVec 32} {i k : ℕ}
    (h : (mixed page b₁).extractLsb' i k = (mixed page b₂).extractLsb' i k) :
    b₁.extractLsb' i k = b₂.extractLsb' i k := by
  rw [← BitVec.xor_eq_zero_iff, ← extract_mixed_xor page, h, BitVec.xor_self]

/-- **Checksums agree where their residues do.** -/
theorem checksumOf_eq_iff (page : Page) (b₁ b₂ : BitVec 32) :
    checksumOf page b₁ = checksumOf page b₂ ↔
      (mixed page b₁).toNat ≡ (mixed page b₂).toNat [MOD 65535] := by
  rw [← BitVec.toNat_inj, toNat_checksumOf_eq, toNat_checksumOf_eq, Nat.add_right_cancel_iff]
  exact Iff.rfl

/-- **Block numbers with one upper half** that the checksum does not tell apart: the lower
ones have been turned over. -/
theorem xor_of_upper_eq {page : Page} {b₁ b₂ : BitVec 32} (hne : b₁ ≠ b₂)
    (hupper : b₁.extractLsb' 16 16 = b₂.extractLsb' 16 16)
    (h : checksumOf page b₁ = checksumOf page b₂) : b₁ ^^^ b₂ = 0xFFFF#32 := by
  rw [checksumOf_eq_iff, ← halves (mixed page b₁), ← halves (mixed page b₂),
    extract_mixed_eq hupper] at h
  rcases CastingOut.eq_or_of_append_modEq_right h with heq | hxor
  · refine absurd ?_ hne
    rw [← halves b₁, ← halves b₂, hupper, eq_of_extract_mixed heq]
  · rw [extract_mixed_xor] at hxor
    rw [← halves b₁, ← halves b₂, BitVec.xor_append, hupper, BitVec.xor_self, hxor]
    rfl

/-- **Block numbers with one lower half** that it does not tell apart: the upper ones have
been. -/
theorem xor_of_lower_eq {page : Page} {b₁ b₂ : BitVec 32} (hne : b₁ ≠ b₂)
    (hlower : b₁.extractLsb' 0 16 = b₂.extractLsb' 0 16)
    (h : checksumOf page b₁ = checksumOf page b₂) :
    b₁.extractLsb' 16 16 ^^^ b₂.extractLsb' 16 16 = 0xFFFF#16 := by
  rw [checksumOf_eq_iff, ← halves (mixed page b₁), ← halves (mixed page b₂),
    extract_mixed_eq hlower] at h
  rcases CastingOut.eq_or_of_append_modEq_left h with heq | hxor
  · refine absurd ?_ hne
    rw [← halves b₁, ← halves b₂, hlower, eq_of_extract_mixed heq]
  · rw [extract_mixed_xor] at hxor
    exact hxor

/-- **A page moved to another block.** Its checksum is the same there exactly when the block
checksum with either number mixed in leaves the same residue modulo 65535. So it is another
one whenever only the lower halves of the numbers differ, or only the upper ones, unless
all bits of the half do. -/
theorem pgChecksumPage_moved {page : Page} (hinit : pageIsNew page = false)
    {b₁ b₂ : BitVec 32} (hne : b₁ ≠ b₂) :
    ((pgChecksumPage page b₁).map Prod.fst = (pgChecksumPage page b₂).map Prod.fst ↔
      (pgChecksumBlock (setPdChecksum page 0) ^^^ b₁).toNat ≡
        (pgChecksumBlock (setPdChecksum page 0) ^^^ b₂).toNat [MOD 65535]) ∧
    (b₁.extractLsb' 16 16 = b₂.extractLsb' 16 16 → b₁ ^^^ b₂ ≠ 0xFFFF#32 →
      (pgChecksumPage page b₁).map Prod.fst ≠ (pgChecksumPage page b₂).map Prod.fst) ∧
    (b₁.extractLsb' 0 16 = b₂.extractLsb' 0 16 →
      b₁.extractLsb' 16 16 ^^^ b₂.extractLsb' 16 16 ≠ 0xFFFF#16 →
      (pgChecksumPage page b₁).map Prod.fst ≠ (pgChecksumPage page b₂).map Prod.fst) := by
  have hsame : (pgChecksumPage page b₁).map Prod.fst = (pgChecksumPage page b₂).map Prod.fst ↔
      checksumOf page b₁ = checksumOf page b₂ := by
    rw [pgChecksumPage_eq hinit, pgChecksumPage_eq hinit, Option.map_some, Option.map_some,
      Option.some.injEq]
  exact ⟨hsame.trans (checksumOf_eq_iff page b₁ b₂),
    fun hupper hxor heq => hxor (xor_of_upper_eq hne hupper (hsame.mp heq)),
    fun hlower hxor heq => hxor (xor_of_lower_eq hne hlower (hsame.mp heq))⟩

/-- A page full of ones, moved by one block. -/
theorem pgChecksumPage_moved_ones :
    (pgChecksumPage (Vector.replicate blcksz 1) 7).map Prod.fst
      ≠ (pgChecksumPage (Vector.replicate blcksz 1) 8).map Prod.fst := by
  exact (pgChecksumPage_moved pageIsNew_ones (by decide)).2.1 (by decide) (by decide)

end ChecksumImpl
