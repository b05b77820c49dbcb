import Mathlib.Data.BitVec

/-!
# Relative pointers

`utils/relptr.h` and the macros of `utils/freepage.h` over it. A relative pointer is an
offset from the base of a segment, so that it means the same in every process, wherever
the segment is mapped; offset zero is the null pointer. An address is a 64-bit word and
`NULL` is zero.

An offset of zero is also that of the base itself. A pointer other than the base comes
back through any mapping (`reads_of_ne_base`); the base is taken for null as soon as it
is not `NULL` (`not_reads_base`). Since a page is stored as a pointer to where it
begins, the page that is lost is the first one of the segment.
-/

namespace RelativePointer

/-- An address, as `char *`. -/
abbrev Pointer := BitVec 64

/-- `Size`. -/
abbrev Size := BitVec 64

/-- `NULL`. -/
def null : Pointer := 0#64

/-- `relptr(type)`. What the union holds is always the offset. -/
@[ext]
structure Relptr where
  off : Size
  deriving DecidableEq, Repr

/-! ## The macros -/

/-- `relptr_access`. -/
def relptrAccess (base : Pointer) (rp : Relptr) : Pointer :=
  if rp.off = 0#64 then null else base + rp.off

/-- `relptr_is_null`. -/
def relptrIsNull (rp : Relptr) : Bool := rp.off == 0#64

/-- `relptr_store`. -/
def relptrStore (base : Pointer) (rp : Relptr) (val : Pointer) : Relptr :=
  { rp with off := if val = null then 0#64 else val - base }

/-- `relptr_copy`. -/
def relptrCopy (rp1 rp2 : Relptr) : Relptr := { rp1 with off := rp2.off }

/-- `FPM_PAGE_SIZE`. -/
def fpmPageSize : Size := 4096#64

/-- `fpm_page_to_pointer`. -/
def fpmPageToPointer (base : Pointer) (page : Size) : Pointer := base + fpmPageSize * page

/-- `fpm_pointer_to_page`. -/
def fpmPointerToPage (base ptr : Pointer) : Size := (ptr - base) / fpmPageSize

/-- `fpm_segment_base`, of a manager at `fpm` whose `self` is the relative pointer. -/
def fpmSegmentBase (fpm : Pointer) (self : Relptr) : Pointer := fpm - self.off

/-! ## Segments -/

/-- **A segment where it is mapped**: a base with room for the pages above it. -/
structure Segment where
  base : Pointer
  npages : ℕ
  fits : base.toNat + 4096 * npages ≤ 2 ^ 64

/-- Another mapping of the segment. -/
structure Segment.Mapping (seg : Segment) where
  base : Pointer
  fits : base.toNat + 4096 * seg.npages ≤ 2 ^ 64

/-- The address is inside of the segment. -/
def Segment.Contains (seg : Segment) (val : Pointer) : Prop :=
  seg.base.toNat ≤ val.toNat ∧ val.toNat < seg.base.toNat + 4096 * seg.npages

/-- **What storing a pointer promises.** The relative pointer is null exactly if the
pointer is, it gives the pointer back, and through any other mapping it gives the
pointer to the same place. -/
def Segment.Reads (seg : Segment) (val : Pointer) (rp : Relptr) : Prop :=
  (relptrIsNull rp = true ↔ val = null) ∧
  relptrAccess seg.base rp = val ∧
  ∀ m : seg.Mapping,
    relptrAccess m.base rp = if val = null then null else m.base + (val - seg.base)

/-- A relative pointer copied from one variable to the next. -/
def copied (rp : Relptr) (targets : List Relptr) : Relptr :=
  targets.foldl (fun last target => relptrCopy target last) rp

/-- **What linking to a page promises.** However often the relative pointer is copied
it is not null, and through any mapping it gives the pointer to the page. -/
def Segment.Links (seg : Segment) (page : Size) : Prop :=
  ∀ (rp : Relptr) (targets : List Relptr),
    let link := copied (relptrStore seg.base rp (fpmPageToPointer seg.base page)) targets
    relptrIsNull link = false ∧
    ∀ m : seg.Mapping, fpmPointerToPage m.base (relptrAccess m.base link) = page

/-! ## Pointers -/

theorem copied_eq (rp : Relptr) (targets : List Relptr) : copied rp targets = rp := by
  induction targets with
  | nil => rfl
  | cons target targets ih => exact ih

theorem relptrStore_null (base : Pointer) (rp : Relptr) :
    relptrStore base rp null = ⟨0#64⟩ := rfl

theorem relptrStore_of_ne_null (base : Pointer) (rp : Relptr) {val : Pointer}
    (h : val ≠ null) : relptrStore base rp val = ⟨val - base⟩ := by
  unfold relptrStore
  rw [if_neg h]

theorem relptrAccess_of_ne_zero (base : Pointer) {off : Size} (h : off ≠ 0#64) :
    relptrAccess base ⟨off⟩ = base + off := if_neg h

theorem relptrIsNull_eq_true_iff (rp : Relptr) : relptrIsNull rp = true ↔ rp.off = 0#64 :=
  beq_iff_eq

theorem sub_ne_zero_of_ne {val base : Pointer} (h : val ≠ base) : val - base ≠ 0#64 := by
  intro hzero
  refine h ?_
  rw [← BitVec.sub_add_cancel val base, hzero, BitVec.zero_add]

/-- A null pointer is stored as such. -/
theorem reads_null (seg : Segment) (rp : Relptr) :
    seg.Reads null (relptrStore seg.base rp null) :=
  ⟨iff_of_true rfl rfl, rfl, fun _ => rfl⟩

/-- **A pointer other than the base comes back** through any mapping. -/
theorem reads_of_ne_base (seg : Segment) (rp : Relptr) {val : Pointer} (hnull : val ≠ null)
    (hbase : val ≠ seg.base) : seg.Reads val (relptrStore seg.base rp val) := by
  have hoff : val - seg.base ≠ 0#64 := sub_ne_zero_of_ne hbase
  rw [relptrStore_of_ne_null seg.base rp hnull]
  refine ⟨?_, ?_, fun m => ?_⟩
  · rw [relptrIsNull_eq_true_iff]
    exact iff_of_false hoff hnull
  · rw [relptrAccess_of_ne_zero seg.base hoff, BitVec.add_comm, BitVec.sub_add_cancel]
  · rw [relptrAccess_of_ne_zero m.base hoff, if_neg hnull]

/-- **The base is taken for null.** -/
theorem relptrIsNull_base (base : Pointer) (rp : Relptr) :
    relptrIsNull (relptrStore base rp base) = true := by
  rw [relptrIsNull_eq_true_iff]
  by_cases h : base = null
  · rw [h, relptrStore_null]
  · rw [relptrStore_of_ne_null base rp h]
    exact BitVec.sub_self base

theorem not_reads_base (seg : Segment) (rp : Relptr) (hnull : seg.base ≠ null) :
    ¬seg.Reads seg.base (relptrStore seg.base rp seg.base) :=
  fun h => hnull (h.1.mp (relptrIsNull_base seg.base rp))

/-- A manager finds its segment even from where the two coincide, since it reads the
offset and not the pointer. -/
theorem fpmSegmentBase_relptrStore (base fpm : Pointer) (rp : Relptr) (h : fpm ≠ null) :
    fpmSegmentBase fpm (relptrStore base rp fpm) = base := by
  rw [relptrStore_of_ne_null base rp h]
  show fpm - (fpm - base) = base
  rw [BitVec.sub_eq_iff_eq_add, BitVec.add_comm, BitVec.sub_add_cancel]

/-! ## Pages -/

/-- The first page begins at the base. -/
theorem fpmPageToPointer_zero (base : Pointer) : fpmPageToPointer base 0#64 = base := by
  unfold fpmPageToPointer
  rw [BitVec.mul_zero, BitVec.add_zero]

/-- Where a page of the segment begins, as a number. -/
theorem toNat_pageSize_mul (seg : Segment) {page : Size} (hpage : page.toNat < seg.npages) :
    (fpmPageSize * page).toNat = 4096 * page.toNat := by
  have := seg.fits
  rw [BitVec.toNat_mul, show fpmPageSize.toNat = 4096 from rfl, Nat.mod_eq_of_lt (by omega)]

/-- The page of a pointer to where a page begins. -/
theorem fpmPointerToPage_fpmPageToPointer (seg : Segment) {page : Size}
    (hpage : page.toNat < seg.npages) (base : Pointer) :
    fpmPointerToPage base (base + fpmPageSize * page) = page := by
  refine BitVec.eq_of_toNat_eq ?_
  unfold fpmPointerToPage
  rw [BitVec.add_comm, BitVec.add_sub_cancel, BitVec.toNat_udiv, toNat_pageSize_mul seg hpage,
    show fpmPageSize.toNat = 4096 from rfl, Nat.mul_div_cancel_left _ (by decide)]

/-- **Any page but the first is linked to safely.** -/
theorem links_of_ne_zero (seg : Segment) {page : Size} (hpage : page.toNat < seg.npages)
    (h : page ≠ 0#64) : seg.Links page := by
  intro rp targets
  have hpos : 0 < page.toNat := by
    refine Nat.pos_of_ne_zero fun hzero => h (BitVec.eq_of_toNat_eq ?_)
    rw [hzero]
    rfl
  have hoff : fpmPageSize * page ≠ 0#64 := by
    intro hzero
    have := congrArg BitVec.toNat hzero
    rw [toNat_pageSize_mul seg hpage, BitVec.toNat_zero] at this
    omega
  have hptr : fpmPageToPointer seg.base page ≠ null := by
    intro hzero
    have hsum := congrArg BitVec.toNat hzero
    have := seg.fits
    unfold fpmPageToPointer at hsum
    rw [BitVec.toNat_add, toNat_pageSize_mul seg hpage, Nat.mod_eq_of_lt (by omega)] at hsum
    have : null.toNat = 0 := rfl
    omega
  have hlink : copied (relptrStore seg.base rp (fpmPageToPointer seg.base page)) targets =
      ⟨fpmPageSize * page⟩ := by
    rw [copied_eq, relptrStore_of_ne_null seg.base rp hptr, fpmPageToPointer, BitVec.add_comm,
      BitVec.add_sub_cancel]
  rw [hlink]
  refine ⟨beq_false_of_ne hoff, fun m => ?_⟩
  rw [relptrAccess_of_ne_zero m.base hoff]
  exact fpmPointerToPage_fpmPageToPointer seg hpage m.base

/-- **A link to the first page is taken for empty.** -/
theorem not_links_zero (seg : Segment) : ¬seg.Links 0#64 := by
  intro h
  have hnull := (h ⟨0#64⟩ []).1
  rw [copied_eq, fpmPageToPointer_zero, relptrIsNull_base] at hnull
  exact Bool.false_ne_true hnull.symm

/-- **When relative pointers do what they promise.** A pointer that is `NULL` or inside
of the segment is kept exactly if it is not the base, or the base is `NULL`; a link to
a page of the segment is kept exactly if the page is not the first. -/
theorem reads_iff_and_links_iff (seg : Segment) :
    (∀ (rp : Relptr) (val : Pointer), val = null ∨ seg.Contains val →
      (seg.Reads val (relptrStore seg.base rp val) ↔ val = null ∨ val ≠ seg.base)) ∧
    (∀ page : Size, page.toNat < seg.npages → (seg.Links page ↔ page ≠ 0#64)) := by
  refine ⟨fun rp val _ => ⟨fun h => ?_, ?_⟩, fun page hpage => ⟨?_, links_of_ne_zero seg hpage⟩⟩
  · by_contra hcon
    rw [not_or, not_not] at hcon
    obtain ⟨hnull, rfl⟩ := hcon
    exact not_reads_base seg rp hnull h
  · intro h
    by_cases hnull : val = null
    · rw [hnull]
      exact reads_null seg rp
    · exact reads_of_ne_base seg rp hnull (h.resolve_left hnull)
  · rintro h rfl
    exact not_links_zero seg h

/-- A segment of two pages, away from address zero. -/
def twoPages : Segment := ⟨0x7f0000000000#64, 2, by decide⟩

/-- Its second page is kept. -/
theorem twoPages_second_page_kept :
    twoPages.Reads 0x7f0000001000#64
      (relptrStore twoPages.base ⟨0#64⟩ 0x7f0000001000#64) ∧ twoPages.Links 1#64 :=
  have h := reads_iff_and_links_iff twoPages
  ⟨(h.1 ⟨0#64⟩ 0x7f0000001000#64 (Or.inr ⟨by decide, by decide⟩)).mpr (Or.inr (by decide)),
    (h.2 1#64 (by decide)).mpr (by decide)⟩

/-- **The first page of that segment is lost**: a pointer to it is inside of the segment
and not null, the stored pointer is, and so is a link to the page. -/
theorem twoPages_first_page_lost :
    twoPages.Contains twoPages.base ∧ twoPages.base ≠ null ∧
    ¬twoPages.Reads twoPages.base (relptrStore twoPages.base ⟨0#64⟩ twoPages.base) ∧
    ¬twoPages.Links 0#64 := by
  refine ⟨⟨by decide, by decide⟩, by decide, fun h => ?_, fun h => ?_⟩
  · exact absurd h.2.1 (by decide)
  · exact absurd (h ⟨0#64⟩ []).1 (by decide)

end RelativePointer
