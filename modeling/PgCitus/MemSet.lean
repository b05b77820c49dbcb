import PgCitus.Library.Loop
import PgCitus.Library.WordMemory
import Mathlib.Algebra.Order.Group.Nat

/-!
# Setting memory word by word

The macros `MemSet`, `MemSetAligned` and `MemSetLoop` of `c.h` set memory to zero in a loop
over words (`long`), where the tests they make allow that, and call `memset` elsewhere.
Addresses and sizes have 64 bits and wrap around, and a word has `sizeof(long)` bytes in
either byte order. Storing a word at an address that is not a multiple of its size has no
meaning in C; the loop is stuck there.

After each word the loop has filled the memory from `start` up to where it is
(`WordMemory.fill`), and it meets `_stop` exactly: both are multiples of `sizeof(long)`.
-/

namespace MemSet

open WordMemory

/-- `memset`: the bytes from `start` on become the low byte of the value. -/
def memset (mem : Mem) (start : BitVec 64) (val : BitVec 32) (len : BitVec 64) : Mem :=
  fill mem start.toNat (start.toNat + len.toNat) (val.setWidth 8)

variable (order : ByteOrder) (sizeofLong memsetLoopLimit : ℕ)

/-- `LONG_ALIGN_MASK`. -/
def longAlignMask : BitVec 64 := BitVec.ofNat 64 sizeofLong - 1

/-- One pass of the loop over words, at `_start`. -/
def wordBody (stop : BitVec 64) : BitVec 64 × Mem → Loop.Step (BitVec 64 × Mem) Mem
  | (start, mem) =>
    if start < stop then
      if start &&& longAlignMask sizeofLong = 0 then
        .next (start + BitVec.ofNat 64 sizeofLong,
          store order mem start.toNat (0 : BitVec (8 * sizeofLong)))
      else .stuck
    else .done mem

/-- `while (_start < _stop) *_start++ = 0`, a pass for each byte at most. -/
def wordLoop (mem : Mem) (start len : BitVec 64) : Option Mem :=
  Loop.run (wordBody order sizeofLong (start + len)) (len.toNat + 1) (start, mem)

/-- `MemSet`. -/
def memSet (mem : Mem) (start : BitVec 64) (val : BitVec 32) (len : BitVec 64) : Option Mem :=
  if start &&& longAlignMask sizeofLong = 0 ∧
      len &&& longAlignMask sizeofLong = 0 ∧
      val = 0 ∧
      len.toNat ≤ memsetLoopLimit ∧
      memsetLoopLimit ≠ 0 then
    wordLoop order sizeofLong mem start len
  else some (memset mem start val len)

/-- `MemSetAligned`. -/
def memSetAligned (mem : Mem) (start : BitVec 64) (val : BitVec 32) (len : BitVec 64) :
    Option Mem :=
  if len &&& longAlignMask sizeofLong = 0 ∧
      val = 0 ∧
      len.toNat ≤ memsetLoopLimit ∧
      memsetLoopLimit ≠ 0 then
    wordLoop order sizeofLong mem start len
  else some (memset mem start val len)

/-- `MemSetTest`. -/
def memSetTest (val : BitVec 32) (len : BitVec 64) : Bool :=
  len &&& longAlignMask sizeofLong = 0 ∧
    len.toNat ≤ memsetLoopLimit ∧
    memsetLoopLimit ≠ 0 ∧
    val = 0

/-- `MemSetLoop`. -/
def memSetLoop (mem : Mem) (start : BitVec 64) (_val : BitVec 32) (len : BitVec 64) :
    Option Mem :=
  wordLoop order sizeofLong mem start len

variable {order sizeofLong memsetLoopLimit}

/-! ## Words -/

/-- **The mask tests for multiples of the size of a word.** -/
theorem and_longAlignMask (hlong : sizeofLong = 4 ∨ sizeofLong = 8) (x : BitVec 64) :
    x &&& longAlignMask sizeofLong = 0 ↔ sizeofLong ∣ x.toNat := by
  obtain ⟨k, hk, hmask⟩ : ∃ k, sizeofLong = 2 ^ k ∧
      (longAlignMask sizeofLong).toNat = 2 ^ k - 1 := by
    rcases hlong with rfl | rfl
    · exact ⟨2, rfl, rfl⟩
    · exact ⟨3, rfl, rfl⟩
  rw [← BitVec.toNat_inj, BitVec.toNat_and, hmask, Nat.and_two_pow_sub_one_eq_mod, hk,
    Nat.dvd_iff_mod_eq_zero]
  rfl

/-- A word that begins before a multiple of its size ends there at the latest. -/
theorem word_le {p stop : ℕ} (hp : sizeofLong ∣ p) (hstop : sizeofLong ∣ stop)
    (hlt : p < stop) : p + sizeofLong ≤ stop := by
  have hle : sizeofLong ≤ stop - p :=
    Nat.le_of_dvd (Nat.sub_pos_of_lt hlt) (Nat.dvd_sub hstop hp)
  omega

/-! ## The loop -/

/-- **The state of the loop**: memory is filled with zeros up to where it is. -/
structure Filling (sizeofLong : ℕ) (mem : Mem) (start stop : ℕ) (s : BitVec 64 × Mem) :
    Prop where
  dvd : sizeofLong ∣ s.1.toNat
  start_le : start ≤ s.1.toNat
  le_stop : s.1.toNat ≤ stop
  mem_eq : s.2 = fill mem start s.1.toNat 0

/-- **One pass** fills one word more, or leaves the loop at `_stop`. -/
theorem wordBody_filling (hlong : sizeofLong = 4 ∨ sizeofLong = 8) {mem : Mem} {start : ℕ}
    {stop : BitVec 64} (hstop : sizeofLong ∣ stop.toNat) {s : BitVec 64 × Mem}
    (h : Filling sizeofLong mem start stop.toNat s) :
    (wordBody order sizeofLong stop s).Meets (fun mem' => mem' = fill mem start stop.toNat 0)
      fun s' => Filling sizeofLong mem start stop.toNat s' ∧
        stop.toNat - s'.1.toNat < stop.toNat - s.1.toNat := by
  have hsize : 0 < sizeofLong ∧ sizeofLong < 2 ^ 64 := by
    rcases hlong with rfl | rfl
    · decide
    · decide
  obtain ⟨p, m⟩ := s
  obtain ⟨hdvd, hle, hps, hmem⟩ := h
  dsimp only at hdvd hle hps hmem
  subst hmem
  unfold wordBody
  dsimp only
  split_ifs with hlt hmask
  · have hlt : p.toNat < stop.toNat := hlt
    have hend := word_le hdvd hstop hlt
    have hnext : (p + BitVec.ofNat 64 sizeofLong).toNat = p.toNat + sizeofLong := by
      rw [BitVec.toNat_add, BitVec.toNat_ofNat, Nat.mod_eq_of_lt hsize.2,
        Nat.mod_eq_of_lt (hend.trans_lt stop.isLt)]
    rw [Loop.Step.meets_next, hnext]
    refine ⟨⟨?_, ?_, ?_, ?_⟩, Nat.sub_lt_sub_left hlt (Nat.lt_add_of_pos_right hsize.1)⟩
    · rw [hnext]
      exact Nat.dvd_add hdvd dvd_rfl
    · rw [hnext]
      exact hle.trans (Nat.le_add_right _ _)
    · rw [hnext]
      exact hend
    · rw [store_zero, hnext, fill_fill hle (Nat.le_add_right _ _)]
  · exact hmask ((and_longAlignMask hlong p).mpr hdvd)
  · rw [Loop.Step.meets_done, le_antisymm hps (not_lt.mp hlt)]

/-- **The loop ends at `_stop`**, and has filled the memory up to there. -/
theorem wordLoop_eq (hlong : sizeofLong = 4 ∨ sizeofLong = 8) {start len : BitVec 64}
    (hspace : start.toNat + len.toNat < 2 ^ 64) (hstart : sizeofLong ∣ start.toNat)
    (hlen : sizeofLong ∣ len.toNat) (mem : Mem) :
    wordLoop order sizeofLong mem start len =
      some (fill mem start.toNat (start.toNat + len.toNat) 0) := by
  have hstop : (start + len).toNat = start.toNat + len.toNat := by
    rw [BitVec.toNat_add, Nat.mod_eq_of_lt hspace]
  have hfilling : Filling sizeofLong mem start.toNat (start + len).toNat (start, mem) :=
    ⟨hstart, le_rfl, hstop ▸ Nat.le_add_right _ _, (fill_self _ _ _).symm⟩
  obtain ⟨mem', hrun, rfl⟩ := Loop.run_total _
    (fun s : BitVec 64 × Mem => (start + len).toNat - s.1.toNat)
    (fun s hs => wordBody_filling hlong (hstop ▸ Nat.dvd_add hstart hlen) hs) hfilling
    (show (start + len).toNat - start.toNat < len.toNat + 1 by
      rw [hstop, Nat.add_sub_cancel_left]
      exact Nat.lt_succ_self _)
  rw [← hstop]
  exact hrun

/-- For the value zero, `memset` is what the loop does. -/
theorem wordLoop_eq_memset (hlong : sizeofLong = 4 ∨ sizeofLong = 8) {start len : BitVec 64}
    (hspace : start.toNat + len.toNat < 2 ^ 64) (hstart : sizeofLong ∣ start.toNat)
    (hlen : len &&& longAlignMask sizeofLong = 0) {val : BitVec 32} (hval : val = 0)
    (mem : Mem) :
    wordLoop order sizeofLong mem start len = some (memset mem start val len) := by
  rw [wordLoop_eq hlong hspace hstart ((and_longAlignMask hlong len).mp hlen), hval]
  rfl

/-! ## The macros -/

/-- **The macros leave memory as `memset` does**, which sets the bytes asked for to the low
byte of the value and nothing else; and their loop ends. -/
theorem memSet_eq_memset (order : ByteOrder) (hlong : sizeofLong = 4 ∨ sizeofLong = 8)
    (memsetLoopLimit : ℕ) (mem : Mem) {start len : BitVec 64}
    (hspace : start.toNat + len.toNat < 2 ^ 64) (val : BitVec 32) :
    memSet order sizeofLong memsetLoopLimit mem start val len =
        some (memset mem start val len) ∧
      (sizeofLong ∣ start.toNat →
        memSetAligned order sizeofLong memsetLoopLimit mem start val len =
          some (memset mem start val len)) ∧
      (sizeofLong ∣ start.toNat → memSetTest sizeofLong memsetLoopLimit val len = true →
        memSetLoop order sizeofLong mem start val len = some (memset mem start val len)) ∧
      (∀ i < len.toNat, memset mem start val len (start.toNat + i) = val.setWidth 8) ∧
      ∀ x, ¬ (start.toNat ≤ x ∧ x < start.toNat + len.toNat) →
        memset mem start val len x = mem x := by
  refine ⟨?_, fun hstart => ?_, fun hstart htest => ?_, fun i hi => ?_, fun x hx => ?_⟩
  · unfold memSet
    split_ifs with h
    · obtain ⟨hmask, hlen, hval, -, -⟩ := h
      exact wordLoop_eq_memset hlong hspace ((and_longAlignMask hlong start).mp hmask) hlen
        hval mem
    · rfl
  · unfold memSetAligned
    split_ifs with h
    · exact wordLoop_eq_memset hlong hspace hstart h.1 h.2.1 mem
    · rfl
  · obtain ⟨hlen, -, -, hval⟩ := of_decide_eq_true htest
    exact wordLoop_eq_memset hlong hspace hstart hlen hval mem
  · exact fill_of_mem (Nat.le_add_right _ _) (Nat.add_lt_add_left hi _)
  · exact fill_of_not hx

/-- Two words of eight bytes at the address sixteen. -/
theorem memSet_eq_memset_sixteen :
    memSet .little 8 1024 (fun _ => 0xff#8) 16 0 16 =
        some (memset (fun _ => 0xff#8) 16 0 16) ∧
      memSetLoop .little 8 (fun _ => 0xff#8) 16 0 16 =
        some (memset (fun _ => 0xff#8) 16 0 16) := by
  have hspace : (16 : BitVec 64).toNat + (16 : BitVec 64).toNat < 2 ^ 64 := by decide
  have h := memSet_eq_memset .little (.inr rfl : 8 = 4 ∨ 8 = 8) 1024 (fun _ => 0xff#8) hspace 0
  exact ⟨h.1, h.2.2.1 (by decide) (by decide)⟩

end MemSet
