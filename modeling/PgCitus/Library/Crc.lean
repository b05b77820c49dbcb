import Mathlib

/-!
# Cyclic redundancy checks

A shift register with feedback reads a message bit by bit: each bit is added to the bit
that is shifted out, and if the sum is one, a constant is added to what is left
(`Crc.run`). The constant stands for a polynomial over the field with two elements, with
the coefficients of the low powers on the left, and so does what is in the register: it is
the remainder of the message by that polynomial (`Crc.toPoly_run`). So two messages of one
length have one remainder if and only if the polynomial divides their difference
(`Crc.run_eq_iff`), and messages that differ nowhere but in as many bits as the register
has, in a row, never do (`Crc.run_ne_of_burst`).

Symbols of several bits can be read at once: what they do to the register is looked up in
a table (`Crc.iterate_shift`, `Crc.run_toBits`).
-/

namespace Crc

open Polynomial

variable {w k : ℕ}

/-- The bit that is shifted out decides whether `p` is added. -/
def shift (p c : BitVec w) : BitVec w := (c >>> 1) ^^^ if c.getLsbD 0 then p else 0

/-- A bit of the message. -/
def feed (p c : BitVec w) (b : Bool) : BitVec w := shift p (c ^^^ (BitVec.ofBool b).setWidth w)

/-- The register after a message. -/
def run (p c : BitVec w) (bits : List Bool) : BitVec w := bits.foldl (feed p) c

theorem run_append (p c : BitVec w) (bits bits' : List Bool) :
    run p c (bits ++ bits') = run p (run p c bits) bits' := List.foldl_append

/-! ## Symbols -/

/-- **A shift is linear.** -/
theorem shift_xor (p a b : BitVec w) : shift p (a ^^^ b) = shift p a ^^^ shift p b := by
  unfold shift
  rw [BitVec.ushiftRight_xor_distrib, BitVec.getLsbD_xor]
  have hswap (x y u v : BitVec w) : (x ^^^ y) ^^^ (u ^^^ v) = x ^^^ u ^^^ (y ^^^ v) := by
    rw [BitVec.xor_assoc, BitVec.xor_assoc, ← BitVec.xor_assoc y, BitVec.xor_comm y,
      BitVec.xor_assoc]
  rw [← hswap]
  cases a.getLsbD 0 <;> cases b.getLsbD 0 <;> simp

theorem iterate_shift_xor (p : BitVec w) (n : ℕ) (a b : BitVec w) :
    (shift p)^[n] (a ^^^ b) = (shift p)^[n] a ^^^ (shift p)^[n] b := by
  induction n generalizing a b with
  | zero => rfl
  | succ n ih =>
    rw [Function.iterate_succ_apply, shift_xor, ih, Function.iterate_succ_apply,
      Function.iterate_succ_apply]

/-- Where there is nothing to shift out, nothing is added. -/
theorem iterate_shift_of_zero {p c : BitVec w} {n : ℕ} (h : ∀ i < n, c.getLsbD i = false) :
    (shift p)^[n] c = c >>> n := by
  induction n with
  | zero => rw [Function.iterate_zero_apply, BitVec.ushiftRight_zero]
  | succ n ih =>
    have hlow : (c >>> n).getLsbD 0 = false := by
      rw [BitVec.getLsbD_ushiftRight]
      exact h n (Nat.lt_succ_self n)
    rw [Function.iterate_succ_apply', ih fun i hi => h i (Nat.lt_succ_of_lt hi), shift, hlow,
      BitVec.shiftRight_add]
    exact BitVec.xor_zero

/-- **Several shifts**: those of the low bits, for which there may be a table, and the others
moved. -/
theorem iterate_shift (p c : BitVec w) (k : ℕ) :
    (shift p)^[k] c = (shift p)^[k] ((c.setWidth k).setWidth w) ^^^ c >>> k := by
  set low := (c.setWidth k).setWidth w with hlow
  have hhigh : (shift p)^[k] (low ^^^ c) = (low ^^^ c) >>> k := by
    refine iterate_shift_of_zero fun i hi => ?_
    rw [hlow]
    simp only [BitVec.getLsbD_xor, BitVec.getLsbD_setWidth, hi, decide_true, Bool.true_and]
    by_cases hw : i < w
    · simp [hw]
    · simp [hw, BitVec.getLsbD_of_ge c i (Nat.le_of_not_lt hw)]
  have hmoved : (low ^^^ c) >>> k = c >>> k := by
    ext i hi
    rw [hlow]
    simp
  calc (shift p)^[k] c = (shift p)^[k] (low ^^^ (low ^^^ c)) := by
        rw [← BitVec.xor_assoc, BitVec.xor_self, BitVec.zero_xor]
    _ = (shift p)^[k] low ^^^ c >>> k := by rw [iterate_shift_xor, hhigh, hmoved]

/-- A message whose bits are those of a word. -/
theorem run_eq_iterate {p c x : BitVec w} {bits : List Bool}
    (h : ∀ i, x.getLsbD i = bits.getD i false) :
    run p c bits = (shift p)^[bits.length] (c ^^^ x) := by
  induction bits generalizing c x with
  | nil =>
    have hx : x = 0 := BitVec.eq_of_getLsbD_eq fun i _ => (h i).trans (BitVec.getLsbD_zero).symm
    rw [hx]
    exact BitVec.xor_zero.symm
  | cons b bits ih =>
    have hrest : ∀ i, (x >>> 1).getLsbD i = bits.getD i false := fun i => by
      rw [BitVec.getLsbD_ushiftRight, h, Nat.add_comm, List.getD_cons_succ]
    -- the first bit, and the others
    set y := x ^^^ (BitVec.ofBool b).setWidth w with hy
    have hlow : y.getLsbD 0 = false := by
      rw [hy, BitVec.getLsbD_xor, h]
      by_cases hw : 0 < w
      · simp [hw]
      · have h0 := h 0
        rw [BitVec.getLsbD_of_ge x 0 (Nat.le_of_not_lt hw), List.getD_cons_zero] at h0
        simp [h0.symm]
    have hyx : y >>> 1 = x >>> 1 := by
      ext i hi
      rw [hy]
      simp
    have hshift : shift p y = x >>> 1 := by
      unfold shift
      rw [hlow, hyx]
      exact BitVec.xor_zero
    have hx : c ^^^ x = (c ^^^ (BitVec.ofBool b).setWidth w) ^^^ y := by
      rw [hy, BitVec.xor_comm x, BitVec.xor_assoc, ← BitVec.xor_assoc _ _ x, BitVec.xor_self,
        BitVec.zero_xor]
    show run p (feed p c b) bits = _
    rw [ih hrest, List.length_cons, Function.iterate_succ_apply, hx, shift_xor, hshift]
    rfl

/-- The bits of a symbol, the low ones first. -/
def toBits (s : BitVec k) : List Bool := List.ofFn fun i : Fin k => s.getLsbD i

theorem length_toBits (s : BitVec k) : (toBits s).length = k := List.length_ofFn

theorem getD_toBits (s : BitVec k) (i : ℕ) : (toBits s).getD i false = s.getLsbD i := by
  unfold toBits
  by_cases hi : i < k
  · simp [List.getD, hi]
  · simp [List.getD, hi, BitVec.getLsbD_of_ge s i (Nat.le_of_not_lt hi)]

/-- **A symbol at once.** -/
theorem run_toBits (hk : k ≤ w) (p c : BitVec w) (s : BitVec k) :
    run p c (toBits s) = (shift p)^[k] (c ^^^ s.setWidth w) := by
  have hbits : ∀ i, (s.setWidth w).getLsbD i = (toBits s).getD i false := fun i => by
    rw [getD_toBits, BitVec.getLsbD_setWidth]
    by_cases hi : i < w
    · simp [hi]
    · simp [hi, BitVec.getLsbD_of_ge s i (hk.trans (Nat.le_of_not_lt hi))]
  rw [run_eq_iterate hbits, length_toBits]

/-! ## Polynomials -/

/-- A bit as a number. -/
def bit (b : Bool) : ZMod 2 := if b then 1 else 0

theorem bit_xor (a b : Bool) : bit (a ^^ b) = bit a + bit b := by
  cases a <;> cases b <;> decide

theorem bit_injective : Function.Injective bit := by decide

/-- **The polynomial of a word**: the constant is its leftmost bit. -/
noncomputable def toPoly (c : BitVec w) : (ZMod 2)[X] :=
  ∑ i ∈ Finset.range w, C (bit (c.getMsbD i)) * X ^ i

/-- The polynomial that a register divides by. -/
noncomputable def generator (p : BitVec w) : (ZMod 2)[X] := X ^ w + toPoly p

/-- The polynomial of a message: its last bit is the constant. -/
noncomputable def message : List Bool → (ZMod 2)[X]
  | [] => 0
  | b :: bits => C (bit b) * X ^ bits.length + message bits

theorem coeff_toPoly (c : BitVec w) (n : ℕ) : (toPoly c).coeff n = bit (c.getMsbD n) := by
  unfold toPoly
  rw [finsetSum_coeff]
  simp only [coeff_C_mul_X_pow]
  rw [Finset.sum_ite_eq]
  split
  · rfl
  · rename_i hn
    rw [BitVec.getMsbD_of_ge c n (Nat.le_of_not_lt fun h => hn (Finset.mem_range.mpr h))]
    rfl

theorem toPoly_injective : Function.Injective (toPoly : BitVec w → (ZMod 2)[X]) := fun c d h =>
  BitVec.eq_of_getMsbD_eq fun i _ => bit_injective <| by
    rw [← coeff_toPoly, h, coeff_toPoly]

theorem toPoly_xor (c d : BitVec w) : toPoly (c ^^^ d) = toPoly c + toPoly d := by
  ext n
  rw [coeff_add, coeff_toPoly, coeff_toPoly, coeff_toPoly, BitVec.getMsbD_xor, bit_xor]

theorem degree_toPoly_lt (c : BitVec w) : (toPoly c).degree < w := by
  rw [degree_lt_iff_coeff_zero]
  intro n hn
  rw [coeff_toPoly, BitVec.getMsbD_of_ge c n hn]
  rfl

theorem generator_monic (p : BitVec w) : (generator p).Monic :=
  monic_X_pow_add (degree_toPoly_lt p)

theorem degree_generator (p : BitVec w) : (generator p).degree = w := by
  unfold generator
  rw [degree_add_eq_left_of_degree_lt, degree_X_pow]
  rw [degree_X_pow]
  exact degree_toPoly_lt p

/-- **A shift is a multiplication**, less what the polynomial is taken away. -/
theorem toPoly_shift (p c : BitVec w) :
    toPoly (shift p c) = toPoly c * X + C (bit (c.getLsbD 0)) * generator p := by
  have hadd : toPoly (if c.getLsbD 0 then p else 0) = C (bit (c.getLsbD 0)) * toPoly p := by
    cases c.getLsbD 0 with
    | true => simp [bit]
    | false => simp [bit, toPoly]
  have hshift : toPoly (c >>> 1) = toPoly c * X + C (bit (c.getLsbD 0)) * X ^ w := by
    ext n
    rw [coeff_toPoly, coeff_add, coeff_C_mul_X_pow, BitVec.getMsbD_ushiftRight]
    cases n with
    | zero =>
      rw [coeff_mul_X_zero]
      split
      · subst w
        simp [bit]
      · simp [bit]
    | succ n =>
      rw [coeff_mul_X, coeff_toPoly]
      rcases lt_trichotomy (n + 1) w with hn | hn | hn
      · simp [hn, hn.ne]
      · -- the bit that is shifted out is the last one on the right
        have hlast : c.getMsbD n = c.getLsbD 0 := by
          rw [BitVec.getMsbD_eq_getLsbD, show w - 1 - n = 0 by omega]
          simp [show n < w by omega]
        rw [if_pos hn, hlast, CharTwo.add_self_eq_zero]
        simp [hn, bit]
      · rw [if_neg hn.ne', BitVec.getMsbD_of_ge c n (Nat.le_of_lt_succ hn)]
        simp [Nat.not_lt_of_gt hn]
  unfold shift generator
  rw [toPoly_xor, hshift, hadd]
  ring

/-- A bit that is read is added to what is shifted out. -/
theorem toPoly_feed (hw : 0 < w) (p c : BitVec w) (b : Bool) :
    generator p ∣ toPoly (feed p c b) - (toPoly c * X + C (bit b) * X ^ w) := by
  have hbit : toPoly ((BitVec.ofBool b).setWidth w) * X = C (bit b) * X ^ w := by
    ext n
    rw [coeff_C_mul_X_pow]
    cases n with
    | zero => rw [coeff_mul_X_zero, if_neg hw.ne]
    | succ n =>
      rw [coeff_mul_X, coeff_toPoly, BitVec.getMsbD_eq_getLsbD, BitVec.getLsbD_setWidth,
        BitVec.getLsbD_ofBool]
      split
      · rename_i hn
        simp [hw, show w - 1 - n = 0 by omega, show n < w by omega]
      · rename_i hn
        by_cases hnw : n < w
        · simp [show w - 1 - n ≠ 0 by omega, bit]
        · simp [hnw, bit]
  refine ⟨C (bit ((c ^^^ (BitVec.ofBool b).setWidth w).getLsbD 0)), ?_⟩
  unfold feed
  rw [toPoly_shift, toPoly_xor, add_mul, hbit]
  ring

/-- **The register holds the remainder** of what was in it, moved, and of the message. -/
theorem dvd_toPoly_run (hw : 0 < w) (p c : BitVec w) (bits : List Bool) :
    generator p ∣
      toPoly (run p c bits) - (toPoly c * X ^ bits.length + message bits * X ^ w) := by
  induction bits generalizing c with
  | nil =>
    show _ ∣ toPoly c - (toPoly c * X ^ 0 + 0 * X ^ w)
    rw [pow_zero, mul_one, zero_mul, add_zero, sub_self]
    exact dvd_zero _
  | cons b bits ih =>
    obtain ⟨q, hq⟩ := toPoly_feed hw p c b
    obtain ⟨r, hr⟩ := ih (feed p c b)
    refine ⟨r + q * X ^ bits.length, ?_⟩
    show toPoly (run p (feed p c b) bits) - (toPoly c * X ^ (bits.length + 1) +
      (C (bit b) * X ^ bits.length + message bits) * X ^ w) = _
    linear_combination hr + X ^ bits.length * hq

theorem toPoly_run (hw : 0 < w) (p c : BitVec w) (bits : List Bool) :
    toPoly (run p c bits) =
      (toPoly c * X ^ bits.length + message bits * X ^ w) %ₘ generator p := by
  obtain ⟨q, hq⟩ := dvd_toPoly_run hw p c bits
  refine ((div_modByMonic_unique (-q) _ (generator_monic p) ⟨?_, ?_⟩).2).symm
  · linear_combination hq
  · rw [degree_generator]
    exact degree_toPoly_lt _

/-! ## Errors -/

/-- Polynomials of a register are told apart by the remainder. -/
theorem eq_of_dvd {p c d : BitVec w} (h : generator p ∣ toPoly c - toPoly d) : c = d := by
  refine toPoly_injective (sub_eq_zero.mp ?_)
  by_contra hne
  refine (generator_monic p).not_dvd_of_degree_lt hne ?_ h
  rw [degree_generator, CharTwo.sub_eq_add, ← toPoly_xor]
  exact degree_toPoly_lt _

/-- The polynomial has a constant. -/
theorem isCoprime_generator_X {p : BitVec w} (hp : p.msb = true) : IsCoprime (generator p) X := by
  have hw : w ≠ 0 := by
    rintro rfl
    simp [BitVec.msb] at hp
  have hcoeff : (generator p).coeff 0 = 1 := by
    unfold generator
    rw [coeff_add, coeff_X_pow, if_neg hw.symm, zero_add, coeff_toPoly, ← BitVec.msb_eq_getMsbD_zero,
      hp]
    rfl
  refine ⟨1, -divX (generator p), ?_⟩
  have h := divX_mul_X_add (generator p)
  rw [hcoeff, C_1] at h
  linear_combination -h

/-- **Messages with one remainder** are those whose difference the polynomial divides. -/
theorem run_eq_iff (hp : p.msb = true) (c : BitVec w) {bits bits' : List Bool}
    (hlen : bits.length = bits'.length) :
    run p c bits = run p c bits' ↔ generator p ∣ message bits - message bits' := by
  have hw : 0 < w := by
    refine Nat.pos_of_ne_zero ?_
    rintro rfl
    simp [BitVec.msb] at hp
  obtain ⟨q, hq⟩ := dvd_toPoly_run hw p c bits
  obtain ⟨q', hq'⟩ := dvd_toPoly_run hw p c bits'
  rw [hlen] at hq
  constructor
  · intro h
    rw [h] at hq
    refine (IsCoprime.pow_right (n := w) (isCoprime_generator_X hp)).dvd_of_dvd_mul_right ⟨q' - q, ?_⟩
    linear_combination hq' - hq
  · rintro ⟨r, hr⟩
    refine eq_of_dvd (p := p) ⟨q - q' + r * X ^ w, ?_⟩
    linear_combination hq - hq' + X ^ w * hr

theorem message_append (bits bits' : List Bool) :
    message (bits ++ bits') = message bits * X ^ bits'.length + message bits' := by
  induction bits with
  | nil =>
    show message bits' = 0 * _ + _
    rw [zero_mul, zero_add]
  | cons b bits ih =>
    show C (bit b) * X ^ (bits ++ bits').length + message (bits ++ bits') =
      (C (bit b) * X ^ bits.length + message bits) * _ + _
    rw [ih, List.length_append]
    ring

theorem degree_message_lt (bits : List Bool) : (message bits).degree < bits.length := by
  induction bits with
  | nil => exact degree_zero.trans_lt (WithBot.bot_lt_coe _)
  | cons b bits ih =>
    refine (degree_add_le _ _).trans_lt (max_lt ?_ (ih.trans ?_))
    · refine (degree_C_mul_X_pow_le _ _).trans_lt ?_
      exact_mod_cast Nat.lt_succ_self _
    · exact_mod_cast Nat.lt_succ_self _

theorem message_injective {bits bits' : List Bool} (hlen : bits.length = bits'.length)
    (h : message bits = message bits') : bits = bits' := by
  induction bits generalizing bits' with
  | nil => exact (List.length_eq_zero_iff.mp hlen.symm).symm
  | cons b bits ih =>
    cases bits' with
    | nil => exact absurd hlen (Nat.succ_ne_zero _)
    | cons b' bits' =>
      have hlen' : bits.length = bits'.length := Nat.succ.inj hlen
      -- the coefficient of the first bit
      have hcoeff (b : Bool) (bits : List Bool) :
          (message (b :: bits)).coeff bits.length = bit b := by
        have hrest := (degree_lt_iff_coeff_zero _ _).mp (degree_message_lt bits) _ le_rfl
        show (C (bit b) * X ^ bits.length + message bits).coeff bits.length = bit b
        rw [coeff_add, coeff_C_mul_X_pow, if_pos rfl, hrest, add_zero]
      have hb : b = b' := bit_injective <| by
        rw [← hcoeff b bits, h, hlen', hcoeff]
      subst hb
      have hrest : message bits = message bits' := by
        have h' : C (bit b) * X ^ bits.length + message bits =
          C (bit b) * X ^ bits'.length + message bits' := h
        rw [hlen'] at h'
        exact add_left_cancel h'
      rw [ih hlen' hrest]

/-- **An error in a row of bits** no longer than the register is found. -/
theorem run_ne_of_burst (hp : p.msb = true) (c : BitVec w) (u v : List Bool) {a a' : List Bool}
    (hlen : a.length = a'.length) (ha : a.length ≤ w) (hne : a ≠ a') :
    run p c (u ++ a ++ v) ≠ run p c (u ++ a' ++ v) := by
  rw [ne_eq, run_eq_iff hp c (by simp [hlen])]
  have hdiff : message (u ++ a ++ v) - message (u ++ a' ++ v) =
      (message a - message a') * X ^ v.length := by
    rw [message_append, message_append, message_append, message_append, hlen]
    ring
  rw [hdiff]
  intro hdvd
  refine (generator_monic p).not_dvd_of_degree_lt ?_ ?_
    ((IsCoprime.pow_right (n := v.length) (isCoprime_generator_X hp)).dvd_of_dvd_mul_right hdvd)
  · exact sub_ne_zero.mpr fun h => hne (message_injective hlen h)
  · rw [degree_generator]
    refine (degree_sub_le _ _).trans_lt (max_lt ?_ ?_)
    · exact (degree_message_lt a).trans_le (by exact_mod_cast ha)
    · exact (degree_message_lt a').trans_le (by exact_mod_cast hlen ▸ ha)

end Crc
