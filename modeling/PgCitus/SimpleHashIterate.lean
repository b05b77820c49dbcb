import PgCitus.SimpleHashRun

/-!
# Iterating over a simplehash table while deleting from it

`SH_ITERATE` goes through the buckets backwards, so that an entry that has been
returned may be deleted: the entries its deletion shifts back lie ahead of it,
where the iteration has already been. What could go wrong is the wraparound. A
run that crosses the bucket where the iteration started shifts an entry from the
buckets still to come into those already seen, and it is missed.

`SH_START_ITERATE` therefore starts at an empty bucket, and no run crosses that
one. It is also enough that the bucket after the start holds no entry away from
its optimal bucket (`StartsWell`). The search for the empty bucket counts with
an `int`, though: in a table whose first `2 ^ 31` buckets are all in use it
gives up at the overflow, and the iteration starts at the last bucket whatever
is in it.
-/

namespace SimpleHash

open Circ RobinHood

variable {κ ν : Type*} {T : ShTemplate κ ν} {tb : ShHash κ ν}

/-! ## The caller -/

/-- What the caller does with an entry that has been returned. -/
inductive ShChoice where
  | keep
  | delete
  | deleteItem

/-- The table after the choice, for the entry in bucket `p`. -/
def ShChoice.apply (T : ShTemplate κ ν) (tb : ShHash κ ν) (p : ℕ) :
    ShChoice → Option (ShHash κ ν)
  | .keep => some tb
  | .delete => (shDelete T tb (tb.data p).key).map (·.2)
  | .deleteItem => shDeleteItem T tb p

/-- What an iteration goes through: the table, the iterator, and the entries
returned so far, the last one first. -/
structure ShWalk (κ ν : Type*) where
  table : ShHash κ ν
  iter : ShIterator
  returned : List (ShElement κ ν)

/-- One call of `SH_ITERATE`, and the choice the caller makes. -/
def shWalkStep (T : ShTemplate κ ν) (choices : ℕ → ShChoice) (w : ShWalk κ ν) :
    Loop.Step (ShWalk κ ν) (List (ShElement κ ν)) :=
  match shIterate w.table w.iter with
  | none => .stuck
  | some (none, _) => .done w.returned
  | some (some p, iter) =>
    match (choices w.returned.length).apply T w.table p with
    | none => .stuck
    | some tb => .next ⟨tb, iter, w.table.data p :: w.returned⟩

/-- **An iteration**, with a choice after each entry: the entries returned, or
`none` if it does not end. -/
def shWalkAll (T : ShTemplate κ ν) (choices : ℕ → ShChoice) (tb : ShHash κ ν) :
    Option (List (ShElement κ ν)) :=
  match shStartIterate tb with
  | none => none
  | some iter => Loop.run (shWalkStep T choices) (tb.size + 1) ⟨tb, iter, []⟩

/-- **Iteration is right**: whatever the caller chooses, it ends, and returns
every entry of the table exactly once. -/
def IteratesAll (T : ShTemplate κ ν) (tb : ShHash κ ν) : Prop :=
  ∀ choices : ℕ → ShChoice, ∃ out, shWalkAll T choices tb = some out ∧
    out.Nodup ∧ ∀ e, e ∈ out ↔ tb.Holds e

/-! ## Where the iterator is -/

/-- How many buckets an iterator that started at `c` has to go. -/
def iterLeft (n c : ℕ) (iter : ShIterator) : ℕ :=
  if iter.done then 0 else gap n (next n c) iter.cur + 1

/-- **The iterator has `m` buckets to go**, having started at `c`: they are the
first `m` buckets after `c`. -/
structure IterAt (n c : ℕ) (iter : ShIterator) (m : ℕ) : Prop where
  finish_eq : iter.finish = c
  cur_lt : iter.done = false → iter.cur < n
  left_eq : iterLeft n c iter = m

theorem IterAt.le {n c m : ℕ} {iter : ShIterator} (h : IterAt n c iter m) :
    m ≤ n := by
  have hm := h.left_eq
  unfold iterLeft at hm
  cases hd : iter.done with
  | true =>
    rw [hd, if_pos rfl] at hm
    omega
  | false =>
    have := gap_lt (n := n) (a := next n c) (h.cur_lt hd)
    rw [hd, if_neg (by simp)] at hm
    omega

/-- An iterator that has just started has all buckets to go. -/
theorem iterAt_start {n c : ℕ} (hc : c < n) : IterAt n c ⟨c, c, false⟩ n := by
  exact ⟨rfl, fun _ => hc, gap_next_self hc⟩

/-- Going back by one bucket. -/
theorem iterAt_prev {n c p : ℕ} (hc : c < n) (hp : p < n) :
    IterAt n c ⟨prev n p, c, if prev n p = c then true else false⟩
      (gap n (next n c) p) := by
  refine ⟨rfl, fun _ => prev_lt hp, ?_⟩
  unfold iterLeft
  by_cases hpc : next n c = p
  · rw [← hpc, prev_next hc, gap_self, if_pos rfl, if_pos rfl]
  · have hne : prev n p ≠ c := fun h => hpc (by rw [← h, next_prev hp])
    rw [if_neg hne, if_neg (by simp)]
    exact gap_prev (next_lt hc) hp hpc

/-- What a call of `SH_ITERATE` does: it goes back to the next occupied bucket,
or to the end if there is none. -/
def Iterated (tb : ShHash κ ν) (c m : ℕ) : Option ℕ × ShIterator → Prop
  | (none, _) => ∀ i < tb.size, gap tb.size (next tb.size c) i < m →
      shSlot tb.data i = none
  | (some p, iter) => p < tb.size ∧ (tb.data p).status = .inUse ∧
      gap tb.size (next tb.size c) p < m ∧
      IterAt tb.size c iter (gap tb.size (next tb.size c) p) ∧
      ∀ i < tb.size, gap tb.size (next tb.size c) p
        < gap tb.size (next tb.size c) i →
        gap tb.size (next tb.size c) i < m → shSlot tb.data i = none

/-- **A call of `SH_ITERATE` ends**, at the next occupied bucket backwards. -/
theorem shIterate_iterated (hsz : Sized tb) {c m : ℕ} (hc : c < tb.size)
    {iter : ShIterator} (h : IterAt tb.size c iter m) :
    ∃ r, shIterate tb iter = some r ∧ Iterated tb c m r := by
  have hn := next_lt hc
  refine Loop.run_total
    (fun it => IterAt tb.size c it (iterLeft tb.size c it) ∧
      iterLeft tb.size c it ≤ m ∧
      ∀ i < tb.size, iterLeft tb.size c it ≤ gap tb.size (next tb.size c) i →
        gap tb.size (next tb.size c) i < m → shSlot tb.data i = none)
    (iterLeft tb.size c) (fun it hinv => ?_)
    ⟨by rw [h.left_eq]; exact h, h.left_eq.le, fun i _ h₁ h₂ => ?_⟩ ?_
  · obtain ⟨hat, hle, hempty⟩ := hinv
    obtain ⟨cur, finish, done⟩ := it
    obtain rfl : finish = c := hat.finish_eq
    cases done with
    | true => exact fun i hi hlt => hempty i hi (Nat.zero_le _) hlt
    | false =>
      have hcur : cur < tb.size := hat.cur_lt rfl
      have hleft : iterLeft tb.size finish ⟨cur, finish, false⟩
          = gap tb.size (next tb.size finish) cur + 1 := rfl
      rw [hleft] at hle hempty
      -- the bucket before, and whether it is the one the iteration started at
      have hprev : u32 (cur + (2 ^ 32 - 1)) &&& tb.sizemask = prev tb.size cur :=
        shPrev_eq hsz hcur
      have hback := iterAt_prev hc hcur
      dsimp only
      rw [if_neg (by simp), hprev, hsz.and_mask, hsz.and_mask,
        Nat.mod_eq_of_lt (prev_lt hcur), Nat.mod_eq_of_lt hc]
      by_cases hin : (tb.data cur).status = .inUse
      · rw [if_pos hin]
        exact ⟨hcur, hin, by omega, hback, fun i hi h₁ h₂ => hempty i hi h₁ h₂⟩
      · rw [if_neg hin, Loop.Step.meets_next]
        refine ⟨⟨?_, ?_, fun i hi h₁ h₂ => ?_⟩, ?_⟩
        · rw [hback.left_eq]
          exact hback
        · rw [hback.left_eq]
          omega
        · rw [hback.left_eq] at h₁
          by_cases hic : i = cur
          · rw [hic]
            exact shSlot_eq_none.mpr (status_ne_inUse.mp hin)
          · have hne : gap tb.size (next tb.size finish) i
                ≠ gap tb.size (next tb.size finish) cur := fun hd =>
              hic (eq_of_gap_eq hn hi hcur hd)
            exact hempty i hi (by omega) h₂
        · rw [hback.left_eq, hleft]
          omega
  · rw [h.left_eq] at h₁
    omega
  · rw [h.left_eq]
    have := h.le
    omega

/-! ## Going through the table -/

/-- **Iteration may start at `c`**: the bucket is empty, or no entry in the
bucket after it is away from its optimal bucket. -/
def StartsWell (T : ShTemplate κ ν) (n : ℕ) (slot : ℕ → Option (ShElement κ ν))
    (c : ℕ) : Prop :=
  slot c = none ∨ ∀ b, slot (next n c) = some b → T.home n b = next n c

/-- **No run crosses the start** of the iteration. -/
theorem ShiftsBack.add_lt {p L c : ℕ} (hL : ShiftsBack T tb p L)
    (hp : p < tb.size) (hc : c < tb.size) (hin : (tb.data p).status = .inUse)
    (hw : StartsWell T tb.size (shSlot tb.data) c) :
    gap tb.size (next tb.size c) p + L < tb.size := by
  have hn := next_lt hc
  have hlt := hL.lt
  by_cases hps : p = next tb.size c
  · rw [hps, gap_self]
    omega
  · by_contra hge
    have hround := gap_add_gap hp hn hps
    have hpos : gap tb.size p (next tb.size c) ≠ 0 := fun h₀ =>
      hps ((gap_eq_zero hp).mp h₀)
    obtain ⟨b, hb, hne⟩ := hL.run _ hn (by omega) (by omega)
    rcases hw with hempty | hhome
    · have hprev := gap_prev hp hn hps
      rw [prev_next hc] at hprev
      by_cases hpc : gap tb.size p c = 0
      · rw [← (gap_eq_zero hp).mp hpc, shSlot_eq_none, hin] at hempty
        exact absurd hempty (by simp)
      · obtain ⟨b', hb', -⟩ := hL.run c hc (by omega) (by omega)
        rw [hempty] at hb'
        exact absurd hb' (by simp)
    · exact hne (hhome b hb)

/-- Removing an entry leaves the buckets still to come as they were. -/
theorem Removed.ahead {p c : ℕ} {tb' : ShHash κ ν} (hr : Removed T tb p tb')
    (hp : p < tb.size) (hc : c < tb.size) (hin : (tb.data p).status = .inUse)
    (hw : StartsWell T tb.size (shSlot tb.data) c) :
    (∀ i < tb.size, gap tb.size (next tb.size c) i
        < gap tb.size (next tb.size c) p → shSlot tb'.data i = shSlot tb.data i) ∧
      (p ≠ next tb.size c → StartsWell T tb.size (shSlot tb'.data) c) := by
  obtain ⟨L, hL, hslot⟩ := hr.slots
  have hn := next_lt hc
  have hadd := hL.add_lt hp hc hin hw
  have hsame : ∀ i < tb.size, gap tb.size (next tb.size c) i
      < gap tb.size (next tb.size c) p → shSlot tb'.data i = shSlot tb.data i := by
    intro i hi hlt
    have hround := gap_add_gap (a := i) (b := p) hi hp (fun h => by
      rw [h] at hlt
      exact absurd hlt (lt_irrefl _))
    have hsplit := gap_add hn hi hp hlt.le
    rw [hslot i hi, eraseAt_of_gt (by omega)]
  refine ⟨hsame, fun hps => ?_⟩
  rcases hw with hempty | hhome
  · left
    rw [hslot c hc]
    have hprev := gap_prev hp hn hps
    have hround := gap_add_gap hp hn hps
    rw [prev_next hc] at hprev
    rcases Nat.lt_or_ge L (gap tb.size p c) with hgt | hle
    · rw [eraseAt_of_gt hgt, hempty]
    · rw [eraseAt_of_eq (by omega)]
  · right
    have hpos : gap tb.size (next tb.size c) p ≠ 0 := fun h₀ =>
      hps ((gap_eq_zero hn).mp h₀).symm
    rw [hsame _ hn (by rw [gap_self]; omega)]
    exact hhome

/-- **What a choice leaves behind**: the buckets still to come as they were. -/
theorem shChoice_apply (h : ShRep T tb) {c p : ℕ} (hc : c < tb.size)
    (hp : p < tb.size) (hin : (tb.data p).status = .inUse)
    (hw : StartsWell T tb.size (shSlot tb.data) c) (choice : ShChoice) :
    ∃ tb', choice.apply T tb p = some tb' ∧ ShRep T tb' ∧ tb'.size = tb.size ∧
      (∀ i < tb.size, gap tb.size (next tb.size c) i
        < gap tb.size (next tb.size c) p → shSlot tb'.data i = shSlot tb.data i) ∧
      (p ≠ next tb.size c → StartsWell T tb.size (shSlot tb'.data) c) := by
  obtain ⟨tb', htb', hrem⟩ := shRemove_removed h hp hin
  obtain ⟨hsame, hwell⟩ := hrem.ahead hp hc hin hw
  cases choice with
  | keep => exact ⟨tb, rfl, h, rfl, fun _ _ _ => rfl, fun _ => hw⟩
  | delete =>
    refine ⟨tb', ?_, hrem.rep, hrem.size_eq, hsame, hwell⟩
    rw [ShChoice.apply, shDelete_of_inUse h hp hin, htb']
    rfl
  | deleteItem => exact ⟨tb', htb', hrem.rep, hrem.size_eq, hsame, hwell⟩

/-- **The invariant of an iteration** over `tb` that started at `c`: the entries
returned and those in the `m` buckets still to come are the entries of `tb`,
each of them once. -/
structure WalkInv (T : ShTemplate κ ν) (tb : ShHash κ ν) (c : ℕ)
    (w : ShWalk κ ν) (m : ℕ) : Prop where
  rep : ShRep T w.table
  size_eq : w.table.size = tb.size
  iterAt : IterAt tb.size c w.iter m
  startsWell : 0 < m → StartsWell T tb.size (shSlot w.table.data) c
  nodup : w.returned.Nodup
  mem_iff : ∀ e, tb.Holds e ↔ e ∈ w.returned ∨ ∃ i < tb.size,
    gap tb.size (next tb.size c) i < m ∧ shSlot w.table.data i = some e
  disjoint : ∀ e ∈ w.returned, ∀ i < tb.size,
    gap tb.size (next tb.size c) i < m → shSlot w.table.data i ≠ some e

/-- **One entry is passed**: the invariant goes on to the buckets before it, when these
are as they were. -/
theorem WalkInv.pass {c m p : ℕ} {w : ShWalk κ ν} (h : WalkInv T tb c w m)
    (hc : c < tb.size) {iter : ShIterator}
    (hit : Iterated w.table c m (some p, iter)) {tb' : ShHash κ ν} (hrep : ShRep T tb')
    (hsize : tb'.size = w.table.size)
    (hsame : ∀ i < w.table.size, gap w.table.size (next w.table.size c) i
      < gap w.table.size (next w.table.size c) p →
        shSlot tb'.data i = shSlot w.table.data i)
    (hwell : p ≠ next w.table.size c →
      StartsWell T w.table.size (shSlot tb'.data) c) :
    WalkInv T tb c ⟨tb', iter, w.table.data p :: w.returned⟩
      (gap tb.size (next tb.size c) p) := by
  have hn := next_lt hc
  rw [h.size_eq] at hsize hsame hwell
  obtain ⟨hp, hin, hlt, hat, hbetween⟩ := hit
  rw [h.size_eq] at hp hlt hat hbetween
  have hslot : shSlot w.table.data p = some (w.table.data p) :=
    shSlot_of_inUse hin
  refine ⟨hrep, hsize, hat, fun h₀ => hwell fun hps => ?_,
    List.nodup_cons.mpr ⟨fun he => h.disjoint _ he p hp hlt hslot, h.nodup⟩,
    fun e => ?_, fun e he i hi hi' hs => ?_⟩
  · rw [hps, gap_self] at h₀
    exact absurd h₀ (lt_irrefl _)
  · rw [h.mem_iff e, List.mem_cons]
    constructor
    · rintro (he | ⟨i, hi, hi', hs⟩)
      · exact Or.inl (Or.inr he)
      · -- the bucket still to come lies before `p`, or is `p`
        rcases Nat.lt_trichotomy (gap tb.size (next tb.size c) i)
          (gap tb.size (next tb.size c) p) with h₁ | h₁ | h₁
        · exact Or.inr ⟨i, hi, h₁, (hsame i hi h₁).trans hs⟩
        · rw [eq_of_gap_eq hn hi hp h₁, hslot, Option.some.injEq] at hs
          exact Or.inl (Or.inl hs.symm)
        · rw [hbetween i hi h₁ hi'] at hs
          exact absurd hs (by simp)
    · rintro ((rfl | he) | ⟨i, hi, hi', hs⟩)
      · exact Or.inr ⟨p, hp, hlt, hslot⟩
      · exact Or.inl he
      · exact Or.inr ⟨i, hi, by omega, (hsame i hi hi').symm.trans hs⟩
  · have hs' := (hsame i hi hi').symm.trans hs
    rcases List.mem_cons.mp he with rfl | he
    · obtain ⟨hst, hdata⟩ := shSlot_eq_some.mp hs'
      have hip := h.rep.keys_distinct i (by rw [h.size_eq]; exact hi) p
        (by rw [h.size_eq]; exact hp) hst hin
        (by rw [hdata]; exact T.equal_equivalence.refl _)
      rw [hip] at hi'
      exact absurd hi' (lt_irrefl _)
    · exact h.disjoint e he i hi (by omega) hs'

/-- **An iteration that starts well is right**, whatever is deleted on the
way. -/
theorem shWalk_of_startsWell (h : ShRep T tb) {c : ℕ} (hc : c < tb.size)
    (hw : StartsWell T tb.size (shSlot tb.data) c) (choices : ℕ → ShChoice) :
    ∃ out, Loop.run (shWalkStep T choices) (tb.size + 1) ⟨tb, ⟨c, c, false⟩, []⟩
        = some out ∧ out.Nodup ∧ ∀ e, e ∈ out ↔ tb.Holds e := by
  have hstart := iterAt_start hc
  refine Loop.run_total
    (fun w => WalkInv T tb c w (iterLeft tb.size c w.iter))
    (fun w => iterLeft tb.size c w.iter) (fun w hinv => ?_)
    ⟨h, rfl, by rw [hstart.left_eq]; exact hstart, fun _ => hw, List.nodup_nil,
      fun e => ?_, fun e he => absurd he (by simp)⟩
    (by rw [hstart.left_eq]; omega)
  · have hsize := hinv.size_eq
    have hc' : c < w.table.size := hsize ▸ hc
    have hat := hinv.iterAt
    rw [← hsize] at hat
    obtain ⟨⟨r, iter'⟩, hr, hit⟩ := shIterate_iterated hinv.rep.sized hc' hat
    rw [hsize] at hit
    unfold shWalkStep
    rw [hr]
    cases r with
    | none =>
      -- nothing is left in the buckets to come
      refine ⟨hinv.nodup, fun e => ?_⟩
      rw [hinv.mem_iff e]
      refine ⟨Or.inl, fun he => he.resolve_right ?_⟩
      rintro ⟨i, hi, hlt, hs⟩
      rw [← hsize] at hi hlt
      rw [hit i hi (by rwa [hsize] at hlt ⊢)] at hs
      exact absurd hs (by simp)
    | some p =>
      have ⟨hp, hin, hlt, hat', _⟩ := hit
      have hwell := hinv.startsWell (by omega)
      rw [← hsize] at hwell
      obtain ⟨tb', htb', hrep', hsize', hsame, hwell'⟩ :=
        shChoice_apply hinv.rep hc' hp hin hwell (choices w.returned.length)
      have hpass := hinv.pass hc hit hrep' hsize' hsame hwell'
      rw [hsize] at hat' hlt
      dsimp only
      rw [htb', Loop.Step.meets_next, hat'.left_eq]
      exact ⟨hpass, hlt⟩
  · rw [List.mem_nil_iff, false_or]
    refine exists_congr (fun i => ?_)
    rw [hstart.left_eq]
    exact ⟨fun hi => ⟨hi.1, gap_lt hi.1, hi.2⟩, fun hi => ⟨hi.1, hi.2.2⟩⟩

/-! ## Where an iteration starts -/

/-- **The search for an empty bucket** finds one, unless the first `2 ^ 31`
buckets are all in use: then the counter overflows. -/
theorem shStartElem_finds (h : ShRep T tb) :
    ∃ c, shStartElem tb = some c ∧
      (c < tb.size ∧ c < 2 ^ 31 ∧ (tb.data c).status = .empty ∨
        c = 2 ^ 64 - 1 ∧ 2 ^ 31 < tb.size ∧
          ∀ i < 2 ^ 31, (tb.data i).status = .inUse) := by
  obtain ⟨e, he, hempty⟩ := h.exists_empty
  have hmax := h.sized.le_max
  -- the counter is a bucket number, or has wrapped around
  refine Loop.run_total
    (fun i : ℤ => (∃ k : ℕ, i = k ∧ k ≤ tb.size ∧ k < 2 ^ 31 ∧
        ∀ j < k, (tb.data j).status = .inUse) ∨
      i = -2 ^ 31 ∧ 2 ^ 31 < tb.size ∧ ∀ j < 2 ^ 31, (tb.data j).status = .inUse)
    (fun i => if 0 ≤ i then tb.size - i.toNat else 0) (fun i hi => ?_)
    (Or.inl ⟨0, rfl, Nat.zero_le _, by omega, fun j hj => absurd hj (by omega)⟩)
    (by simp)
  rcases hi with ⟨k, rfl, hk, hk', hall⟩ | ⟨rfl, hsize, hall⟩
  · have hmod : ((k : ℤ) % 2 ^ 64).toNat = k := by omega
    rw [hmod, Int.toNat_natCast]
    have hke : k ≤ e := by
      by_contra hc
      rw [hall e (by omega)] at hempty
      exact absurd hempty (by simp)
    rw [if_pos (show (0 : ℤ) ≤ k by omega), if_pos (show k < tb.size by omega)]
    split_ifs with hst
    · exact Or.inl ⟨by omega, hk', status_ne_inUse.mp hst⟩
    · rw [not_not] at hst
      have hall' : ∀ j < k + 1, (tb.data j).status = .inUse := by
        intro j hj
        rcases Nat.lt_or_ge j k with hlt | hge
        · exact hall j hlt
        · rw [show j = k by omega]
          exact hst
      have hne : k ≠ e := fun hc => by
        rw [← hc, hst] at hempty
        exact absurd hempty (by simp)
      rw [Loop.Step.meets_next]
      by_cases hlast : k + 1 = 2 ^ 31
      · have hwrap : ((k : ℤ) + 1).bmod (2 ^ 32) = -2 ^ 31 := by
          rw [show (k : ℤ) + 1 = 2 ^ 31 by exact_mod_cast hlast]
          decide
        rw [hwrap, if_neg (by decide)]
        exact ⟨Or.inr ⟨rfl, by omega, by rw [← hlast]; exact hall'⟩, by omega⟩
      · have hstay : ((k : ℤ) + 1).bmod (2 ^ 32) = ((k + 1 : ℕ) : ℤ) := by
          rw [Int.bmod_eq_of_le (by omega) (by omega)]
          rfl
        rw [hstay, if_pos (by omega), Int.toNat_natCast]
        exact ⟨Or.inl ⟨k + 1, rfl, by omega, by omega, hall'⟩, by omega⟩
  · have hmod : ((-2 ^ 31 : ℤ) % 2 ^ 64).toNat = 2 ^ 64 - 2 ^ 31 := by decide
    rw [hmod, if_neg (show ¬ 2 ^ 64 - 2 ^ 31 < tb.size by omega)]
    exact Or.inr ⟨rfl, hsize, hall⟩

/-- A table of more than `2 ^ 31` buckets has `2 ^ 32` of them. -/
theorem Sized.eq_max (h : Sized tb) (hlt : 2 ^ 31 < tb.size) :
    tb.size = 2 ^ 32 := by
  obtain ⟨k, -, hk, hs⟩ := h.size_eq
  rw [hs] at hlt ⊢
  have := (Nat.pow_lt_pow_iff_right (a := 2) (by omega)).mp hlt
  rw [show k = 32 by omega]

/-- **What decides whether iteration is right.** -/
def IterSafe (T : ShTemplate κ ν) (tb : ShHash κ ν) : Prop :=
  (∃ i < tb.size, i < 2 ^ 31 ∧ (tb.data i).status = .empty) ∨
    (tb.data (2 ^ 32 - 1)).status = .empty ∨
    shInitialBucket tb (T.shEntryHash (tb.data 0)) = 0

/-- An iteration starts at an empty bucket, or at the last one after an
overflow. -/
theorem shStartIterate_starts (h : ShRep T tb) :
    ∃ c < tb.size, shStartIterate tb = some ⟨c, c, false⟩ ∧
      (c < 2 ^ 31 ∧ (tb.data c).status = .empty ∨
        c = 2 ^ 32 - 1 ∧ tb.size = 2 ^ 32 ∧
          ∀ i < 2 ^ 31, (tb.data i).status = .inUse) := by
  obtain ⟨c, hc, hcase⟩ := shStartElem_finds h
  rcases hcase with ⟨hlt, hempty⟩ | ⟨rfl, hsize, hall⟩
  · have hu : u32 c = c := Nat.mod_eq_of_lt (by have := h.sized.le_max; omega)
    refine ⟨c, hlt, ?_, Or.inl hempty⟩
    rw [shStartIterate, hc]
    dsimp only
    rw [hu]
  · have hmax := h.sized.eq_max hsize
    refine ⟨2 ^ 32 - 1, by omega, ?_, Or.inr ⟨rfl, hmax, hall⟩⟩
    rw [shStartIterate, hc]
    rfl

theorem IterSafe.iteratesAll (h : ShRep T tb) (hsafe : IterSafe T tb) :
    IteratesAll T tb := by
  intro choices
  obtain ⟨c, hc, hstart, hcase⟩ := shStartIterate_starts h
  have hw : StartsWell T tb.size (shSlot tb.data) c := by
    rcases hcase with ⟨-, hempty⟩ | ⟨rfl, hsize, hall⟩
    · exact Or.inl (shSlot_eq_none.mpr hempty)
    · have hnext : next tb.size (2 ^ 32 - 1) = 0 := by
        rw [next, if_neg (by omega)]
      rcases hsafe with ⟨i, -, hi, hempty⟩ | hempty | hhome
      · rw [hall i hi] at hempty
        exact absurd hempty (by simp)
      · exact Or.inl (shSlot_eq_none.mpr hempty)
      · right
        intro b hb
        rw [hnext] at hb ⊢
        obtain ⟨-, rfl⟩ := shSlot_eq_some.mp hb
        rw [← shInitialBucket_home h.sized, hhome]
  rw [shWalkAll, hstart]
  exact shWalk_of_startsWell h hc hw choices

/-- **The first entry returned is that of the start**, where that is in use. -/
theorem shIterate_start (h : ShRep T tb) {c : ℕ} (hc : c < tb.size)
    (hin : (tb.data c).status = .inUse) :
    ∃ iter, shIterate tb ⟨c, c, false⟩ = some (some c, iter) ∧
      IterAt tb.size c iter (gap tb.size (next tb.size c) c) := by
  have hn := next_lt hc
  have hfull := gap_next_self hc
  have hslotc : shSlot tb.data c = some (tb.data c) := shSlot_of_inUse hin
  obtain ⟨⟨r, iter⟩, hr, hit⟩ := shIterate_iterated h.sized hc (iterAt_start hc)
  cases r with
  | none =>
    have := hit c hc (by omega)
    rw [hslotc] at this
    exact absurd this (by simp)
  | some p =>
    obtain ⟨hp, -, -, hat, hbetween⟩ := hit
    obtain rfl : p = c := by
      by_contra hpc
      have hlt := gap_lt (n := tb.size) (a := next tb.size c) hp
      have hne : gap tb.size (next tb.size c) p
          ≠ gap tb.size (next tb.size c) c := fun hd =>
        hpc (eq_of_gap_eq hn hp hc hd)
      have := hbetween c hc (by omega) (by omega)
      rw [hslotc] at this
      exact absurd this (by simp)
    exact ⟨iter, hr, hat⟩

/-- **A removal moves the entry of the next bucket** into the one that is freed, unless
that entry is at its optimal bucket. -/
theorem Removed.slot_self {c : ℕ} {tb' : ShHash κ ν} (hrem : Removed T tb c tb')
    (hc : c < tb.size) (h₂ : 2 ≤ tb.size) {x : ShElement κ ν}
    (hx : shSlot tb.data (next tb.size c) = some x)
    (haway : T.home tb.size x ≠ next tb.size c) : shSlot tb'.data c = some x := by
  have hn := next_lt hc
  have hfull := gap_next_self hc
  have hnc : c ≠ next tb.size c := fun hnc => by
    rw [← hnc, gap_self] at hfull
    omega
  obtain ⟨L, hL, hslot⟩ := hrem.slots
  have hd : gap tb.size c (next tb.size c) = 1 := by
    rw [gap_next hc hc hnc, gap_self]
  have hpos : 0 < L := by
    rcases Nat.eq_zero_or_pos L with h₀ | h₀
    · exact absurd (hL.ends _ hn (by omega) x hx) haway
    · exact h₀
  rw [hslot c hc, eraseAt_of_lt (by rw [gap_self]; exact hpos), hx]

/-- **The entry that is missed.** From a start in use, with an entry away from
its optimal bucket in the bucket after it: deleting the first entry returned
moves that entry into the start bucket, where the iteration does not come
again. -/
theorem shWalk_misses (h : ShRep T tb) {c : ℕ} (hc : c < tb.size)
    (hin : (tb.data c).status = .inUse)
    {x : ShElement κ ν} (hx : shSlot tb.data (next tb.size c) = some x)
    (haway : T.home tb.size x ≠ next tb.size c)
    {out : List (ShElement κ ν)}
    (hout : Loop.run (shWalkStep T (fun k => if k = 0 then .deleteItem else .keep))
      (tb.size + 1) ⟨tb, ⟨c, c, false⟩, []⟩ = some out) : x ∉ out := by
  have h₂ := h.sized.two_le
  have hn := next_lt hc
  have hfull := gap_next_self hc
  obtain ⟨iter, hr, hat⟩ := shIterate_start h hc hin
  obtain ⟨tb', htb', hrem⟩ := shRemove_removed h hc hin
  have hmoved := hrem.slot_self hc h₂ hx haway
  have hstep : shWalkStep T (fun k => if k = 0 then .deleteItem else .keep)
      ⟨tb, ⟨c, c, false⟩, []⟩ = .next ⟨tb', iter, [tb.data c]⟩ := by
    unfold shWalkStep
    dsimp only
    rw [hr]
    dsimp only [List.length_nil]
    rw [if_pos rfl, ShChoice.apply, shDeleteItem, htb']
  rw [Loop.run_next hstep] at hout
  -- from now on nothing is deleted, and the start bucket is not visited again
  refine Loop.run_total_of_eq (Q := fun out => x ∉ out)
    (fun w : ShWalk κ ν => w.table = tb' ∧ IterAt tb.size c w.iter (iterLeft tb.size c w.iter) ∧
      iterLeft tb.size c w.iter ≤ gap tb.size (next tb.size c) c ∧
      w.returned ≠ [] ∧ x ∉ w.returned)
    (fun w => iterLeft tb.size c w.iter) (fun w hinv => ?_)
    ⟨rfl, by rw [hat.left_eq]; exact hat, hat.left_eq.le, by simp, ?_⟩
    (by dsimp only; rw [hat.left_eq]; omega) hout
  · obtain ⟨table, iter, returned⟩ := w
    obtain ⟨rfl, hat, hle, hne, hx'⟩ := hinv
    dsimp only at hat hle hne hx'
    rw [← hrem.size_eq] at hat hc hle
    obtain ⟨⟨r, iter'⟩, hr, hit⟩ := shIterate_iterated hrem.rep.sized hc hat
    unfold shWalkStep
    dsimp only
    rw [hr]
    cases r with
    | none => exact hx'
    | some p =>
      obtain ⟨hp, hinp, hlt, hat', -⟩ := hit
      have hlen : returned.length ≠ 0 := fun h₀ => hne (List.length_eq_zero_iff.mp h₀)
      dsimp only
      rw [if_neg hlen, ShChoice.apply, Loop.Step.meets_next, ← hrem.size_eq,
        hat'.left_eq]
      refine ⟨⟨rfl, hat', by omega, by simp, fun hmem => ?_⟩, hlt⟩
      rcases List.mem_cons.mp hmem with rfl | hmem
      · obtain ⟨hst, hdata⟩ := shSlot_eq_some.mp hmoved
        have hpc := hrem.rep.keys_distinct c hc p hp hst hinp
          (by rw [hdata]; exact T.equal_equivalence.refl _)
        rw [← hpc] at hlt
        omega
      · exact hx' hmem
  · intro hmem
    obtain ⟨hst, hdata⟩ := shSlot_eq_some.mp hx
    rw [List.mem_singleton, ← hdata] at hmem
    have hnc : next tb.size c = c := by
      refine h.keys_distinct _ hn c hc hst hin ?_
      rw [hmem]
      exact T.equal_equivalence.refl _
    rw [hnc, gap_self] at hfull
    omega

/-- Where the condition fails, there are choices for which an entry is
missed. -/
theorem not_iteratesAll (h : ShRep T tb) (hun : ¬ IterSafe T tb) :
    ¬ IteratesAll T tb := by
  intro hall
  unfold IterSafe at hun
  push Not at hun
  obtain ⟨hused, hlast, haway⟩ := hun
  obtain ⟨c, hc, hstart, ⟨hlt, hempty⟩ | ⟨rfl, hsize, hlow⟩⟩ := shStartIterate_starts h
  · exact absurd hempty (hused c hc hlt)
  · have hnext : next tb.size (2 ^ 32 - 1) = 0 := by
      rw [next, if_neg (by omega)]
    have hx : shSlot tb.data 0 = some (tb.data 0) :=
      shSlot_of_inUse (hlow 0 (by omega))
    obtain ⟨out, hout, -, hmem⟩ :=
      hall (fun k => if k = 0 then .deleteItem else .keep)
    rw [shWalkAll, hstart] at hout
    refine shWalk_misses h hc (status_ne_empty.mp hlast) (x := tb.data 0)
      (by rw [hnext]; exact hx) ?_ hout
      ((hmem _).mpr ⟨0, by omega, hx⟩)
    rw [hnext, ← shInitialBucket_home h.sized]
    exact haway

/-- **Iterating while deleting is right if and only if** one of the first
`2 ^ 31` buckets is empty, or bucket `2 ^ 32 - 1` is, or the entry in bucket `0`
is at its optimal bucket. -/
theorem iteratesAll_iff (h : ShRep T tb) : IteratesAll T tb ↔ IterSafe T tb := by
  refine ⟨fun hall => ?_, IterSafe.iteratesAll h⟩
  by_contra hun
  exact not_iteratesAll h hun hall

/-- Four keys in eight buckets, two of them in each of two runs, of which one wraps around the
end. Deleting the second entry that is returned, in bucket seven, moves the first one into that
bucket; each is returned once. -/
theorem iteratesAll_wrapped : ∃ tb, ShRun modEight
      ((.insert 15, .inserted false ⟨15, 0, .inUse, 0⟩) :: threeInserted) tb ∧ tb.size = 8 ∧
    [3, 4, 7, 0].map (fun i => (tb.data i).key) = [3, 11, 7, 15] ∧
    IteratesAll modEight tb ∧
    (shWalkAll modEight (fun k => if k % 2 = 0 then .keep else .delete) tb).map
      (List.map ShElement.key) = some [3, 11, 7, 15] := by
  obtain ⟨tb, hrun, hsize, hkeys, hempty, hwalk⟩ : ∃ tb, ShRun modEight
      ((.insert 15, .inserted false ⟨15, 0, .inUse, 0⟩) :: threeInserted) tb ∧ tb.size = 8 ∧
      [3, 4, 7, 0].map (fun i => (tb.data i).key) = [3, 11, 7, 15] ∧
      (tb.data 1).status = .empty ∧
      (shWalkAll modEight (fun k => if k % 2 = 0 then .keep else .delete) tb).map
        (List.map ShElement.key) = some [3, 11, 7, 15] :=
    ⟨_, .step (.step (.step (.step (.create 6 _ rfl) trivial rfl) trivial rfl) trivial rfl)
      trivial rfl, rfl, rfl, rfl, by decide +kernel⟩
  exact ⟨tb, hrun, hsize, hkeys,
    (iteratesAll_iff hrun.inv.1.rep).mpr (Or.inl ⟨1, by rw [hsize]; decide, by decide, hempty⟩),
    hwalk⟩

/-! ## A table where an entry is missed -/

/-- The key `0` hashes to the last bucket of a table of maximal size, every
other key to the bucket of its number. -/
def wrapHash (key : ℕ) : UInt32 :=
  if key = 0 then UInt32.ofNat (2 ^ 32 - 1) else UInt32.ofNat key

/-- A table of maximal size: the first `2 ^ 31` buckets and the last one hold
the keys of their numbers. -/
def wrapTable : ShHash ℕ ℕ where
  size := 2 ^ 32
  members := 2 ^ 31 + 1
  sizemask := 2 ^ 32 - 1
  growThreshold := shGrowThreshold (2 ^ 32)
  data := fun i =>
    ⟨i, 0, if i < 2 ^ 31 ∨ i = 2 ^ 32 - 1 then .inUse else .empty, 0⟩

theorem wrapTable_slot {i : ℕ} {e : ShElement ℕ ℕ}
    (h : shSlot wrapTable.data i = some e) :
    (i < 2 ^ 31 ∨ i = 2 ^ 32 - 1) ∧ e.key = i := by
  obtain ⟨hst, rfl⟩ := shSlot_eq_some.mp h
  refine ⟨?_, rfl⟩
  by_contra hc
  have hempty : (wrapTable.data i).status = .empty := if_neg hc
  rw [hempty] at hst
  exact absurd hst (by simp)

theorem wrapTable_slot_of {i : ℕ} (h : i < 2 ^ 31 ∨ i = 2 ^ 32 - 1) :
    shSlot wrapTable.data i = some ⟨i, 0, .inUse, 0⟩ := by
  have hst : (wrapTable.data i).status = .inUse := if_pos h
  rw [shSlot_eq_some]
  refine ⟨hst, ?_⟩
  show (⟨i, 0, (wrapTable.data i).status, 0⟩ : ShElement ℕ ℕ) = _
  rw [hst]

/-- Only the entry of key `0` is away from its optimal bucket. -/
theorem wrapTable_home {e : ShElement ℕ ℕ} (he : e.key < 2 ^ 32) :
    (numberTemplate wrapHash).home (2 ^ 32) e
      = if e.key = 0 then 2 ^ 32 - 1 else e.key := by
  show (wrapHash e.key).toNat % 2 ^ 32 = _
  unfold wrapHash
  split_ifs with h₀
  · rfl
  · rw [UInt32.toNat_ofNat', Nat.mod_mod, Nat.mod_eq_of_lt he]

theorem wrapTable_slot_none {i : ℕ} (h : ¬ (i < 2 ^ 31 ∨ i = 2 ^ 32 - 1)) :
    shSlot wrapTable.data i = none := by
  have hst : (wrapTable.data i).status = .empty := if_neg h
  exact shSlot_eq_none.mpr hst

theorem wrapTable_rep : ShRep (numberTemplate wrapHash) wrapTable := by
  have hsound : Sound (numberTemplate wrapHash) (2 ^ 32) wrapTable.data := by
    refine ⟨⟨fun e => Nat.mod_lt _ (by omega), fun i hi e he hne => ?_⟩, ?_, ?_⟩
    · obtain ⟨hcase, hkey⟩ := wrapTable_slot he
      have hlt := next_lt hi
      rw [wrapTable_home (by omega), hkey] at hne
      -- only the entry of key `0` is away from home, and it lies after the last
      by_cases h₀ : next (2 ^ 32) i = 0
      · have hlast : i = 2 ^ 32 - 1 := by
          unfold next at h₀
          split_ifs at h₀
          omega
        refine ⟨_, wrapTable_slot_of (Or.inr hlast), ?_⟩
        rw [wrapTable_home (by omega), wrapTable_home (by dsimp only; omega), hkey, h₀,
          hlast]
        decide
      · rw [if_neg h₀] at hne
        exact absurd rfl hne
    · intro i hi j hj a b ha hb hab
      obtain ⟨-, rfl⟩ := wrapTable_slot ha
      obtain ⟨-, rfl⟩ := wrapTable_slot hb
      have : (a.key == b.key) = true := hab
      simpa using this
    · exact fun i hi e he => rfl
  refine Sound.rep hsound ⟨⟨32, by omega, by omega, rfl⟩, rfl⟩ ?_
    ⟨2 ^ 31, ?_, ?_⟩
  · have hocc : occupied (2 ^ 32) (shSlot wrapTable.data)
        = insert (2 ^ 32 - 1) (Finset.range (2 ^ 31)) := by
      ext i
      rw [mem_occupied, Finset.mem_insert, Finset.mem_range, Option.isSome_iff_exists]
      constructor
      · rintro ⟨-, e, he⟩
        exact (wrapTable_slot he).1.symm
      · intro hi
        exact ⟨by omega, _, wrapTable_slot_of hi.symm⟩
    show 2 ^ 31 + 1 = (occupied (2 ^ 32) (shSlot wrapTable.data)).card
    rw [hocc, Finset.card_insert_of_notMem (by rw [Finset.mem_range]; omega),
      Finset.card_range]
  · show 2 ^ 31 < 2 ^ 32
    omega
  · exact wrapTable_slot_none (by omega)

/-- **In that table an entry is missed** when the first one returned is
deleted. -/
theorem wrapTable_misses : ShRep (numberTemplate wrapHash) wrapTable ∧
    ¬ IteratesAll (numberTemplate wrapHash) wrapTable := by
  refine ⟨wrapTable_rep, not_iteratesAll wrapTable_rep ?_⟩
  rintro (⟨i, -, hi, hempty⟩ | hempty | hhome)
  · have hst : (wrapTable.data i).status = .inUse := if_pos (Or.inl hi)
    rw [hempty] at hst
    exact absurd hst (by simp)
  · have hst := (shSlot_eq_some.mp (wrapTable_slot_of (Or.inr rfl))).1
    rw [hempty] at hst
    exact absurd hst (by simp)
  · rw [shInitialBucket_home wrapTable_rep.sized] at hhome
    have := wrapTable_home (e := wrapTable.data 0) (by decide)
    rw [show (2 : ℕ) ^ 32 = wrapTable.size from rfl, hhome] at this
    exact absurd this (by decide)

end SimpleHash
