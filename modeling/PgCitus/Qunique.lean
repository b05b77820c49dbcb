import PgCitus.Library.Firsts
import PgCitus.SortTemplateArray

/-!
# Removing duplicates from a sorted array

`qunique` of `lib/qunique.h` goes through an array once and copies every element that does
not compare equal to the last one kept to the place after it. An array is read as for the
sort: the step of pointers is `width`, and an element is that many bytes.

The elements kept overwrite the array that is still being compared. That this does no harm
is the invariant `Keeping`: `j` stays behind `i`, so the part of the array before `j`
holds the first elements of the classes seen so far, and nothing after it has changed.
-/

namespace Qunique

open SortTemplate Quicksort

variable {β Arg : Type*}

/-- `memcpy`: copy `n` bytes. -/
def memcpy (mem : ℕ → β) (dst src n : ℕ) : ℕ → β := fun x =>
  if dst ≤ x ∧ x < dst + n then mem (src + (x - dst)) else mem x

/-- What is returned, the memory then, and the calls of `memcpy`, the last first: where to
and where from. -/
structure Uniqued (β : Type*) where
  size : ℕ
  mem : ℕ → β
  copies : List (ℕ × ℕ)

/-- The variables of the loop, the memory, and the calls of `memcpy` so far. -/
structure QuState (β : Type*) where
  i : ℕ
  j : ℕ
  mem : ℕ → β
  copies : List (ℕ × ℕ)

/-- The loop. -/
def quBody (T : StTemplate β) (bytes elements : ℕ) (s : QuState β) :
    Loop.Step (QuState β) (Uniqued β) :=
  if s.i < elements then
    if doCompare T s.mem (bytes + s.i * T.step) (bytes + s.j * T.step) ≠ 0 then
      -- `++j != i`
      if s.j + 1 ≠ s.i then
        .next ⟨s.i + 1, s.j + 1,
          memcpy s.mem (bytes + (s.j + 1) * T.step) (bytes + s.i * T.step) T.step,
          (bytes + (s.j + 1) * T.step, bytes + s.i * T.step) :: s.copies⟩
      else .next ⟨s.i + 1, s.j + 1, s.mem, s.copies⟩
    else .next ⟨s.i + 1, s.j, s.mem, s.copies⟩
  else .done ⟨s.j + 1, s.mem, s.copies⟩

/-- What the two functions do, for the width and the comparator. -/
def quLoop (T : StTemplate β) (mem : ℕ → β) (array elements : ℕ) : Option (Uniqued β) :=
  if elements ≤ 1 then some ⟨elements, mem, []⟩
  else Loop.run (quBody T array elements) elements ⟨1, 0, mem, []⟩

/-- `qunique`. -/
def qunique (mem : ℕ → β) (array elements width : ℕ)
    (compare : (Fin width → β) → (Fin width → β) → ℤ) : Option (Uniqued β) :=
  quLoop ⟨width, compare⟩ mem array elements

/-- `qunique_arg`. -/
def quniqueArg (mem : ℕ → β) (array elements width : ℕ)
    (compare : (Fin width → β) → (Fin width → β) → Arg → ℤ) (arg : Arg) :
    Option (Uniqued β) :=
  quLoop ⟨width, fun a b => compare a b arg⟩ mem array elements

/-! ## Copying elements -/

variable {T : StTemplate β} {base n : ℕ} {mem : ℕ → β}

theorem memcpy_of_not {dst src k x : ℕ} (h : ¬ (dst ≤ x ∧ x < dst + k)) :
    memcpy mem dst src k x = mem x := if_neg h

/-- **Copying the bytes of an element copies the element.** -/
theorem stView_memcpy (T : StTemplate β) (base i j : ℕ) (mem : ℕ → β) :
    stView T base (memcpy mem (stPtr T base j) (stPtr T base i) T.step) =
      Function.update (stView T base mem) j (stView T base mem i) := by
  funext x
  funext u
  show memcpy mem (stPtr T base j) (stPtr T base i) T.step (stPtr T base x + u) = _
  rw [memcpy, if_congr (stPtr_within_iff T base x j u) rfl rfl]
  by_cases hx : x = j
  · rw [if_pos hx, hx, Function.update_self, Nat.add_sub_cancel_left]
    rfl
  · rw [if_neg hx, Function.update_of_ne hx]
    rfl

/-! ## The loop -/

/-- A copy from one element of the array to another before it, which does not overlap. -/
def Within (T : StTemplate β) (base n : ℕ) (copy : ℕ × ℕ) : Prop :=
  ∃ i j, j < i ∧ i < n ∧ copy = (stPtr T base j, stPtr T base i) ∧
    stPtr T base j + T.step ≤ stPtr T base i

/-- **The state of the loop** when `i` elements have been looked at: the first `j + 1`
elements are the first ones of the classes so far, and nothing after them has changed. -/
structure Keeping (T : StTemplate β) (base n : ℕ) (mem : ℕ → β) (s : QuState β) : Prop where
  pos : 0 < s.i
  le : s.i ≤ n
  length : (firsts T.compare (stView T base mem) s.i).length = s.j + 1
  kept : ∀ c p, (firsts T.compare (stView T base mem) s.i)[c]? = some p →
    stView T base s.mem c = stView T base mem p
  unchanged : ∀ x, ¬ (base ≤ x ∧ x < stPtr T base (s.j + 1)) → s.mem x = mem x
  copies : ∀ copy ∈ s.copies, Within T base n copy

/-- `j` stays behind `i`. -/
theorem Keeping.lt {s : QuState β} (h : Keeping T base n mem s) : s.j < s.i := by
  have hle := length_firsts_le T.compare (stView T base mem) s.i
  rw [h.length] at hle
  exact hle

/-- Elements after the kept ones are as they were. -/
theorem Keeping.view {s : QuState β} (h : Keeping T base n mem s) {c : ℕ} (hc : s.j < c) :
    stView T base s.mem c = stView T base mem c := by
  funext u
  refine h.unchanged _ fun hin => ?_
  have hle := stPtr_add_le T base (i := s.j) (j := c) hc
  rw [stPtr_add_step] at hle
  exact absurd hin.2 (Nat.not_lt_of_le (hle.trans (Nat.le_add_right _ _)))

/-- **Comparing with the last element kept** tells whether the next element is the first
of its class. -/
theorem Keeping.firsts_succ {s : QuState β} (h : Keeping T base n mem s)
    (hcmp : TotalPreorder T.compare) (hsorted : SortedOn T.compare (stView T base mem) 0 n)
    (hi : s.i < n) :
    firsts T.compare (stView T base mem) (s.i + 1) =
      firsts T.compare (stView T base mem) s.i ++
        if doCompare T s.mem (base + s.i * T.step) (base + s.j * T.step) ≠ 0 then [s.i]
        else [] := by
  have hlast : (firsts T.compare (stView T base mem) s.i).getLast? =
      (firsts T.compare (stView T base mem) s.i)[s.j]? := by
    rw [List.getLast?_eq_getElem?, h.length, Nat.add_sub_cancel]
  obtain ⟨p, hp⟩ : ∃ p, (firsts T.compare (stView T base mem) s.i)[s.j]? = some p :=
    ⟨_, List.getElem?_eq_getElem (h.length ▸ Nat.lt_succ_self s.j)⟩
  have hcompare : doCompare T s.mem (base + s.i * T.step) (base + s.j * T.step) =
      T.compare (stView T base mem s.i) (stView T base mem p) := by
    rw [← h.kept s.j p hp, ← h.view h.lt]
    rfl
  have hle : SortedOn T.compare (stView T base mem) 0 (s.i + 1) := fun c h₀ hc =>
    hsorted c h₀ (hc.trans_le hi)
  rw [hcompare]
  exact hle.firsts_succ hcmp (hlast.trans hp)

/-- An element of the class of the last one kept is passed over. -/
theorem Keeping.skip {s : QuState β} (h : Keeping T base n mem s) (hi : s.i < n)
    (hfirsts : firsts T.compare (stView T base mem) (s.i + 1) =
      firsts T.compare (stView T base mem) s.i) :
    Keeping T base n mem ⟨s.i + 1, s.j, s.mem, s.copies⟩ where
  pos := Nat.succ_pos _
  le := hi
  length := hfirsts ▸ h.length
  kept := hfirsts ▸ h.kept
  unchanged := h.unchanged
  copies := h.copies

/-- **The first element of a class is kept**, whether it has to be copied or not. -/
theorem Keeping.keep {s : QuState β} (h : Keeping T base n mem s) (hi : s.i < n)
    (hfirsts : firsts T.compare (stView T base mem) (s.i + 1) =
      firsts T.compare (stView T base mem) s.i ++ [s.i])
    {mem' : ℕ → β} {copies' : List (ℕ × ℕ)}
    (hview : stView T base mem' =
      Function.update (stView T base s.mem) (s.j + 1) (stView T base s.mem s.i))
    (hother : ∀ x, ¬ (stPtr T base (s.j + 1) ≤ x ∧ x < stPtr T base (s.j + 2)) →
      mem' x = s.mem x)
    (hcopies : ∀ copy ∈ copies', Within T base n copy) :
    Keeping T base n mem ⟨s.i + 1, s.j + 1, mem', copies'⟩ where
  pos := Nat.succ_pos _
  le := hi
  length := by
    show (firsts T.compare (stView T base mem) (s.i + 1)).length = _
    rw [hfirsts, List.length_append, h.length]
    rfl
  kept := fun c p hcp => by
    show stView T base mem' c = _
    have hcp : (firsts T.compare (stView T base mem) (s.i + 1))[c]? = some p := hcp
    rw [hfirsts] at hcp
    rw [hview]
    rcases Nat.lt_or_ge c (s.j + 1) with hlt | hge
    · rw [List.getElem?_append_left (h.length ▸ hlt)] at hcp
      rw [Function.update_of_ne hlt.ne]
      exact h.kept c p hcp
    · rw [List.getElem?_append_right (h.length ▸ hge), h.length,
        List.getElem?_singleton, ite_eq_iff'] at hcp
      obtain ⟨hzero, hnot⟩ := hcp
      obtain rfl : c = s.j + 1 := by
        by_contra hne
        exact absurd (hnot (by omega)) (by simp)
      rw [Function.update_self, h.view h.lt, Option.some.inj (hzero (Nat.sub_self _))]
  unchanged := fun x hx => by
    have hle : stPtr T base (s.j + 1) ≤ stPtr T base (s.j + 2) := by
      rw [← stPtr_add_step T base (s.j + 1)]
      exact Nat.le_add_right _ _
    have hbase : base ≤ stPtr T base (s.j + 1) := Nat.le_add_right _ _
    show mem' x = mem x
    rw [hother x fun hin => hx ⟨hbase.trans hin.1, hin.2⟩]
    exact h.unchanged x fun hin => hx ⟨hin.1, hin.2.trans_le hle⟩
  copies := hcopies

/-- **One pass keeps the state.** -/
theorem quBody_keeping (hcmp : TotalPreorder T.compare)
    (hsorted : SortedOn T.compare (stView T base mem) 0 n) {s : QuState β}
    (h : Keeping T base n mem s) :
    (quBody T base n s).Meets (fun r => Keeping T base n mem ⟨n, r.size - 1, r.mem, r.copies⟩ ∧
      0 < r.size) fun s' => Keeping T base n mem s' ∧ n - s'.i < n - s.i := by
  unfold quBody
  split_ifs with hi hne hj
  · -- the first of a class, to be copied
    have hfirsts := h.firsts_succ hcmp hsorted hi
    rw [if_pos hne] at hfirsts
    have hlt : s.j + 1 < s.i := lt_of_le_of_ne h.lt hj
    refine ⟨h.keep hi hfirsts (stView_memcpy T base s.i (s.j + 1) s.mem) (fun x hx => ?_)
      fun copy hcopy => ?_, Nat.sub_lt_sub_left hi (Nat.lt_succ_self _)⟩
    · refine memcpy_of_not fun hin => hx ⟨hin.1, hin.2.trans_le (Nat.le_of_eq ?_)⟩
      exact stPtr_add_step T base (s.j + 1)
    · rw [List.mem_cons] at hcopy
      rcases hcopy with rfl | hcopy
      · exact ⟨s.i, s.j + 1, hlt, hi, rfl, stPtr_add_le T base hlt⟩
      · exact h.copies copy hcopy
  · -- the first of a class, in its place already
    have hfirsts := h.firsts_succ hcmp hsorted hi
    rw [if_pos hne] at hfirsts
    refine ⟨h.keep hi hfirsts ?_ (fun x _ => rfl) h.copies,
      Nat.sub_lt_sub_left hi (Nat.lt_succ_self _)⟩
    rw [not_not.mp hj, Function.update_eq_self]
  · have hfirsts := h.firsts_succ hcmp hsorted hi
    rw [if_neg hne, List.append_nil] at hfirsts
    exact ⟨h.skip hi hfirsts, Nat.sub_lt_sub_left hi (Nat.lt_succ_self _)⟩
  · obtain rfl : s.i = n := le_antisymm h.le (Nat.le_of_not_lt hi)
    exact ⟨h, Nat.succ_pos _⟩

/-! ## What the loop ends with -/

/-- **What is returned when the loop is done**: the first elements of the classes. -/
structure Kept (T : StTemplate β) (base n : ℕ) (mem : ℕ → β) (r : Uniqued β) : Prop where
  length : (firsts T.compare (stView T base mem) n).length = r.size
  kept : ∀ c p, (firsts T.compare (stView T base mem) n)[c]? = some p →
    stView T base r.mem c = stView T base mem p
  unchanged : ∀ x, ¬ (base ≤ x ∧ x < stPtr T base r.size) → r.mem x = mem x
  copies : ∀ copy ∈ r.copies, Within T base n copy

theorem eq_of_getElem?_range {c p : ℕ} (h : (List.range n)[c]? = some p) : p = c := by
  obtain ⟨hlt, h⟩ := List.getElem?_eq_some_iff.mp h
  rw [← h, List.getElem_range]

/-- One element, or none, is kept as it is. -/
theorem Kept.of_le_one (hn : n ≤ 1) : Kept T base n mem ⟨n, mem, []⟩ := by
  have hfirsts := firsts_of_le_one T.compare (stView T base mem) hn
  refine ⟨?_, fun c p hp => ?_, fun _ _ => rfl, fun copy hcopy => ?_⟩
  · rw [hfirsts, List.length_range]
  · rw [hfirsts] at hp
    rw [eq_of_getElem?_range hp]
  · exact absurd hcopy List.not_mem_nil

/-- The loop starts with the first element kept. -/
theorem keeping_start (hn : 1 ≤ n) : Keeping T base n mem ⟨1, 0, mem, []⟩ := by
  have hone : Kept T base 1 mem ⟨1, mem, []⟩ := .of_le_one le_rfl
  refine ⟨Nat.one_pos, hn, hone.length, hone.kept, fun _ _ => rfl, fun copy hcopy => ?_⟩
  exact absurd hcopy List.not_mem_nil

/-- **The two functions end, with the first elements of the classes.** -/
theorem quLoop_kept (hcmp : TotalPreorder T.compare)
    (hsorted : SortedOn T.compare (stView T base mem) 0 n) :
    ∃ r, quLoop T mem base n = some r ∧ Kept T base n mem r := by
  unfold quLoop
  split_ifs with hn
  · exact ⟨_, rfl, .of_le_one hn⟩
  · obtain ⟨r, hr, hkeep, hpos⟩ := Loop.run_total (Keeping T base n mem) (fun s => n - s.i)
      (fun s hs => quBody_keeping hcmp hsorted hs) (keeping_start (Nat.le_of_not_le hn))
      (Nat.sub_lt (Nat.lt_of_not_le hn).pos Nat.one_pos)
    have hsize : r.size - 1 + 1 = r.size := Nat.sub_add_cancel hpos
    refine ⟨r, hr, ?_, hkeep.kept, ?_, hkeep.copies⟩
    · rw [← hsize]
      exact hkeep.length
    · rw [← hsize]
      exact hkeep.unchanged

/-- **Where no element compares equal to the one before it, nothing is copied.** -/
theorem quLoop_of_distinct
    (h : ∀ i, i + 1 < n → T.compare (stView T base mem (i + 1)) (stView T base mem i) ≠ 0) :
    quLoop T mem base n = some ⟨n, mem, []⟩ := by
  unfold quLoop
  split_ifs with hn
  · rfl
  · have hpass : ∀ s : QuState β, (∃ j < n, s = ⟨j + 1, j, mem, []⟩) →
        (quBody T base n s).Meets (fun r => r = ⟨n, mem, []⟩) fun s' =>
          (∃ j < n, s' = ⟨j + 1, j, mem, []⟩) ∧ n - s'.i < n - s.i := by
      rintro s ⟨j, hjn, rfl⟩
      unfold quBody
      split_ifs with hi hne hj
      · exact absurd rfl hj
      · exact ⟨⟨j + 1, hi, rfl⟩, Nat.sub_lt_sub_left hi (Nat.lt_succ_self _)⟩
      · exact absurd (h j hi) hne
      · obtain rfl : j + 1 = n := le_antisymm hjn (Nat.le_of_not_lt hi)
        rfl
    have hpos : 0 < n := (Nat.lt_of_not_le hn).pos
    obtain ⟨r, hr, rfl⟩ := Loop.run_total _ (fun s : QuState β => n - s.i) hpass
      ⟨0, hpos, rfl⟩ (Nat.sub_lt hpos Nat.one_pos)
    exact hr

/-! ## The array afterwards -/

/-- **The array without its duplicates.** -/
structure DuplicatesRemoved (hcmp : TotalPreorder T.compare) (base n : ℕ) (mem : ℕ → β)
    (r : Uniqued β) : Prop where
  /-- As many elements are kept as there are classes of elements that compare equal. -/
  size_eq : r.size = Nat.card (Quotient (classes hcmp (stView T base mem) n))
  /-- They are the first elements of the classes, in order. -/
  kept : (List.range r.size).map (stView T base r.mem) =
    (firsts T.compare (stView T base mem) n).map (stView T base mem)
  /-- Each is less than the next ones. -/
  increasing : ∀ c d, c < d → d < r.size →
    T.compare (stView T base r.mem c) (stView T base r.mem d) < 0
  /-- Every element there was compares equal to exactly one of them. -/
  existsUnique : ∀ i < n, ∃! c, c < r.size ∧
    T.compare (stView T base mem i) (stView T base r.mem c) = 0
  /-- Elements of the array are copied to places of elements before them. -/
  copies : ∀ copy ∈ r.copies, Within T base n copy
  /-- Nothing has changed from the place after the last one on, nor before the array. -/
  unchanged : ∀ x, ¬ (base ≤ x ∧ x < stPtr T base r.size) → r.mem x = mem x

/-- An element kept is the first of a class. -/
theorem Kept.isFirst {r : Uniqued β} (h : Kept T base n mem r) {c : ℕ} (hc : c < r.size) :
    ∃ p, (firsts T.compare (stView T base mem) n)[c]? = some p ∧ p < n ∧
      IsFirst T.compare (stView T base mem) p ∧
      stView T base r.mem c = stView T base mem p := by
  obtain ⟨p, hp⟩ : ∃ p, (firsts T.compare (stView T base mem) n)[c]? = some p :=
    ⟨_, List.getElem?_eq_getElem (h.length ▸ hc)⟩
  obtain ⟨hpn, hfirst⟩ := mem_firsts.mp (List.mem_of_getElem? hp)
  exact ⟨p, hp, hpn, hfirst, h.kept c p hp⟩

/-- The elements kept are in strict order. -/
theorem Kept.lt {r : Uniqued β} (h : Kept T base n mem r) (hcmp : TotalPreorder T.compare)
    (hsorted : SortedOn T.compare (stView T base mem) 0 n) {c d : ℕ} (hcd : c < d)
    (hd : d < r.size) : T.compare (stView T base r.mem c) (stView T base r.mem d) < 0 := by
  obtain ⟨p, hp, -, -, hcp⟩ := h.isFirst (hcd.trans hd)
  obtain ⟨q, hq, hqn, hfirst, hdq⟩ := h.isFirst hd
  have hpq : p < q := by
    obtain ⟨hc', rfl⟩ := List.getElem?_eq_some_iff.mp hp
    obtain ⟨hd', rfl⟩ := List.getElem?_eq_some_iff.mp hq
    exact List.pairwise_iff_getElem.mp (pairwise_firsts _ _ _) c d hc' hd' hcd
  rw [hcp, hdq]
  exact hsorted.lt_of_isFirst hcmp hpq hqn hfirst

/-- **The array has lost its duplicates and nothing else.** -/
theorem Kept.duplicatesRemoved {r : Uniqued β} (h : Kept T base n mem r)
    (hcmp : TotalPreorder T.compare)
    (hsorted : SortedOn T.compare (stView T base mem) 0 n) :
    DuplicatesRemoved hcmp base n mem r where
  size_eq := h.length.symm.trans (length_firsts hcmp _ n)
  kept := by
    refine List.ext_getElem? fun c => ?_
    rw [List.getElem?_map, List.getElem?_map]
    rcases Nat.lt_or_ge c r.size with hc | hc
    · obtain ⟨p, hp, -, -, hcp⟩ := h.isFirst hc
      rw [hp, List.getElem?_range hc, Option.map_some, Option.map_some, hcp]
    · rw [List.getElem?_eq_none (List.length_range.trans_le hc),
        List.getElem?_eq_none (h.length.trans_le hc)]
      rfl
  increasing := fun c d hcd hd => h.lt hcmp hsorted hcd hd
  existsUnique := fun i hi => by
    obtain ⟨p, ⟨hmem, heq⟩, hunique⟩ := existsUnique_firsts hcmp (stView T base mem) hi
    obtain ⟨c, hc⟩ := List.mem_iff_getElem?.mp hmem
    have hcsize : c < r.size := h.length ▸ (List.getElem?_eq_some_iff.mp hc).1
    refine ⟨c, ⟨hcsize, by rw [h.kept c p hc]; exact heq⟩, fun d hd => ?_⟩
    by_contra hne
    -- two elements kept that compare equal to the same one are in no strict order
    have hcd : T.compare (stView T base r.mem c) (stView T base r.mem d) = 0 :=
      hcmp.eq_trans (hcmp.symm (by rw [h.kept c p hc]; exact heq)) hd.2
    rcases Nat.lt_or_gt_of_ne hne with hlt | hgt
    · exact absurd (hcmp.symm hcd) (h.lt hcmp hsorted hlt hcsize).ne
    · exact absurd hcd (h.lt hcmp hsorted hgt hd.1).ne
  copies := h.copies
  unchanged := h.unchanged

/-- **Once more on the elements kept**, the functions keep all of them. -/
theorem DuplicatesRemoved.again {hcmp : TotalPreorder T.compare} {r : Uniqued β}
    (h : DuplicatesRemoved hcmp base n mem r) :
    quLoop T r.mem base r.size = some ⟨r.size, r.mem, []⟩ :=
  quLoop_of_distinct fun i hi heq =>
    absurd (hcmp.symm heq) (h.increasing i (i + 1) (Nat.lt_succ_self i) hi).ne

/-- **`qunique` and `qunique_arg` remove the duplicates of a sorted array**, and do nothing
to an array without duplicates. -/
theorem qunique_removes (mem : ℕ → β) (array elements width : ℕ) :
    (∀ (compare : (Fin width → β) → (Fin width → β) → ℤ) (hcmp : TotalPreorder compare),
      SortedOn compare (stView ⟨width, compare⟩ array mem) 0 elements →
      ∃ r, qunique mem array elements width compare = some r ∧
        DuplicatesRemoved (T := ⟨width, compare⟩) hcmp array elements mem r ∧
        qunique r.mem array r.size width compare = some ⟨r.size, r.mem, []⟩) ∧
    ∀ (compare : (Fin width → β) → (Fin width → β) → Arg → ℤ) (arg : Arg)
      (hcmp : TotalPreorder fun a b => compare a b arg),
      SortedOn (fun a b => compare a b arg)
        (stView ⟨width, fun a b => compare a b arg⟩ array mem) 0 elements →
      ∃ r, quniqueArg mem array elements width compare arg = some r ∧
        DuplicatesRemoved (T := ⟨width, fun a b => compare a b arg⟩) hcmp array elements
          mem r ∧
        quniqueArg r.mem array r.size width compare arg = some ⟨r.size, r.mem, []⟩ := by
  refine ⟨fun compare hcmp hsorted => ?_, fun compare arg hcmp hsorted => ?_⟩
  · obtain ⟨r, hr, hkept⟩ := quLoop_kept (T := ⟨width, compare⟩) hcmp hsorted
    have hremoved := hkept.duplicatesRemoved hcmp hsorted
    exact ⟨r, hr, hremoved, hremoved.again⟩
  · obtain ⟨r, hr, hkept⟩ :=
      quLoop_kept (T := ⟨width, fun a b => compare a b arg⟩) hcmp hsorted
    have hremoved := hkept.duplicatesRemoved hcmp hsorted
    exact ⟨r, hr, hremoved, hremoved.again⟩

/-- Four elements of two bytes, of which two compare equal to the one before them. -/
theorem qunique_removes_pairs :
    ∃ r, qunique (fun x => ((x / 4 : ℕ) : ℤ)) 0 4 2 (fun a b => a 0 - b 0) = some r ∧
      (∀ c d, c < d → d < r.size → r.mem (0 + c * 2) - r.mem (0 + d * 2) < 0) ∧
      qunique r.mem 0 r.size 2 (fun a b => a 0 - b 0) = some ⟨r.size, r.mem, []⟩ := by
  have hcmp : TotalPreorder fun a b : Fin 2 → ℤ => a 0 - b 0 :=
    ⟨fun a b => by omega, fun a b c h₁ h₂ => by omega⟩
  have hsorted : SortedOn (fun a b : Fin 2 → ℤ => a 0 - b 0)
      (stView ⟨2, fun a b => a 0 - b 0⟩ 0 fun x => ((x / 4 : ℕ) : ℤ)) 0 4 := fun i _ _ => by
    show ((((0 + i * 2 + 0) / 4 : ℕ) : ℤ) - (((0 + (i + 1) * 2 + 0) / 4 : ℕ) : ℤ)) ≤ 0
    omega
  obtain ⟨r, hr, hremoved, hagain⟩ :=
    (@qunique_removes ℤ Unit (fun x => ((x / 4 : ℕ) : ℤ)) 0 4 2).1 _ hcmp hsorted
  exact ⟨r, hr, hremoved.increasing, hagain⟩

end Qunique
