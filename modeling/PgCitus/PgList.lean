import Mathlib.Data.Int.Order.Basic
import Mathlib.Data.Nat.Find
import Mathlib.Data.Nat.Init
import PgCitus.Library.Loop

/-!
# Lists, and looping through them

The `foreach` loop of `nodes/pg_list.h`, with a body that may delete the current element
and append others.

A list has a header, which stays where it is as long as the list is not empty, and an
array of cells, which may move; an empty list is `NIL` and has no header. The loop keeps
a pointer to the header and an index, no pointer to a cell, so that its cells may move
under it. `foreach_delete_current` sets both anew. Appending sets neither: to a list that
is there it does not matter, but what is appended to `NIL` gets a new header, of which
the loop does not know (`foreach_visits_all_iff`).

The functions that append and delete are not in the header file, and are parameters
(`ListFunctions`), with what is documented of them (`ListFunctions.Documented`).
-/

namespace PgList

variable {M α : Type*}

/-- A pointer to the header of a list, `none` for `NIL`. -/
abbrev ListPtr := Option ℕ

/-- **The functions of `list.c`** that a body uses, on a memory `M` with lists in it. -/
structure ListFunctions (M α : Type*) where
  /-- The elements of a list. -/
  elements : M → ListPtr → List α
  lappend : M → ListPtr → α → M × ListPtr
  /-- `list_delete_cell`, of the cell with the index `n`. -/
  listDeleteCell : M → ListPtr → ℕ → M × ListPtr

/-- **What they are documented to do**, for lists that are valid. -/
structure ListFunctions.Documented (F : ListFunctions M α) (Valid : M → ListPtr → Prop) :
    Prop where
  /-- The only valid representation of an empty list is `NIL`. -/
  elements_eq_nil_iff : ∀ {m lst}, Valid m lst → (F.elements m lst = [] ↔ lst = none)
  lappend_valid : ∀ {m lst}, Valid m lst → ∀ x, Valid (F.lappend m lst x).1 (F.lappend m lst x).2
  lappend_elements : ∀ {m lst}, Valid m lst → ∀ x,
    F.elements (F.lappend m lst x).1 (F.lappend m lst x).2 = F.elements m lst ++ [x]
  /-- The header is not relocated as long as the list remains non-empty. -/
  lappend_header : ∀ {m lst}, Valid m lst → ∀ x, lst ≠ none → (F.lappend m lst x).2 = lst
  delete_valid : ∀ {m lst}, Valid m lst → ∀ n < (F.elements m lst).length,
    Valid (F.listDeleteCell m lst n).1 (F.listDeleteCell m lst n).2
  delete_elements : ∀ {m lst}, Valid m lst → ∀ n < (F.elements m lst).length,
    F.elements (F.listDeleteCell m lst n).1 (F.listDeleteCell m lst n).2 =
      (F.elements m lst).eraseIdx n

/-! ## The loop -/

/-- `ForEachState`. -/
structure ForEachState where
  l : ListPtr
  i : ℤ
deriving DecidableEq, Repr

/-- What the body does at an element: elements it appends, whether it deletes the current
one, and elements it appends after that. -/
structure Act (α : Type*) where
  before : List α
  delete : Bool
  after : List α

/-- Everything it appends. -/
def Act.appended (act : Act α) : List α := act.before ++ act.after

/-- The variables of a loop: memory, the list, the state of the loop, and the elements
visited so far. -/
structure Looping (M α : Type*) where
  mem : M
  lst : ListPtr
  state : ForEachState
  visited : List α

section Functions

variable (F : ListFunctions M α)

/-- `lst = lappend(lst, x)`, for each of `xs`. -/
def lappendAll (m : M) (lst : ListPtr) : List α → M × ListPtr
  | [] => (m, lst)
  | x :: xs => lappendAll (F.lappend m lst x).1 (F.lappend m lst x).2 xs

/-- `lst = foreach_delete_current(lst, cell)`. A body that has appended looks its cell up
again, so that `cell` is the cell with the current index. -/
def foreachDeleteCurrent (s : Looping M α) : Looping M α :=
  let (m, lst) := F.listDeleteCell s.mem s.lst s.state.i.toNat
  { s with mem := m, lst := lst, state := ⟨lst, s.state.i - 1⟩ }

/-- The body. -/
def Act.run (act : Act α) (s : Looping M α) : Looping M α :=
  let (m, lst) := lappendAll F s.mem s.lst act.before
  let s := { s with mem := m, lst := lst }
  let s := if act.delete then foreachDeleteCurrent F s else s
  let (m, lst) := lappendAll F s.mem s.lst act.after
  { s with mem := m, lst := lst }

/-- A round of `foreach`: the head of the loop, the body, and `i++`. What the body does
is written down in advance, for the first element visited, the second one and so on. -/
def foreachBody (script : ℕ → Act α) (s : Looping M α) :
    Loop.Step (Looping M α) (M × ListPtr × List α) :=
  if s.state.l ≠ none ∧ s.state.i < (F.elements s.mem s.state.l).length then
    match (F.elements s.mem s.state.l)[s.state.i.toNat]? with
    | none => .stuck
    | some x =>
      let s' := (script s.visited.length).run F s
      .next { s' with state := ⟨s'.state.l, s'.state.i + 1⟩, visited := s.visited ++ [x] }
  else .done (s.mem, s.lst, s.visited)

/-- `foreach(cell, lst)`: memory and the list afterwards, and the elements visited. -/
def foreach (script : ℕ → Act α) (fuel : ℕ) (m : M) (lst : ListPtr) :
    Option (M × ListPtr × List α) :=
  Loop.run (foreachBody F script) fuel ⟨m, lst, ⟨lst, 0⟩, []⟩

end Functions

/-! ## Appending -/

variable {F : ListFunctions M α} {Valid : M → ListPtr → Prop} {m : M} {lst : ListPtr}
  {script : ℕ → Act α}

/-- **Appending**: the header of a list that is there stays. -/
theorem lappendAll_spec (hF : F.Documented Valid) (xs : List α) :
    ∀ {m : M} {lst : ListPtr}, Valid m lst →
      Valid (lappendAll F m lst xs).1 (lappendAll F m lst xs).2 ∧
      F.elements (lappendAll F m lst xs).1 (lappendAll F m lst xs).2 = F.elements m lst ++ xs ∧
      (lst ≠ none → (lappendAll F m lst xs).2 = lst) := by
  induction xs with
  | nil => exact fun h => ⟨h, (List.append_nil _).symm, fun _ => rfl⟩
  | cons x xs ih =>
    intro m lst h
    have hptr := hF.lappend_header h x
    obtain ⟨hvalid', helems', hptr'⟩ := ih (hF.lappend_valid h x)
    refine ⟨hvalid', ?_, fun hne => ?_⟩
    · show F.elements (lappendAll F _ _ xs).1 (lappendAll F _ _ xs).2 = _
      rw [helems', hF.lappend_elements h x, List.append_assoc]
      rfl
    · show (lappendAll F _ _ xs).2 = lst
      rw [hptr' (by rw [hptr hne]; exact hne), hptr hne]

/-! ## One pass -/

/-- A body that keeps the current element only appends. -/
theorem Act.run_keep (hF : F.Documented Valid) {act : Act α} {s : Looping M α}
    (hd : act.delete = false) (hvalid : Valid s.mem s.lst) (hne : s.lst ≠ none) :
    Valid (act.run F s).mem (act.run F s).lst ∧
      F.elements (act.run F s).mem (act.run F s).lst = F.elements s.mem s.lst ++ act.appended ∧
      (act.run F s).lst = s.lst ∧ (act.run F s).state = s.state := by
  obtain ⟨hvalid₁, helems₁, hptr₁⟩ := lappendAll_spec hF act.before hvalid
  obtain ⟨hvalid₂, helems₂, hptr₂⟩ := lappendAll_spec hF act.after hvalid₁
  have hrun : act.run F s = { s with
      mem := (lappendAll F (lappendAll F s.mem s.lst act.before).1
        (lappendAll F s.mem s.lst act.before).2 act.after).1
      lst := (lappendAll F (lappendAll F s.mem s.lst act.before).1
        (lappendAll F s.mem s.lst act.before).2 act.after).2 } := by
    unfold Act.run
    rw [hd]
    rfl
  rw [hrun]
  refine ⟨hvalid₂, ?_, ?_, rfl⟩
  · show F.elements _ _ = _
    rw [helems₂, helems₁, List.append_assoc]
    rfl
  · show (lappendAll F _ _ act.after).2 = s.lst
    rw [hptr₂ (by rw [hptr₁ hne]; exact hne), hptr₁ hne]

/-- **A body that deletes the current element** leaves the others and appends. The loop
keeps the pointer to the list, unless the list was empty in between. -/
theorem Act.run_delete (hF : F.Documented Valid) {act : Act α} {s : Looping M α}
    (hd : act.delete = true) (hvalid : Valid s.mem s.lst) {ks rest : List α} {x : α}
    (helems : F.elements s.mem s.lst = ks ++ x :: rest) (hi : s.state.i = ks.length) :
    Valid (act.run F s).mem (act.run F s).lst ∧
      F.elements (act.run F s).mem (act.run F s).lst = ks ++ rest ++ act.appended ∧
      (act.run F s).state.i = ks.length - 1 ∧
      (ks ++ rest ++ act.before ≠ [] ∨ act.after = [] → (act.run F s).state.l = (act.run F s).lst) ∧
      (ks ++ rest ++ act.before = [] → (act.run F s).state.l = none) := by
  obtain ⟨hvalid₁, helems₁, _⟩ := lappendAll_spec hF act.before hvalid
  generalize hm : lappendAll F s.mem s.lst act.before = r at hvalid₁ helems₁
  obtain ⟨m₁, lst₁⟩ := r
  rw [helems, List.append_assoc, List.cons_append] at helems₁
  have hn : ks.length < (F.elements m₁ lst₁).length := by
    rw [helems₁, List.length_append, List.length_cons]
    omega
  have hvalid₂ := hF.delete_valid hvalid₁ _ hn
  have helems₂ := hF.delete_elements hvalid₁ _ hn
  have herase : (F.elements m₁ lst₁).eraseIdx ks.length = ks ++ rest ++ act.before := by
    rw [helems₁, List.eraseIdx_append_of_length_le (Nat.le_refl _), Nat.sub_self,
      List.eraseIdx_cons_zero, List.append_assoc]
  rw [herase] at helems₂
  generalize hdel : F.listDeleteCell m₁ lst₁ ks.length = r at hvalid₂ helems₂
  obtain ⟨m₂, lst₂⟩ := r
  obtain ⟨hvalid₃, helems₃, hptr₃⟩ := lappendAll_spec hF act.after hvalid₂
  have hrun : act.run F s = { s with
      mem := (lappendAll F m₂ lst₂ act.after).1
      lst := (lappendAll F m₂ lst₂ act.after).2
      state := ⟨lst₂, ks.length - 1⟩ } := by
    unfold Act.run foreachDeleteCurrent
    simp only [hd, hm, hi, Int.toNat_natCast, hdel, if_true]
  have hnil := hF.elements_eq_nil_iff hvalid₂
  rw [helems₂] at hnil
  rw [hrun]
  refine ⟨hvalid₃, ?_, rfl, fun h => ?_, fun h => hnil.mp h⟩
  · show F.elements _ _ = _
    rw [helems₃, helems₂, List.append_assoc]
    rfl
  · show lst₂ = (lappendAll F m₂ lst₂ act.after).2
    rcases h with hne | hafter
    · exact (hptr₃ fun h => hne (hnil.mpr h)).symm
    · rw [hafter]
      rfl

/-! ## A run -/

/-- What the passes before the `k`-th one append. -/
def appended (script : ℕ → Act α) : ℕ → List α
  | 0 => []
  | k + 1 => appended script k ++ (script k).appended

/-- Of elements visited from the `k`-th pass on, those that were not deleted. -/
def kept (script : ℕ → Act α) : ℕ → List α → List α
  | _, [] => []
  | k, x :: xs => if (script k).delete then kept script (k + 1) xs
    else x :: kept script (k + 1) xs

theorem kept_concat (xs : List α) (x : α) (k : ℕ) :
    kept script k (xs ++ [x])
      = kept script k xs ++ if (script (k + xs.length)).delete then [] else [x] := by
  induction xs generalizing k with
  | nil => rfl
  | cons y ys ih =>
    show (if (script k).delete then kept script (k + 1) (ys ++ [x])
      else y :: kept script (k + 1) (ys ++ [x])) = (if (script k).delete then kept script (k + 1) ys
      else y :: kept script (k + 1) ys) ++ _
    rw [ih, List.length_cons, show k + 1 + ys.length = k + (ys.length + 1) by omega]
    split
    · rfl
    · rfl

/-- Nothing is kept only where everything is deleted. -/
theorem kept_eq_nil_iff (xs : List α) (k : ℕ) :
    kept script k xs = [] ↔ ∀ j < xs.length, (script (k + j)).delete = true := by
  induction xs generalizing k with
  | nil => exact ⟨fun _ j hj => absurd hj (Nat.not_lt_zero j), fun _ => rfl⟩
  | cons x xs ih =>
    have hshift : (∀ j < xs.length, (script (k + 1 + j)).delete = true) ↔
        ∀ j < xs.length, (script (k + (j + 1))).delete = true :=
      forall₂_congr fun j _ => by rw [Nat.add_assoc, Nat.add_comm 1 j]
    cases hd : (script k).delete with
    | true =>
      rw [kept, if_pos hd, ih, hshift]
      refine ⟨fun h j hj => ?_, fun h j hj => h (j + 1) (Nat.succ_lt_succ hj)⟩
      cases j with
      | zero => exact hd
      | succ j => exact h j (Nat.lt_of_succ_lt_succ hj)
    | false =>
      rw [kept, if_neg (by rw [hd]; exact Bool.false_ne_true)]
      refine ⟨fun h => absurd h (List.cons_ne_nil _ _), fun h => ?_⟩
      exact absurd (hd.symm.trans (h 0 (Nat.succ_pos _))) Bool.false_ne_true

/-- **The loop has come to its `k`-th pass**, with the elements `pending` to come: those
visited and those to come are the ones there were and the ones appended, in order, and
the list consists of the visited ones that were not deleted and the ones to come. -/
structure At (F : ListFunctions M α) (Valid : M → ListPtr → Prop) (script : ℕ → Act α)
    (xs : List α) (k : ℕ) (pending : List α) (s : Looping M α) : Prop where
  length : s.visited.length = k
  order : s.visited ++ pending = xs ++ appended script k
  elems : F.elements s.mem s.lst = kept script 0 s.visited ++ pending
  valid : Valid s.mem s.lst
  pointer : s.state.l = s.lst
  index : s.state.i = (kept script 0 s.visited).length

/-- There are elements to come as long as the loop is not through with all there are. -/
theorem At.pending_length {xs : List α} {k : ℕ} {pending : List α} {s : Looping M α}
    (h : At F Valid script xs k pending s) :
    k + pending.length = (xs ++ appended script k).length := by
  rw [← h.order, List.length_append, h.length]

/-- **A pass deletes the last element there is and appends after that.** -/
def EmptiesAndAppends (script : ℕ → Act α) (xs : List α) (k : ℕ) : Prop :=
  (∀ j ≤ k, (script j).delete = true) ∧ (xs ++ appended script k).length = k + 1 ∧
    (script k).before = [] ∧ (script k).after ≠ []

/-- The head of the loop finds the first of the elements to come. -/
theorem At.next (hF : F.Documented Valid) {xs : List α} {k : ℕ} {x : α} {rest : List α}
    {s : Looping M α} (h : At F Valid script xs k (x :: rest) s) :
    foreachBody F script s = .next { (script k).run F s with
      state := ⟨((script k).run F s).state.l, ((script k).run F s).state.i + 1⟩
      visited := s.visited ++ [x] } := by
  have hlen : (F.elements s.mem s.lst).length
      = (kept script 0 s.visited).length + (rest.length + 1) := by
    rw [h.elems, List.length_append, List.length_cons]
  have hne : s.lst ≠ none := fun hnil => by
    rw [(hF.elements_eq_nil_iff h.valid).mpr hnil, List.length_nil] at hlen
    omega
  have hget : (F.elements s.mem s.lst)[(kept script 0 s.visited).length]? = some x := by
    rw [h.elems, List.getElem?_append_right (Nat.le_refl _), Nat.sub_self]
    rfl
  unfold foreachBody
  rw [h.pointer, h.index, if_pos ⟨hne, by omega⟩, Int.toNat_natCast, hget, h.length]

/-- At the end, it leaves. -/
theorem At.stop {xs : List α} {k : ℕ} {s : Looping M α} (h : At F Valid script xs k [] s) :
    foreachBody F script s = .done (s.mem, s.lst, s.visited) := by
  refine if_neg fun hgo => ?_
  rw [h.pointer, h.elems, h.index, List.append_nil] at hgo
  exact lt_irrefl _ hgo.2

/-- **A pass.** Unless it empties the list and appends after that, the loop comes to the
next one. -/
theorem At.step (hF : F.Documented Valid) {xs : List α} {k : ℕ} {x : α} {rest : List α}
    {s : Looping M α} (h : At F Valid script xs k (x :: rest) s)
    (hno : ¬ EmptiesAndAppends script xs k) :
    ∃ s', foreachBody F script s = .next s' ∧
      At F Valid script xs (k + 1) (rest ++ (script k).appended) s' := by
  refine ⟨_, h.next hF, ?_⟩
  have hlength : (s.visited ++ [x]).length = k + 1 := by
    rw [List.length_append, h.length]
    rfl
  have horder : s.visited ++ [x] ++ (rest ++ (script k).appended)
      = xs ++ appended script (k + 1) := by
    rw [appended, ← List.append_assoc xs, ← h.order]
    simp
  have hkept : kept script 0 (s.visited ++ [x])
      = kept script 0 s.visited ++ if (script k).delete then [] else [x] := by
    rw [kept_concat, Nat.zero_add, h.length]
  cases hd : (script k).delete with
  | true =>
    obtain ⟨hvalid, helems, hi, hptr, _⟩ := Act.run_delete hF hd h.valid h.elems h.index
    rw [hd, if_pos rfl, List.append_nil] at hkept
    have hsafe : kept script 0 s.visited ++ rest ++ (script k).before ≠ [] ∨
        (script k).after = [] := by
      by_contra hboth
      obtain ⟨hnil, hafter⟩ := not_or.mp hboth
      obtain ⟨hnil, hbefore⟩ := List.append_eq_nil_iff.mp (not_not.mp hnil)
      obtain ⟨hnone, hrest⟩ := List.append_eq_nil_iff.mp hnil
      refine hno ⟨fun j hj => ?_, ?_, hbefore, hafter⟩
      · rcases Nat.lt_or_eq_of_le hj with hlt | rfl
        · have hall := (kept_eq_nil_iff s.visited 0).mp hnone j (h.length.symm ▸ hlt)
          rwa [Nat.zero_add] at hall
        · exact hd
      · rw [← h.pending_length, hrest]
        rfl
    refine ⟨hlength, horder, ?_, hvalid, hptr hsafe, ?_⟩
    · rw [show F.elements _ _ = _ from helems, hkept, List.append_assoc]
    · show ((script k).run F s).state.i + 1 = _
      rw [hi, hkept, Int.sub_add_cancel]
  | false =>
    have hne : s.lst ≠ none := fun hnil => by
      have hel := h.elems
      rw [(hF.elements_eq_nil_iff h.valid).mpr hnil] at hel
      exact absurd hel.symm (List.append_ne_nil_of_right_ne_nil _ (List.cons_ne_nil x rest))
    obtain ⟨hvalid, helems, hlst, hstate⟩ := Act.run_keep hF hd h.valid hne
    rw [hd, if_neg Bool.false_ne_true] at hkept
    refine ⟨hlength, horder, ?_, hvalid, ?_, ?_⟩
    · rw [show F.elements _ _ = _ from helems, h.elems, hkept]
      simp
    · show ((script k).run F s).state.l = ((script k).run F s).lst
      rw [hstate, hlst, h.pointer]
    · show ((script k).run F s).state.i + 1 = _
      rw [hstate, h.index, hkept, List.length_append]
      rfl

/-- **The pass that does so is the last one**, and leaves what it has appended. -/
theorem At.lost (hF : F.Documented Valid) {xs : List α} {k : ℕ} {pending : List α} {s : Looping M α}
    (h : At F Valid script xs k pending s) (hlost : EmptiesAndAppends script xs k) :
    ∃ m lst visited, Loop.Ends (foreachBody F script) s (m, lst, visited) ∧
      visited.length = k + 1 := by
  obtain ⟨hdel, hlen, hbefore, hafter⟩ := hlost
  obtain ⟨x, rfl⟩ := List.length_eq_one_iff.mp
    (Nat.add_left_cancel (h.pending_length.trans hlen))
  have hnone : kept script 0 s.visited = [] := by
    refine (kept_eq_nil_iff s.visited 0).mpr fun j hj => ?_
    rw [Nat.zero_add]
    exact hdel j (h.length ▸ Nat.le_of_lt hj)
  obtain ⟨_, _, _, _, hnil⟩ := Act.run_delete hF (hdel k (Nat.le_refl k)) h.valid h.elems h.index
  have hl : ((script k).run F s).state.l = none := hnil (by rw [hnone, hbefore]; rfl)
  refine ⟨_, _, _, .next (h.next hF) (.done (if_neg fun hgo => hgo.1 hl)), ?_⟩
  rw [List.length_append, h.length]
  rfl

/-! ## The whole loop -/

/-- The loop comes to its `k`-th pass: before it there is always an element to come. -/
def ComesTo (script : ℕ → Act α) (xs : List α) (k : ℕ) : Prop :=
  ∀ j ≤ k, j < (xs ++ appended script j).length

/-- **What is promised**: the loop ends, has visited every element there was and every
one appended, once and in order, and leaves those it has not deleted, in order. -/
def VisitsAll (F : ListFunctions M α) (script : ℕ → Act α) (m : M) (lst : ListPtr) : Prop :=
  ∃ n m' lst' visited, (∃ fuel, foreach F script fuel m lst = some (m', lst', visited)) ∧
    visited = F.elements m lst ++ appended script n ∧ visited.length = n ∧
    F.elements m' lst' = kept script 0 visited

theorem reached_at (hF : F.Documented Valid) (hvalid : Valid m lst) {k : ℕ}
    (h : ∀ j < k, j < (F.elements m lst ++ appended script j).length ∧
      ¬ EmptiesAndAppends script (F.elements m lst) j) :
    ∃ pending s, Loop.Reached (foreachBody F script) ⟨m, lst, ⟨lst, 0⟩, []⟩ s ∧
      At F Valid script (F.elements m lst) k pending s := by
  induction k with
  | zero =>
    refine ⟨F.elements m lst, _, .start, rfl, ?_, rfl, hvalid, rfl, rfl⟩
    exact (List.append_nil (F.elements m lst)).symm
  | succ k ih =>
    obtain ⟨pending, s, hreached, hat⟩ := ih fun j hj => h j (Nat.lt_succ_of_lt hj)
    obtain ⟨hlt, hno⟩ := h k (Nat.lt_succ_self k)
    match pending, hat with
    | [], hat =>
      have hlen := hat.pending_length
      rw [List.length_nil] at hlen
      omega
    | x :: rest, hat =>
      obtain ⟨s', hs', hat'⟩ := hat.step hF hno
      exact ⟨_, s', .pass hreached hs', hat'⟩

/-- After the last pass that appends, nothing is appended. -/
theorem appended_of_le {N : ℕ} (hfin : ∀ k, N ≤ k → (script k).appended = []) {k : ℕ}
    (hk : N ≤ k) : appended script k = appended script N := by
  induction k, hk using Nat.le_induction with
  | base => rfl
  | succ k hk ih => rw [appended, hfin k hk, ih, List.append_nil]

/-- **When a loop visits everything.** For every list and every choice of what the body
does, with finitely many elements appended in total: the loop ends, visits every element
there was and every one appended, once and in order, and leaves those not deleted, if and
only if no pass that it comes to deletes the last element there is and appends others
after that. -/
theorem foreach_visits_all_iff (hF : F.Documented Valid) (hvalid : Valid m lst)
    (hfin : ∃ N, ∀ k, N ≤ k → (script k).appended = []) :
    VisitsAll F script m lst ↔ ∀ k, ComesTo script (F.elements m lst) k →
      ¬ EmptiesAndAppends script (F.elements m lst) k := by
  classical
  constructor
  · rintro ⟨n, m', lst', visited, hrun, horder, hlen, _⟩ k hcomes hlost
    -- the first such pass is the one the loop really comes to
    have hex : ∃ k, ComesTo script (F.elements m lst) k ∧
        EmptiesAndAppends script (F.elements m lst) k := ⟨k, hcomes, hlost⟩
    obtain ⟨hcomes, hlost⟩ := Nat.find_spec hex
    generalize hk : Nat.find hex = k at hcomes hlost
    obtain ⟨pending, s, hreached, hat⟩ := reached_at hF hvalid (k := k) fun j hj =>
      ⟨hcomes j (Nat.le_of_lt hj), fun h => Nat.find_min hex (hk.symm ▸ hj)
        ⟨fun i hi => hcomes i (Nat.le_trans hi (Nat.le_of_lt hj)), h⟩⟩
    obtain ⟨m₁, lst₁, visited₁, hends, hlen₁⟩ := hat.lost hF hlost
    have hsame := (Loop.ends_iff.mpr hrun).unique (hreached.ends hends)
    have hvis : visited = visited₁ := congrArg (fun r => r.2.2) hsame
    subst hvis
    have hn : n = k + 1 := hlen.symm.trans hlen₁
    subst hn
    obtain ⟨_, hcount, hbefore, hafter⟩ := hlost
    have hall := congrArg List.length horder
    rw [hlen, appended, ← List.append_assoc, List.length_append, hcount, Act.appended, hbefore,
      List.nil_append] at hall
    exact hafter (List.eq_nil_of_length_eq_zero (by omega))
  · intro h
    obtain ⟨N, hfin⟩ := hfin
    have hex : ∃ n, ¬ n < (F.elements m lst ++ appended script n).length := by
      refine ⟨N + (F.elements m lst ++ appended script N).length, fun hlt => ?_⟩
      rw [appended_of_le hfin (Nat.le_add_right _ _)] at hlt
      omega
    have hstop := Nat.find_spec hex
    generalize hn : Nat.find hex = n at hstop
    have hbefore : ∀ j < n, j < (F.elements m lst ++ appended script j).length := fun j hj =>
      not_not.mp (Nat.find_min hex (hn.symm ▸ hj))
    obtain ⟨pending, s, hreached, hat⟩ := reached_at hF hvalid (k := n) fun j hj =>
      ⟨hbefore j hj, h j fun i hi => hbefore i (Nat.lt_of_le_of_lt hi hj)⟩
    have hnil : pending = [] := by
      have hlen := hat.pending_length
      exact List.eq_nil_of_length_eq_zero (by omega)
    subst hnil
    have horder := hat.order
    have helems := hat.elems
    rw [List.append_nil] at horder helems
    exact ⟨n, s.mem, s.lst, s.visited,
      Loop.ends_iff.mp (hreached.ends (.done hat.stop)), horder, hat.length, helems⟩

/-! ## Lists in an array -/

/-- Lists in memory, by the address of their header. -/
abbrev Mem (α : Type*) := List (List α)

/-- **An implementation** that keeps the header of a list as long as it is not empty. -/
def arrayLists : ListFunctions (Mem α) α where
  elements m lst := match lst with
    | none => []
    | some k => m.getD k []
  lappend m lst x := match lst with
    | none => (m ++ [[x]], some m.length)
    | some k => (m.set k (m.getD k [] ++ [x]), some k)
  listDeleteCell m lst n := match lst with
    | none => (m, none)
    | some k =>
      if (m.getD k []).length = 1 then (m.set k [], none)
      else (m.set k ((m.getD k []).eraseIdx n), some k)

/-- A pointer is `NIL`, or it points to a list, which is not empty. -/
def InArray (m : Mem α) (lst : ListPtr) : Prop :=
  ∀ k, lst = some k → k < m.length ∧ m.getD k [] ≠ []

theorem getD_set_self {m : Mem α} {k : ℕ} (hk : k < m.length) (xs : List α) :
    (m.set k xs).getD k [] = xs := by
  rw [List.getD_eq_getElem?_getD, List.getElem?_set_self hk]
  rfl

theorem getD_append_self (m : Mem α) (xs : List α) : (m ++ [xs]).getD m.length [] = xs := by
  rw [List.getD_eq_getElem?_getD, List.getElem?_append_right (Nat.le_refl _), Nat.sub_self]
  rfl

theorem inArray_set {m : Mem α} {k : ℕ} (hk : k < m.length) {xs : List α} (hxs : xs ≠ []) :
    InArray (m.set k xs) (some k) := by
  intro k' hk'
  obtain rfl : k = k' := Option.some.inj hk'
  rw [getD_set_self hk, List.length_set]
  exact ⟨hk, hxs⟩

/-- It does what is documented. -/
theorem arrayLists_documented :
    (arrayLists : ListFunctions (Mem α) α).Documented InArray where
  elements_eq_nil_iff {m lst} h := by
    cases lst with
    | none => exact ⟨fun _ => rfl, fun _ => rfl⟩
    | some k => exact ⟨fun he => absurd he (h k rfl).2, fun he => nomatch he⟩
  lappend_valid {m lst} h x := by
    cases lst with
    | none =>
      intro k hk
      obtain rfl : m.length = k := Option.some.inj hk
      show m.length < (m ++ [[x]]).length ∧ (m ++ [[x]]).getD m.length [] ≠ []
      rw [getD_append_self, List.length_append]
      exact ⟨Nat.lt_succ_self _, List.cons_ne_nil x []⟩
    | some k =>
      exact inArray_set (h k rfl).1 (List.append_ne_nil_of_right_ne_nil _ (List.cons_ne_nil x []))
  lappend_elements {m lst} h x := by
    cases lst with
    | none => exact getD_append_self m [x]
    | some k => exact getD_set_self (h k rfl).1 _
  lappend_header {m lst} h x hne := by
    cases lst with
    | none => exact absurd rfl hne
    | some k => rfl
  delete_valid {m lst} h n hn := by
    cases lst with
    | none => exact absurd hn (Nat.not_lt_zero n)
    | some k =>
      change n < (m.getD k []).length at hn
      by_cases hone : (m.getD k []).length = 1
      · rw [show arrayLists.listDeleteCell m (some k) n = (m.set k [], none) from if_pos hone]
        exact fun k' hk' => nomatch hk'
      · rw [show arrayLists.listDeleteCell m (some k) n
          = (m.set k ((m.getD k []).eraseIdx n), some k) from if_neg hone]
        refine inArray_set (h k rfl).1 fun hnil => hone ?_
        have hlen := List.length_eraseIdx_of_lt hn
        rw [hnil, List.length_nil] at hlen
        omega
  delete_elements {m lst} h n hn := by
    cases lst with
    | none => exact absurd hn (Nat.not_lt_zero n)
    | some k =>
      change n < (m.getD k []).length at hn
      by_cases hone : (m.getD k []).length = 1
      · rw [show arrayLists.listDeleteCell m (some k) n = (m.set k [], none) from if_pos hone]
        show [] = (m.getD k []).eraseIdx n
        exact (List.eq_nil_of_length_eq_zero (by rw [List.length_eraseIdx_of_lt hn, hone])).symm
      · rw [show arrayLists.listDeleteCell m (some k) n
          = (m.set k ((m.getD k []).eraseIdx n), some k) from if_neg hone]
        exact getD_set_self (h k rfl).1 _

/-- A body that deletes the first element visited and then appends `2`. -/
def deleteThenAppend (k : ℕ) : Act ℕ := if k = 0 then ⟨[], true, [2]⟩ else ⟨[], false, []⟩

/-- With two elements in the list, the condition is met. -/
theorem foreach_visits_all_iff_two :
    VisitsAll arrayLists deleteThenAppend [[5, 7]] (some 0) ↔
      ∀ k, ComesTo deleteThenAppend [5, 7] k → ¬ EmptiesAndAppends deleteThenAppend [5, 7] k := by
  have hvalid : InArray [[5, 7]] (some 0) := fun k hk => by
    rw [← Option.some.inj hk]
    exact ⟨by decide, by decide⟩
  refine foreach_visits_all_iff arrayLists_documented hvalid ⟨1, fun k hk => ?_⟩
  rw [deleteThenAppend, if_neg (by omega)]
  rfl

/-- **An element that is never visited.** The only element of the list is deleted, then
`2` is appended; the loop ends, and leaves the list of `2`. -/
theorem appended_element_not_visited :
    foreach arrayLists deleteThenAppend 2 [[1]] (some 0) = some ([[], [2]], some 1, [1]) ∧
      ¬ VisitsAll arrayLists deleteThenAppend [[1]] (some 0) := by
  have hrun : foreach arrayLists deleteThenAppend 2 [[1]] (some 0)
      = some ([[], [2]], some 1, [1]) := rfl
  refine ⟨hrun, ?_⟩
  rintro ⟨n, m', lst', visited, hends, horder, hlen, _⟩
  have hsame := (Loop.ends_iff.mpr hends).unique (Loop.ends_iff.mpr ⟨2, hrun⟩)
  have hvis : visited = [1] := congrArg (fun r => r.2.2) hsame
  subst hvis
  have hn : n = 1 := hlen.symm
  subst hn
  exact absurd horder (by decide)

end PgList
