import Mathlib.Algebra.BigOperators.Group.List.Basic

/-!
# Positions stored as steps and checkpoints

A sequence of consecutive pieces can be indexed in two ways: by the length of each
piece, which compresses well, or by where each piece ends, which can be read at
random. A mixed index stores for each piece the one or the other. A reader walks it
with a running position, which a length advances and an end replaces.

Whatever the mixture, walking the marks of the first pieces gives where the next one
starts (`walk_take`); and since an end replaces whatever the reader had, the walk may
start at any of them, with anything (`walk_from`). Positions are the elements of any
additive monoid.
-/

namespace Checkpoint

variable {M : Type*}

/-- What an index stores for a piece. -/
inductive Mark (M : Type*) where
  /-- Where the piece ends. -/
  | absolute (m : M)
  /-- How long the piece is. -/
  | relative (m : M)
deriving DecidableEq, Repr

/-- The position after a mark. -/
def Mark.advance [Add M] (o : M) : Mark M → M
  | .absolute m => m
  | .relative m => o + m

/-- The position after a sequence of marks. -/
def walk [Add M] (o : M) (ms : List (Mark M)) : M := ms.foldl Mark.advance o

variable [AddMonoid M]

/-- Where a piece starts: after all the pieces before it. -/
def start (lens : List M) (k : ℕ) : M := (lens.take k).sum

/-- **The mixed index of a sequence of pieces**: for piece `k` its end where
`choose k` says so, its length where not. -/
def marks (choose : ℕ → Bool) (lens : List M) : List (Mark M) :=
  lens.mapIdx fun k len => if choose k then .absolute (start lens (k + 1)) else .relative len

@[simp] theorem length_marks (choose : ℕ → Bool) (lens : List M) :
    (marks choose lens).length = lens.length := List.length_mapIdx

theorem start_succ {lens : List M} {k : ℕ} {len : M} (h : lens[k]? = some len) :
    start lens (k + 1) = start lens k + len := by
  unfold start
  rw [List.take_add_one, h, Option.toList_some, List.sum_append, List.sum_singleton]

theorem getElem?_marks (choose : ℕ → Bool) (lens : List M) (k : ℕ) :
    (marks choose lens)[k]? = lens[k]?.map fun len =>
      if choose k then .absolute (start lens (k + 1)) else .relative len := List.getElem?_mapIdx

/-- One mark more: whichever kind it is, it leads from the start of its piece to the
start of the next. -/
theorem advance_mark (choose : ℕ → Bool) {lens : List M} {k : ℕ} {m : Mark M}
    (h : (marks choose lens)[k]? = some m) : m.advance (start lens k) = start lens (k + 1) := by
  rw [getElem?_marks] at h
  obtain ⟨len, hlen, rfl⟩ := Option.map_eq_some_iff.mp h
  cases choose k with
  | true => rfl
  | false => exact (start_succ hlen).symm

/-- **Walking the marks of the first pieces gives where the next one starts.** -/
theorem walk_take (choose : ℕ → Bool) {lens : List M} {k : ℕ} (hk : k ≤ lens.length) :
    walk 0 ((marks choose lens).take k) = start lens k := by
  induction k with
  | zero => rfl
  | succ k ih =>
    have hlt : k < (marks choose lens).length := by
      rw [length_marks]
      exact hk
    have hget := List.getElem?_eq_getElem hlt
    unfold walk at ih ⊢
    rw [List.take_add_one, hget, Option.toList_some, List.foldl_append,
      ih (Nat.le_of_succ_le hk)]
    exact advance_mark choose hget

/-- **A walk may start at any piece that stores its end**, from any position at all. -/
theorem walk_from (choose : ℕ → Bool) {lens : List M} {j k : ℕ} (hjk : j < k)
    (hk : k ≤ lens.length) (hj : choose j = true) (o : M) :
    walk o (((marks choose lens).take k).drop j) = start lens k := by
  have hlt : j < ((marks choose lens).take k).length := by
    rw [List.length_take, length_marks]
    exact Nat.lt_min.mpr ⟨hjk, Nat.lt_of_lt_of_le hjk hk⟩
  have hget : ((marks choose lens).take k)[j] = .absolute (start lens (j + 1)) := by
    have hlen := List.getElem?_eq_getElem (Nat.lt_of_lt_of_le hjk hk)
    have h := getElem?_marks choose lens j
    rw [hlen, Option.map_some, if_pos hj] at h
    rw [List.getElem_take]
    exact Option.some.inj ((List.getElem?_eq_getElem _).symm.trans h)
  rw [← walk_take choose hk]
  conv_rhs => rw [← List.take_append_drop j ((marks choose lens).take k)]
  unfold walk
  rw [List.foldl_append, List.drop_eq_getElem_cons hlt, List.foldl_cons, List.foldl_cons, hget]
  rfl

end Checkpoint
