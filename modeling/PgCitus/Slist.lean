import PgCitus.Library.LinkChain
import PgCitus.Library.Loop

/-!
# Integrated singly linked lists

The iteration of the `slist` half of `lib/ilist.h` that may delete. A node has a link
forwards only, so a node cannot be deleted without knowing the one before it; the
iterator keeps it along with the node after, and `slist_delete_current` sets the iterator
back, so that after it the next node again has the right one before it.

As for the other lists the model is a heap of nodes, addressed by a type `P`, and a null
pointer is `none`. The header of a list is a node.
-/

namespace Slist

open LinkChain

variable {P : Type*} [DecidableEq P]

/-- The `next` field of every `slist_node`. -/
abbrev SlistHeap (P : Type*) := P → Option P

/-- `slist_mutable_iter`. -/
structure SlistMutableIter (P : Type*) where
  /-- The current element. -/
  cur : Option P
  /-- The next node we'll iterate to. -/
  next : Option P
  /-- The previous node, for deletions. -/
  prev : Option P
  deriving DecidableEq, Repr

/-- `slist_delete_current`: delete the list element the iterator currently points to. -/
def slistDeleteCurrent (m : SlistHeap P) (iter : SlistMutableIter P) :
    Option (SlistHeap P × SlistMutableIter P) :=
  match iter.prev with
  | none => none
  | some prev => some (Function.update m prev iter.next, { iter with cur := iter.prev })

/-- `ptr ? ptr->next : NULL`. -/
def nextOrNull (m : SlistHeap P) (ptr : Option P) : Option P := ptr.bind m

/-- The variables of an iteration, and the nodes it has come by so far. -/
structure Iteration (P : Type*) where
  iter : SlistMutableIter P
  heap : SlistHeap P
  seen : List P

/-- A round of `slist_foreach_modify`, with a statement as its body. -/
def slistForeachModifyBody
    (body : SlistHeap P → SlistMutableIter P → P → Option (SlistHeap P × SlistMutableIter P))
    (s : Iteration P) : Loop.Step (Iteration P) (SlistHeap P × List P) :=
  match s.iter.cur with
  | none => .done (s.heap, s.seen)
  | some cur =>
    match body s.heap s.iter cur with
    | none => .stuck
    | some (m, iter) =>
      .next ⟨⟨iter.next, nextOrNull m iter.next, iter.cur⟩, m, s.seen ++ [cur]⟩

/-- `slist_foreach_modify`: the memory afterwards, and the nodes that were visited. -/
def slistForeachModify (m : SlistHeap P) (head : P)
    (body : SlistHeap P → SlistMutableIter P → P → Option (SlistHeap P × SlistMutableIter P))
    (fuel : ℕ) : Option (SlistHeap P × List P) :=
  let cur := m head
  Loop.run (slistForeachModifyBody body) fuel
    ⟨⟨cur, nextOrNull m cur, some head⟩, m, []⟩

/-- The statement that deletes the nodes with `d`. -/
def deleteThose (d : P → Bool) (m : SlistHeap P) (iter : SlistMutableIter P) (cur : P) :
    Option (SlistHeap P × SlistMutableIter P) :=
  if d cur then slistDeleteCurrent m iter else some (m, iter)

/-- **A list**: from its header, the links lead through its nodes and end there. -/
def IsSlist (m : SlistHeap P) (head : P) (xs : List P) : Prop := Chain m (head :: xs)

/-- **The rest of an iteration.** The iterator is at the first of the nodes to come, `ys`,
and its `prev` is the last node kept. -/
theorem slistForeachModify_run (d : P → Bool) (ys : List P) :
    ∀ (pre seen : List P) {p : P} {m : SlistHeap P} {fuel : ℕ},
      Chain m (pre ++ p :: ys) → ys.length < fuel →
      ∃ m', Loop.run (slistForeachModifyBody (deleteThose d)) fuel
          ⟨⟨ys.head?, nextOrNull m ys.head?, some p⟩, m, seen⟩ = some (m', seen ++ ys) ∧
        Chain m' (pre ++ p :: ys.filter fun v => !d v) ∧
        ∀ v ∉ pre ++ p :: ys, m' v = m v := by
  induction ys with
  | nil =>
    intro pre seen p m fuel hchain hf
    obtain ⟨fuel, rfl⟩ := Nat.exists_eq_succ_of_ne_zero (Nat.ne_of_gt hf)
    exact ⟨m, by rw [List.append_nil]; exact Loop.run_done rfl fuel, hchain, fun v _ => rfl⟩
  | cons y ys ih =>
    intro pre seen p m fuel hchain hf
    obtain ⟨fuel, rfl⟩ := Nat.exists_eq_succ_of_ne_zero (Nat.ne_of_gt (Nat.zero_lt_of_lt hf))
    have hf' : ys.length < fuel := Nat.lt_of_succ_lt_succ hf
    have hy : m y = ys.head? := by
      have h := hchain.linked
      rw [List.append_cons] at h
      exact h.next_eq
    cases hd : d y with
    | true =>
      -- the link of `p` goes to the node after `y`, and `p` stays the one before
      have hunlink := hchain.unlink
      obtain ⟨m', hrun, hchain', hframe⟩ := ih pre (seen ++ [y]) hunlink hf'
      rw [List.append_assoc, List.singleton_append] at hrun
      have hbody : slistForeachModifyBody (deleteThose d)
          ⟨⟨some y, nextOrNull m (some y), some p⟩, m, seen⟩
          = .next ⟨⟨ys.head?, nextOrNull (Function.update m p ys.head?) ys.head?, some p⟩,
            Function.update m p ys.head?, seen ++ [y]⟩ := by
        simp only [slistForeachModifyBody, deleteThose, slistDeleteCurrent, nextOrNull,
          Option.bind_some, hd, hy, if_true]
      refine ⟨m', (Loop.run_next hbody fuel).trans hrun, ?_, fun v hv => ?_⟩
      · rw [List.filter_cons_of_neg (by simp [hd])]
        exact hchain'
      · have hvp : v ≠ p := fun h => hv (by simp [h])
        rw [hframe v fun hmem => hv (by simp at hmem ⊢; tauto), Function.update_of_ne hvp]
    | false =>
      have hsplit : pre ++ p :: y :: ys = (pre ++ [p]) ++ y :: ys := by simp
      rw [hsplit] at hchain
      obtain ⟨m', hrun, hchain', hframe⟩ := ih (pre ++ [p]) (seen ++ [y]) hchain hf'
      rw [List.append_assoc, List.singleton_append] at hrun
      have hbody : slistForeachModifyBody (deleteThose d)
          ⟨⟨some y, nextOrNull m (some y), some p⟩, m, seen⟩
          = .next ⟨⟨ys.head?, nextOrNull m ys.head?, some y⟩, m, seen ++ [y]⟩ := by
        simp only [slistForeachModifyBody, deleteThose, nextOrNull, Option.bind_some, hd, hy]
        rfl
      refine ⟨m', (Loop.run_next hbody fuel).trans hrun, ?_, fun v hv => ?_⟩
      · rw [List.filter_cons_of_pos (by simp [hd])]
        simpa using hchain'
      · exact hframe v (hsplit ▸ hv)

/-- **Deleting while iterating.** Over a list, with a statement that deletes the nodes that
satisfy `d` with `slist_delete_current`, `slist_foreach_modify` ends, has visited every
node that was in the list once and in order, and leaves the list of the others in their
order. No other node is written. -/
theorem slistForeachModify_deletes {m : SlistHeap P} {head : P} {xs : List P}
    (h : IsSlist m head xs) (d : P → Bool) {fuel : ℕ} (hf : xs.length < fuel) :
    ∃ m', slistForeachModify m head (deleteThose d) fuel = some (m', xs) ∧
      IsSlist m' head (xs.filter fun v => !d v) ∧ ∀ v ∉ head :: xs, m' v = m v := by
  obtain ⟨m', hrun, hchain, hframe⟩ := slistForeachModify_run d xs [] [] h hf
  refine ⟨m', ?_, hchain, hframe⟩
  unfold slistForeachModify
  dsimp only
  rw [show m head = xs.head? from h.linked.1]
  exact hrun

/-- Of four nodes the first, the second and the last are deleted. -/
theorem slistForeachModify_deletes_four :
    ∃ m', slistForeachModify (fun v : ℕ => if v < 4 then some (v + 1) else none) 0
        (deleteThose (fun v => v ≠ 3)) 5 = some (m', [1, 2, 3, 4]) ∧ IsSlist m' 0 [3] := by
  have hlist : IsSlist (fun v : ℕ => if v < 4 then some (v + 1) else none) 0 [1, 2, 3, 4] :=
    ⟨by decide, by decide, by decide, by decide, by decide, by decide, trivial⟩
  obtain ⟨m', hrun, hchain, -⟩ :=
    slistForeachModify_deletes hlist (fun v => v ≠ 3) (by decide : 4 < 5)
  exact ⟨m', hrun, hchain⟩

end Slist
