import PgCitus.Library.LinkRing

/-!
# Integrated doubly linked lists

The `dlist` half of `lib/ilist.h`. A node is embedded in whatever structure is to
be in a list, so a list owns no memory: the functions write link fields of nodes
that lie anywhere, and the header of a list is a node itself. The model is a heap
of nodes, addressed by a type `P`; a null pointer is `none`, and a function that
would follow one, or fail an assertion, returns `none`. `dlist_check`, which looks at
a list only where `ILIST_DEBUG` is defined, is left out.

An empty list is either circular, its header pointing at itself both ways, or a
pair of null pointers, which the functions that insert at a header turn into a
circular one first.
-/

namespace Ilist

variable {P : Type*} [DecidableEq P]

/-- `dlist_node`: node of a doubly linked list, also the header of one. -/
structure DlistNode (P : Type*) where
  prev : Option P
  next : Option P
  deriving DecidableEq, Repr

/-- The nodes of the memory, those of all lists and of none. -/
abbrev DlistHeap (P : Type*) := P → DlistNode P

/-- `p->prev = v`. -/
def setPrev (m : DlistHeap P) (p : P) (v : Option P) : DlistHeap P :=
  Function.update m p { m p with prev := v }

/-- `p->next = v`. -/
def setNext (m : DlistHeap P) (p : P) (v : Option P) : DlistHeap P :=
  Function.update m p { m p with next := v }

/-! ## The functions -/

/-- `dlist_init`. Previous state will be thrown away without any cleanup. -/
def dlistInit (m : DlistHeap P) (head : P) : DlistHeap P :=
  setNext (setPrev m head (some head)) head (some head)

/-- `dlist_is_empty`. An empty list has either its first `next` pointer set to
null, or to itself. -/
def dlistIsEmpty (m : DlistHeap P) (head : P) : Bool :=
  (m head).next = none ∨ (m head).next = some head

/-- Convert a null header to a circular one. -/
def dlistCircular (m : DlistHeap P) (head : P) : DlistHeap P :=
  if (m head).next = none then dlistInit m head else m

/-- `dlist_push_head`: insert a node at the beginning of the list. -/
def dlistPushHead (m : DlistHeap P) (head node : P) : Option (DlistHeap P) := do
  let m := dlistCircular m head
  let m := setNext m node (m head).next
  let m := setPrev m node (some head)
  let next ← (m node).next
  let m := setPrev m next (some node)
  return setNext m head (some node)

/-- `dlist_push_tail`: insert a node at the end of the list. -/
def dlistPushTail (m : DlistHeap P) (head node : P) : Option (DlistHeap P) := do
  let m := dlistCircular m head
  let m := setNext m node (some head)
  let m := setPrev m node (m head).prev
  let prev ← (m node).prev
  let m := setNext m prev (some node)
  return setPrev m head (some node)

/-- `dlist_insert_after`: insert a node after another *in the same list*. -/
def dlistInsertAfter (m : DlistHeap P) (after node : P) : Option (DlistHeap P) := do
  let m := setPrev m node (some after)
  let m := setNext m node (m after).next
  let m := setNext m after (some node)
  let next ← (m node).next
  return setPrev m next (some node)

/-- `dlist_insert_before`: insert a node before another *in the same list*. -/
def dlistInsertBefore (m : DlistHeap P) (before node : P) : Option (DlistHeap P) := do
  let m := setPrev m node (m before).prev
  let m := setNext m node (some before)
  let m := setPrev m before (some node)
  let prev ← (m node).prev
  return setNext m prev (some node)

/-- `dlist_delete`: delete a node from its list (it must be in one). -/
def dlistDelete (m : DlistHeap P) (node : P) : Option (DlistHeap P) := do
  let prev ← (m node).prev
  let m := setNext m prev (m node).next
  let next ← (m node).next
  return setPrev m next (m node).prev

/-- `dlist_pop_head_node`: remove and return the first node from a list (there
must be one). -/
def dlistPopHeadNode (m : DlistHeap P) (head : P) : Option (P × DlistHeap P) := do
  if dlistIsEmpty m head then none
  else
    let node ← (m head).next
    let m ← dlistDelete m node
    return (node, m)

/-- `dlist_move_head`. -/
def dlistMoveHead (m : DlistHeap P) (head node : P) : Option (DlistHeap P) := do
  -- fast path if it's already at the head
  if (m head).next = some node then return m
  else
    let m ← dlistDelete m node
    dlistPushHead m head node

/-- `dlist_move_tail`. -/
def dlistMoveTail (m : DlistHeap P) (head node : P) : Option (DlistHeap P) := do
  -- fast path if it's already at the tail
  if (m head).prev = some node then return m
  else
    let m ← dlistDelete m node
    dlistPushTail m head node

/-- `dlist_has_next`. Unreliable if the node is not in the list. -/
def dlistHasNext (m : DlistHeap P) (head node : P) : Bool :=
  (m node).next ≠ some head

/-- `dlist_has_prev`. Unreliable if the node is not in the list. -/
def dlistHasPrev (m : DlistHeap P) (head node : P) : Bool :=
  (m node).prev ≠ some head

/-- `dlist_next_node`: the next node in the list (there must be one). -/
def dlistNextNode (m : DlistHeap P) (head node : P) : Option P :=
  if dlistHasNext m head node then (m node).next else none

/-- `dlist_prev_node`: the previous node in the list (there must be one). -/
def dlistPrevNode (m : DlistHeap P) (head node : P) : Option P :=
  if dlistHasPrev m head node then (m node).prev else none

/-- `dlist_head_node`: the first node in the list (there must be one). -/
def dlistHeadNode (m : DlistHeap P) (head : P) : Option P :=
  if dlistIsEmpty m head then none else (m head).next

/-- `dlist_tail_node`: the last node in the list (there must be one). -/
def dlistTailNode (m : DlistHeap P) (head : P) : Option P :=
  if dlistIsEmpty m head then none else (m head).prev

/-! ## The iterations -/

/-- `dlist_foreach`: the nodes `iter.cur` is in turn. -/
def dlistForeach (m : DlistHeap P) (lhead : P) (fuel : ℕ) : Option (List P) :=
  Links.walk (fun p => (m p).next) lhead fuel
    (if (m lhead).next = none then some lhead else (m lhead).next)

/-- `dlist_reverse_foreach`: the nodes `iter.cur` is in turn. -/
def dlistReverseForeach (m : DlistHeap P) (lhead : P) (fuel : ℕ) : Option (List P) :=
  Links.walk (fun p => (m p).prev) lhead fuel
    (if (m lhead).prev = none then some lhead else (m lhead).prev)

/-- The state of an iteration that can modify the list: the memory, the iterator
`dlist_mutable_iter` but for its constant end, and the nodes `iter.cur` was. -/
structure DlistMutableIter (P : Type*) where
  heap : DlistHeap P
  /-- The current element. -/
  cur : Option P
  /-- The next node we'll iterate to. -/
  next : Option P
  /-- The elements there were. -/
  seen : List P

/-- One round of `dlist_foreach_modify`, the body being run with `iter.cur`. The
increment reads the next node of the new current one. -/
def dlistForeachModifyBody (lhead : P) (body : DlistHeap P → P → Option (DlistHeap P))
    (iter : DlistMutableIter P) :
    Loop.Step (DlistMutableIter P) (DlistHeap P × List P) :=
  if iter.cur = some lhead then .done (iter.heap, iter.seen)
  else
    match iter.cur with
    | none => .stuck
    | some cur =>
      match body iter.heap cur, iter.next with
      | some m, some next => .next ⟨m, some next, (m next).next, iter.seen ++ [cur]⟩
      | _, _ => .stuck

/-- `dlist_foreach_modify`, and the nodes `iter.cur` was in turn. -/
def dlistForeachModify (m : DlistHeap P) (lhead : P)
    (body : DlistHeap P → P → Option (DlistHeap P)) (fuel : ℕ) :
    Option (DlistHeap P × List P) := do
  let cur := if (m lhead).next = none then some lhead else (m lhead).next
  let first ← cur
  Loop.run (dlistForeachModifyBody lhead body) fuel ⟨m, cur, (m first).next, []⟩

/-! ## What the writes are, as links -/

/-- The links of the nodes. -/
def links (m : DlistHeap P) : Links P := ⟨fun p => (m p).next, fun p => (m p).prev⟩

omit [DecidableEq P] in
@[simp] theorem links_next (m : DlistHeap P) (p : P) : (links m).next p = (m p).next := rfl

omit [DecidableEq P] in
@[simp] theorem links_prev (m : DlistHeap P) (p : P) : (links m).prev p = (m p).prev := rfl

@[simp] theorem setPrev_prev (m : DlistHeap P) (p q : P) (v : Option P) :
    (setPrev m p v q).prev = if q = p then v else (m q).prev := by
  rw [setPrev, Function.update_apply]
  split_ifs <;> rfl

@[simp] theorem setPrev_next (m : DlistHeap P) (p q : P) (v : Option P) :
    (setPrev m p v q).next = (m q).next := by
  rw [setPrev, Function.update_apply]
  split_ifs with h
  · rw [h]
  · rfl

@[simp] theorem setNext_next (m : DlistHeap P) (p q : P) (v : Option P) :
    (setNext m p v q).next = if q = p then v else (m q).next := by
  rw [setNext, Function.update_apply]
  split_ifs <;> rfl

@[simp] theorem setNext_prev (m : DlistHeap P) (p q : P) (v : Option P) :
    (setNext m p v q).prev = (m q).prev := by
  rw [setNext, Function.update_apply]
  split_ifs with h
  · rw [h]
  · rfl

omit [DecidableEq P] in
/-- A node neither link of which is written. -/
theorem node_eq_of_links {m m' : DlistHeap P} {p : P}
    (hnext : (links m').next p = (links m).next p)
    (hprev : (links m').prev p = (links m).prev p) : m' p = m p := by
  rw [links_next, links_next] at hnext
  rw [links_prev, links_prev] at hprev
  cases h : m p
  cases h' : m' p
  simp_all

/-- **`dlist_insert_after` links the node in** between the other one and its
neighbour. -/
theorem dlistInsertAfter_inserts {m : DlistHeap P} {a x b : P} (hab : (m a).next = some b)
    (hxa : x ≠ a) (hxb : x ≠ b) :
    ∃ m', dlistInsertAfter m a x = some m' ∧ (links m).Inserts (links m') a x b := by
  refine ⟨setPrev (setNext (setNext (setPrev m x (some a)) x (some b)) a (some x)) b
    (some x), by simp [dlistInsertAfter, hab, hxa],
    Links.inserts_of_eq hxa hxb (fun v => ?_) fun v => ?_⟩
  · simp
  · simp

/-- **`dlist_insert_before` links the node in** between the other one and its
neighbour. -/
theorem dlistInsertBefore_inserts {m : DlistHeap P} {a x b : P}
    (hab : (m b).prev = some a) (hxa : x ≠ a) (hxb : x ≠ b) :
    ∃ m', dlistInsertBefore m b x = some m' ∧ (links m).Inserts (links m') a x b := by
  refine ⟨setNext (setPrev (setNext (setPrev m x (some a)) x (some b)) b (some x)) a
    (some x), by simp [dlistInsertBefore, hab, hxb],
    Links.inserts_of_eq hxa hxb (fun v => ?_) fun v => ?_⟩
  · simp
  · simp

/-- **`dlist_push_head` links the node in** after the header, made circular. -/
theorem dlistPushHead_inserts {m : DlistHeap P} {h x b : P}
    (hhb : (dlistCircular m h h).next = some b) (hxh : x ≠ h) (hxb : x ≠ b) :
    ∃ m', dlistPushHead m h x = some m' ∧
      (links (dlistCircular m h)).Inserts (links m') h x b := by
  refine ⟨setNext (setPrev (setPrev (setNext (dlistCircular m h) x (some b)) x (some h)) b
    (some x)) h (some x), by simp [dlistPushHead, hhb],
    Links.inserts_of_eq hxh hxb (fun v => ?_) fun v => ?_⟩
  · simp
  · simp

/-- **`dlist_push_tail` links the node in** before the header, made circular. -/
theorem dlistPushTail_inserts {m : DlistHeap P} {h x a : P}
    (hha : (dlistCircular m h h).prev = some a) (hxh : x ≠ h) (hxa : x ≠ a) :
    ∃ m', dlistPushTail m h x = some m' ∧
      (links (dlistCircular m h)).Inserts (links m') a x h := by
  refine ⟨setPrev (setNext (setPrev (setNext (dlistCircular m h) x (some h)) x (some a)) a
    (some x)) h (some x), by simp [dlistPushTail, hha],
    Links.inserts_of_eq hxa hxh (fun v => ?_) fun v => ?_⟩
  · simp
  · simp

/-- **`dlist_delete` takes the node out** from between its neighbours. -/
theorem dlistDelete_unlinks {m : DlistHeap P} {a x b : P} (hxa : (m x).prev = some a)
    (hxb : (m x).next = some b) :
    ∃ m', dlistDelete m x = some m' ∧ (links m).Unlinks (links m') a x b := by
  refine ⟨setPrev (setNext m a (some b)) b (some a), by simp [dlistDelete, hxa, hxb], ?_⟩
  constructor
  · constructor <;> simp
  · intro v hva _
    simp [hva]
  · intro v hvb _
    simp [hvb]

end Ilist
