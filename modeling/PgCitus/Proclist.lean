import Mathlib.Algebra.Group.Int.Defs
import Mathlib.Algebra.Group.Nat.Defs
import Mathlib.Data.Int.Notation
import Mathlib.Tactic.Common
import PgCitus.Library.LinkRing

/-!
# Lists of process numbers

`storage/proclist.h`: doubly linked lists whose links are not pointers but
indexes into the array of `PGPROC`s, so that they mean the same in every backend.
A list ends with `INVALID_PGPROCNO` in both directions; its header has the numbers
of the first and the last process.

A process that is in no list has both links zero. Zero is also the number of a
process, so that one link being zero says nothing; but the same process cannot
come before and after another one.

A function that would fail an assertion, or look up a process outside the array,
returns `none`.
-/

namespace Proclist

/-- `INVALID_PGPROCNO`, the largest `int32`. -/
def invalidPgprocno : ℤ := 2 ^ 31 - 1

/-- `proclist_node`. -/
structure ProclistNode where
  /-- The number of the next process. -/
  next : ℤ
  /-- The number of the previous process. -/
  prev : ℤ
  deriving DecidableEq, Repr

/-- `proclist_head`. An empty list has `head = tail = INVALID_PGPROCNO`. -/
structure ProclistHead where
  /-- The number of the head process. -/
  head : ℤ
  /-- The number of the tail process. -/
  tail : ℤ
  deriving DecidableEq, Repr

/-- The array of `PGPROC`s, each as the one `proclist_node` all the lists share. -/
structure ProcGlobal where
  /-- `allProcCount`: length of the array. -/
  allProcCount : ℤ
  /-- `allProcs`: the nodes in the array. -/
  allProcs : ℤ → ProclistNode

/-- The number is that of a process. -/
def ProcGlobal.Valid (g : ProcGlobal) (procno : ℤ) : Prop :=
  0 ≤ procno ∧ procno < g.allProcCount

instance (g : ProcGlobal) (procno : ℤ) : Decidable (g.Valid procno) :=
  inferInstanceAs (Decidable (_ ∧ _))

/-- `Assert`. -/
def pgAssert (c : Prop) [Decidable c] : Option Unit := if c then some () else none

/-! ## The functions -/

/-- `proclist_node_get`. -/
def proclistNodeGet (g : ProcGlobal) (procno : ℤ) : Option ProclistNode :=
  if g.Valid procno then some (g.allProcs procno) else none

/-- `proclist_node_get(procno)->next = v`. -/
def setNext (g : ProcGlobal) (procno v : ℤ) : Option ProcGlobal :=
  if g.Valid procno then
    some { g with
      allProcs := Function.update g.allProcs procno { g.allProcs procno with next := v } }
  else none

/-- `proclist_node_get(procno)->prev = v`. -/
def setPrev (g : ProcGlobal) (procno v : ℤ) : Option ProcGlobal :=
  if g.Valid procno then
    some { g with
      allProcs := Function.update g.allProcs procno { g.allProcs procno with prev := v } }
  else none

/-- `proclist_init`. -/
def proclistInit : ProclistHead := ⟨invalidPgprocno, invalidPgprocno⟩

/-- `proclist_is_empty`. -/
def proclistIsEmpty (list : ProclistHead) : Bool := list.head = invalidPgprocno

/-- `proclist_push_head_offset`: insert a process at the beginning of a list. -/
def proclistPushHeadOffset (g : ProcGlobal) (list : ProclistHead) (procno : ℤ) :
    Option (ProclistHead × ProcGlobal) := do
  let node ← proclistNodeGet g procno
  pgAssert (node.next = 0 ∧ node.prev = 0)
  if list.head = invalidPgprocno then
    pgAssert (list.tail = invalidPgprocno)
    let g ← setPrev g procno invalidPgprocno
    let g ← setNext g procno invalidPgprocno
    return (⟨procno, procno⟩, g)
  else
    pgAssert (list.tail ≠ invalidPgprocno)
    pgAssert (list.head ≠ procno)
    pgAssert (list.tail ≠ procno)
    let g ← setNext g procno list.head
    let node ← proclistNodeGet g procno
    let g ← setPrev g node.next procno
    let g ← setPrev g procno invalidPgprocno
    return ({ list with head := procno }, g)

/-- `proclist_push_tail_offset`: insert a process at the end of a list. -/
def proclistPushTailOffset (g : ProcGlobal) (list : ProclistHead) (procno : ℤ) :
    Option (ProclistHead × ProcGlobal) := do
  let node ← proclistNodeGet g procno
  pgAssert (node.next = 0 ∧ node.prev = 0)
  if list.tail = invalidPgprocno then
    pgAssert (list.head = invalidPgprocno)
    let g ← setPrev g procno invalidPgprocno
    let g ← setNext g procno invalidPgprocno
    return (⟨procno, procno⟩, g)
  else
    pgAssert (list.head ≠ invalidPgprocno)
    pgAssert (list.head ≠ procno)
    pgAssert (list.tail ≠ procno)
    let g ← setPrev g procno list.tail
    let node ← proclistNodeGet g procno
    let g ← setNext g node.prev procno
    let g ← setNext g procno invalidPgprocno
    return ({ list with tail := procno }, g)

/-- The first half of `proclist_delete_offset`: what precedes the process is linked
with what follows it. -/
def proclistDeletePrev (g : ProcGlobal) (list : ProclistHead) (procno : ℤ) :
    Option (ProclistHead × ProcGlobal) := do
  let node ← proclistNodeGet g procno
  if node.prev = invalidPgprocno then
    pgAssert (list.head = procno)
    return ({ list with head := node.next }, g)
  else
    let g ← setNext g node.prev node.next
    return (list, g)

/-- The second half: what follows the process is linked with what precedes it. -/
def proclistDeleteNext (g : ProcGlobal) (list : ProclistHead) (procno : ℤ) :
    Option (ProclistHead × ProcGlobal) := do
  let node ← proclistNodeGet g procno
  if node.next = invalidPgprocno then
    pgAssert (list.tail = procno)
    return ({ list with tail := node.prev }, g)
  else
    let g ← setPrev g node.next node.prev
    return (list, g)

/-- `proclist_delete_offset`: delete a process from a list – it must be in the
list! -/
def proclistDeleteOffset (g : ProcGlobal) (list : ProclistHead) (procno : ℤ) :
    Option (ProclistHead × ProcGlobal) := do
  let node ← proclistNodeGet g procno
  pgAssert (node.next ≠ 0 ∨ node.prev ≠ 0)
  let (list, g) ← proclistDeletePrev g list procno
  let (list, g) ← proclistDeleteNext g list procno
  let g ← setPrev g procno 0
  let g ← setNext g procno 0
  return (list, g)

/-- `proclist_contains_offset`: check if a process is currently in a list. It must be
known that it is not in any *other* list. -/
def proclistContainsOffset (g : ProcGlobal) (list : ProclistHead) (procno : ℤ) :
    Option Bool := do
  let node ← proclistNodeGet g procno
  -- if it's not in any list, it's definitely not in this one
  if node.prev = 0 ∧ node.next = 0 then return false
  else
    pgAssert (node.prev ≠ invalidPgprocno ∨ list.head = procno)
    pgAssert (node.next ≠ invalidPgprocno ∨ list.tail = procno)
    return true

/-- `proclist_pop_head_node_offset`: remove and return the first process from a list
(there must be one). -/
def proclistPopHeadNodeOffset (g : ProcGlobal) (list : ProclistHead) :
    Option (ℤ × ProclistHead × ProcGlobal) := do
  pgAssert (¬ proclistIsEmpty list)
  let _ ← proclistNodeGet g list.head
  let (list', g) ← proclistDeleteOffset g list list.head
  return (list.head, list', g)

/-- The state of `proclist_foreach_modify`: what its body can modify, the iterator
`proclist_mutable_iter`, and the processes `iter.cur` was. -/
structure ProclistMutableIter where
  list : ProclistHead
  procs : ProcGlobal
  /-- The number of the current process. -/
  cur : ℤ
  /-- The number of the next process. -/
  next : ℤ
  /-- The processes there were. -/
  seen : List ℤ

/-- What `iter.next` is set to. -/
def proclistIterNext (g : ProcGlobal) (cur : ℤ) : Option ℤ :=
  if cur = invalidPgprocno then some invalidPgprocno
  else (proclistNodeGet g cur).map ProclistNode.next

/-- One round of `proclist_foreach_modify`. -/
def proclistForeachModifyBody
    (body : ProcGlobal → ProclistHead → ℤ → Option (ProclistHead × ProcGlobal))
    (iter : ProclistMutableIter) :
    Loop.Step ProclistMutableIter ((ProclistHead × ProcGlobal) × List ℤ) :=
  if iter.cur = invalidPgprocno then .done ((iter.list, iter.procs), iter.seen)
  else
    match body iter.procs iter.list iter.cur with
    | none => .stuck
    | some (list, g) =>
      match proclistIterNext g iter.next with
      | none => .stuck
      | some next => .next ⟨list, g, iter.next, next, iter.seen ++ [iter.cur]⟩

/-- `proclist_foreach_modify`, and the processes `iter.cur` was in turn. -/
def proclistForeachModify (g : ProcGlobal) (lhead : ProclistHead)
    (body : ProcGlobal → ProclistHead → ℤ → Option (ProclistHead × ProcGlobal))
    (fuel : ℕ) : Option ((ProclistHead × ProcGlobal) × List ℤ) := do
  let next ← proclistIterNext g lhead.head
  Loop.run (proclistForeachModifyBody body) fuel ⟨lhead, g, lhead.head, next, []⟩

end Proclist
