import Mathlib.Data.BitVec
import PgCitus.Library.CasLoop

/-!
# Atomic operations from compare-and-exchange

`port/atomics/generic.h` builds the atomic operations of `port/atomics.h` for machines
that only have a compare-and-exchange: read the variable, compute, and exchange until
nothing came in between. The read need not be atomic; a wrong value fails the first
comparison, which stores the right one.

The variants for 32 and 64 bits are the same functions of another width. Each is a
program over the shared variable and performs what the comments of `atomics.h` say of it
(`performs_call`), so that whatever processes call in whatever order is linearizable
(`atomics_linearizable`).
-/

namespace AtomicsGeneric

open CasLoop

/-! ## What the operations are -/

/-- **An operation that reads and changes a variable.** The arguments of additions and
subtractions are signed, and what counts of them are the bits. -/
inductive AtomicOp (w : ℕ)
  | exchange (newval : BitVec w)
  | fetchAdd (add : BitVec w)
  | fetchSub (sub : BitVec w)
  | fetchAnd (and : BitVec w)
  | fetchOr (or : BitVec w)
  | addFetch (add : BitVec w)
  | subFetch (sub : BitVec w)
  deriving DecidableEq

/-- **What `atomics.h` says of an operation**: what becomes of the variable, and what is
returned. -/
def AtomicOp.sem {w : ℕ} : AtomicOp w → BitVec w → BitVec w × BitVec w
  | exchange newval, v => (newval, v)
  | fetchAdd add, v => (v + add, v)
  | fetchSub sub, v => (v - sub, v)
  | fetchAnd and, v => (v &&& and, v)
  | fetchOr or, v => (v ||| or, v)
  | addFetch add, v => (v + add, v + add)
  | subFetch sub, v => (v - sub, v - sub)

/-- The operations on 64 bits, where plain reads and writes are operations as well. -/
inductive AtomicOpU64
  | rmw (op : AtomicOp 64)
  | read
  | write (val : BitVec 64)
  deriving DecidableEq

/-- What `atomics.h` says of those; a write returns nothing. -/
def AtomicOpU64.sem : AtomicOpU64 → BitVec 64 → BitVec 64 × Option (BitVec 64)
  | rmw op, v => ((op.sem v).1, some (op.sem v).2)
  | read, v => (v, some v)
  | write val, _ => (val, none)

/-! ## The generic implementation -/

section Impl

variable {w : ℕ}

/-- `pg_atomic_exchange_*_impl`. -/
def exchangeImpl (xchg : BitVec w) : Prog (BitVec w) (BitVec w) :=
  .read fun old => .casUntil old (fun _ => xchg) fun old => .ret old

/-- `pg_atomic_fetch_add_*_impl`. -/
def fetchAddImpl (add : BitVec w) : Prog (BitVec w) (BitVec w) :=
  .read fun old => .casUntil old (fun old => old + add) fun old => .ret old

/-- `pg_atomic_fetch_sub_*_impl`. -/
def fetchSubImpl (sub : BitVec w) : Prog (BitVec w) (BitVec w) := fetchAddImpl (-sub)

/-- `pg_atomic_fetch_and_*_impl`. -/
def fetchAndImpl (and : BitVec w) : Prog (BitVec w) (BitVec w) :=
  .read fun old => .casUntil old (fun old => old &&& and) fun old => .ret old

/-- `pg_atomic_fetch_or_*_impl`. -/
def fetchOrImpl (or : BitVec w) : Prog (BitVec w) (BitVec w) :=
  .read fun old => .casUntil old (fun old => old ||| or) fun old => .ret old

/-- `pg_atomic_add_fetch_*_impl`. -/
def addFetchImpl (add : BitVec w) : Prog (BitVec w) (BitVec w) :=
  (fetchAddImpl add).map fun old => old + add

/-- `pg_atomic_sub_fetch_*_impl`. -/
def subFetchImpl (sub : BitVec w) : Prog (BitVec w) (BitVec w) :=
  (fetchSubImpl sub).map fun old => old - sub

end Impl

/-- `pg_atomic_exchange_u32_impl`. -/
def pgAtomicExchangeU32Impl (xchg : BitVec 32) := exchangeImpl xchg

/-- `pg_atomic_fetch_add_u32_impl`. -/
def pgAtomicFetchAddU32Impl (add : BitVec 32) := fetchAddImpl add

/-- `pg_atomic_fetch_sub_u32_impl`. -/
def pgAtomicFetchSubU32Impl (sub : BitVec 32) := fetchSubImpl sub

/-- `pg_atomic_fetch_and_u32_impl`. -/
def pgAtomicFetchAndU32Impl (and : BitVec 32) := fetchAndImpl and

/-- `pg_atomic_fetch_or_u32_impl`. -/
def pgAtomicFetchOrU32Impl (or : BitVec 32) := fetchOrImpl or

/-- `pg_atomic_add_fetch_u32_impl`. -/
def pgAtomicAddFetchU32Impl (add : BitVec 32) := addFetchImpl add

/-- `pg_atomic_sub_fetch_u32_impl`. -/
def pgAtomicSubFetchU32Impl (sub : BitVec 32) := subFetchImpl sub

/-- `pg_atomic_exchange_u64_impl`. -/
def pgAtomicExchangeU64Impl (xchg : BitVec 64) := exchangeImpl xchg

/-- `pg_atomic_fetch_add_u64_impl`. -/
def pgAtomicFetchAddU64Impl (add : BitVec 64) := fetchAddImpl add

/-- `pg_atomic_fetch_sub_u64_impl`. -/
def pgAtomicFetchSubU64Impl (sub : BitVec 64) := fetchSubImpl sub

/-- `pg_atomic_fetch_and_u64_impl`. -/
def pgAtomicFetchAndU64Impl (and : BitVec 64) := fetchAndImpl and

/-- `pg_atomic_fetch_or_u64_impl`. -/
def pgAtomicFetchOrU64Impl (or : BitVec 64) := fetchOrImpl or

/-- `pg_atomic_add_fetch_u64_impl`. -/
def pgAtomicAddFetchU64Impl (add : BitVec 64) := addFetchImpl add

/-- `pg_atomic_sub_fetch_u64_impl`. -/
def pgAtomicSubFetchU64Impl (sub : BitVec 64) := subFetchImpl sub

/-- `pg_atomic_read_u64_impl`, where reads of 64 bits are not atomic: compare with 0 and
exchange for 0, once. -/
def pgAtomicReadU64Impl : Prog (BitVec 64) (BitVec 64) := .cas 0 0 fun _ old => .ret old

/-- `pg_atomic_write_u64_impl`, where writes of 64 bits are not atomic. -/
def pgAtomicWriteU64Impl (val : BitVec 64) : Prog (BitVec 64) Unit :=
  (pgAtomicExchangeU64Impl val).map fun _ => ()

/-! ## The calls -/

/-- The functions of `atomics.h` on 32 bits. A subtraction asserts that its argument can
be negated. -/
def callU32 : AtomicOp 32 → Option (Prog (BitVec 32) (BitVec 32))
  | .exchange newval => some (pgAtomicExchangeU32Impl newval)
  | .fetchAdd add => some (pgAtomicFetchAddU32Impl add)
  | .fetchSub sub => if sub = BitVec.intMin 32 then none else some (pgAtomicFetchSubU32Impl sub)
  | .fetchAnd and => some (pgAtomicFetchAndU32Impl and)
  | .fetchOr or => some (pgAtomicFetchOrU32Impl or)
  | .addFetch add => some (pgAtomicAddFetchU32Impl add)
  | .subFetch sub => if sub = BitVec.intMin 32 then none else some (pgAtomicSubFetchU32Impl sub)

/-- The functions of `atomics.h` on 64 bits. -/
def callU64 : AtomicOpU64 → Option (Prog (BitVec 64) (Option (BitVec 64)))
  | .rmw (.exchange newval) => some ((pgAtomicExchangeU64Impl newval).map some)
  | .rmw (.fetchAdd add) => some ((pgAtomicFetchAddU64Impl add).map some)
  | .rmw (.fetchSub sub) =>
    if sub = BitVec.intMin 64 then none else some ((pgAtomicFetchSubU64Impl sub).map some)
  | .rmw (.fetchAnd and) => some ((pgAtomicFetchAndU64Impl and).map some)
  | .rmw (.fetchOr or) => some ((pgAtomicFetchOrU64Impl or).map some)
  | .rmw (.addFetch add) => some ((pgAtomicAddFetchU64Impl add).map some)
  | .rmw (.subFetch sub) =>
    if sub = BitVec.intMin 64 then none else some ((pgAtomicSubFetchU64Impl sub).map some)
  | .read => some (pgAtomicReadU64Impl.map some)
  | .write val => some ((pgAtomicWriteU64Impl val).map fun _ => none)

section Performs

variable {w : ℕ}

/-- **The loop around an exchange**: whatever the first read gave, the value that is
replaced is the one that was there. -/
theorem performs_loop (f : BitVec w → BitVec w) :
    (Prog.read fun old => .casUntil old f fun old => .ret old).Performs fun v => (f v, v) :=
  fun _ _ => ⟨rfl, rfl⟩

theorem performs_exchangeImpl (xchg : BitVec w) :
    (exchangeImpl xchg).Performs (AtomicOp.exchange xchg).sem := performs_loop _

theorem performs_fetchAddImpl (add : BitVec w) :
    (fetchAddImpl add).Performs (AtomicOp.fetchAdd add).sem := performs_loop _

/-- Adding the negated argument subtracts it. -/
theorem performs_fetchSubImpl (sub : BitVec w) :
    (fetchSubImpl sub).Performs (AtomicOp.fetchSub sub).sem := by
  have h : (AtomicOp.fetchSub sub).sem = (AtomicOp.fetchAdd (-sub)).sem := by
    funext v
    show (v - sub, v) = (v + -sub, v)
    rw [BitVec.sub_eq_add_neg]
  rw [h]
  exact performs_fetchAddImpl (-sub)

theorem performs_fetchAndImpl (and : BitVec w) :
    (fetchAndImpl and).Performs (AtomicOp.fetchAnd and).sem := performs_loop _

theorem performs_fetchOrImpl (or : BitVec w) :
    (fetchOrImpl or).Performs (AtomicOp.fetchOr or).sem := performs_loop _

theorem performs_addFetchImpl (add : BitVec w) :
    (addFetchImpl add).Performs (AtomicOp.addFetch add).sem :=
  (performs_fetchAddImpl add).map fun old => old + add

theorem performs_subFetchImpl (sub : BitVec w) :
    (subFetchImpl sub).Performs (AtomicOp.subFetch sub).sem :=
  (performs_fetchSubImpl sub).map fun old => old - sub

end Performs

/-- **Exchanging 0 for 0 reads.** The value found is returned, and the variable is as it
was whether it was 0 or not. -/
theorem performs_pgAtomicReadU64Impl : pgAtomicReadU64Impl.Performs fun v => (v, v) := by
  intro v
  refine ⟨?_, rfl⟩
  unfold compareAndSwap
  split
  · assumption
  · rfl

/-- The functions on 32 bits do what they say. -/
theorem performs_callU32 (op : AtomicOp 32) (p : Prog (BitVec 32) (BitVec 32))
    (h : callU32 op = some p) : p.Performs op.sem := by
  cases op with
  | exchange newval => exact Option.some.inj h ▸ performs_exchangeImpl newval
  | fetchAdd add => exact Option.some.inj h ▸ performs_fetchAddImpl add
  | fetchSub sub =>
    obtain ⟨-, h⟩ := (Option.ite_none_left_eq_some).mp h
    exact Option.some.inj h ▸ performs_fetchSubImpl sub
  | fetchAnd and => exact Option.some.inj h ▸ performs_fetchAndImpl and
  | fetchOr or => exact Option.some.inj h ▸ performs_fetchOrImpl or
  | addFetch add => exact Option.some.inj h ▸ performs_addFetchImpl add
  | subFetch sub =>
    obtain ⟨-, h⟩ := (Option.ite_none_left_eq_some).mp h
    exact Option.some.inj h ▸ performs_subFetchImpl sub

/-- The functions on 64 bits do what they say. -/
theorem performs_callU64 (op : AtomicOpU64) (p : Prog (BitVec 64) (Option (BitVec 64)))
    (h : callU64 op = some p) : p.Performs op.sem := by
  cases op with
  | rmw op =>
    cases op with
    | exchange newval => exact Option.some.inj h ▸ (performs_exchangeImpl newval).map some
    | fetchAdd add => exact Option.some.inj h ▸ (performs_fetchAddImpl add).map some
    | fetchSub sub =>
      obtain ⟨-, h⟩ := (Option.ite_none_left_eq_some).mp h
      exact Option.some.inj h ▸ (performs_fetchSubImpl sub).map some
    | fetchAnd and => exact Option.some.inj h ▸ (performs_fetchAndImpl and).map some
    | fetchOr or => exact Option.some.inj h ▸ (performs_fetchOrImpl or).map some
    | addFetch add => exact Option.some.inj h ▸ (performs_addFetchImpl add).map some
    | subFetch sub =>
      obtain ⟨-, h⟩ := (Option.ite_none_left_eq_some).mp h
      exact Option.some.inj h ▸ (performs_subFetchImpl sub).map some
  | read => exact Option.some.inj h ▸ performs_pgAtomicReadU64Impl.map some
  | write val =>
    exact Option.some.inj h ▸ ((performs_exchangeImpl val).map fun _ => ()).map fun _ => none

/-! ## Any interleaving -/

/-- **The operations are linearizable.** However the calls of any number of processes are
interleaved and whatever the plain reads give, in the order of the comparisons that
decide them the calls are a sequential run of the operations as they are documented, on
32 bits and on 64. A read of 64 bits by comparison takes one step, which gives the value
of the variable and leaves it alone. -/
theorem atomics_linearizable {Pid : Type*} [DecidableEq Pid] :
    (∀ (v₀ : BitVec 32) (as : List (Action (BitVec 32) (AtomicOp 32) Pid))
        (s : State (BitVec 32) (BitVec 32) (AtomicOp 32) Pid),
      Run.run (step callU32) (start v₀) as = some s →
      Linearizes AtomicOp.sem v₀ s.value s.log (decided s.log)) ∧
    (∀ (v₀ : BitVec 64) (as : List (Action (BitVec 64) AtomicOpU64 Pid))
        (s : State (BitVec 64) (Option (BitVec 64)) AtomicOpU64 Pid),
      Run.run (step callU64) (start v₀) as = some s →
      Linearizes AtomicOpU64.sem v₀ s.value s.log (decided s.log)) ∧
    (∀ v guess : BitVec 64, pgAtomicReadU64Impl.next v guess = some (v, .ret v, true)) := by
  refine ⟨fun _ _ _ h => linearizes_of_run performs_callU32 h,
    fun _ _ _ h => linearizes_of_run performs_callU64 h, fun v guess => ?_⟩
  have h := (performs_pgAtomicReadU64Impl v).1
  show some ((compareAndSwap v 0 0).1, Prog.ret v, true) = _
  rw [← h]

/-- Two additions that meet: the second process exchanges first, and the first one fails
once before it adds to the value it finds. -/
theorem atomics_linearizable_two_adds :
    Linearizes AtomicOp.sem 5#32 12#32
      [.invoke 0 (.fetchAdd 3), .invoke 1 (.addFetch 4), .decide 1 (.addFetch 4),
        .respond 1 9, .decide 0 (.fetchAdd 3), .respond 0 9]
      [(1, .addFetch 4), (0, .fetchAdd 3)] :=
  (@atomics_linearizable Bool _).1 5
    [.invoke false (.fetchAdd 3), .invoke true (.addFetch 4), .step false 5, .step true 5,
      .step true 0, .respond true, .step false 0, .step false 0, .respond false] _ rfl

end AtomicsGeneric
