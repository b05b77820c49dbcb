import Mathlib.Data.BitVec
import PgCitus.Library.CriticalSection

/-!
# Spin locks

The spin locks of `storage/s_lock.h`, which `storage/spin.h` gives their names, and the
flags of `port/atomics.h`, which are spin locks with a single attempt each. What they
consist of depends on the machine: an exchange that is atomic, a compare-and-exchange, or
a load that clears; before it there may be a plain read, in every attempt or in those
after the first one; and on one machine a lock that is free is not zero.

`SpinLockAcquire` is `TAS`, and where that fails `s_lock`, which does `TAS_SPIN` until it
succeeds, or times out and aborts. When it does is not for the header to say, and a parameter
(`Patience`): of the status of its delays, what there is after one more delay, if anything. An
access of the machine is one that reads and stores at once: the barriers in the macros are
there so that the accesses of a section stay between those of its lock.
-/

namespace SpinLock

open CriticalSection

variable {w : ℕ}

/-! ## What the machines have -/

/-- `xchg` of 1, and `__sync_lock_test_and_set` of 1: the old value says whether it was free. -/
def exchange : Attempt (BitVec w) := .access (fun _ => 1) fun old => .done (old = 0)

/-- `InterlockedCompareExchange(lock, 1, 0)`, and `pg_atomic_compare_exchange_u32_impl` with 0
as the expected value. -/
def compareExchange : Attempt (BitVec w) :=
  .access (fun old => if old = 0 then 1 else old) fun old => .done (old = 0)

/-- `*(lock) ? 1 : tas(lock)`. -/
def testFirst (tas : Attempt (BitVec w)) : Attempt (BitVec w) :=
  .access id fun old => if old ≠ 0 then .done false else tas

/-- `ldcwx`: load and clear, and `lockval == 0` is that the lock was held. -/
def loadAndClear : Attempt (BitVec w) := .access (fun _ => 0) fun old => .done (old ≠ 0)

/-- A lock that is free when it is 0. -/
def zeroFree (first again : Attempt (BitVec w)) (release : BitVec w → BitVec w) :
    Lock (BitVec w) := ⟨0, first, again, release, fun old => old = 0⟩

/-! ## The locks -/

/-- `s_lock.h` for Visual C++. -/
def sLockMsvc : Lock (BitVec 32) := zeroFree compareExchange compareExchange fun _ => 0

/-- `s_lock.h` for i386: a non-locking test before every `xchgb`. -/
def sLockI386 : Lock (BitVec 8) := zeroFree (testFirst exchange) (testFirst exchange) fun _ => 0

/-- `s_lock.h` for x86-64: a non-locking test, but only when spinning. -/
def sLockX8664 : Lock (BitVec 8) := zeroFree exchange (testFirst exchange) fun _ => 0

/-- `s_lock.h` for IA-64. -/
def sLockIa64 : Lock (BitVec 32) := zeroFree exchange (testFirst exchange) fun _ => 0

/-- `s_lock.h` for ARM and RISC-V, with the builtins of gcc. -/
def sLockArm : Lock (BitVec 32) := zeroFree exchange exchange fun _ => 0

/-- `s_lock.h` for PA-RISC, the active word: all bits are set when the lock is free. -/
def sLockHppa : Lock (BitVec 32) :=
  ⟨-1, loadAndClear, loadAndClear, fun _ => -1, fun old => old ≠ 0⟩

/-- `pg_atomic_flag` on x86 with gcc: `xchgb`, and a plain store. -/
def pgAtomicFlagX86 : Lock (BitVec 8) := zeroFree exchange exchange fun _ => 0

/-- `pg_atomic_flag` of `generic-gcc.h`. -/
def pgAtomicFlagGcc : Lock (BitVec 32) := zeroFree exchange exchange fun _ => 0

/-- `pg_atomic_flag` of `generic.h`, from a compare-and-exchange. -/
def pgAtomicFlagGeneric : Lock (BitVec 32) := zeroFree compareExchange compareExchange fun _ => 0

/-- The same where memory barriers are emulated with spin locks: to clear the flag is to
exchange 1 for 0, once, and nothing if it is not 1. -/
def pgAtomicFlagEmulation : Lock (BitVec 32) :=
  zeroFree compareExchange compareExchange fun old => if old = 1 then 0 else old

/-- The locks there are. -/
inductive Kind where
  | sLockMsvc
  | sLockI386
  | sLockX8664
  | sLockIa64
  | sLockArm
  | sLockHppa
  | pgAtomicFlagX86
  | pgAtomicFlagGcc
  | pgAtomicFlagGeneric
  | pgAtomicFlagEmulation
  deriving DecidableEq, Repr

/-- How wide the word of a lock is. -/
def Kind.width : Kind → ℕ
  | sLockI386 | sLockX8664 | pgAtomicFlagX86 => 8
  | _ => 32

/-- The lock of each kind. -/
def Kind.lock : (kind : Kind) → Lock (BitVec kind.width)
  | sLockMsvc => SpinLock.sLockMsvc
  | sLockI386 => SpinLock.sLockI386
  | sLockX8664 => SpinLock.sLockX8664
  | sLockIa64 => SpinLock.sLockIa64
  | sLockArm => SpinLock.sLockArm
  | sLockHppa => SpinLock.sLockHppa
  | pgAtomicFlagX86 => SpinLock.pgAtomicFlagX86
  | pgAtomicFlagGcc => SpinLock.pgAtomicFlagGcc
  | pgAtomicFlagGeneric => SpinLock.pgAtomicFlagGeneric
  | pgAtomicFlagEmulation => SpinLock.pgAtomicFlagEmulation

/-! ## They are sound -/

section Sound

variable (hw : (0 : BitVec w) ≠ 1)
include hw

theorem sound_exchange : (exchange : Attempt (BitVec w)).Sound (· = 0) (· = 1) := by
  refine ⟨fun old hold => ⟨rfl, ?_⟩, fun old hold => Or.inr ⟨rfl, ?_⟩⟩
  · subst hold
    exact decide_eq_false hw.symm
  · subst hold
    rfl

theorem sound_compareExchange :
    (compareExchange : Attempt (BitVec w)).Sound (· = 0) (· = 1) := by
  refine ⟨fun old hold => ?_, fun old hold => Or.inr ⟨?_, ?_⟩⟩
  · subst hold
    exact ⟨if_neg hw.symm, decide_eq_false hw.symm⟩
  · exact if_pos hold
  · subst hold
    rfl

/-- A read before an attempt changes nothing about it. -/
theorem sound_testFirst {tas : Attempt (BitVec w)} (h : tas.Sound (· = 0) (· = 1)) :
    (testFirst tas).Sound (· = 0) (· = 1) := by
  refine ⟨fun old hold => ⟨hold, ?_⟩, fun old hold => Or.inl ⟨hold, ?_⟩⟩
  · have hne : old ≠ 0 := fun h0 => hw (h0.symm.trans hold)
    show (if old ≠ 0 then Attempt.done false else tas).Sound _ _
    rw [if_pos hne]
    exact rfl
  · show (if old ≠ 0 then Attempt.done false else tas).Sound _ _
    rw [if_neg (not_not.mpr hold)]
    exact h

/-- A lock that is free when it is 0 is sound if its attempts are. -/
theorem sound_zeroFree {first again : Attempt (BitVec w)} {release : BitVec w → BitVec w}
    (hfirst : first.Sound (· = 0) (· = 1)) (hagain : again.Sound (· = 0) (· = 1))
    (hrelease : release 1 = 0) (halone : (again.run 0).2 = true) :
    (zeroFree first again release).Sound (· = 0) (· = 1) where
  init := rfl
  first := hfirst
  again := hagain
  release _ hold := hold ▸ hrelease
  isFree_free _ hold := decide_eq_true hold
  isFree_held _ hold := decide_eq_false (hold ▸ hw.symm)
  alone _ hold := hold ▸ halone

end Sound

/-- The word of a free lock. -/
def Kind.freeWord : (kind : Kind) → BitVec kind.width
  | sLockHppa => -1
  | _ => 0

/-- The word of a lock that is held. -/
def Kind.heldWord : (kind : Kind) → BitVec kind.width
  | sLockHppa => 0
  | _ => 1

theorem sound_loadAndClear : (loadAndClear : Attempt (BitVec 32)).Sound (· = -1) (· = 0) := by
  refine ⟨fun old hold => ⟨rfl, ?_⟩, fun old hold => Or.inr ⟨rfl, ?_⟩⟩
  · exact decide_eq_false (not_not.mpr hold)
  · subst hold
    rfl

theorem sound_sLockHppa : sLockHppa.Sound (· = -1) (· = 0) where
  init := rfl
  first := sound_loadAndClear
  again := sound_loadAndClear
  release _ _ := rfl
  isFree_free old hold := by subst hold; rfl
  isFree_held old hold := by subst hold; rfl
  alone old hold := by subst hold; rfl

/-- **Every lock is sound.** -/
theorem sound_lock (kind : Kind) : kind.lock.Sound (· = kind.freeWord) (· = kind.heldWord) := by
  have h8 : (0 : BitVec 8) ≠ 1 := by decide
  have h32 : (0 : BitVec 32) ≠ 1 := by decide
  cases kind with
  | sLockHppa => exact sound_sLockHppa
  | sLockMsvc | pgAtomicFlagGeneric | pgAtomicFlagEmulation =>
    exact sound_zeroFree h32 (sound_compareExchange h32) (sound_compareExchange h32) rfl rfl
  | sLockI386 =>
    exact sound_zeroFree h8 (sound_testFirst h8 (sound_exchange h8))
      (sound_testFirst h8 (sound_exchange h8)) rfl rfl
  | sLockX8664 =>
    exact sound_zeroFree h8 (sound_exchange h8) (sound_testFirst h8 (sound_exchange h8)) rfl rfl
  | sLockIa64 =>
    exact sound_zeroFree h32 (sound_exchange h32) (sound_testFirst h32 (sound_exchange h32)) rfl rfl
  | pgAtomicFlagX86 => exact sound_zeroFree h8 (sound_exchange h8) (sound_exchange h8) rfl rfl
  | sLockArm | pgAtomicFlagGcc =>
    exact sound_zeroFree h32 (sound_exchange h32) (sound_exchange h32) rfl rfl

/-! ## What they are for -/

section Runs

variable {σ D Pid : Type*} [DecidableEq Pid]

/-- **A spin lock makes sections serial.** Whatever processes enter whatever sections, however
their accesses to the lock and to the data are interleaved, however long they wait, and
whichever of the locks it is: no two hold it; `SpinLockFree` says whether one does; the data is
what the sections make of it one after another, in the order in which their processes got the
lock, up to what the process that holds it has still to do; and in that order are the sections
of a process in the order in which it entered them, each one once, up to one that it waits for
or gave up to wait for. -/
theorem spinLock_serial (kind : Kind) (patience : Patience D) {d₀ : σ} {as : List (Action σ Pid)}
    {s : State (BitVec kind.width) σ D Pid}
    (h : Run.run (step kind.lock patience) (start kind.lock d₀) as = some s) :
    (∀ i j, (s.procs i).Holds → (s.procs j).Holds → i = j) ∧
    ((kind.lock.isFree s.word = true ∧ (∀ i, ¬ (s.procs i).Holds) ∧
        s.data = serial d₀ s.order) ∨
      (kind.lock.isFree s.word = false ∧ ∃ i, (s.procs i).Holds ∧
        (s.procs i).rest s.data = serial d₀ s.order)) ∧
    ∀ i, sectionsOf i s.order ++ (s.procs i).waiting = entered i as :=
  ⟨fun _ _ hi hj => exclusive (sound_lock kind) h hi hj, serializable (sound_lock kind) h,
    sectionsOf_append_waiting h⟩

/-- A section that counts, in two accesses. -/
def count : Section ℕ := .access id fun n => .access (fun _ => n + 1) fun _ => .done

/-- To wait so many times. -/
def times (n : ℕ) : Patience ℕ := ⟨n, fun d => if d = 0 then none else some (d - 1)⟩

/-- Two processes that count. The second one finds the lock held, and tries again. -/
theorem spinLock_serial_count :
    ∃ s : State (BitVec 8) ℕ ℕ Bool, Run.run (step Kind.sLockX8664.lock (times 1000))
      (start Kind.sLockX8664.lock 0) [.enter true count, .enter false count, .step true,
        .step false, .step true, .step false, .step true, .step false, .step true, .step true,
        .step false, .step false, .step false, .step false] = some s ∧
      ∀ i j, (s.procs i).Holds → (s.procs j).Holds → i = j := by
  obtain ⟨s, h⟩ := Option.isSome_iff_exists.mp (show (Run.run
      (step Kind.sLockX8664.lock (times 1000))
      (start Kind.sLockX8664.lock 0) [.enter true count, .enter false count, .step true,
        .step false, .step true, .step false, .step true, .step false, .step true, .step true,
        .step false, .step false, .step false, .step false]).isSome = true from rfl)
  exact ⟨s, h, (spinLock_serial .sLockX8664 (times 1000) h).1⟩

/-- **A lock that is free can be got.** In every state that processes come to and in which none
of them holds the lock, one that waits for it and runs alone gets it and is in its section,
wherever in an attempt it is; unless it is in `s_lock`, its attempt has failed already, and it
does not wait any more, which ends it. -/
theorem spinLock_gets_lock (kind : Kind) (patience : Patience D) {d₀ : σ}
    {as : List (Action σ Pid)} {s : State (BitVec kind.width) σ D Pid}
    (h : Run.run (step kind.lock patience) (start kind.lock d₀) as = some s)
    (hnone : ∀ i, ¬ (s.procs i).Holds) {i : Pid} {b : Section σ}
    {a : Attempt (BitVec kind.width)} {d : Option D} (hi : s.procs i = .acquiring b a d) :
    (∃ s', Alone kind.lock patience i s s' ∧ s'.procs i = .inside b) ∨
      ((a.run s.word).2 = false ∧ (∃ d', d = some d' ∧ patience.wait d' = none) ∧
        ∃ s', Alone kind.lock patience i s s' ∧ s'.procs i = .gaveUp b) :=
  gets_lock (sound_lock kind) h hnone hi

/-- One process has found the lock held, twice, and the other has released it since. -/
theorem spinLock_gets_lock_released :
    ∃ s : State (BitVec 8) ℕ ℕ Bool, Run.run (step Kind.sLockI386.lock (times 1000))
      (start Kind.sLockI386.lock 0) [.enter true .done, .step true, .step true, .step true,
        .enter false count, .step false, .step false, .step false, .step true] = some s ∧
      ∃ s', Alone Kind.sLockI386.lock (times 1000) false s s' ∧ s'.procs false = .inside count := by
  have hrun : (Run.run (step Kind.sLockI386.lock (times 1000)) (start Kind.sLockI386.lock 0)
      [.enter true .done, .step true, .step true, .step true, .enter false count, .step false,
        .step false, .step false, .step true]).map (fun s => (s.procs true, s.procs false)) =
      some (.idle, .acquiring count (.done false) (some 1000)) := rfl
  obtain ⟨s, h, hs⟩ := Option.map_eq_some_iff.mp hrun
  obtain ⟨htrue, hfalse⟩ := Prod.mk.inj hs
  refine ⟨s, h, (spinLock_gets_lock .sLockI386 (times 1000) h (fun i => ?_)
    hfalse).resolve_right ?_⟩
  · cases i with
    | true => exact htrue ▸ id
    | false => exact hfalse ▸ id
  · -- it waits once more
    rintro ⟨-, ⟨d, hd, hwait⟩, -⟩
    obtain rfl := Option.some.inj hd
    cases hwait

end Runs

end SpinLock
