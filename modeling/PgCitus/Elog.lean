import PgCitus.Library.Simulation

/-!
# Errors and their handlers

`PG_TRY`, `PG_CATCH`, `PG_FINALLY` and `PG_END_TRY` of `utils/elog.h`, and the construct
that `storage/ipc.h` builds from them. They are macros around `sigsetjmp`, and two global
variables: `PG_exception_stack` points to the buffer that an error jumps to, and
`error_context_stack` to the callbacks that say what was going on.

`Code` is the C code that there is after the macros, and `step` a machine that runs it:
a buffer lies in the block that declares it, `siglongjmp` goes to the block of its buffer
with the variables of that block as they are then, and is undefined when that block is
left already. `Stmt` is the code as it is written, with the constructs as constructs;
`expand` puts the macros in.

An error jumps to `PG_exception_stack`, which is what `ereport(ERROR)` and `pg_re_throw`
end with. Where that is null the error is promoted to `FATAL`, and `FATAL` ends the
process after its exit callbacks.

What is reported stays on the error stack until a handler flushes it, and that stack has
room for a small number of levels. This number is a parameter. An error for which there is
no room is a `PANIC`, which ends the process at once.
-/

namespace Elog

variable {σ Cb : Type*}

/-! ## Memory -/

/-- **Memory**, other than the variables of the macros. -/
structure Memory (σ : Type*) where
  /-- What is not the error stack. -/
  vars : σ
  /-- The number of errors on the error stack. -/
  errors : ℕ

namespace Memory

/-- Code that throws no error. -/
def act (f : σ → σ) (m : Memory σ) : Memory σ := { m with vars := f m.vars }

/-- There is room for one more error, of so many levels; `none` is that there is no limit. -/
def hasRoom (levels : Option ℕ) (m : Memory σ) : Bool := levels.all fun n => decide (m.errors < n)

/-- An error is put on the error stack. -/
def push (report : List Cb → σ → σ) (ctx : List Cb) (m : Memory σ) : Memory σ :=
  ⟨report ctx m.vars, m.errors + 1⟩

/-- `FlushErrorState`. -/
def flush (m : Memory σ) : Memory σ := { m with errors := 0 }

end Memory

/-! ## The code after the macros -/

/-- **C code.** A callback for the context of errors is a `Cb`. -/
inductive Code (σ Cb : Type*)
  /-- Code that throws no error. -/
  | act (f : σ → σ)
  | seq (a b : Code σ Cb)
  | ite (c : σ → Bool) (a b : Code σ Cb)
  | whileDo (c : σ → Bool) (a : Code σ Cb)
  /-- Call a function with this body. -/
  | call (a : Code σ Cb)
  | ret
  /-- `cb.previous = error_context_stack; error_context_stack = &cb`. -/
  | pushContext (cb : Cb)
  /-- `error_context_stack = cb.previous`, of the callback that is on top. -/
  | popContext
  /-- `ereport(ERROR, ...)`. What is reported depends on the callbacks. -/
  | ereport (report : List Cb → σ → σ)
  /-- `PG_RE_THROW()`. -/
  | reThrow
  /-- `ereport(FATAL, ...)`. -/
  | fatal (report : List Cb → σ → σ)
  /-- `FlushErrorState()`. -/
  | flushErrorState
  | beforeShmemExit (f : σ → σ)
  /-- `cancel_before_shmem_exit`, of the callback that was registered last. -/
  | cancelBeforeShmemExit
  /-- `do { ... } while (0)`, with the four variables that `PG_TRY` declares. -/
  | block (a : Code σ Cb)
  /-- `if (sigsetjmp(_local_sigjmp_buf, 0) == 0) a else b`. -/
  | ifSigsetjmpZero (a b : Code σ Cb)
  /-- `PG_exception_stack = &_local_sigjmp_buf`. -/
  | pointToLocal
  /-- `PG_exception_stack = _save_exception_stack`. -/
  | restoreExceptionStack
  /-- `error_context_stack = _save_context_stack`. -/
  | restoreContextStack
  /-- `_do_rethrow = true`. -/
  | setDoRethrow
  /-- `if (_do_rethrow) a`. -/
  | ifDoRethrow (a : Code σ Cb)

/-- `PG_END_TRY`. -/
def pgEndTry : Code σ Cb :=
  .seq (.ifDoRethrow .reThrow) (.seq .restoreExceptionStack .restoreContextStack)

/-- `PG_TRY(); a PG_CATCH(); b PG_END_TRY();`. -/
def pgTryCatch (a b : Code σ Cb) : Code σ Cb :=
  .block (.seq
    (.ifSigsetjmpZero (.seq .pointToLocal a)
      (.seq .restoreExceptionStack (.seq .restoreContextStack b)))
    pgEndTry)

/-- `PG_TRY(); a PG_FINALLY(); b PG_END_TRY();`. -/
def pgTryFinally (a b : Code σ Cb) : Code σ Cb :=
  .block (.seq
    (.ifSigsetjmpZero (.seq .pointToLocal a) .setDoRethrow)
    (.seq (.seq .restoreExceptionStack (.seq .restoreContextStack b)) pgEndTry))

/-- `PG_ENSURE_ERROR_CLEANUP(f, arg); a PG_END_ENSURE_ERROR_CLEANUP(f, arg);`. -/
def pgEnsureErrorCleanup (f : σ → σ) (a : Code σ Cb) : Code σ Cb :=
  .seq (.beforeShmemExit f)
    (pgTryCatch (.seq a .cancelBeforeShmemExit)
      (.seq .cancelBeforeShmemExit (.seq (.act f) .reThrow)))

/-! ## The machine -/

/-- What is left to do: code, and the ends of the blocks and functions that it is in. -/
inductive Item (σ Cb : Type*)
  | code (a : Code σ Cb)
  | endBlock
  | endCall

/-- The variables of a block. -/
structure Scope (σ Cb : Type*) where
  /-- The address of `_local_sigjmp_buf`. -/
  id : ℕ
  saveExceptionStack : Option ℕ
  saveContextStack : List Cb
  /-- What is left to do when `sigsetjmp` returns for the second time. -/
  localSigjmpBuf : Option (List (Item σ Cb))
  doRethrow : Bool

/-- **The state of the machine.** -/
structure Machine (σ Cb : Type*) where
  cont : List (Item σ Cb)
  /-- The blocks the code is in, the innermost first. -/
  scopes : List (Scope σ Cb)
  pgExceptionStack : Option ℕ
  errorContextStack : List Cb
  /-- The callbacks of `before_shmem_exit`, the last first. -/
  exitCallbacks : List (σ → σ)
  /-- The next address for a buffer. -/
  next : ℕ
  mem : Memory σ

/-- How a process ends: its code comes to the end, or `proc_exit`, or `PANIC`. -/
inductive Outcome (σ Cb : Type*)
  | finished (pgExceptionStack : Option ℕ) (errorContextStack : List Cb)
      (exitCallbacks : List (σ → σ)) (mem : Memory σ)
  | exited (mem : Memory σ)
  | panicked (mem : Memory σ)

/-- `proc_exit`: the callbacks, the last first. -/
def procExit (callbacks : List (σ → σ)) (mem : Memory σ) : Memory σ :=
  callbacks.foldl (fun s f => s.act f) mem

/-- `siglongjmp(*PG_exception_stack, 1)`, or the end of the process where that is null. It is
undefined when the block of the buffer is left, or its buffer not set. -/
def siglongjmp (m : Machine σ Cb) : Loop.Step (Machine σ Cb) (Outcome σ Cb) :=
  match m.pgExceptionStack with
  | none => .done (.exited (procExit m.exitCallbacks m.mem))
  | some id =>
    match m.scopes.dropWhile (fun sc => sc.id ≠ id) with
    | [] => .stuck
    | sc :: outer =>
      match sc.localSigjmpBuf with
      | none => .stuck
      | some cont => .next { m with cont := cont, scopes := sc :: outer }

/-- What is left to do after the function that is running, and the blocks that are left
then. -/
def leaveCall : List (Item σ Cb) → List (Scope σ Cb) →
    Option (List (Item σ Cb) × List (Scope σ Cb))
  | [], _ => none
  | .endCall :: k, scopes => some (k, scopes)
  | .endBlock :: k, scopes => leaveCall k scopes.tail
  | .code _ :: k, scopes => leaveCall k scopes

/-- **One step of code**, with `k` left to do after it. -/
def exec (levels : Option ℕ) (m : Machine σ Cb) (k : List (Item σ Cb)) :
    Code σ Cb → Loop.Step (Machine σ Cb) (Outcome σ Cb)
  | .act f => .next { m with cont := k, mem := m.mem.act f }
  | .seq a b => .next { m with cont := .code a :: .code b :: k }
  | .ite c a b => .next { m with cont := .code (if c m.mem.vars then a else b) :: k }
  | .whileDo c a =>
    .next { m with cont := if c m.mem.vars then .code a :: .code (.whileDo c a) :: k else k }
  | .call a => .next { m with cont := .code a :: .endCall :: k }
  | .ret =>
    match leaveCall k m.scopes with
    | none => .stuck
    | some (k, scopes) => .next { m with cont := k, scopes := scopes }
  | .pushContext cb =>
    .next { m with cont := k, errorContextStack := cb :: m.errorContextStack }
  | .popContext => .next { m with cont := k, errorContextStack := m.errorContextStack.tail }
  | .ereport report =>
    -- before anything is reported there has to be room for it
    if m.mem.hasRoom levels then
      siglongjmp { m with cont := k, mem := m.mem.push report m.errorContextStack }
    else .done (.panicked m.mem)
  | .reThrow => siglongjmp { m with cont := k }
  | .fatal report =>
    if m.mem.hasRoom levels then
      .done (.exited (procExit m.exitCallbacks (m.mem.push report m.errorContextStack)))
    else .done (.panicked m.mem)
  | .flushErrorState => .next { m with cont := k, mem := m.mem.flush }
  | .beforeShmemExit f => .next { m with cont := k, exitCallbacks := f :: m.exitCallbacks }
  | .cancelBeforeShmemExit => .next { m with cont := k, exitCallbacks := m.exitCallbacks.tail }
  | .block a => .next { m with
      cont := .code a :: .endBlock :: k
      scopes := ⟨m.next, m.pgExceptionStack, m.errorContextStack, none, false⟩ :: m.scopes
      next := m.next + 1 }
  | .ifSigsetjmpZero a b =>
    match m.scopes with
    | [] => .stuck
    | sc :: outer => .next { m with
        cont := .code a :: k
        scopes := { sc with localSigjmpBuf := some (.code b :: k) } :: outer }
  | .pointToLocal =>
    match m.scopes with
    | [] => .stuck
    | sc :: _ => .next { m with cont := k, pgExceptionStack := some sc.id }
  | .restoreExceptionStack =>
    match m.scopes with
    | [] => .stuck
    | sc :: _ => .next { m with cont := k, pgExceptionStack := sc.saveExceptionStack }
  | .restoreContextStack =>
    match m.scopes with
    | [] => .stuck
    | sc :: _ => .next { m with cont := k, errorContextStack := sc.saveContextStack }
  | .setDoRethrow =>
    match m.scopes with
    | [] => .stuck
    | sc :: outer => .next { m with
        cont := k, scopes := { sc with doRethrow := true } :: outer }
  | .ifDoRethrow a =>
    match m.scopes with
    | [] => .stuck
    | sc :: _ => .next { m with cont := if sc.doRethrow then .code a :: k else k }

/-- **One step of the machine.** -/
def step (levels : Option ℕ) (m : Machine σ Cb) : Loop.Step (Machine σ Cb) (Outcome σ Cb) :=
  match m.cont with
  | [] => .done (.finished m.pgExceptionStack m.errorContextStack m.exitCallbacks m.mem)
  | .endCall :: k => .next { m with cont := k }
  | .endBlock :: k => .next { m with cont := k, scopes := m.scopes.tail }
  | .code a :: k => exec levels m k a

/-- A process that calls a function with this body, with nothing set up. -/
def start (a : Code σ Cb) (s : σ) : Machine σ Cb :=
  ⟨[.code (.call a)], [], none, [], [], 0, ⟨s, 0⟩⟩

/-! ## The code as it is written -/

/-- **Code with the constructs as constructs.** -/
inductive Stmt (σ Cb : Type*)
  | act (f : σ → σ)
  | seq (a b : Stmt σ Cb)
  | ite (c : σ → Bool) (a b : Stmt σ Cb)
  | whileDo (c : σ → Bool) (a : Stmt σ Cb)
  | call (a : Stmt σ Cb)
  | ret
  | ereport (report : List Cb → σ → σ)
  | reThrow
  | fatal (report : List Cb → σ → σ)
  | flushErrorState
  /-- Code with a callback for the context of its errors. -/
  | withContext (cb : Cb) (a : Stmt σ Cb)
  | tryCatch (a b : Stmt σ Cb)
  | tryFinally (a b : Stmt σ Cb)
  | ensureErrorCleanup (f : σ → σ) (a : Stmt σ Cb)

namespace Stmt

/-- What the preprocessor makes of it. -/
def expand : Stmt σ Cb → Code σ Cb
  | act f => .act f
  | seq a b => .seq a.expand b.expand
  | ite c a b => .ite c a.expand b.expand
  | whileDo c a => .whileDo c a.expand
  | call a => .call a.expand
  | ret => .ret
  | ereport report => .ereport report
  | reThrow => .reThrow
  | fatal report => .fatal report
  | flushErrorState => .flushErrorState
  | withContext cb a => .seq (.pushContext cb) (.seq a.expand .popContext)
  | tryCatch a b => pgTryCatch a.expand b.expand
  | tryFinally a b => pgTryFinally a.expand b.expand
  | ensureErrorCleanup f a => pgEnsureErrorCleanup f a.expand

/-- There is a `return` in it, of the function that it is in. -/
def mayReturn : Stmt σ Cb → Bool
  | ret => true
  | seq a b | ite _ a b | tryCatch a b | tryFinally a b => a.mayReturn || b.mayReturn
  | whileDo _ a | withContext _ a | ensureErrorCleanup _ a => a.mayReturn
  | act _ | call _ | ereport _ | reThrow | fatal _ | flushErrorState => false

/-- **No `return` leaves a construct**: none from the section that an error of which is
caught, and none that leaves a callback for the context behind. From a section that
handles an error there may be one. -/
def staysInside : Stmt σ Cb → Bool
  | tryCatch a b | tryFinally a b => !a.mayReturn && a.staysInside && b.staysInside
  | withContext _ a | ensureErrorCleanup _ a => !a.mayReturn && a.staysInside
  | seq a b | ite _ a b => a.staysInside && b.staysInside
  | whileDo _ a | call a => a.staysInside
  | act _ | ret | ereport _ | reThrow | fatal _ | flushErrorState => true

end Stmt

/-! ## What the constructs mean -/

/-- How code ends: it comes to its end, it returns, it throws an error, or the process ends,
with what is to be done at its end or at once. -/
inductive End
  | fell
  | returned
  | threw
  | exited
  | panicked
  deriving DecidableEq, Repr

/-- How code ends and the memory then; `none` is that the fuel ran out. -/
abbrev Result (σ : Type*) := Option (End × Memory σ)

namespace Result

/-- What follows code that comes to its end. -/
def andThen (f : Memory σ → Result σ) : Result σ → Result σ
  | some (.fell, s) => f s
  | r => r

/-- A function ends where it returns. -/
def leaveFunction : Result σ → Result σ
  | some (.returned, s) => some (.fell, s)
  | r => r

/-- An error is handled. -/
def handle (f : Memory σ → Result σ) : Result σ → Result σ
  | some (.threw, s) => f s
  | r => r

/-- What has come to its end was done for an error, and the error goes on. -/
def throwOn : Result σ → Result σ
  | some (.fell, s) => some (.threw, s)
  | r => r

/-- There is something to do in any case, before the error goes on if there is one. -/
def cleanUp (f : Memory σ → Result σ) : Result σ → Result σ
  | some (.fell, s) => f s
  | some (.threw, s) => throwOn (f s)
  | r => r

/-- There is something to do for an error, or before the process ends. -/
def cleanUpError (f : σ → σ) : Result σ → Result σ
  | some (.threw, s) => some (.threw, s.act f)
  | some (.exited, s) => some (.exited, s.act f)
  | r => r

end Result

/-- `while`, for at most so many rounds of a body. -/
def rounds (c : σ → Bool) (body : Memory σ → Result σ) : ℕ → Memory σ → Result σ
  | 0, _ => none
  | n + 1, s => if c s.vars then (body s).andThen (rounds c body n) else some (.fell, s)

/-- **What code does**, with the callbacks that its errors are reported with. An error ends
everything up to the construct around it; one that there is no room for ends the process. -/
def eval (levels : Option ℕ) (fuel : ℕ) : Stmt σ Cb → List Cb → Memory σ → Result σ
  | .act f, _, s => some (.fell, s.act f)
  | .seq a b, ctx, s => (eval levels fuel a ctx s).andThen (eval levels fuel b ctx)
  | .ite c a b, ctx, s => if c s.vars then eval levels fuel a ctx s else eval levels fuel b ctx s
  | .whileDo c a, ctx, s => rounds c (eval levels fuel a ctx) fuel s
  | .call a, ctx, s => (eval levels fuel a ctx s).leaveFunction
  | .ret, _, s => some (.returned, s)
  | .ereport report, ctx, s =>
    if s.hasRoom levels then some (.threw, s.push report ctx) else some (.panicked, s)
  | .reThrow, _, s => some (.threw, s)
  | .fatal report, ctx, s =>
    if s.hasRoom levels then some (.exited, s.push report ctx) else some (.panicked, s)
  | .flushErrorState, _, s => some (.fell, s.flush)
  | .withContext cb a, ctx, s => eval levels fuel a (cb :: ctx) s
  | .tryCatch a b, ctx, s => (eval levels fuel a ctx s).handle (eval levels fuel b ctx)
  | .tryFinally a b, ctx, s => (eval levels fuel a ctx s).cleanUp (eval levels fuel b ctx)
  | .ensureErrorCleanup f a, ctx, s => (eval levels fuel a ctx s).cleanUpError f

/-- How a process ends that calls a function: an error that is not handled is promoted to
`FATAL`, and otherwise everything is as it was. -/
def outcome : End × Memory σ → Outcome σ Cb
  | (.fell, s) | (.returned, s) => .finished none [] [] s
  | (.threw, s) | (.exited, s) => .exited s
  | (.panicked, s) => .panicked s

end Elog
