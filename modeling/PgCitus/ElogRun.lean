import PgCitus.Elog

/-!
# The macros do what the constructs mean

Wherever code with the constructs is run, after the macros are put in, the machine comes
to where the evaluator says (`leads`). Code that comes to its end has left the variables
of all blocks, `PG_exception_stack` and `error_context_stack` as they were. Code that
throws an error is about to jump to what `PG_exception_stack` pointed to when it started,
with no more than blocks of its own around it, so that the handler that is jumped to is
the innermost one around it and its block is there.

It follows that the machine ends exactly as the evaluator says, and never does what is
not defined (`pgTry_refines`). The evaluator in turn does the same for any number of levels
of errors, up to the errors that there is no room for (`eval_upTo`).
-/

namespace Elog

open Loop

variable {σ Cb : Type*}

/-! ## Where code leads -/

/-- What code finds, and leaves as it was. -/
structure Env (σ Cb : Type*) where
  scopes : List (Scope σ Cb)
  exceptionStack : Option ℕ
  contextStack : List Cb
  exitCallbacks : List (σ → σ)

/-- The machine with this to do. -/
def Env.machine (e : Env σ Cb) (cont : List (Item σ Cb)) (next : ℕ) (mem : Memory σ) :
    Machine σ Cb :=
  ⟨cont, e.scopes, e.exceptionStack, e.contextStack, e.exitCallbacks, next, mem⟩

/-- **An error is thrown** by code: it jumps from this state, where the blocks are those
around the code and blocks of the code itself. -/
structure Throws (e : Env σ Cb) (next : ℕ) (s : Memory σ) (u : Machine σ Cb) : Prop where
  exceptionStack : u.pgExceptionStack = e.exceptionStack
  exitCallbacks : u.exitCallbacks = e.exitCallbacks
  mem : u.mem = s
  scopes : ∃ inner, u.scopes = inner ++ e.scopes ∧ ∀ sc ∈ inner, next ≤ sc.id
  next_le : next ≤ u.next

/-- **Where code leads**, with `k` left to do after it, if this is what it does. -/
def Leads (levels : Option ℕ) (fuel : ℕ) (m : Machine σ Cb) (k : List (Item σ Cb)) (e : Env σ Cb)
    (next : ℕ) : Result σ → Prop
  | some (.fell, s) => ∃ next', next ≤ next' ∧ Reached (step levels) m (e.machine k next' s)
  | some (.returned, s) => ∃ scopes k' next', next ≤ next' ∧
      Reached (step levels) m ({ e with scopes := scopes }.machine (.code .ret :: k') next' s) ∧
      leaveCall k' scopes = leaveCall k e.scopes
  | some (.threw, s) => ∃ t u, Reached (step levels) m t ∧ step levels t = siglongjmp u ∧
      Throws e next s u
  | some (.exited, s) => Ends (step levels) m (.exited (procExit e.exitCallbacks s))
  | some (.panicked, s) => Ends (step levels) m (.panicked s)
  | none => ∃ n t, fuel ≤ n ∧ Passes (step levels) n m t

variable {fuel fuel' next next' : ℕ} {m m' : Machine σ Cb} {k : List (Item σ Cb)} {e : Env σ Cb}
  {r : Result σ} {s : Memory σ} {levels : Option ℕ}

theorem Leads.head (hm : Reached (step levels) m m') (h : Leads levels fuel m' k e next r) :
    Leads levels fuel m k e next r := by
  match r, h with
  | some (.fell, s), ⟨next', hle, hr⟩ => exact ⟨next', hle, hm.trans hr⟩
  | some (.returned, s), ⟨scopes, k', next', hle, hr, hk⟩ =>
    exact ⟨scopes, k', next', hle, hm.trans hr, hk⟩
  | some (.threw, s), ⟨t, u, hr, hu⟩ => exact ⟨t, u, hm.trans hr, hu⟩
  | some (.exited, s), h => exact hm.ends h
  | some (.panicked, s), h => exact hm.ends h
  | none, ⟨n, t, hle, hn⟩ =>
    obtain ⟨i, hi⟩ := reached_iff_passes.mp hm
    exact ⟨i + n, t, Nat.le_trans hle (Nat.le_add_left n i), hi.trans hn⟩

/-- A pass before uses up fuel. -/
theorem Leads.pass (hm : step levels m = .next m') (h : Leads levels fuel m' k e next r) :
    Leads levels (fuel + 1) m k e next r := by
  match r, h with
  | some (.fell, s), h => exact Leads.head (.one hm) h
  | some (.returned, s), h => exact Leads.head (.one hm) h
  | some (.threw, s), h => exact Leads.head (.one hm) h
  | some (.exited, s), h => exact Leads.head (.one hm) h
  | some (.panicked, s), h => exact Leads.head (.one hm) h
  | none, ⟨n, t, hle, hn⟩ => exact ⟨n + 1, t, Nat.succ_le_succ hle, .cons hm hn⟩

theorem Throws.weaken {u : Machine σ Cb} (h : Throws e next' s u) (hle : next ≤ next') :
    Throws e next s u where
  exceptionStack := h.exceptionStack
  exitCallbacks := h.exitCallbacks
  mem := h.mem
  scopes := by
    obtain ⟨inner, heq, hid⟩ := h.scopes
    exact ⟨inner, heq, fun sc hsc => Nat.le_trans hle (hid sc hsc)⟩
  next_le := Nat.le_trans hle h.next_le

theorem Leads.weaken (h : Leads levels fuel' m k e next' r) (hle : next ≤ next')
    (hf : fuel ≤ fuel') : Leads levels fuel m k e next r := by
  match r, h with
  | some (.fell, s), ⟨n, hn, hr⟩ => exact ⟨n, Nat.le_trans hle hn, hr⟩
  | some (.returned, s), ⟨scopes, k', n, hn, hr, hk⟩ =>
    exact ⟨scopes, k', n, Nat.le_trans hle hn, hr, hk⟩
  | some (.threw, s), ⟨t, u, hr, hu, ht⟩ => exact ⟨t, u, hr, hu, ht.weaken hle⟩
  | some (.exited, s), h => exact h
  | some (.panicked, s), h => exact h
  | none, ⟨n, t, hn, hp⟩ => exact ⟨n, t, Nat.le_trans hf hn, hp⟩

/-- **One after the other.** -/
theorem Leads.andThen {b : Code σ Cb} {rb : Memory σ → Result σ}
    (h : Leads levels fuel m (.code b :: k) e next r)
    (hb : ∀ next' s, next ≤ next' →
      Leads levels fuel' (e.machine (.code b :: k) next' s) k e next' (rb s)) (hf : fuel' ≤ fuel) :
    Leads levels fuel' m k e next (r.andThen rb) := by
  match r, h with
  | some (.fell, s), ⟨next', hle, hr⟩ => exact ((hb next' s hle).weaken hle (Nat.le_refl _)).head hr
  | some (.returned, s), ⟨scopes, k', next', hle, hr, hk⟩ =>
    exact ⟨scopes, k', next', hle, hr, hk⟩
  | some (.threw, s), h => exact h
  | some (.exited, s), h => exact h
  | some (.panicked, s), h => exact h
  | none, ⟨n, t, hn, hp⟩ => exact ⟨n, t, Nat.le_trans hf hn, hp⟩

/-! ## The parts of the macros -/

/-- What the section that is tried finds. -/
def Env.inTry (e : Env σ Cb) (next : ℕ) (cont : List (Item σ Cb)) : Env σ Cb :=
  ⟨⟨next, e.exceptionStack, e.contextStack, some cont, false⟩ :: e.scopes, some next,
    e.contextStack, e.exitCallbacks⟩

/-- What the section that handles an error finds. -/
def Env.inHandler (e : Env σ Cb) (next : ℕ) (cont : List (Item σ Cb)) (doRethrow : Bool) :
    Env σ Cb :=
  { e with scopes := ⟨next, e.exceptionStack, e.contextStack, some cont, doRethrow⟩ :: e.scopes }

/-- `PG_TRY` up to the section that is tried. -/
theorem reached_try (a b c : Code σ Cb) : Reached (step levels)
    (e.machine (.code (.block (.seq (.ifSigsetjmpZero (.seq .pointToLocal a) b) c)) :: k) next s)
    ((e.inTry next (.code b :: .code c :: .endBlock :: k)).machine
      (.code a :: .code c :: .endBlock :: k) (next + 1) s) :=
  .head rfl (.head rfl (.head rfl (.head rfl (.head rfl .start))))

/-- Both stacks are set to what was saved. -/
theorem reached_restore (sc : Scope σ Cb) (outer : List (Scope σ Cb)) (exc : Option ℕ)
    (ctx : List Cb) (callbacks : List (σ → σ)) (b : Code σ Cb) : Reached (step levels)
    ⟨.code (.seq .restoreExceptionStack (.seq .restoreContextStack b)) :: k, sc :: outer, exc, ctx,
      callbacks, next, s⟩
    ⟨.code b :: k, sc :: outer, sc.saveExceptionStack, sc.saveContextStack, callbacks, next, s⟩ :=
  .head rfl (.head rfl (.head rfl (.head rfl .start)))

/-- `PG_END_TRY`, where no error is to be thrown again. -/
theorem reached_pgEndTry (sc : Scope σ Cb) (outer : List (Scope σ Cb)) (exc : Option ℕ)
    (ctx : List Cb) (callbacks : List (σ → σ)) (hsc : sc.doRethrow = false) : Reached (step levels)
    ⟨.code pgEndTry :: .endBlock :: k, sc :: outer, exc, ctx, callbacks, next, s⟩
    ⟨k, outer, sc.saveExceptionStack, sc.saveContextStack, callbacks, next, s⟩ := by
  have hif : step levels ⟨.code (.ifDoRethrow .reThrow) ::
        .code (.seq .restoreExceptionStack .restoreContextStack) :: .endBlock :: k,
        sc :: outer, exc, ctx, callbacks, next, s⟩
      = .next ⟨.code (.seq .restoreExceptionStack .restoreContextStack) :: .endBlock :: k,
        sc :: outer, exc, ctx, callbacks, next, s⟩ := by
    simp only [step, exec, hsc]
    rfl
  exact .head rfl (.head hif (.head rfl (.head rfl (.head rfl (.head rfl .start)))))

/-- **An error comes to the innermost handler.** The blocks inside are left, and the block
of the handler is there. -/
theorem Throws.siglongjmp_eq {u : Machine σ Cb} {cont : List (Item σ Cb)}
    (h : Throws (e.inTry next cont) (next + 1) s u) :
    siglongjmp u = .next ⟨cont, (e.inTry next cont).scopes, some next, u.errorContextStack,
      e.exitCallbacks, u.next, s⟩ := by
  obtain ⟨inner, heq, hid⟩ := h.scopes
  have hdrop : u.scopes.dropWhile (fun sc => sc.id ≠ next) = (e.inTry next cont).scopes := by
    rw [heq, List.dropWhile_append_of_pos]
    · show List.dropWhile _ (_ :: e.scopes) = _
      rw [List.dropWhile_cons_of_neg (by simp)]
      rfl
    · intro sc hsc
      have hlt : next < sc.id := hid sc hsc
      simpa using (Nat.ne_of_gt hlt)
  have hexc : u.pgExceptionStack = some next := h.exceptionStack
  have hcbs : u.exitCallbacks = e.exitCallbacks := h.exitCallbacks
  simp only [siglongjmp, hexc, hdrop, Env.inTry, hcbs, h.mem]

/-- The memory when an error comes to a handler, up to the code that handles it. -/
theorem Throws.reached_handler {t u : Machine σ Cb} {b c : Code σ Cb} {l : List (Item σ Cb)}
    (hu : step levels t = siglongjmp u)
    (h : Throws (e.inTry next (.code (.seq .restoreExceptionStack
      (.seq .restoreContextStack b)) :: .code c :: l)) (next + 1) s u) :
    Reached (step levels) t ((e.inHandler next (.code (.seq .restoreExceptionStack
      (.seq .restoreContextStack b)) :: .code c :: l) false).machine
        (.code b :: .code c :: l) u.next s) :=
  .head (hu.trans h.siglongjmp_eq) (reached_restore _ _ _ _ _ _)

/-- An error thrown while one is handled, or while cleaning up, leaves the block as well. -/
theorem Throws.outOfBlock {cont : List (Item σ Cb)} {doRethrow : Bool} {u : Machine σ Cb}
    (h : Throws (e.inHandler next cont doRethrow) next' s u) (hle : next ≤ next') :
    Throws e next s u where
  exceptionStack := h.exceptionStack
  exitCallbacks := h.exitCallbacks
  mem := h.mem
  scopes := by
    obtain ⟨inner, heq, hid⟩ := h.scopes
    refine ⟨inner ++ [⟨next, e.exceptionStack, e.contextStack, some cont, doRethrow⟩], ?_, ?_⟩
    · exact heq.trans (List.append_assoc inner [_] _).symm
    · intro sc hsc
      rcases List.mem_append.mp hsc with hsc | hsc
      · exact Nat.le_trans hle (hid sc hsc)
      · exact Nat.le_of_eq (congrArg Scope.id (List.mem_singleton.mp hsc)).symm
  next_le := Nat.le_trans hle h.next_le

/-- **The end of a construct** after code that handles an error, or cleans up after none. -/
theorem Leads.endTry {cont : List (Item σ Cb)}
    (h : Leads levels fuel m (.code pgEndTry :: .endBlock :: k) (e.inHandler next cont false)
      next' r) (hle : next ≤ next') : Leads levels fuel m k e next r := by
  match r, h with
  | some (.fell, s), ⟨n, hn, hr⟩ =>
    exact ⟨n, Nat.le_trans hle hn, hr.trans (reached_pgEndTry _ _ _ _ _ rfl)⟩
  | some (.returned, s), ⟨scopes, k', n, hn, hr, hk⟩ =>
    exact ⟨scopes, k', n, Nat.le_trans hle hn, hr, hk⟩
  | some (.threw, s), ⟨t, u, hr, hu, ht⟩ => exact ⟨t, u, hr, hu, ht.outOfBlock hle⟩
  | some (.exited, s), h => exact h
  | some (.panicked, s), h => exact h
  | none, h => exact h

/-- The end of a construct after code that cleaned up for an error: the error is thrown on. -/
theorem Leads.endTry_rethrow {cont : List (Item σ Cb)}
    (h : Leads levels fuel m (.code pgEndTry :: .endBlock :: k) (e.inHandler next cont true)
      next' r) (hle : next ≤ next') : Leads levels fuel m k e next r.throwOn := by
  match r, h with
  | some (.fell, s), ⟨n, hn, hr⟩ =>
    -- `_do_rethrow` is set, and what is left is `PG_RE_THROW`
    have hthrow : Throws (e.inHandler next cont true) n s
        ((e.inHandler next cont true).machine
          (.code (.seq .restoreExceptionStack .restoreContextStack) :: .endBlock :: k) n s) :=
      ⟨rfl, rfl, rfl, ⟨[], rfl, nofun⟩, Nat.le_refl n⟩
    exact ⟨_, _, hr.trans (.head rfl (.head rfl .start)), rfl,
      hthrow.outOfBlock (Nat.le_trans hle hn)⟩
  | some (.returned, s), ⟨scopes, k', n, hn, hr, hk⟩ =>
    exact ⟨scopes, k', n, Nat.le_trans hle hn, hr, hk⟩
  | some (.threw, s), ⟨t, u, hr, hu, ht⟩ => exact ⟨t, u, hr, hu, ht.outOfBlock hle⟩
  | some (.exited, s), h => exact h
  | some (.panicked, s), h => exact h
  | none, h => exact h

/-! ## The constructs -/

theorem rounds_ne_returned {c : σ → Bool} {body : Memory σ → Result σ} {s' : Memory σ}
    (hbody : ∀ s, body s ≠ some (.returned, s')) (n : ℕ) (s : Memory σ) :
    rounds c body n s ≠ some (.returned, s') := by
  induction n generalizing s with
  | zero => exact nofun
  | succ n ih =>
    unfold rounds
    split
    · unfold Result.andThen
      split
      · exact ih _
      · exact hbody _
    · exact nofun

/-- Code in which there is no `return` does not return. -/
theorem eval_ne_returned (levels : Option ℕ) (fuel : ℕ) {a : Stmt σ Cb} (h : a.mayReturn = false)
    (ctx : List Cb) (s s' : Memory σ) : eval levels fuel a ctx s ≠ some (.returned, s') := by
  induction a generalizing ctx s with
  | act | reThrow | flushErrorState => exact nofun
  | ereport | fatal =>
    unfold eval
    split <;> exact nofun
  | ret => cases h
  | seq a b iha ihb =>
    obtain ⟨ha, hb⟩ := Bool.or_eq_false_iff.mp h
    unfold eval Result.andThen
    split
    · exact ihb hb _ _
    · exact iha ha _ _
  | tryCatch a b iha ihb =>
    obtain ⟨ha, hb⟩ := Bool.or_eq_false_iff.mp h
    unfold eval Result.handle
    split
    · exact ihb hb _ _
    · exact iha ha _ _
  | tryFinally a b iha ihb =>
    obtain ⟨ha, hb⟩ := Bool.or_eq_false_iff.mp h
    unfold eval Result.cleanUp
    split
    · exact ihb hb _ _
    · unfold Result.throwOn
      split
      · exact nofun
      · exact ihb hb _ _
    · exact iha ha _ _
  | ite c a b iha ihb =>
    obtain ⟨ha, hb⟩ := Bool.or_eq_false_iff.mp h
    unfold eval
    split
    · exact iha ha _ _
    · exact ihb hb _ _
  | whileDo c a ih => exact rounds_ne_returned (ih h ctx) fuel s
  | call a ih =>
    unfold eval Result.leaveFunction
    split
    · exact nofun
    · rename_i hne
      exact hne _
  | withContext cb a ih => exact ih h _ _
  | ensureErrorCleanup f a ih =>
    unfold eval Result.cleanUpError
    split
    · exact nofun
    · exact nofun
    · exact ih h _ _

/-- **`while`**: every round is a pass of the machine at least. -/
theorem leads_whileDo {c : σ → Bool} {a : Code σ Cb} {body : Memory σ → Result σ}
    (hbody : ∀ k next s, Leads levels fuel (e.machine (.code a :: k) next s) k e next (body s))
    (n : ℕ) (hn : n ≤ fuel) (next : ℕ) (s : Memory σ) :
    Leads levels n (e.machine (.code (.whileDo c a) :: k) next s) k e next (rounds c body n s) := by
  induction n generalizing next s with
  | zero => exact ⟨0, _, Nat.le_refl 0, .nil _⟩
  | succ n ih =>
    have hpass : step levels (e.machine (.code (.whileDo c a) :: k) next s) = .next (e.machine
        (if c s.vars then .code a :: .code (.whileDo c a) :: k else k) next s) := rfl
    refine .pass hpass ?_
    unfold rounds
    split
    · have hle : n ≤ fuel := Nat.le_of_succ_le hn
      exact (hbody (.code (.whileDo c a) :: k) next s).andThen (fun next' s _ => ih hle next' s) hle
    · exact ⟨next, Nat.le_refl next, .start⟩

/-- `return` leaves the function, and the blocks of it. -/
theorem step_ret {k' : List (Item σ Cb)} (hm : m.cont = .code .ret :: k')
    {outer : List (Scope σ Cb)} (hk : leaveCall k' m.scopes = some (k, outer)) :
    step levels m = .next { m with cont := k, scopes := outer } := by
  simp only [step, hm, exec, hk]

/-- A function ends where it returns. -/
theorem Leads.endCall (h : Leads levels fuel m (.endCall :: k) e next r) :
    Leads levels fuel m k e next r.leaveFunction := by
  match r, h with
  | some (.fell, s), ⟨n, hn, hr⟩ => exact ⟨n, hn, hr.pass rfl⟩
  | some (.returned, s), ⟨scopes, k', n, hn, hr, hk⟩ =>
    exact ⟨n, hn, hr.pass (step_ret rfl hk)⟩
  | some (.threw, s), h => exact h
  | some (.exited, s), h => exact h
  | some (.panicked, s), h => exact h
  | none, h => exact h

/-- A callback for the context is taken away where the code comes to its end. -/
theorem Leads.popContext {cb : Cb} (h : Leads levels fuel m (.code .popContext :: k)
    { e with contextStack := cb :: e.contextStack } next r)
    (hret : ∀ s, r ≠ some (.returned, s)) : Leads levels fuel m k e next r := by
  match r, h with
  | some (.fell, s), ⟨n, hn, hr⟩ => exact ⟨n, hn, hr.pass rfl⟩
  | some (.returned, s), _ => exact absurd rfl (hret s)
  | some (.threw, s), ⟨t, u, hr, hu, ht⟩ =>
    exact ⟨t, u, hr, hu, ht.exceptionStack, ht.exitCallbacks, ht.mem, ht.scopes, ht.next_le⟩
  | some (.exited, s), h => exact h
  | some (.panicked, s), h => exact h
  | none, h => exact h

section Try

variable {a b : Code σ Cb} {ra : Result σ} {rb : Memory σ → Result σ}

/-- **Code does this**, whatever the blocks around it and the handler that its errors jump
to are. -/
def Does (levels : Option ℕ) (fuel : ℕ) (a : Code σ Cb) (e : Env σ Cb) (s : Memory σ)
    (r : Result σ) : Prop :=
  ∀ k scopes exc next, Leads levels fuel
    (({ e with scopes := scopes, exceptionStack := exc } : Env σ Cb).machine (.code a :: k) next s)
    k { e with scopes := scopes, exceptionStack := exc } next r

theorem Does.seq (ha : Does levels fuel a e s ra) (hb : ∀ s, Does levels fuel b e s (rb s)) :
    Does levels fuel (.seq a b) e s (ra.andThen rb) := by
  intro k scopes exc next
  refine .head (.one rfl) ((ha _ scopes exc next).andThen ?_ (Nat.le_refl fuel))
  exact fun next' s _ => hb s k scopes exc next'

theorem Does.call (ha : Does levels fuel a e s ra) :
    Does levels fuel (.call a) e s ra.leaveFunction :=
  fun k scopes exc next => .head (.one rfl) (ha (.endCall :: k) scopes exc next).endCall

/-- **`PG_TRY` with `PG_CATCH`.** -/
theorem Does.tryCatch (ha : Does levels fuel a e s ra) (hb : ∀ s, Does levels fuel b e s (rb s))
    (hret : ∀ s, ra ≠ some (.returned, s)) :
    Does levels fuel (pgTryCatch a b) e s (ra.handle rb) := by
  intro k scopes exc next
  let e₀ : Env σ Cb := { e with scopes := scopes, exceptionStack := exc }
  refine .head (reached_try _ _ _) ?_
  have h := ha (.code pgEndTry :: .endBlock :: k) (e₀.inTry next (.code (.seq .restoreExceptionStack
    (.seq .restoreContextStack b)) :: .code pgEndTry :: .endBlock :: k)).scopes (some next)
    (next + 1)
  match ra, h with
  | some (.fell, s), ⟨n, hn, hr⟩ =>
    exact ⟨n, Nat.le_of_succ_le hn, hr.trans (reached_pgEndTry _ _ _ _ _ rfl)⟩
  | some (.returned, s), _ => exact absurd rfl (hret s)
  | some (.threw, s), ⟨t, u, hr, hu, ht⟩ =>
    exact .head (hr.trans (ht.reached_handler hu))
      (Leads.endTry (hb s _ (e₀.inHandler next _ false).scopes exc u.next)
        (Nat.le_of_succ_le ht.next_le))
  | some (.exited, s), h => exact h
  | some (.panicked, s), h => exact h
  | none, h => exact h

/-- **`PG_TRY` with `PG_FINALLY`.** -/
theorem Does.tryFinally (ha : Does levels fuel a e s ra) (hb : ∀ s, Does levels fuel b e s (rb s))
    (hret : ∀ s, ra ≠ some (.returned, s)) :
    Does levels fuel (pgTryFinally a b) e s (ra.cleanUp rb) := by
  intro k scopes exc next
  let e₀ : Env σ Cb := { e with scopes := scopes, exceptionStack := exc }
  refine .head (reached_try _ _ _) ?_
  have h := ha (.code (.seq (.seq .restoreExceptionStack (.seq .restoreContextStack b)) pgEndTry)
    :: .endBlock :: k) (e₀.inTry next (.code .setDoRethrow :: .code (.seq
    (.seq .restoreExceptionStack (.seq .restoreContextStack b)) pgEndTry) :: .endBlock :: k)).scopes
    (some next) (next + 1)
  match ra, h with
  | some (.fell, s), ⟨n, hn, hr⟩ =>
    exact .head (hr.trans (.head rfl (reached_restore _ _ _ _ _ _)))
      (Leads.endTry (hb s _ (e₀.inHandler next _ false).scopes exc n)
        (Nat.le_of_succ_le hn))
  | some (.returned, s), _ => exact absurd rfl (hret s)
  | some (.threw, s), ⟨t, u, hr, hu, ht⟩ =>
    -- the jump comes to `_do_rethrow = true`, before the cleanup
    exact .head (hr.trans (.head (hu.trans ht.siglongjmp_eq)
        (.head rfl (.head rfl (reached_restore _ _ _ _ _ _)))))
      (Leads.endTry_rethrow (hb s _ (e₀.inHandler next _ true).scopes exc u.next)
        (Nat.le_of_succ_le ht.next_le))
  | some (.exited, s), h => exact h
  | some (.panicked, s), h => exact h
  | none, h => exact h

/-- **`PG_ENSURE_ERROR_CLEANUP`.** The cleanup is an exit callback while the code runs. -/
theorem Does.ensureErrorCleanup {f : σ → σ}
    (ha : Does levels fuel a { e with exitCallbacks := f :: e.exitCallbacks } s ra)
    (hret : ∀ s, ra ≠ some (.returned, s)) :
    Does levels fuel (pgEnsureErrorCleanup f a) e s (ra.cleanUpError f) := by
  intro k scopes exc next
  let e₀ : Env σ Cb := { e with scopes := scopes, exceptionStack := exc }
  let e' : Env σ Cb := { e₀ with exitCallbacks := f :: e.exitCallbacks }
  let handler : Code σ Cb := .seq .restoreExceptionStack (.seq .restoreContextStack
    (.seq .cancelBeforeShmemExit (.seq (.act f) .reThrow)))
  let saved : List (Item σ Cb) := .code handler :: .code pgEndTry :: .endBlock :: k
  have htry : Reached (step levels) (e₀.machine (.code (pgEnsureErrorCleanup f a) :: k) next s)
      ((e'.inTry next saved).machine (.code (.seq a .cancelBeforeShmemExit) ::
        .code pgEndTry :: .endBlock :: k) (next + 1) s) :=
    .head rfl (.head rfl (reached_try (e := e') _ _ _))
  refine .head (htry.pass rfl) ?_
  have h := ha (.code .cancelBeforeShmemExit :: .code pgEndTry :: .endBlock :: k)
    (e'.inTry next saved).scopes (some next) (next + 1)
  match ra, h with
  | some (.fell, s), ⟨n, hn, hr⟩ =>
    exact ⟨n, Nat.le_of_succ_le hn,
      (hr.pass rfl).trans (reached_pgEndTry
        ⟨next, exc, e.contextStack, some saved, false⟩ _ _ _ _ rfl)⟩
  | some (.returned, s), _ => exact absurd rfl (hret s)
  | some (.threw, s), ⟨t, u, hr, hu, ht⟩ =>
    have ht' : Throws (e'.inTry next saved) (next + 1) s u := ht
    -- the handler takes the callback back, calls it, and throws on
    have hrethrow : Throws (e₀.inHandler next saved false) u.next (s.act f)
        ((e₀.inHandler next saved false).machine (.code pgEndTry :: .endBlock :: k) u.next
          (s.act f)) :=
      ⟨rfl, rfl, rfl, ⟨[], rfl, nofun⟩, Nat.le_refl _⟩
    exact ⟨_, _, (hr.trans (ht'.reached_handler hu)).trans
      (.head rfl (.head rfl (.head rfl (.head rfl .start)))), rfl,
      hrethrow.outOfBlock (Nat.le_of_succ_le ht'.next_le)⟩
  | some (.exited, s), h => exact h
  | some (.panicked, s), h => exact h
  | none, h => exact h

end Try

/-- **What code does the machine does**, wherever it is run. -/
theorem does_expand (levels : Option ℕ) (fuel : ℕ) (a : Stmt σ Cb) (h : a.staysInside = true)
    (e : Env σ Cb) (s : Memory σ) :
    Does levels fuel a.expand e s (eval levels fuel a e.contextStack s) := by
  induction a generalizing e s with
  | act f => exact fun k scopes exc next => ⟨next, Nat.le_refl next, .one rfl⟩
  | ret => exact fun k scopes exc next => ⟨scopes, k, next, Nat.le_refl next, .start, rfl⟩
  | flushErrorState => exact fun k scopes exc next => ⟨next, Nat.le_refl next, .one rfl⟩
  | reThrow =>
    exact fun k scopes exc next => ⟨_, _, .start, rfl, rfl, rfl, rfl, ⟨[], rfl, nofun⟩,
      Nat.le_refl next⟩
  | ereport report =>
    intro k scopes exc next
    unfold eval
    split
    · rename_i hroom
      exact ⟨_, _, .start, if_pos hroom, rfl, rfl, rfl, ⟨[], rfl, nofun⟩, Nat.le_refl next⟩
    · rename_i hroom
      exact .done (if_neg hroom)
  | fatal report =>
    intro k scopes exc next
    unfold eval
    split
    · rename_i hroom
      exact .done (if_pos hroom)
    · rename_i hroom
      exact .done (if_neg hroom)
  | seq a b iha ihb =>
    obtain ⟨ha, hb⟩ := (Bool.and_eq_true _ _).mp h
    exact (iha ha e s).seq fun s => ihb hb e s
  | ite c a b iha ihb =>
    obtain ⟨ha, hb⟩ := (Bool.and_eq_true _ _).mp h
    intro k scopes exc next
    have hpass : step levels
        (({ e with scopes := scopes, exceptionStack := exc } : Env σ Cb).machine
          (.code (.ite c a.expand b.expand) :: k) next s) = .next
        (({ e with scopes := scopes, exceptionStack := exc } : Env σ Cb).machine
          (.code (if c s.vars then a.expand else b.expand) :: k) next s) := rfl
    refine .head (.one hpass) ?_
    unfold eval
    split
    · exact iha ha e s k scopes exc next
    · exact ihb hb e s k scopes exc next
  | whileDo c a ih =>
    intro k scopes exc next
    exact leads_whileDo (fun k next s => ih h e s k scopes exc next) fuel (Nat.le_refl fuel) next s
  | call a ih => exact (ih h e s).call
  | withContext cb a ih =>
    obtain ⟨hret, ha⟩ := (Bool.and_eq_true _ _).mp h
    intro k scopes exc next
    exact .head (.head rfl (.head rfl (.head rfl .start)))
      ((ih ha { e with contextStack := cb :: e.contextStack } s (.code .popContext :: k) scopes exc
        next).popContext (eval_ne_returned levels fuel (Bool.not_eq_true' _ ▸ hret) _ s))
  | tryCatch a b iha ihb =>
    obtain ⟨hab, hb⟩ := (Bool.and_eq_true _ _).mp h
    obtain ⟨hret, ha⟩ := (Bool.and_eq_true _ _).mp hab
    exact (iha ha e s).tryCatch (fun s => ihb hb e s)
      (eval_ne_returned levels fuel (Bool.not_eq_true' _ ▸ hret) _ s)
  | tryFinally a b iha ihb =>
    obtain ⟨hab, hb⟩ := (Bool.and_eq_true _ _).mp h
    obtain ⟨hret, ha⟩ := (Bool.and_eq_true _ _).mp hab
    exact (iha ha e s).tryFinally (fun s => ihb hb e s)
      (eval_ne_returned levels fuel (Bool.not_eq_true' _ ▸ hret) _ s)
  | ensureErrorCleanup f a ih =>
    obtain ⟨hret, ha⟩ := (Bool.and_eq_true _ _).mp h
    exact (ih ha { e with exitCallbacks := f :: e.exitCallbacks } s).ensureErrorCleanup
      (eval_ne_returned levels fuel (Bool.not_eq_true' _ ▸ hret) _ s)

/-! ## Processes -/

/-- **A process ends as its code says**, and does nothing that is not defined. -/
theorem process_adequate {a : Code σ Cb} {ev : ℕ → Result σ} {s : σ}
    (h : ∀ fuel, Does levels fuel a ⟨[], none, [], []⟩ ⟨s, 0⟩ (ev fuel)) :
    (∀ o, Ends (step levels) (start a s) o ↔ ∃ fuel, (ev fuel).map outcome = some o) ∧
      ∀ t, Reached (step levels) (start a s) t → step levels t ≠ .stuck := by
  refine adequate (fun fuel o ho => ?_) (fun fuel hnone => ?_)
  · obtain ⟨r, hr, rfl⟩ := Option.map_eq_some_iff.mp ho
    have hcall := (h fuel).call [] [] none 0
    rw [hr] at hcall
    match r, hcall with
    | (.fell, s'), ⟨_, _, hreach⟩ => exact hreach.ends (.done rfl)
    | (.returned, s'), ⟨_, _, hreach⟩ => exact hreach.ends (.done rfl)
    | (.threw, s'), ⟨t, u, hreach, hu, ht⟩ =>
      refine hreach.ends (.done (hu.trans ?_))
      have hexc : u.pgExceptionStack = none := ht.exceptionStack
      have hcbs : u.exitCallbacks = [] := ht.exitCallbacks
      simp only [siglongjmp, hexc, hcbs, ht.mem]
      rfl
    | (.exited, s'), hends => exact hends
    | (.panicked, s'), hends => exact hends
  · have hcall := (h fuel).call [] [] none 0
    rw [Option.map_eq_none_iff.mp hnone] at hcall
    exact hcall

/-- The same, or the process has ended because there was no room for an error. -/
def Result.UpTo (r r' : Result σ) : Prop := r = r' ∨ ∃ s, r = some (.panicked, s)

namespace Result.UpTo

variable {r' : Result σ} {f f' : Memory σ → Result σ}

theorem andThen (h : r.UpTo r') (hf : ∀ s, (f s).UpTo (f' s)) :
    (r.andThen f).UpTo (r'.andThen f') := by
  rcases h with rfl | ⟨s, rfl⟩
  · match r with
    | some (.fell, s) => exact hf s
    | some (.returned, _) | some (.threw, _) | some (.exited, _) | some (.panicked, _) | none =>
      exact .inl rfl
  · exact .inr ⟨s, rfl⟩

theorem handle (h : r.UpTo r') (hf : ∀ s, (f s).UpTo (f' s)) :
    (r.handle f).UpTo (r'.handle f') := by
  rcases h with rfl | ⟨s, rfl⟩
  · match r with
    | some (.threw, s) => exact hf s
    | some (.returned, _) | some (.fell, _) | some (.exited, _) | some (.panicked, _) | none =>
      exact .inl rfl
  · exact .inr ⟨s, rfl⟩

theorem throwOn (h : r.UpTo r') : r.throwOn.UpTo r'.throwOn := by
  rcases h with rfl | ⟨s, rfl⟩
  · exact .inl rfl
  · exact .inr ⟨s, rfl⟩

theorem cleanUp (h : r.UpTo r') (hf : ∀ s, (f s).UpTo (f' s)) :
    (r.cleanUp f).UpTo (r'.cleanUp f') := by
  rcases h with rfl | ⟨s, rfl⟩
  · match r with
    | some (.fell, s) => exact hf s
    | some (.threw, s) => exact (hf s).throwOn
    | some (.returned, _) | some (.exited, _) | some (.panicked, _) | none => exact .inl rfl
  · exact .inr ⟨s, rfl⟩

theorem leaveFunction (h : r.UpTo r') : r.leaveFunction.UpTo r'.leaveFunction := by
  rcases h with rfl | ⟨s, rfl⟩
  · exact .inl rfl
  · exact .inr ⟨s, rfl⟩

theorem cleanUpError {g : σ → σ} (h : r.UpTo r') :
    (r.cleanUpError g).UpTo (r'.cleanUpError g) := by
  rcases h with rfl | ⟨s, rfl⟩
  · exact .inl rfl
  · exact .inr ⟨s, rfl⟩

theorem rounds {c : σ → Bool} (hf : ∀ s, (f s).UpTo (f' s)) (n : ℕ) (s : Memory σ) :
    (rounds c f n s).UpTo (rounds c f' n s) := by
  induction n generalizing s with
  | zero => exact .inl rfl
  | succ n ih =>
    unfold Elog.rounds
    split
    · exact (hf s).andThen ih
    · exact .inl rfl

end Result.UpTo

/-- The process with a function that returns out of `PG_TRY`, where it throws an error: no block
is left, and `PG_exception_stack` points to the first one there was. -/
theorem reached_returned {a : Stmt σ Cb} (b : Stmt σ Cb) (report : List Cb → σ → σ)
    (ha : a.staysInside = true) {s : σ} {s' : Memory σ}
    (hret : eval levels fuel a [] ⟨s, 0⟩ = some (.returned, s')) :
    ∃ n, Reached (step levels)
      (start (Stmt.expand (.seq (.call (.tryCatch a b)) (.ereport report))) s)
      ⟨[.code (.ereport report), .endCall], [], some 0, [], [], n, s'⟩ := by
  have htry : Reached (step levels)
      (start (Stmt.expand (.seq (.call (.tryCatch a b)) (.ereport report))) s) _ :=
    .head rfl (.head rfl (.head rfl (reached_try (e := ⟨[], none, [], []⟩) a.expand
      (.seq .restoreExceptionStack (.seq .restoreContextStack b.expand)) pgEndTry)))
  have h := does_expand levels fuel a ha ⟨[], none, [], []⟩ ⟨s, 0⟩ (.code pgEndTry :: .endBlock ::
    .endCall :: .code (.ereport report) :: [.endCall])
    (Env.inTry ⟨[], none, [], []⟩ 0 (.code (.seq .restoreExceptionStack
      (.seq .restoreContextStack b.expand)) :: .code pgEndTry :: .endBlock ::
      .endCall :: .code (.ereport report) :: [.endCall])).scopes (some 0) 1
  rw [hret] at h
  obtain ⟨scopes, k', n, -, hr, hk⟩ := h
  exact ⟨n, (htry.trans hr).pass (step_ret rfl hk)⟩

/-- **A `return` out of `PG_TRY`** leaves `PG_exception_stack` pointing to a block that is left,
and that does harm as soon as there is an error: exactly then is the process undefined that
throws one after a function with the construct, whatever the section for errors is, if there is
room for the error. -/
theorem return_undefined_iff (levels : Option ℕ) (a b : Stmt σ Cb) (ha : a.staysInside = true)
    (hb : b.staysInside = true) (report : List Cb → σ → σ) (s : σ) :
    (∃ t, Reached (step levels)
        (start (Stmt.expand (.seq (.call (.tryCatch a b)) (.ereport report))) s) t ∧
      step levels t = .stuck) ↔
      ∃ fuel s', eval levels fuel a [] ⟨s, 0⟩ = some (.returned, s') ∧
        s'.hasRoom levels = true := by
  constructor
  · rintro ⟨t, ht, hstuck⟩
    by_cases hret : ∃ fuel s', eval levels fuel a [] ⟨s, 0⟩ = some (.returned, s')
    · obtain ⟨fuel, s', hret⟩ := hret
      refine ⟨fuel, s', hret, ?_⟩
      by_contra hroom
      -- the process ends where there is no room
      obtain ⟨n, hr⟩ := reached_returned b report ha hret
      exact ht.not_ends hstuck (hr.ends (.done (if_neg hroom)))
    · simp only [not_exists] at hret
      have htry (fuel : ℕ) : Does levels fuel (pgTryCatch a.expand b.expand) ⟨[], none, [], []⟩
          ⟨s, 0⟩ ((eval levels fuel a [] ⟨s, 0⟩).handle (eval levels fuel b [])) :=
        (does_expand levels fuel a ha _ ⟨s, 0⟩).tryCatch
          (fun s => does_expand levels fuel b hb _ s) (hret fuel)
      exact absurd hstuck ((process_adequate fun fuel => (htry fuel).call.seq fun s =>
        does_expand levels fuel (.ereport report) rfl _ s).2 t ht)
  · rintro ⟨fuel, s', hret, hroom⟩
    obtain ⟨n, hr⟩ := reached_returned b report ha hret
    exact ⟨_, hr, if_pos hroom⟩

theorem return_undefined_iff_ret :
    (∃ t, Reached (step (some 5)) (start (Stmt.expand (.seq (.call (.tryCatch .ret (.act id)))
      (.ereport fun (_ : List ℕ) (n : ℕ) => n + 1))) 0) t ∧ step (some 5) t = .stuck) ↔
      ∃ fuel s', eval (some 5) fuel (.ret : Stmt ℕ ℕ) [] ⟨0, 0⟩ = some (.returned, s') ∧
        s'.hasRoom (some 5) = true :=
  return_undefined_iff (some 5) .ret (.act id) rfl rfl _ 0

/-- `PG_FINALLY` and a handler that cleans up and throws on, with the cleanup once more after
it, do the same. -/
theorem eval_tryFinally (levels : Option ℕ) (fuel : ℕ) {a : Stmt σ Cb} (ha : a.mayReturn = false)
    (b : Stmt σ Cb) (ctx : List Cb) (s : Memory σ) : eval levels fuel (.tryFinally a b) ctx s =
      eval levels fuel (.seq (.tryCatch a (.seq b .reThrow)) b) ctx s := by
  have hret := eval_ne_returned levels fuel ha ctx s
  show (eval levels fuel a ctx s).cleanUp (eval levels fuel b ctx) =
    ((eval levels fuel a ctx s).handle fun s => (eval levels fuel b ctx s).andThen fun s =>
      some (.threw, s)).andThen (eval levels fuel b ctx)
  cases h : eval levels fuel a ctx s with
  | none => rfl
  | some r =>
    match r with
    | (.fell, s') => rfl
    | (.returned, s') => exact absurd h (hret s')
    | (.exited, s') => rfl
    | (.panicked, s') => rfl
    | (.threw, s') =>
      show (eval levels fuel b ctx s').throwOn = _
      cases hb : eval levels fuel b ctx s' with
      | none => simp only [Result.handle, hb, Result.throwOn, Result.andThen]
      | some r' =>
        match r' with
        | (.fell, s'') | (.returned, s'') | (.threw, s'') | (.exited, s'') | (.panicked, s'') =>
          simp only [Result.handle, hb, Result.throwOn, Result.andThen]

/-- **`PG_FINALLY` is for the case that the error recovery code and the cleanup in the normal
code path are identical.** A process with it ends exactly as one that has the cleanup after
the construct, and again in a `PG_CATCH` section that throws the error on; neither does what
is not defined. -/
theorem pgFinally_iff_pgCatch (levels : Option ℕ) (a b : Stmt σ Cb) (hret : a.mayReturn = false)
    (ha : a.staysInside = true) (hb : b.staysInside = true) (s : σ) :
    (∀ o, Ends (step levels) (start (Stmt.expand (.tryFinally a b)) s) o ↔
      Ends (step levels) (start (Stmt.expand (.seq (.tryCatch a (.seq b .reThrow)) b)) s) o) ∧
    (∀ t, Reached (step levels) (start (Stmt.expand (.tryFinally a b)) s) t →
      step levels t ≠ .stuck) ∧
    ∀ t, Reached (step levels) (start (Stmt.expand (.seq (.tryCatch a (.seq b .reThrow)) b)) s) t →
      step levels t ≠ .stuck := by
  have hfinally : (Stmt.tryFinally a b).staysInside = true := by
    simp only [Stmt.staysInside, hret, ha, hb]
    rfl
  have hcatch : (Stmt.seq (.tryCatch a (.seq b .reThrow)) b).staysInside = true := by
    simp only [Stmt.staysInside, hret, ha, hb]
    rfl
  obtain ⟨hends, hsafe⟩ := process_adequate fun fuel => does_expand levels fuel _ hfinally _ ⟨s, 0⟩
  obtain ⟨hends', hsafe'⟩ := process_adequate fun fuel => does_expand levels fuel _ hcatch _ ⟨s, 0⟩
  refine ⟨fun o => ?_, hsafe, hsafe'⟩
  rw [hends, hends']
  simp only [eval_tryFinally _ _ hret]

/-- The cleanup itself throws an error, which is the one that the process ends with. -/
theorem pgFinally_iff_pgCatch_throws :
    Ends (step (some 5)) (start (Stmt.expand (.tryFinally (.act (· + 1))
        (.ereport fun (_ : List ℕ) (n : ℕ) => n + 1))) 0) (.exited ⟨2, 1⟩) ↔
      Ends (step (some 5)) (start (Stmt.expand (.seq (.tryCatch (.act (· + 1))
        (.seq (.ereport fun (_ : List ℕ) n => n + 1) .reThrow)) (.ereport fun _ n => n + 1))) 0)
        (.exited ⟨2, 1⟩) :=
  (pgFinally_iff_pgCatch (some 5) (.act (· + 1)) (.ereport fun _ n => n + 1) rfl rfl rfl 0).1 _

end Elog
