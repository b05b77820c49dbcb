import PgCitus.Library.CasLoop

/-!
# Load-linked and store-conditional

Processes that share a variable which they load and store, and link: a store-conditional
succeeds only if no other process has stored since the process linked the variable, and
it may fail for no reason. What a process does is a machine of its own, which says for
each of its states what it does next (`Access`); besides what it loads, it may depend on
things outside the model.

Such a machine *simulates* programs over compare-and-swap (`Simulates`) if there is a
relation between its states, the programs and the value that was linked last, which every
access keeps. Then whatever processes call, the machines do nothing that the programs do
not do as well (`refines_of_run`), and are linearizable if the programs are
(`linearizes_of_run`).
-/

namespace LoadLinked

open CasLoop (Event Prog Linearizes)

variable {V R L C Op Pid : Type*}

/-! ## Machines -/

/-- **What a process does next.** -/
inductive Access (V R L C : Type*)
  /-- Return. -/
  | ret (r : R)
  /-- Something that does not touch the variable. -/
  | inner (k : C → L)
  /-- Load the variable. -/
  | load (k : V → L)
  /-- Store into it. -/
  | store (v : V) (l : L)
  /-- Load it, and link it. -/
  | loadLinked (k : V → L)
  /-- Store into it if it is linked still, and go on with whether that succeeded. -/
  | storeConditional (v : V) (k : Bool → L)

/-- A call under way. -/
structure Call (L Op : Type*) where
  id : ℕ
  op : Op
  loc : L

/-- The variable, which processes it is linked for, the call each process is in, and what
happened so far. -/
structure State (V R L Op Pid : Type*) where
  value : V
  linked : Pid → Bool
  calls : Pid → Option (Call L Op)
  next : ℕ
  log : List (Event Op R)

/-- A process makes a call, takes a step in it, or returns from it. -/
inductive Action (C Op Pid : Type*)
  | invoke (i : Pid) (op : Op)
  | step (i : Pid) (c : C) (ok : Bool)
  | respond (i : Pid)

/-- No process is in a call, and nothing is linked. -/
def start (v₀ : V) : State V R L Op Pid := ⟨v₀, fun _ => false, fun _ => none, 0, []⟩

variable [DecidableEq Pid]

/-- A process goes on at `l`. -/
def State.goto (s : State V R L Op Pid) (i : Pid) (c : Call L Op) (l : L) :
    Pid → Option (Call L Op) :=
  Function.update s.calls i (some { c with loc := l })

/-- **One step of a process.** A store leaves the variable linked for nobody else, a
store-conditional for nobody at all; one that fails leaves it linked for the others. -/
def State.access (s : State V R L Op Pid) (i : Pid) (c : Call L Op) (choice : C) (ok : Bool) :
    Access V R L C → Option (State V R L Op Pid)
  | .ret _ => none
  | .inner k => some { s with calls := s.goto i c (k choice) }
  | .load k => some { s with calls := s.goto i c (k s.value) }
  | .store v l => some { s with
      value := v
      linked := fun j => s.linked j && decide (j = i)
      calls := s.goto i c l }
  | .loadLinked k => some { s with
      linked := Function.update s.linked i true
      calls := s.goto i c (k s.value) }
  | .storeConditional v k =>
    if s.linked i && ok then
      some { s with value := v, linked := fun _ => false, calls := s.goto i c (k true) }
    else
      some { s with
        linked := Function.update s.linked i false
        calls := s.goto i c (k false) }

/-- **One action.** It is refused if the process is not where it would take it, or the
operation may not be called. -/
def step (next : L → Access V R L C) (impl : Op → Option L) (s : State V R L Op Pid) :
    Action C Op Pid → Option (State V R L Op Pid)
  | .invoke i op =>
    match s.calls i, impl op with
    | none, some l => some { s with
        calls := Function.update s.calls i (some ⟨s.next, op, l⟩)
        next := s.next + 1
        log := s.log ++ [.invoke s.next op] }
    | _, _ => none
  | .step i choice ok =>
    match s.calls i with
    | some c => s.access i c choice ok (next c.loc)
    | none => none
  | .respond i =>
    match s.calls i with
    | some c =>
      match next c.loc with
      | .ret r => some { s with
          calls := Function.update s.calls i none
          log := s.log ++ [.respond c.id r] }
      | _ => none
    | none => none

/-! ## Simulating programs -/

/-- A program goes from one value of the variable to another. -/
inductive Steps [DecidableEq V] : V → Prog V R → V → Prog V R → Prop
  | nil (v : V) (p : Prog V R) : Steps v p v p
  | cons {v v' v'' : V} {p p' p'' : Prog V R} {guess : V} {decisive : Bool}
      (h : p.next v guess = some (v', p', decisive)) (hs : Steps v' p' v'' p'') :
      Steps v p v'' p''

section Steps

variable [DecidableEq V] {v expected desired : V} {f : V → V}

/-- A plain read that gives the value there is. -/
theorem Steps.read (k : V → Prog V R) : Steps v (.read k) v (k v) :=
  .cons (show (Prog.read k).next v v = some (v, k v, false) from rfl) (.nil v _)

theorem Steps.cas (k : Bool → V → Prog V R) :
    Steps v (.cas v desired k) desired (k true v) := by
  have h : (Prog.cas v desired k).next v v = some (desired, k true v, true) := by
    simp [Prog.next, CasLoop.compareAndSwap]
  exact .cons h (.nil _ _)

theorem Steps.cas_ne (k : Bool → V → Prog V R) (hv : v ≠ expected) :
    Steps v (.cas expected desired k) v (k false v) := by
  have h : (Prog.cas expected desired k).next v v = some (v, k false v, true) := by
    simp [Prog.next, CasLoop.compareAndSwap, hv]
  exact .cons h (.nil _ _)

/-- Exchanging a value for itself reads. -/
theorem Steps.cas_self (k : V → Prog V R) :
    Steps v (.cas expected expected fun _ => k) v (k v) := by
  by_cases hv : v = expected
  · subst hv
    exact .cas fun _ => k
  · exact .cas_ne (fun _ => k) hv

theorem Steps.casUntil (k : V → Prog V R) : Steps v (.casUntil v f k) (f v) (k v) := by
  have h : (Prog.casUntil v f k).next v v = some (f v, k v, true) := by
    simp [Prog.next, CasLoop.compareAndSwap]
  exact .cons h (.nil _ _)

theorem Steps.casUntil_ne (k : V → Prog V R) (hv : v ≠ expected) :
    Steps v (.casUntil expected f k) v (.casUntil v f k) := by
  have h : (Prog.casUntil expected f k).next v v = some (v, .casUntil v f k, false) := by
    simp [Prog.next, CasLoop.compareAndSwap, hv]
  exact .cons h (.nil _ _)

/-- A loop around an exchange that nothing comes in between. -/
theorem Steps.loop (k : V → Prog V R) :
    Steps v (.read fun old => .casUntil old f k) (f v) (k v) :=
  .cons (show (Prog.read fun old => Prog.casUntil old f k).next v v =
    some (v, .casUntil v f k, false) from rfl) (.casUntil k)

end Steps

/-- **An access that a program takes as well**, in any number of steps. The relation is between
a state of a machine, a program, and the value that the variable has as long as it is
linked, where that is of any importance. -/
def Access.Ok [DecidableEq V] (Sim : L → Prog V R → Option V → Prop) (p : Prog V R)
    (lk : Option V) : Access V R L C → Prop
  | ret r => p = .ret r
  | inner k => ∀ c, Sim (k c) p lk
  | load k => ∀ v, ∃ p', Steps v p v p' ∧ Sim (k v) p' lk
  | store w l => ∀ v, ∃ p', Steps v p w p' ∧ Sim l p' none
  | loadLinked k => ∀ v, ∃ p', Steps v p v p' ∧ Sim (k v) p' (some v)
  | storeConditional w k =>
    (∃ v p', lk = some v ∧ Steps v p w p' ∧ Sim (k true) p' none) ∧ Sim (k false) p none

/-- **Machines that simulate programs.** -/
def Simulates [DecidableEq V] (next : L → Access V R L C)
    (Sim : L → Prog V R → Option V → Prop) : Prop :=
  ∀ l p lk, Sim l p lk → (next l).Ok Sim p lk

/-- A log without the comparisons that decide. -/
def erase (log : List (Event Op R)) : List (Event Op R) :=
  log.filter fun e => e.decided.isNone

@[simp]
theorem erase_invoke (log : List (Event Op R)) (id : ℕ) (op : Op) :
    erase (log ++ [.invoke id op]) = erase log ++ [.invoke id op] := List.filter_append _ _

@[simp]
theorem erase_respond (log : List (Event Op R)) (id : ℕ) (r : R) :
    erase (log ++ [.respond id r]) = erase log ++ [.respond id r] := List.filter_append _ _

@[simp]
theorem erase_decide (log : List (Event Op R)) (id : ℕ) (op : Op) :
    erase (log ++ [.decide id op]) = erase log := by
  unfold erase
  rw [List.filter_append]
  exact List.append_nil _

/-- **What linearizes a log linearizes what can be seen of it.** -/
theorem linearizes_erase {sem : Op → V → V × R} {v₀ v : V} {log : List (Event Op R)}
    {order : List (ℕ × Op)} (h : Linearizes sem v₀ v log order) :
    Linearizes sem v₀ v (LoadLinked.erase log) order where
  nodup := h.nodup
  invoked id op hmem := List.mem_filter.mpr ⟨h.invoked id op hmem, rfl⟩
  completed id r hmem := h.completed id r (List.mem_of_mem_filter hmem)
  value := h.value
  realTime a r b op hsub hb := h.realTime a r b op (hsub.trans List.filter_sublist) hb

/-! ## Runs -/

/-- A call of a machine and one of a program: the same one, and the value that was linked is
the value of the variable as long as it is linked. -/
inductive CallRel (Sim : L → Prog V R → Option V → Prop) (value : V) (linked : Bool) :
    Option (Call L Op) → Option (CasLoop.Call V R Op) → Prop
  | none : CallRel Sim value linked none none
  | some {id : ℕ} {op : Op} {l : L} {p : Prog V R} {lk : Option V} (sim : Sim l p lk)
      (hlk : ∀ v, lk = .some v → linked = true → value = v) :
      CallRel Sim value linked (some ⟨id, op, l⟩) (some ⟨id, op, p⟩)

/-- **How the states of machines and of programs are related.** -/
structure Rel (Sim : L → Prog V R → Option V → Prop) (s : State V R L Op Pid)
    (t : CasLoop.State V R Op Pid) : Prop where
  value : t.value = s.value
  next : t.next = s.next
  log : erase t.log = s.log
  calls : ∀ i, CallRel Sim s.value (s.linked i) (s.calls i) (t.calls i)

section Runs

variable [DecidableEq V] {next : L → Access V R L C} {impl : Op → Option L}
  {progs : Op → Option (Prog V R)} {Sim : L → Prog V R → Option V → Prop}
  {s s' : State V R L Op Pid} {t : CasLoop.State V R Op Pid}

/-- Steps of a program are steps of its process. -/
theorem Steps.run {v v' : V} {p p' : Prog V R} (h : Steps v p v' p') {i : Pid} {id : ℕ} {op : Op}
    (hv : t.value = v) (hi : t.calls i = some ⟨id, op, p⟩) :
    ∃ as t', Run.run (CasLoop.step progs) t as = some t' ∧ t'.value = v' ∧
      t'.calls = Function.update t.calls i (some ⟨id, op, p'⟩) ∧ t'.next = t.next ∧
      erase t'.log = erase t.log := by
  induction h generalizing t with
  | nil v p => exact ⟨[], t, rfl, hv, by rw [← hi, Function.update_eq_self], rfl, rfl⟩
  | @cons v v₁ v' p p₁ p' guess decisive h _ ih =>
    have hstep : CasLoop.step progs t (.step i guess) = some { t with
        value := v₁
        calls := Function.update t.calls i (some ⟨id, op, p₁⟩)
        log := if decisive then t.log ++ [.decide id op] else t.log } := by
      simp only [CasLoop.step, hi, hv, h]
      rfl
    obtain ⟨as, t', hrun, hvalue, hcalls, hnext, hlog⟩ := ih (t := { t with
        value := v₁
        calls := Function.update t.calls i (some ⟨id, op, p₁⟩)
        log := if decisive then t.log ++ [.decide id op] else t.log }) rfl
      (Function.update_self i _ t.calls)
    refine ⟨.step i guess :: as, t', ?_, hvalue, ?_, hnext, hlog.trans ?_⟩
    · show (CasLoop.step progs t (.step i guess)).bind _ = _
      rw [hstep]
      exact hrun
    · rw [hcalls]
      exact Function.update_idem _ _ _
    · cases decisive with
      | true => exact erase_decide t.log id op
      | false => rfl

/-- **An access of one process.** What it links is linked with the value that the variable
has then, and the variable is linked for another process only if it was, and has the value
it had. -/
theorem Rel.goto (h : Rel Sim s t) {i : Pid} {c : Call L Op} {p p' : Prog V R} {v' : V} {l' : L}
    {lk' : Option V} {linked' : Pid → Bool} (hc : s.calls i = some c)
    (hp : t.calls i = some ⟨c.id, c.op, p⟩) (hsteps : Steps s.value p v' p')
    (hsim : Sim l' p' lk') (hlk : ∀ v, lk' = some v → linked' i = true → v' = v)
    (hothers : ∀ j, j ≠ i → linked' j = true → s.linked j = true ∧ v' = s.value) :
    ∃ as t', Run.run (CasLoop.step progs) t as = some t' ∧
      Rel Sim { s with value := v', linked := linked', calls := s.goto i c l' } t' := by
  obtain ⟨as, t', hrun, hvalue, hcalls, hnext, hlog⟩ := hsteps.run h.value hp
  refine ⟨as, t', hrun, hvalue, hnext.trans h.next, hlog.trans h.log, fun j => ?_⟩
  show CallRel Sim v' (linked' j) (s.goto i c l' j) (t'.calls j)
  unfold State.goto
  rw [hcalls]
  by_cases hj : j = i
  · subst hj
    rw [Function.update_self, Function.update_self]
    exact .some hsim hlk
  · rw [Function.update_of_ne hj, Function.update_of_ne hj]
    match s.calls j, t.calls j, h.calls j with
    | _, _, .none => exact .none
    | _, _, .some hsimj hlkj =>
      refine .some hsimj fun v hv hl => ?_
      obtain ⟨hl, hv'⟩ := hothers j hj hl
      exact hv'.trans (hlkj v hv hl)

/-- What a machine does in a step, its program does in some. -/
theorem Rel.step (hsim : Simulates next Sim) (h : Rel Sim s t) {i : Pid} {choice : C} {ok : Bool}
    (hs : LoadLinked.step next impl s (.step i choice ok) = some s') :
    ∃ as t', Run.run (CasLoop.step progs) t as = some t' ∧ Rel Sim s' t' := by
  simp only [LoadLinked.step] at hs
  split at hs
  swap
  · exact nomatch hs
  rename_i c hc
  obtain ⟨p, lk, hp, hrel, hlk⟩ : ∃ p lk, t.calls i = some ⟨c.id, c.op, p⟩ ∧ Sim c.loc p lk ∧
      ∀ v, lk = some v → s.linked i = true → s.value = v := by
    have hcall := h.calls i
    rw [hc] at hcall
    match c, t.calls i, hcall with
    | _, _, .some hsim hlk => exact ⟨_, _, rfl, hsim, hlk⟩
  have hok := hsim c.loc p lk hrel
  match hnext : next c.loc, hok with
  | .ret r, _ =>
    rw [hnext] at hs
    exact nomatch hs
  | .inner k, hok =>
    rw [hnext] at hs
    obtain rfl := Option.some.inj hs
    exact h.goto hc hp (.nil _ _) (hok choice) hlk fun _ _ hl => ⟨hl, rfl⟩
  | .load k, hok =>
    rw [hnext] at hs
    obtain rfl := Option.some.inj hs
    obtain ⟨p', hsteps, hrel'⟩ := hok s.value
    exact h.goto hc hp hsteps hrel' hlk fun _ _ hl => ⟨hl, rfl⟩
  | .store w l, hok =>
    rw [hnext] at hs
    obtain rfl := Option.some.inj hs
    obtain ⟨p', hsteps, hrel'⟩ := hok s.value
    refine h.goto hc hp hsteps hrel' nofun fun j hj hl => ?_
    exact absurd (of_decide_eq_true (Bool.and_eq_true_iff.mp hl).2) hj
  | .loadLinked k, hok =>
    rw [hnext] at hs
    obtain rfl := Option.some.inj hs
    obtain ⟨p', hsteps, hrel'⟩ := hok s.value
    refine h.goto hc hp hsteps hrel' (fun v hv _ => Option.some.inj hv) fun j hj hl => ?_
    rw [Function.update_of_ne hj] at hl
    exact ⟨hl, rfl⟩
  | .storeConditional w k, ⟨⟨v, p', hv, hsteps, hstored⟩, hfailed⟩ =>
    rw [hnext] at hs
    simp only [State.access] at hs
    split at hs
    · -- it is linked, so that its value is the one that was loaded
      rename_i hl
      obtain rfl := Option.some.inj hs
      obtain rfl := hlk v hv (Bool.and_eq_true_iff.mp hl).1
      exact h.goto hc hp hsteps hstored nofun fun _ _ hl => nomatch hl
    · obtain rfl := Option.some.inj hs
      refine h.goto hc hp (.nil _ _) hfailed nofun fun j hj hl => ?_
      rw [Function.update_of_ne hj] at hl
      exact ⟨hl, rfl⟩

/-- A call of a machine is a call of a program. -/
theorem Rel.invoke (himpl : ∀ op l, impl op = some l → ∃ p, progs op = some p ∧ Sim l p none)
    (h : Rel Sim s t) {i : Pid} {op : Op}
    (hs : LoadLinked.step next impl s (.invoke i op) = some s') :
    ∃ t', CasLoop.step progs t (.invoke i op) = some t' ∧ Rel Sim s' t' := by
  simp only [LoadLinked.step] at hs
  split at hs
  swap
  · exact nomatch hs
  rename_i l hc hl
  obtain rfl := Option.some.inj hs
  obtain ⟨p, hp, hsim⟩ := himpl op l hl
  have hi : t.calls i = none := by
    have hcall := h.calls i
    rw [hc] at hcall
    cases hti : t.calls i with
    | none => rfl
    | some c' =>
      rw [hti] at hcall
      exact nomatch hcall
  refine ⟨{ t with
    calls := Function.update t.calls i (some ⟨t.next, op, p⟩)
    next := t.next + 1
    log := t.log ++ [.invoke t.next op] }, ?_, h.value, congrArg (· + 1) h.next, ?_, fun j => ?_⟩
  · simp only [CasLoop.step, hi, hp]
  · show erase (t.log ++ [.invoke t.next op]) = _
    rw [erase_invoke, h.log, h.next]
  · show CallRel Sim s.value (s.linked j) (Function.update s.calls i _ j)
      (Function.update t.calls i _ j)
    by_cases hj : j = i
    · subst hj
      rw [Function.update_self, Function.update_self, h.next]
      exact .some hsim fun v hv => absurd hv.symm (Option.some_ne_none v)
    · rw [Function.update_of_ne hj, Function.update_of_ne hj]
      exact h.calls j

/-- A return of a machine is a return of a program. -/
theorem Rel.respond (hsim : Simulates next Sim) (h : Rel Sim s t) {i : Pid}
    (hs : LoadLinked.step next impl s (.respond i) = some s') :
    ∃ t', CasLoop.step progs t (.respond i) = some t' ∧ Rel Sim s' t' := by
  simp only [LoadLinked.step] at hs
  split at hs
  swap
  · exact nomatch hs
  rename_i c hc
  split at hs
  swap
  · exact nomatch hs
  rename_i r hr
  obtain rfl := Option.some.inj hs
  have hi : t.calls i = some ⟨c.id, c.op, .ret r⟩ := by
    have hcall := h.calls i
    rw [hc] at hcall
    match c, t.calls i, hcall, hr with
    | _, _, .some hrel _, hr =>
      have hok := hsim _ _ _ hrel
      rw [hr] at hok
      rw [show _ = Prog.ret r from hok]
  refine ⟨{ t with
    calls := Function.update t.calls i none
    log := t.log ++ [.respond c.id r] }, ?_, h.value, h.next, ?_, fun j => ?_⟩
  · simp only [CasLoop.step, hi]
  · show erase (t.log ++ [.respond c.id r]) = _
    rw [erase_respond, h.log]
  · show CallRel Sim s.value (s.linked j) (Function.update s.calls i _ j)
      (Function.update t.calls i _ j)
    by_cases hj : j = i
    · subst hj
      rw [Function.update_self, Function.update_self]
      exact .none
    · rw [Function.update_of_ne hj, Function.update_of_ne hj]
      exact h.calls j

/-- Along a run of machines that simulate programs, there is a run of those. -/
theorem rel_of_run (hsim : Simulates next Sim)
    (himpl : ∀ op l, impl op = some l → ∃ p, progs op = some p ∧ Sim l p none) {v₀ : V}
    {as : List (Action C Op Pid)} (h : Run.run (LoadLinked.step next impl) (start v₀) as = some s) :
    ∃ (bs : List (CasLoop.Action V Op Pid)) (t : CasLoop.State V R Op Pid),
      Run.run (CasLoop.step progs) (CasLoop.start v₀) bs = some t ∧ Rel Sim s t := by
  refine Run.run_induction (P := fun _ s => ∃ (bs : List (CasLoop.Action V Op Pid))
    (t : CasLoop.State V R Op Pid), Run.run (CasLoop.step progs) (CasLoop.start v₀) bs = some t ∧
      Rel Sim s t) ⟨[], CasLoop.start v₀, rfl, rfl, rfl, rfl, fun _ => .none⟩
    (fun _ s a s' _ hs ha => ?_) h
  obtain ⟨bs, t, hrun, hrel⟩ := hs
  cases a with
  | invoke i op =>
    obtain ⟨t', ht', hrel'⟩ := hrel.invoke himpl ha
    exact ⟨_, t', Run.run_concat hrun ht', hrel'⟩
  | step i choice ok =>
    have hstep : ∃ cs t', Run.run (CasLoop.step progs) t cs = some t' ∧ Rel Sim s' t' :=
      hrel.step hsim ha
    obtain ⟨cs, t', hrun', hrel'⟩ := hstep
    refine ⟨bs ++ cs, t', ?_, hrel'⟩
    rw [Run.run_append, hrun]
    exact hrun'
  | respond i =>
    have hstep : ∃ t', CasLoop.step progs t (.respond i) = some t' ∧ Rel Sim s' t' :=
      hrel.respond hsim ha
    obtain ⟨t', ht', hrel'⟩ := hstep
    exact ⟨_, t', Run.run_concat hrun ht', hrel'⟩

/-- **Machines do nothing that programs do not do.** Every run of machines that simulate
programs is a run of those, with the same value in the end and the same calls and returns. -/
theorem refines_of_run (hsim : Simulates next Sim)
    (himpl : ∀ op l, impl op = some l → ∃ p, progs op = some p ∧ Sim l p none) {v₀ : V}
    {as : List (Action C Op Pid)} (h : Run.run (LoadLinked.step next impl) (start v₀) as = some s) :
    ∃ (bs : List (CasLoop.Action V Op Pid)) (t : CasLoop.State V R Op Pid),
      Run.run (CasLoop.step progs) (CasLoop.start v₀) bs = some t ∧ t.value = s.value ∧
        erase t.log = s.log := by
  obtain ⟨bs, t, hrun, hrel⟩ := rel_of_run hsim himpl h
  exact ⟨bs, t, hrun, hrel.value, hrel.log⟩

/-- **Machines that simulate programs are linearizable** if the programs perform what the
operations are. -/
theorem linearizes_of_run {sem : Op → V → V × R} (hsim : Simulates next Sim)
    (himpl : ∀ op l, impl op = some l → ∃ p, progs op = some p ∧ Sim l p none)
    (hprogs : ∀ op p, progs op = some p → p.Performs (sem op)) {v₀ : V}
    {as : List (Action C Op Pid)} (h : Run.run (LoadLinked.step next impl) (start v₀) as = some s) :
    ∃ order, Linearizes sem v₀ s.value s.log order := by
  obtain ⟨bs, t, hrun, hvalue, hlog⟩ := refines_of_run hsim himpl h
  refine ⟨CasLoop.decided t.log, ?_⟩
  rw [← hvalue, ← hlog]
  exact linearizes_erase (CasLoop.linearizes_of_run hprogs hrun)

/-- Where the calls are along a run. -/
theorem sim_of_run (hsim : Simulates next Sim)
    (himpl : ∀ op l, impl op = some l → ∃ p, progs op = some p ∧ Sim l p none) {v₀ : V}
    {as : List (Action C Op Pid)} (h : Run.run (LoadLinked.step next impl) (start v₀) as = some s)
    {i : Pid} {c : Call L Op} (hc : s.calls i = some c) : ∃ p lk, Sim c.loc p lk := by
  obtain ⟨bs, t, -, hrel⟩ := rel_of_run hsim himpl h
  have hcall := hrel.calls i
  rw [hc] at hcall
  match c, t.calls i, hcall with
  | _, _, .some hsim _ => exact ⟨_, _, hsim⟩

end Runs

/-! ## A process alone -/

/-- **A machine that returns** when nobody else does anything and no store-conditional fails
for no reason, whatever else it depends on. The arguments are the variable, whether it is
linked, and where the machine is. -/
inductive Returns (next : L → Access V R L C) : V → Bool → L → Prop
  | ret {v : V} {b : Bool} {l : L} {r : R} (h : next l = .ret r) : Returns next v b l
  | inner {v : V} {b : Bool} {l : L} {k : C → L} (h : next l = .inner k)
      (hk : ∀ c, Returns next v b (k c)) : Returns next v b l
  | load {v : V} {b : Bool} {l : L} {k : V → L} (h : next l = .load k)
      (hk : Returns next v b (k v)) : Returns next v b l
  | store {v w : V} {b : Bool} {l l' : L} (h : next l = .store w l')
      (hk : Returns next w b l') : Returns next v b l
  | loadLinked {v : V} {b : Bool} {l : L} {k : V → L} (h : next l = .loadLinked k)
      (hk : Returns next v true (k v)) : Returns next v b l
  | stored {v w : V} {l : L} {k : Bool → L} (h : next l = .storeConditional w k)
      (hk : Returns next w false (k true)) : Returns next v true l
  | notStored {v w : V} {l : L} {k : Bool → L} (h : next l = .storeConditional w k)
      (hk : Returns next v false (k false)) : Returns next v false l

/-- A process takes a number of steps, which depend on some things. -/
def alone (i : Pid) : (ℕ → C) → ℕ → List (Action C Op Pid)
  | _, 0 => []
  | ch, n + 1 => .step i (ch 0) true :: alone i (fun m => ch (m + 1)) n

/-- A step of a process that is in a call. -/
theorem step_eq {next : L → Access V R L C} {impl : Op → Option L} {s : State V R L Op Pid}
    {i : Pid} {c : Call L Op} {a : Access V R L C} {choice : C} {ok : Bool}
    (hc : s.calls i = some c) (h : next c.loc = a) :
    LoadLinked.step next impl s (.step i choice ok) = s.access i c choice ok a := by
  simp only [LoadLinked.step, hc, h]

/-- One step, and the rest. -/
theorem Returns.run_head {next : L → Access V R L C} {impl : Op → Option L} {i : Pid} {ch : ℕ → C}
    {s t : State V R L Op Pid}
    (hs : LoadLinked.step next impl s (.step i (ch 0) true) = some t)
    (h : ∃ n s' s'', Run.run (LoadLinked.step next impl) t (alone i (fun m => ch (m + 1)) n) =
      some s' ∧ LoadLinked.step next impl s' (.respond i) = some s'') :
    ∃ n s' s'', Run.run (LoadLinked.step next impl) s (alone i ch n) = some s' ∧
      LoadLinked.step next impl s' (.respond i) = some s'' := by
  obtain ⟨n, s', s'', hrun, hret⟩ := h
  refine ⟨n + 1, s', s'', ?_, hret⟩
  show (LoadLinked.step next impl s (.step i (ch 0) true)).bind _ = some s'
  rw [hs]
  exact hrun

/-- **A process that runs alone returns.** Whatever its steps depend on, after some number of
them it can return from its call. -/
theorem Returns.run {next : L → Access V R L C} {impl : Op → Option L} {v : V} {b : Bool} {l : L}
    (h : Returns next v b l) {s : State V R L Op Pid} {i : Pid} {id : ℕ} {op : Op}
    (hc : s.calls i = some ⟨id, op, l⟩) (hv : s.value = v) (hb : s.linked i = b) (ch : ℕ → C) :
    ∃ n s' s'', Run.run (LoadLinked.step next impl) s (alone i ch n) = some s' ∧
      LoadLinked.step next impl s' (.respond i) = some s'' := by
  induction h generalizing s ch with
  | @ret v b l r h =>
    refine ⟨0, s, { s with
      calls := Function.update s.calls i none
      log := s.log ++ [.respond id r] }, rfl, ?_⟩
    simp only [LoadLinked.step, hc, h]
  | inner h _ ih =>
    refine run_head (step_eq hc h) (ih (ch 0) ?_ ?_ ?_ _)
    · exact Function.update_self ..
    · exact hv
    · exact hb
  | @load v b l k h _ ih =>
    subst hv
    refine run_head (step_eq hc h) (ih ?_ ?_ ?_ _)
    · exact Function.update_self ..
    · rfl
    · exact hb
  | store h _ ih =>
    refine run_head (step_eq hc h) (ih ?_ rfl ?_ _)
    · exact Function.update_self ..
    · show (s.linked i && decide (i = i)) = _
      rw [hb, decide_eq_true rfl, Bool.and_true]
  | @loadLinked v b l k h _ ih =>
    subst hv
    refine run_head (step_eq hc h) (ih ?_ ?_ ?_ _)
    · exact Function.update_self ..
    · rfl
    · exact Function.update_self ..
  | @stored v w l k h _ ih =>
    have hstored : s.access i ⟨id, op, l⟩ (ch 0) true (.storeConditional w k) = some { s with
        value := w, linked := fun _ => false, calls := s.goto i ⟨id, op, l⟩ (k true) } := by
      simp only [State.access, hb]
      rfl
    refine run_head ((step_eq hc h).trans hstored) (ih ?_ rfl rfl _)
    exact Function.update_self ..
  | @notStored v w l k h _ ih =>
    have hnot : s.access i ⟨id, op, l⟩ (ch 0) true (.storeConditional w k) = some { s with
        linked := Function.update s.linked i false
        calls := s.goto i ⟨id, op, l⟩ (k false) } := by
      simp only [State.access, hb]
      rfl
    refine run_head ((step_eq hc h).trans hnot) (ih ?_ ?_ ?_ _)
    · exact Function.update_self ..
    · exact hv
    · exact Function.update_self ..

end LoadLinked
