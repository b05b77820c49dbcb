import Mathlib.Data.List.Nodup
import Mathlib.Logic.Function.Basic
import PgCitus.Library.Run

/-!
# Compare-and-swap on one variable

Processes that share a variable and may do three things with it: read it plainly, which
gives any value whatever; compare and swap it once; and compare and swap it until that
succeeds, each failure giving the value to compare with next. A program is a sequence
of those (`Prog`), and a process calls one program after another.

The object the variable should be is a sequential one, which gives for every operation
what becomes of the value and what is returned. A program *performs* an operation
(`Prog.Performs`) if it has one comparison that decides, and what it stores and returns
there are the operation's, for any value that it finds. Then every run is
linearizable (`linearizes_of_run`): in the order of their deciding comparisons the calls
are a sequential run of the object.
-/

namespace CasLoop

variable {V R S Op Pid : Type*}

/-! ## Programs -/

/-- **A program over the shared variable.** -/
inductive Prog (V R : Type*)
  /-- Return. -/
  | ret (r : R)
  /-- Read the variable, not atomically. -/
  | read (k : V → Prog V R)
  /-- Compare and swap once; go on with whether it succeeded and the value found. -/
  | cas (expected desired : V) (k : Bool → V → Prog V R)
  /-- Compare and swap until it succeeds; go on with the value found then. -/
  | casUntil (expected : V) (desired : V → V) (k : V → Prog V R)

/-- Compute something from what a program returns. -/
def Prog.map (f : R → S) : Prog V R → Prog V S
  | ret r => ret (f r)
  | read k => read fun w => (k w).map f
  | cas expected desired k => cas expected desired fun b v => (k b v).map f
  | casUntil expected desired k => casUntil expected desired fun v => (k v).map f

/-- **Compare and swap**: what becomes of the variable, and whether it succeeded. The
value found is the value the variable had. -/
def compareAndSwap [DecidableEq V] (value expected desired : V) : V × Bool :=
  if value = expected then (desired, true) else (value, false)

/-- **One step of a program**: the variable and the program after it, and whether the
step was the comparison that decides. -/
def Prog.next [DecidableEq V] (value guess : V) : Prog V R → Option (V × Prog V R × Bool)
  | ret _ => none
  | read k => some (value, k guess, false)
  | cas expected desired k =>
    let (value', ok) := compareAndSwap value expected desired
    some (value', k ok value, true)
  | casUntil expected desired k =>
    let (value', ok) := compareAndSwap value expected (desired expected)
    some (value', if ok then k value else casUntil value desired k, ok)

/-- **A program performs an operation**: at the comparison that decides it stores and
returns what the operation says, for any value found. -/
def Prog.Performs [DecidableEq V] (op : V → V × R) : Prog V R → Prop
  | ret _ => False
  | read k => ∀ w, (k w).Performs op
  | cas expected desired k =>
    ∀ v, (op v).1 = (compareAndSwap v expected desired).1 ∧
      k (compareAndSwap v expected desired).2 v = ret (op v).2
  | casUntil _ desired k => ∀ v, (op v).1 = desired v ∧ k v = ret (op v).2

/-! ## Processes -/

/-- What can be seen of a run. Calls are numbered as they are made. -/
inductive Event (Op R : Type*)
  | invoke (id : ℕ) (op : Op)
  | decide (id : ℕ) (op : Op)
  | respond (id : ℕ) (r : R)

/-- A call under way. -/
structure Call (V R Op : Type*) where
  id : ℕ
  op : Op
  prog : Prog V R

/-- The variable, the call each process is in, and what happened so far. -/
structure State (V R Op Pid : Type*) where
  value : V
  calls : Pid → Option (Call V R Op)
  next : ℕ
  log : List (Event Op R)

/-- A process makes a call, takes a step in it, or returns from it. -/
inductive Action (V Op Pid : Type*)
  | invoke (i : Pid) (op : Op)
  | step (i : Pid) (guess : V)
  | respond (i : Pid)

/-- No process is in a call, and nothing happened. -/
def start (v₀ : V) : State V R Op Pid := ⟨v₀, fun _ => none, 0, []⟩

/-- **One action.** It is refused if the process is not where it would take it, or the
operation may not be called. -/
def step [DecidableEq V] [DecidableEq Pid] (impl : Op → Option (Prog V R))
    (s : State V R Op Pid) : Action V Op Pid → Option (State V R Op Pid)
  | .invoke i op =>
    match s.calls i, impl op with
    | none, some p => some { s with
        calls := Function.update s.calls i (some ⟨s.next, op, p⟩)
        next := s.next + 1
        log := s.log ++ [.invoke s.next op] }
    | _, _ => none
  | .step i guess =>
    match s.calls i with
    | some c => (c.prog.next s.value guess).map fun (value, p, decisive) =>
      { s with
        value := value
        calls := Function.update s.calls i (some { c with prog := p })
        log := if decisive then s.log ++ [.decide c.id c.op] else s.log }
    | none => none
  | .respond i =>
    match s.calls i with
    | some ⟨id, _, .ret r⟩ => some { s with
        calls := Function.update s.calls i none
        log := s.log ++ [.respond id r] }
    | _ => none

/-! ## The sequential object -/

/-- The value after a sequence of calls. -/
def final (sem : Op → V → V × R) (v : V) (order : List (ℕ × Op)) : V :=
  order.foldl (fun v c => (sem c.2 v).1) v

/-- What each of a sequence of calls returns. -/
def results (sem : Op → V → V × R) : V → List (ℕ × Op) → List (ℕ × R)
  | _, [] => []
  | v, c :: cs => (c.1, (sem c.2 v).2) :: results sem (sem c.2 v).1 cs

/-- The call an event decides. -/
def Event.decided : Event Op R → Option (ℕ × Op)
  | .decide id op => some (id, op)
  | _ => none

/-- **The order in which calls were decided.** -/
def decided (log : List (Event Op R)) : List (ℕ × Op) := log.filterMap Event.decided

/-- The numbers of the calls that were decided. -/
def decidedIds (log : List (Event Op R)) : List ℕ := (decided log).map Prod.fst

/-- **An order of calls linearizes what happened**, from a first value to the last one.
No call is in it twice, and only calls that were made are; every call that returned is,
with what it returns in a sequential run of the object, which ends in the last value; and
a call that returned before another was made comes before it. -/
structure Linearizes (sem : Op → V → V × R) (v₀ v : V) (log : List (Event Op R))
    (order : List (ℕ × Op)) : Prop where
  nodup : (order.map Prod.fst).Nodup
  invoked : ∀ id op, (id, op) ∈ order → Event.invoke id op ∈ log
  completed : ∀ id r, Event.respond id r ∈ log → (id, r) ∈ results sem v₀ order
  value : v = final sem v₀ order
  realTime : ∀ a r b op, [Event.respond a r, .invoke b op].Sublist log →
    b ∈ order.map Prod.fst → [a, b].Sublist (order.map Prod.fst)

section Object

variable {sem : Op → V → V × R}

theorem final_concat (v : V) (order : List (ℕ × Op)) (c : ℕ × Op) :
    final sem v (order ++ [c]) = (sem c.2 (final sem v order)).1 := by
  unfold final
  rw [List.foldl_append]
  rfl

theorem results_concat (v : V) (order : List (ℕ × Op)) (c : ℕ × Op) :
    results sem v (order ++ [c]) =
      results sem v order ++ [(c.1, (sem c.2 (final sem v order)).2)] := by
  induction order generalizing v with
  | nil => rfl
  | cons d order ih => exact congrArg (_ :: ·) (ih (sem d.2 v).1)

/-- Only calls of the sequence return. -/
theorem mem_map_fst_of_mem_results {v : V} {order : List (ℕ × Op)} {id : ℕ} {r : R}
    (h : (id, r) ∈ results sem v order) : id ∈ order.map Prod.fst := by
  induction order generalizing v with
  | nil => exact absurd h List.not_mem_nil
  | cons c order ih =>
    rcases List.mem_cons.mp h with h | h
    · exact List.mem_cons.mpr (Or.inl (Prod.mk.inj h).1)
    · exact List.mem_cons_of_mem _ (ih h)

/-- What was returned stays returned. -/
theorem mem_results_concat {v : V} {order : List (ℕ × Op)} {x : ℕ × R} (c : ℕ × Op)
    (h : x ∈ results sem v order) : x ∈ results sem v (order ++ [c]) := by
  rw [results_concat]
  exact List.mem_append_left _ h

end Object

theorem decided_append (log log' : List (Event Op R)) :
    decided (log ++ log') = decided log ++ decided log' := List.filterMap_append

@[simp]
theorem decided_invoke (log : List (Event Op R)) (id : ℕ) (op : Op) :
    decided (log ++ [.invoke id op]) = decided log := by
  rw [decided_append]
  exact List.append_nil _

@[simp]
theorem decided_decide (log : List (Event Op R)) (id : ℕ) (op : Op) :
    decided (log ++ [.decide id op]) = decided log ++ [(id, op)] := decided_append _ _

@[simp]
theorem decided_respond (log : List (Event Op R)) (id : ℕ) (r : R) :
    decided (log ++ [.respond id r]) = decided log := by
  rw [decided_append]
  exact List.append_nil _

/-! ## What may follow what -/

/-- **A log in order.** A call is decided after it was made, once, and returns after it
was decided. -/
inductive InOrder : List (Event Op R) → Prop
  | nil : InOrder []
  | invoke {log : List (Event Op R)} (id : ℕ) (op : Op) (h : InOrder log)
      (fresh : id ∉ decidedIds log) : InOrder (log ++ [.invoke id op])
  | decide {log : List (Event Op R)} (id : ℕ) (op : Op) (h : InOrder log)
      (invoked : Event.invoke id op ∈ log) (once : id ∉ decidedIds log) :
      InOrder (log ++ [.decide id op])
  | respond {log : List (Event Op R)} (id : ℕ) (r : R) (h : InOrder log)
      (decided : id ∈ decidedIds log) : InOrder (log ++ [.respond id r])

theorem InOrder.nodup {log : List (Event Op R)} (h : InOrder log) :
    (decidedIds log).Nodup := by
  induction h with
  | nil => exact List.nodup_nil
  | invoke id op _ _ ih =>
    unfold decidedIds at ih ⊢
    rwa [decided_invoke]
  | decide id op _ _ once ih =>
    unfold decidedIds at ih once ⊢
    rw [decided_decide, List.map_append]
    exact List.nodup_append.mpr ⟨ih, List.nodup_singleton id, by
      rintro a ha b hb rfl
      rw [List.mem_singleton.mp hb] at ha
      exact once ha⟩
  | respond id r _ _ ih =>
    unfold decidedIds at ih ⊢
    rwa [decided_respond]

theorem InOrder.invoked {log : List (Event Op R)} (h : InOrder log) {id : ℕ} {op : Op}
    (hmem : (id, op) ∈ decided log) : Event.invoke id op ∈ log := by
  induction h with
  | nil => exact absurd hmem List.not_mem_nil
  | invoke id' op' _ _ ih =>
    rw [decided_invoke] at hmem
    exact List.mem_append_left _ (ih hmem)
  | decide id' op' _ invoked _ ih =>
    rw [decided_decide] at hmem
    refine List.mem_append_left _ ?_
    rcases List.mem_append.mp hmem with hmem | hmem
    · exact ih hmem
    · obtain ⟨rfl, rfl⟩ := Prod.mk.inj (List.mem_singleton.mp hmem)
      exact invoked
  | respond id' r _ _ ih =>
    rw [decided_respond] at hmem
    exact List.mem_append_left _ (ih hmem)

theorem InOrder.decided_of_respond {log : List (Event Op R)} (h : InOrder log) {id : ℕ} {r : R}
    (hmem : Event.respond id r ∈ log) : id ∈ decidedIds log := by
  unfold decidedIds
  induction h with
  | nil => exact absurd hmem List.not_mem_nil
  | invoke id' op' _ _ ih =>
    rw [decided_invoke]
    rcases List.mem_append.mp hmem with hmem | hmem
    · exact ih hmem
    · exact absurd (List.mem_singleton.mp hmem) nofun
  | decide id' op' _ _ _ ih =>
    rw [decided_decide, List.map_append]
    rcases List.mem_append.mp hmem with hmem | hmem
    · exact List.mem_append_left _ (ih hmem)
    · exact absurd (List.mem_singleton.mp hmem) nofun
  | respond id' r' _ decided ih =>
    rw [decided_respond]
    rcases List.mem_append.mp hmem with hmem | hmem
    · exact ih hmem
    · obtain ⟨rfl, -⟩ := Event.respond.inj (List.mem_singleton.mp hmem)
      exact decided

/-- Two elements of a list and one more, in this order. -/
theorem pair_sublist_concat {α : Type*} {x y z : α} {l : List α}
    (h : [x, y].Sublist (l ++ [z])) : [x, y].Sublist l ∨ (x ∈ l ∧ y = z) := by
  obtain ⟨l₁, l₂, heq, h₁, h₂⟩ := List.sublist_append_iff.mp h
  rcases l₂ with _ | ⟨w, l₂⟩
  · rw [List.append_nil] at heq
    exact Or.inl (heq ▸ h₁)
  · obtain ⟨rfl, hnil⟩ : w = z ∧ l₂ = [] := by
      cases h₂ with
      | cons _ h => exact absurd h (List.not_mem_nil ∘ fun h => h.subset List.mem_cons_self)
      | cons_cons _ h => exact ⟨rfl, List.sublist_nil.mp h⟩
    subst hnil
    obtain ⟨rfl, hy⟩ := List.append_inj' (show [x] ++ [y] = l₁ ++ [w] from heq) rfl
    exact Or.inr ⟨h₁.subset List.mem_cons_self, List.singleton_inj.mp hy⟩

/-- **Real time.** A call that returned before another was made was decided before it. -/
theorem InOrder.realTime {log : List (Event Op R)} (h : InOrder log) {a b : ℕ} {r : R} {op : Op}
    (hsub : [Event.respond a r, .invoke b op].Sublist log) (hb : b ∈ decidedIds log) :
    [a, b].Sublist (decidedIds log) := by
  unfold decidedIds at hb ⊢
  induction h with
  | nil => exact absurd hb List.not_mem_nil
  | @invoke log id op' h fresh ih =>
    rw [decided_invoke] at hb ⊢
    rcases pair_sublist_concat hsub with hsub | ⟨-, heq⟩
    · exact ih hsub hb
    · obtain ⟨rfl, -⟩ := Event.invoke.inj heq
      exact absurd hb fresh
  | @decide log id op' h _ _ ih =>
    rcases pair_sublist_concat hsub with hsub | ⟨-, heq⟩
    · rw [decided_decide, List.map_append] at hb ⊢
      rcases List.mem_append.mp hb with hb | hb
      · exact (ih hsub hb).trans (List.sublist_append_left _ _)
      · rw [List.mem_singleton.mp hb]
        have ha : a ∈ decidedIds log := h.decided_of_respond (hsub.subset List.mem_cons_self)
        exact (List.singleton_sublist.mpr ha).append (List.Sublist.refl _)
    · exact nomatch heq
  | respond id r' h _ ih =>
    rw [decided_respond] at hb ⊢
    rcases pair_sublist_concat hsub with hsub | ⟨-, heq⟩
    · exact ih hsub hb
    · exact nomatch heq

/-! ## One step of a program -/

section Step

variable [DecidableEq V] {op : V → V × R} {v guess v' : V} {p p' : Prog V R} {decisive : Bool}

/-- **What a step of a program does that performs an operation.** It leaves the variable
as it was and the program performs the operation still, or it is the comparison that
decides and stores and returns what the operation says. -/
theorem Prog.Performs.next (h : p.Performs op) (hstep : p.next v guess = some (v', p', decisive)) :
    (decisive = false ∧ v' = v ∧ p'.Performs op) ∨
    (decisive = true ∧ v' = (op v).1 ∧ p' = .ret (op v).2) := by
  cases p with
  | ret r => exact absurd h id
  | read k =>
    obtain ⟨rfl, rfl, rfl⟩ : v = v' ∧ k guess = p' ∧ false = decisive := by
      simpa only [Prog.next, Option.some.injEq, Prod.mk.injEq] using hstep
    exact Or.inl ⟨rfl, rfl, h guess⟩
  | cas expected desired k =>
    obtain ⟨hv, hp, rfl⟩ : (compareAndSwap v expected desired).1 = v' ∧
        k (compareAndSwap v expected desired).2 v = p' ∧ true = decisive := by
      simpa only [Prog.next, Option.some.injEq, Prod.mk.injEq] using hstep
    exact Or.inr ⟨rfl, hv ▸ (h v).1.symm, hp ▸ (h v).2⟩
  | casUntil expected desired k =>
    obtain ⟨hv, hp, hd⟩ : (compareAndSwap v expected (desired expected)).1 = v' ∧
        (if (compareAndSwap v expected (desired expected)).2 = true then k v
          else .casUntil v desired k) = p' ∧
        (compareAndSwap v expected (desired expected)).2 = decisive := by
      simpa only [Prog.next, Option.some.injEq, Prod.mk.injEq] using hstep
    unfold compareAndSwap at hv hp hd
    by_cases heq : v = expected
    · rw [if_pos heq] at hv hp hd
      refine Or.inr ⟨hd.symm, ?_, hp.symm.trans (h v).2⟩
      rw [← hv, ← heq]
      exact (h v).1.symm
    · rw [if_neg heq] at hv hp hd
      exact Or.inl ⟨hd.symm, hv.symm, hp ▸ h⟩

/-- What is computed from the result alone is computed from the operation's result. -/
theorem Prog.Performs.map (f : R → S) (h : p.Performs op) :
    (p.map f).Performs fun v => ((op v).1, f (op v).2) := by
  induction p with
  | ret r => exact absurd h id
  | read k ih => exact fun w => ih w (h w)
  | cas expected desired k _ =>
    refine fun v => ⟨(h v).1, ?_⟩
    show (k _ v).map f = _
    rw [(h v).2]
    rfl
  | casUntil expected desired k _ =>
    refine fun v => ⟨(h v).1, ?_⟩
    show (k v).map f = _
    rw [(h v).2]
    rfl

end Step

/-! ## Runs -/

section Apart

/-- No two processes are in the same call. -/
def Apart (calls : Pid → Option (Call V R Op)) : Prop :=
  ∀ i j c c', calls i = some c → calls j = some c' → c.id = c'.id → i = j

variable [DecidableEq Pid]

/-- Where the calls are after the call of one process changed. -/
theorem update_eq_some {α : Type*} {f : Pid → Option α} {i j : Pid} {x : Option α} {y : α}
    (h : Function.update f i x j = some y) : (j = i ∧ x = some y) ∨ (j ≠ i ∧ f j = some y) := by
  by_cases hj : j = i
  · rw [hj, Function.update_self] at h
    exact Or.inl ⟨hj, h⟩
  · rw [Function.update_of_ne hj] at h
    exact Or.inr ⟨hj, h⟩

/-- One process is in another call than the rest. -/
theorem Apart.update {calls : Pid → Option (Call V R Op)} (h : Apart calls) {i : Pid}
    {x : Option (Call V R Op)}
    (hx : ∀ c, x = some c → ∀ j d, j ≠ i → calls j = some d → d.id ≠ c.id) :
    Apart (Function.update calls i x) := by
  intro j k c d hc hd hid
  rcases update_eq_some hc with ⟨hj, hc⟩ | ⟨hj, hc⟩ <;>
    rcases update_eq_some hd with ⟨hk, hd⟩ | ⟨hk, hd⟩
  · exact hj.trans hk.symm
  · exact absurd hid.symm (hx c hc k d hk hd)
  · exact absurd hid (hx d hd j c hj hc)
  · exact h j k c d hc hd hid

/-- A call goes on. -/
theorem Apart.update_prog {calls : Pid → Option (Call V R Op)} (h : Apart calls) {i : Pid}
    {c : Call V R Op} (hc : calls i = some c) (p : Prog V R) :
    Apart (Function.update calls i (some { c with prog := p })) :=
  h.update fun _ heq j d hj hd hid =>
    hj (h j i d c hd hc (hid.trans (congrArg Call.id (Option.some.inj heq)).symm))

end Apart

section Runs

variable [DecidableEq V] [DecidableEq Pid] {sem : Op → V → V × R} {v₀ : V}
  {impl : Op → Option (Prog V R)} {s s' : State V R Op Pid}

/-- **Where a call is**: not decided and performing its operation, or decided and about to
return what the object returns. -/
def Call.Ok (sem : Op → V → V × R) (v₀ : V) (order : List (ℕ × Op)) (c : Call V R Op) : Prop :=
  (c.id ∉ order.map Prod.fst ∧ c.prog.Performs (sem c.op)) ∨
  ∃ r, c.prog = .ret r ∧ (c.id, r) ∈ results sem v₀ order

/-- Another call that is decided changes nothing about this one. -/
theorem Call.Ok.concat {order : List (ℕ × Op)} {c : Call V R Op} (h : c.Ok sem v₀ order)
    {id : ℕ} (op : Op) (hne : c.id ≠ id) : c.Ok sem v₀ (order ++ [(id, op)]) := by
  rcases h with ⟨hnot, hp⟩ | ⟨r, hr, hmem⟩
  · refine Or.inl ⟨?_, hp⟩
    rw [List.map_append, List.mem_append, not_or]
    exact ⟨hnot, fun h => hne (List.mem_singleton.mp h)⟩
  · exact Or.inr ⟨r, hr, mem_results_concat _ hmem⟩

/-- **What holds along a run.** -/
structure Inv (sem : Op → V → V × R) (v₀ : V) (s : State V R Op Pid) : Prop where
  inOrder : InOrder s.log
  value : s.value = final sem v₀ (decided s.log)
  made : ∀ id op, Event.invoke id op ∈ s.log → id < s.next
  calls : ∀ i c, s.calls i = some c →
    Event.invoke c.id c.op ∈ s.log ∧ c.Ok sem v₀ (decided s.log)
  apart : Apart s.calls
  completed : ∀ id r, Event.respond id r ∈ s.log → (id, r) ∈ results sem v₀ (decided s.log)

omit [DecidableEq Pid] in
theorem inv_start (v₀ : V) : Inv sem v₀ (start v₀ : State V R Op Pid) where
  inOrder := .nil
  value := rfl
  made _ _ h := absurd h List.not_mem_nil
  calls _ _ h := nomatch h
  apart _ _ _ _ h := nomatch h
  completed _ _ h := absurd h List.not_mem_nil

omit [DecidableEq Pid] in
/-- A number not given yet was not decided. -/
theorem Inv.next_notMem (h : Inv sem v₀ s) : s.next ∉ decidedIds s.log := by
  intro hmem
  obtain ⟨⟨id, op⟩, hmem, rfl⟩ := List.mem_map.mp hmem
  exact Nat.lt_irrefl _ (h.made _ op (h.inOrder.invoked hmem))

/-- A process makes a call. -/
theorem Inv.invoke (himpl : ∀ op p, impl op = some p → p.Performs (sem op)) (h : Inv sem v₀ s)
    {i : Pid} {op : Op} (hs : step impl s (.invoke i op) = some s') : Inv sem v₀ s' := by
  obtain ⟨p, hp, rfl⟩ : ∃ p, impl op = some p ∧ s' = { s with
      calls := Function.update s.calls i (some ⟨s.next, op, p⟩)
      next := s.next + 1
      log := s.log ++ [.invoke s.next op] } := by
    simp only [step] at hs
    split at hs
    · exact ⟨_, ‹_›, (Option.some.inj hs).symm⟩
    · exact nomatch hs
  have old {j : Pid} {c : Call V R Op} (hc : s.calls j = some c) : c.id < s.next :=
    h.made c.id c.op (h.calls j c hc).1
  refine ⟨.invoke s.next op h.inOrder h.next_notMem, ?_, ?_, ?_, ?_, ?_⟩
  · exact h.value.trans (by rw [decided_invoke])
  · intro id op' hmem
    rcases List.mem_append.mp hmem with hmem | hmem
    · exact Nat.lt_succ_of_lt (h.made id op' hmem)
    · obtain ⟨rfl, -⟩ := Event.invoke.inj (List.mem_singleton.mp hmem)
      exact Nat.lt_succ_self _
  · intro j c hc
    rw [decided_invoke]
    rcases update_eq_some hc with ⟨-, hc⟩ | ⟨-, hc⟩
    · obtain rfl := Option.some.inj hc
      exact ⟨List.mem_append_right _ (List.mem_singleton.mpr rfl),
        Or.inl ⟨h.next_notMem, himpl op p hp⟩⟩
    · exact ⟨List.mem_append_left _ (h.calls j c hc).1, (h.calls j c hc).2⟩
  · refine h.apart.update fun c hc j d _ hd hid => ?_
    obtain rfl := Option.some.inj hc
    exact absurd (old hd) (hid ▸ Nat.lt_irrefl _)
  · intro id r hmem
    rw [decided_invoke]
    rcases List.mem_append.mp hmem with hmem | hmem
    · exact h.completed id r hmem
    · exact absurd (List.mem_singleton.mp hmem) nofun

/-- A process takes a step that decides nothing. -/
theorem Inv.wait (h : Inv sem v₀ s) {i : Pid} {c : Call V R Op} (hc : s.calls i = some c)
    {p : Prog V R} (hp : ({ c with prog := p } : Call V R Op).Ok sem v₀ (decided s.log)) :
    Inv sem v₀ { s with calls := Function.update s.calls i (some { c with prog := p }) } := by
  refine ⟨h.inOrder, h.value, h.made, ?_, h.apart.update_prog hc p, h.completed⟩
  intro j d hd
  rcases update_eq_some hd with ⟨-, hd⟩ | ⟨-, hd⟩
  · obtain rfl := Option.some.inj hd
    exact ⟨(h.calls i c hc).1, hp⟩
  · exact h.calls j d hd

/-- **A call is decided.** The variable becomes what the object says, and the call will
return what the object returns. -/
theorem Inv.decide (h : Inv sem v₀ s) {i : Pid} {c : Call V R Op} (hc : s.calls i = some c)
    (hnot : c.id ∉ decidedIds s.log) :
    Inv sem v₀ { s with
      value := (sem c.op s.value).1
      calls := Function.update s.calls i (some { c with prog := .ret (sem c.op s.value).2 })
      log := s.log ++ [.decide c.id c.op] } := by
  have hres : (c.id, (sem c.op s.value).2) ∈
      results sem v₀ (decided s.log ++ [(c.id, c.op)]) := by
    rw [results_concat, h.value]
    exact List.mem_append_right _ (List.mem_singleton.mpr rfl)
  refine ⟨.decide c.id c.op h.inOrder (h.calls i c hc).1 hnot, ?_, ?_, ?_,
    h.apart.update_prog hc _, ?_⟩
  · rw [decided_decide, final_concat, ← h.value]
  · intro id op hmem
    rcases List.mem_append.mp hmem with hmem | hmem
    · exact h.made id op hmem
    · exact absurd (List.mem_singleton.mp hmem) nofun
  · intro j d hd
    rw [decided_decide]
    rcases update_eq_some hd with ⟨-, hd⟩ | ⟨hj, hd⟩
    · obtain rfl := Option.some.inj hd
      exact ⟨List.mem_append_left _ (h.calls i c hc).1, Or.inr ⟨_, rfl, hres⟩⟩
    · have hne : d.id ≠ c.id := fun hid => hj (h.apart j i d c hd hc hid)
      exact ⟨List.mem_append_left _ (h.calls j d hd).1, (h.calls j d hd).2.concat c.op hne⟩
  · intro id r hmem
    rw [decided_decide]
    rcases List.mem_append.mp hmem with hmem | hmem
    · exact mem_results_concat _ (h.completed id r hmem)
    · exact absurd (List.mem_singleton.mp hmem) nofun

/-- A process takes a step in its call. -/
theorem Inv.step (h : Inv sem v₀ s) {i : Pid} {guess : V}
    (hs : step impl s (.step i guess) = some s') : Inv sem v₀ s' := by
  simp only [CasLoop.step] at hs
  split at hs
  · rename_i c hc
    obtain ⟨⟨v', p', decisive⟩, hnext, rfl⟩ := Option.map_eq_some_iff.mp hs
    rcases (h.calls i c hc).2 with ⟨hnot, hp⟩ | ⟨r, hr, -⟩
    · rcases hp.next hnext with ⟨rfl, rfl, hp'⟩ | ⟨rfl, rfl, rfl⟩
      · exact h.wait hc (Or.inl ⟨hnot, hp'⟩)
      · exact h.decide hc hnot
    · rw [hr] at hnext
      exact nomatch hnext
  · exact nomatch hs

/-- A process returns from its call. -/
theorem Inv.respond (h : Inv sem v₀ s) {i : Pid}
    (hs : CasLoop.step impl s (.respond i) = some s') : Inv sem v₀ s' := by
  simp only [CasLoop.step] at hs
  split at hs
  · rename_i id op r hc
    obtain rfl := Option.some.inj hs
    have hres : (id, r) ∈ results sem v₀ (decided s.log) := by
      rcases (h.calls i _ hc).2 with ⟨-, hp⟩ | ⟨r', hr, hmem⟩
      · exact absurd hp not_false
      · obtain rfl := Prog.ret.inj hr
        exact hmem
    refine ⟨.respond id r h.inOrder ?_, ?_, ?_, ?_, ?_, ?_⟩
    · exact mem_map_fst_of_mem_results hres
    · exact h.value.trans (by rw [decided_respond])
    · intro id' op' hmem
      rcases List.mem_append.mp hmem with hmem | hmem
      · exact h.made id' op' hmem
      · exact absurd (List.mem_singleton.mp hmem) nofun
    · intro j d hd
      rw [decided_respond]
      rcases update_eq_some hd with ⟨-, hd⟩ | ⟨-, hd⟩
      · exact nomatch hd
      · exact ⟨List.mem_append_left _ (h.calls j d hd).1, (h.calls j d hd).2⟩
    · exact h.apart.update fun _ heq => nomatch heq
    · intro id' r' hmem
      rw [decided_respond]
      rcases List.mem_append.mp hmem with hmem | hmem
      · exact h.completed id' r' hmem
      · obtain ⟨rfl, rfl⟩ := Event.respond.inj (List.mem_singleton.mp hmem)
        exact hres
  · exact nomatch hs

/-- **Every run is linearizable**, in the order of the comparisons that decide. -/
theorem linearizes_of_run (himpl : ∀ op p, impl op = some p → p.Performs (sem op))
    {as : List (Action V Op Pid)} (h : Run.run (CasLoop.step impl) (start v₀) as = some s) :
    Linearizes sem v₀ s.value s.log (decided s.log) := by
  have hinv : Inv sem v₀ s := by
    refine Run.run_invariant (fun s a s' hs ha => ?_) (inv_start v₀) h
    cases a with
    | invoke i op => exact hs.invoke himpl ha
    | step i guess => exact hs.step ha
    | respond i => exact hs.respond ha
  exact ⟨hinv.inOrder.nodup, fun _ _ => hinv.inOrder.invoked, hinv.completed, hinv.value,
    fun _ _ _ _ => hinv.inOrder.realTime⟩

end Runs

end CasLoop
