import Mathlib.Order.Defs.PartialOrder
import Mathlib.Tactic.Common

/-!
# Bounded loops

A loop of an imperative program is a body applied to a state until the body
leaves the loop. `Loop.run` applies the body at most `fuel` times and returns
what the body returned, or `none` when the fuel ran out first – so a theorem
that a run is `some r` says that the loop **ends**, and that it ends with `r`.

A body is a function into `Loop.Step`: it leaves the loop with a result, goes
round again with a new state, or is itself stuck (a nested loop that does not
end). Loops with a condition at the head are `Loop.whileDo`.

Two rules cover every use. `run_total` is total correctness: an invariant that
every pass keeps, and a measure that every pass lowers, give the result and
what is known of it. `run_mono` says that fuel beyond what is needed changes
nothing, so a statement about one amount of fuel is a statement about the loop.
-/

namespace Loop

variable {σ ρ : Type*}

/-- What one pass through a loop body does. -/
inductive Step (σ ρ : Type*) where
  /-- The body leaves the loop. -/
  | done (r : ρ)
  /-- The body goes round again. -/
  | next (s : σ)
  /-- The body does not end. -/
  | stuck

/-- **A pass meets a specification**: a result satisfies `Q`, a new state
satisfies `P`, and the body is not stuck. -/
def Step.Meets (Q : ρ → Prop) (P : σ → Prop) : Step σ ρ → Prop
  | .done r => Q r
  | .next s => P s
  | .stuck => False

@[simp] theorem Step.meets_done (Q : ρ → Prop) (P : σ → Prop) (r : ρ) :
    (Step.done r : Step σ ρ).Meets Q P ↔ Q r := Iff.rfl

@[simp] theorem Step.meets_next (Q : ρ → Prop) (P : σ → Prop) (s : σ) :
    (Step.next s : Step σ ρ).Meets Q P ↔ P s := Iff.rfl

@[simp] theorem Step.meets_stuck (Q : ρ → Prop) (P : σ → Prop) :
    (Step.stuck : Step σ ρ).Meets Q P ↔ False := Iff.rfl

/-- A pass that meets a specification meets every weaker one. -/
theorem Step.Meets.mono {x : Step σ ρ} {Q Q' : ρ → Prop} {P P' : σ → Prop}
    (h : x.Meets Q P) (hQ : ∀ r, Q r → Q' r) (hP : ∀ s, P s → P' s) :
    x.Meets Q' P' := by
  cases x with
  | done r => exact hQ r h
  | next s => exact hP s h
  | stuck => exact h

/-- A pass seen through a change of the state and of the result. -/
def Step.map {σ' ρ' : Type*} (g : σ → σ') (f : ρ → ρ') : Step σ ρ → Step σ' ρ'
  | .done r => .done (f r)
  | .next s => .next (g s)
  | .stuck => .stuck

/-- Run a loop body, at most `fuel` times. -/
def run (body : σ → Step σ ρ) : ℕ → σ → Option ρ
  | 0, _ => none
  | fuel + 1, s =>
    match body s with
    | .done r => some r
    | .next s' => run body fuel s'
    | .stuck => none

/-- A pass that leaves the loop is the whole run. -/
theorem run_done {body : σ → Step σ ρ} {s : σ} {r : ρ} (h : body s = .done r)
    (fuel : ℕ) : run body (fuel + 1) s = some r := by
  rw [run, h]

/-- A pass that goes round again is followed by the run from there. -/
theorem run_next {body : σ → Step σ ρ} {s s' : σ} (h : body s = .next s')
    (fuel : ℕ) : run body (fuel + 1) s = run body fuel s' := by
  rw [run, h]

/-- **More fuel than is needed changes nothing.** -/
theorem run_mono {body : σ → Step σ ρ} {r : ρ} :
    ∀ {fuel fuel' : ℕ} {s : σ}, fuel ≤ fuel' → run body fuel s = some r →
      run body fuel' s = some r
  | 0, _, _, _, h => by rw [run] at h; exact absurd h (by simp)
  | fuel + 1, 0, _, hle, _ => absurd hle (by omega)
  | fuel + 1, fuel' + 1, s, hle, h => by
    rw [run] at h ⊢
    cases hb : body s with
    | done r' => rw [hb] at h; exact h
    | next s' => rw [hb] at h; exact run_mono (Nat.le_of_succ_le_succ hle) h
    | stuck => rw [hb] at h; exact absurd h (by simp)

/-- **A loop seen through a change of state and of result**: where every pass is, the run is. -/
theorem run_map {σ' ρ' : Type*} {body : σ → Step σ ρ} {body' : σ' → Step σ' ρ'} (g : σ → σ')
    (f : ρ → ρ') (hbody : ∀ s, body' (g s) = (body s).map g f) (fuel : ℕ) (s : σ) :
    run body' fuel (g s) = (run body fuel s).map f := by
  induction fuel generalizing s with
  | zero => rfl
  | succ fuel ih =>
    rw [run, run, hbody]
    cases body s with
    | done r => rfl
    | next s' => exact ih s'
    | stuck => rfl

/-- **A loop ends with a result**, after some number of passes. An induction over this
follows the passes of the loop, from the last one back. -/
inductive Ends (body : σ → Step σ ρ) : σ → ρ → Prop where
  | done {s : σ} {r : ρ} (h : body s = .done r) : Ends body s r
  | next {s s' : σ} {r : ρ} (h : body s = .next s') (hr : Ends body s' r) : Ends body s r

/-- **A loop ends with a result if some amount of fuel gives it.** -/
theorem ends_iff {body : σ → Step σ ρ} {s : σ} {r : ρ} :
    Ends body s r ↔ ∃ fuel, run body fuel s = some r := by
  constructor
  · intro h
    induction h with
    | done h => exact ⟨1, run_done h 0⟩
    | next h _ ih =>
      obtain ⟨fuel, hfuel⟩ := ih
      exact ⟨fuel + 1, by rw [run_next h, hfuel]⟩
  · rintro ⟨fuel, h⟩
    induction fuel generalizing s with
    | zero => exact absurd h (by rw [run]; exact Option.some_ne_none r ∘ Eq.symm)
    | succ fuel ih =>
      cases hb : body s with
      | done r' =>
        rw [run_done hb, Option.some.injEq] at h
        exact h ▸ .done hb
      | next s' => exact .next hb (ih (run_next hb fuel ▸ h))
      | stuck =>
        rw [run, hb] at h
        cases h

/-- What every leaving pass establishes holds of the result. -/
theorem Ends.result {body : σ → Step σ ρ} {Q : ρ → Prop} (hQ : ∀ s r, body s = .done r → Q r)
    {s : σ} {r : ρ} (h : Ends body s r) : Q r := by
  induction h with
  | done h => exact hQ _ _ h
  | next _ _ ih => exact ih

/-- A loop has one result at most. -/
theorem Ends.unique {body : σ → Step σ ρ} {s : σ} {r r' : ρ} (h : Ends body s r)
    (h' : Ends body s r') : r = r' := by
  induction h with
  | done h =>
    cases h' with
    | done h' => exact Step.done.inj (h.symm.trans h')
    | next h' => cases h.symm.trans h'
  | next h _ ih =>
    cases h' with
    | done h' => cases h.symm.trans h'
    | next h' hr =>
      rw [Step.next.inj (h.symm.trans h')] at ih
      exact ih hr

/-- **A state a loop comes to**, after some number of passes. -/
inductive Reached (body : σ → Step σ ρ) (s : σ) : σ → Prop where
  | start : Reached body s s
  | pass {s' s'' : σ} (hr : Reached body s s') (h : body s' = .next s'') : Reached body s s''

/-- What a loop comes to after a first pass, it comes to. -/
theorem Reached.head {body : σ → Step σ ρ} {s s' t : σ} (h : body s = .next s')
    (hr : Reached body s' t) : Reached body s t := by
  induction hr with
  | start => exact .pass .start h
  | pass _ hnext ih => exact .pass ih hnext

/-- What a loop ends with from a state it comes to, it ends with. -/
theorem Reached.ends {body : σ → Step σ ρ} {s t : σ} {r : ρ} (hr : Reached body s t)
    (h : Ends body t r) : Ends body s r := by
  induction hr with
  | start => exact h
  | pass _ hnext ih => exact ih (.next hnext h)

/-- **A loop ends where it leaves**: with the result of a pass in a state it comes to. -/
theorem ends_iff_reached {body : σ → Step σ ρ} {s : σ} {r : ρ} :
    Ends body s r ↔ ∃ t, Reached body s t ∧ body t = .done r := by
  constructor
  · intro h
    induction h with
    | done h => exact ⟨_, .start, h⟩
    | next h _ ih =>
      obtain ⟨t, ht, hdone⟩ := ih
      exact ⟨t, ht.head h, hdone⟩
  · rintro ⟨t, hr, hdone⟩
    exact hr.ends (.done hdone)

/-- What every pass keeps holds of every state the loop comes to. -/
theorem Reached.invariant {body : σ → Step σ ρ} {I : σ → Prop} {Q : ρ → Prop}
    (hbody : ∀ s, I s → (body s).Meets Q I) {s s' : σ} (hr : Reached body s s') (h : I s) :
    I s' := by
  induction hr with
  | start => exact h
  | pass _ hnext ih =>
    have hmeets := hbody _ ih
    rw [hnext] at hmeets
    exact hmeets

/-- **Total correctness.** An invariant `I` that every pass keeps and a
measure `μ` that every pass lowers make the loop end, with a result of which
the leaving pass establishes `Q`. -/
theorem run_total {body : σ → Step σ ρ} (I : σ → Prop) (μ : σ → ℕ)
    {Q : ρ → Prop}
    (hbody : ∀ s, I s → (body s).Meets Q (fun s' => I s' ∧ μ s' < μ s)) :
    ∀ {fuel : ℕ} {s : σ}, I s → μ s < fuel →
      ∃ r, run body fuel s = some r ∧ Q r
  | 0, _, _, hf => absurd hf (by omega)
  | fuel + 1, s, hs, hf => by
    have hb := hbody s hs
    cases hc : body s with
    | done r =>
      rw [hc] at hb
      exact ⟨r, run_done hc fuel, hb⟩
    | next s' =>
      rw [hc] at hb
      have hlt : μ s' < fuel := by have := hb.2; omega
      obtain ⟨r, hr, hq⟩ := run_total I μ hbody hb.1 hlt
      exact ⟨r, by rw [run_next hc]; exact hr, hq⟩
    | stuck => rw [hc] at hb; exact hb.elim

/-- Total correctness, for a result already known: what the run returned
satisfies what the leaving pass establishes. -/
theorem run_total_of_eq {body : σ → Step σ ρ} (I : σ → Prop) (μ : σ → ℕ)
    {Q : ρ → Prop}
    (hbody : ∀ s, I s → (body s).Meets Q (fun s' => I s' ∧ μ s' < μ s))
    {fuel : ℕ} {s : σ} (hs : I s) (hf : μ s < fuel) {r : ρ}
    (hr : run body fuel s = some r) : Q r := by
  obtain ⟨r', hr', hq⟩ := run_total I μ hbody hs hf
  rw [hr', Option.some.injEq] at hr
  exact hr ▸ hq

/-! ## Loops with their condition at the head -/

/-- `while (cond) body`, going round at most `fuel` times. -/
def whileDo (cond : σ → Bool) (body : σ → σ) (fuel : ℕ) (s : σ) : Option σ :=
  run (fun s => if cond s then .next (body s) else .done s) fuel s

/-- **Total correctness of `while`**: the loop ends in a state where the
invariant holds and the condition does not. -/
theorem whileDo_total {cond : σ → Bool} {body : σ → σ} (I : σ → Prop)
    (μ : σ → ℕ)
    (hbody : ∀ s, I s → cond s = true → I (body s) ∧ μ (body s) < μ s)
    {fuel : ℕ} {s : σ} (hs : I s) (hf : μ s < fuel) :
    ∃ s', whileDo cond body fuel s = some s' ∧ I s' ∧ cond s' = false := by
  refine run_total I μ (Q := fun s' => I s' ∧ cond s' = false)
    (fun s hs => ?_) hs hf
  by_cases hc : cond s = true
  · rw [if_pos hc]
    exact hbody s hs hc
  · rw [if_neg hc]
    exact ⟨hs, by simpa using hc⟩

/-! ## Iterating a partial function -/

/-- Apply a partial function `n` times. -/
def iter (f : σ → Option σ) : ℕ → σ → Option σ
  | 0, s => some s
  | n + 1, s => (f s).bind (iter f n)

/-- A partial function that never goes down leads up. -/
theorem le_of_iter [Preorder σ] {f : σ → Option σ} (hf : ∀ s s', f s = some s' → s ≤ s') {n : ℕ}
    {s s' : σ} (h : iter f n s = some s') : s ≤ s' := by
  induction n generalizing s with
  | zero => exact le_of_eq (Option.some.inj h)
  | succ n ih =>
    obtain ⟨t, ht, h⟩ := Option.bind_eq_some_iff.mp h
    exact le_trans (hf s t ht) (ih h)

/-- **A loop that applies a partial function while a condition holds** ends where the
condition fails for the first time. Where the function is undefined the loop ends as
well, with an error of the program. -/
theorem ends_iter_iff {ε : Type*} {body : σ → Step σ (Except ε σ)} (cond : σ → Prop)
    (f : σ → Option σ) (hstop : ∀ s, ¬ cond s → body s = .done (.ok s))
    (hnext : ∀ s s', cond s → f s = some s' → body s = .next s')
    (hfail : ∀ s, cond s → f s = none → ∃ e, body s = .done (.error e)) {s r : σ} :
    Ends body s (.ok r) ↔
      ∃ n, iter f n s = some r ∧ ¬ cond r ∧ ∀ m < n, ∀ x, iter f m s = some x → cond x := by
  constructor
  · generalize hr : (Except.ok r : Except ε σ) = res
    intro h
    induction h with
    | @done s _ h =>
      subst hr
      by_cases hc : cond s
      · cases hf : f s with
        | none =>
          obtain ⟨e, he⟩ := hfail s hc hf
          cases h.symm.trans he
        | some s' => cases h.symm.trans (hnext s s' hc hf)
      · have hs : r = s := Except.ok.inj (Step.done.inj (h.symm.trans (hstop s hc)))
        exact ⟨0, congrArg some hs.symm, hs ▸ hc, fun m hm => absurd hm (Nat.not_lt_zero m)⟩
    | @next s s' _ h _ ih =>
      obtain ⟨n, hn, hcr, hbefore⟩ := ih hr
      by_cases hc : cond s
      · cases hf : f s with
        | none =>
          obtain ⟨e, he⟩ := hfail s hc hf
          cases h.symm.trans he
        | some t =>
          have ht : s' = t := Step.next.inj (h.symm.trans (hnext s t hc hf))
          subst ht
          refine ⟨n + 1, by rw [iter, hf]; exact hn, hcr, fun m hm x hx => ?_⟩
          cases m with
          | zero => exact Option.some.inj hx ▸ hc
          | succ m =>
            rw [iter, hf] at hx
            exact hbefore m (Nat.lt_of_succ_lt_succ hm) x hx
      · cases h.symm.trans (hstop s hc)
  · rintro ⟨n, hn, hcr, hbefore⟩
    induction n generalizing s with
    | zero =>
      have hs : s = r := Option.some.inj hn
      exact .done (hs ▸ hstop r hcr)
    | succ n ih =>
      obtain ⟨s', hs', hn⟩ := Option.bind_eq_some_iff.mp hn
      refine .next (hnext s s' (hbefore 0 (Nat.succ_pos n) s rfl) hs') (ih hn fun m hm x hx => ?_)
      refine hbefore (m + 1) (Nat.succ_lt_succ hm) x ?_
      rw [iter, hs']
      exact hx

end Loop
