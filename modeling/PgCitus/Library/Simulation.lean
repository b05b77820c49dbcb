import PgCitus.Library.Loop

/-!
# A machine and an evaluator

What a machine does step by step may also be given by an evaluator, which goes through
the program it runs and has fuel for the loops in it. That the machine ends where the
evaluator gives a result is half of the matter. The other half is that the machine does
not do anything else: an evaluator that runs out of fuel has to stand for a machine that
takes at least that many steps. Then the two agree on every run, those that do not end
included, and the machine never gets stuck (`adequate`).
-/

namespace Loop

variable {σ ρ : Type*} {body : σ → Step σ ρ} {s t u : σ} {r : ρ} {n m : ℕ}

/-- **A number of passes** leads from one state to another. -/
inductive Passes (body : σ → Step σ ρ) : ℕ → σ → σ → Prop where
  | nil (s : σ) : Passes body 0 s s
  | cons {n : ℕ} {s t u : σ} (h : body s = .next t) (hr : Passes body n t u) :
      Passes body (n + 1) s u

theorem Passes.trans (h : Passes body n s t) (h' : Passes body m t u) :
    Passes body (n + m) s u := by
  induction h with
  | nil s => rwa [Nat.zero_add]
  | cons hnext _ ih =>
    rw [Nat.succ_add]
    exact .cons hnext (ih h')

/-- What a loop comes to, it comes to after some number of passes. -/
theorem reached_iff_passes : Reached body s t ↔ ∃ n, Passes body n s t := by
  constructor
  · intro h
    induction h with
    | start => exact ⟨0, .nil s⟩
    | pass _ hnext ih =>
      obtain ⟨n, hn⟩ := ih
      exact ⟨n + 1, hn.trans (.cons hnext (.nil _))⟩
  · rintro ⟨n, h⟩
    induction h with
    | nil s => exact .start
    | cons hnext _ ih => exact ih.head hnext

theorem Reached.trans (h : Reached body s t) (h' : Reached body t u) : Reached body s u := by
  obtain ⟨n, hn⟩ := reached_iff_passes.mp h
  obtain ⟨m, hm⟩ := reached_iff_passes.mp h'
  exact reached_iff_passes.mpr ⟨n + m, hn.trans hm⟩

/-- One pass. -/
theorem Reached.one (h : body s = .next t) : Reached body s t := .pass .start h

/-- The passes of a loop use up the fuel. -/
theorem Passes.run_eq_none (h : Passes body n s t) : run body n s = none := by
  induction h with
  | nil s => rfl
  | cons hnext _ ih => rw [run_next hnext, ih]

/-- No pass follows where a loop is stuck. -/
theorem Passes.le_of_stuck (h : Passes body n s t) (hstuck : body t = .stuck)
    (h' : Passes body m s u) : m ≤ n := by
  induction h generalizing m with
  | nil s =>
    cases h' with
    | nil => exact Nat.le_refl _
    | cons hnext _ => cases hstuck.symm.trans hnext
  | cons hnext _ ih =>
    cases h' with
    | nil => exact Nat.zero_le _
    | cons hnext' hr =>
      obtain rfl := Step.next.inj (hnext.symm.trans hnext')
      exact Nat.succ_le_succ (ih hstuck hr)

/-- The result of a loop is the result from any state it comes to. -/
theorem Reached.ends_of_ends (h : Reached body s t) (he : Ends body s r) : Ends body t r := by
  obtain ⟨n, hn⟩ := reached_iff_passes.mp h
  clear h
  induction hn with
  | nil s => exact he
  | cons hnext _ ih =>
    cases he with
    | done hdone => cases hnext.symm.trans hdone
    | next hnext' he =>
      obtain rfl := Step.next.inj (hnext.symm.trans hnext')
      exact ih he

/-- A loop that is stuck somewhere does not end. -/
theorem Reached.not_ends (h : Reached body s t) (hstuck : body t = .stuck) :
    ¬ Ends body s r := by
  intro he
  cases h.ends_of_ends he with
  | done hdone => cases hstuck.symm.trans hdone
  | next hnext _ => cases hstuck.symm.trans hnext

/-- **An evaluator for a loop.** Where it gives a result the loop ends with it; where it runs
out of fuel the loop takes at least as many passes. Then the loop ends with a result exactly
if some amount of fuel gives it, and it is stuck nowhere. -/
theorem adequate {eval : ℕ → Option ρ} (hsome : ∀ fuel r, eval fuel = some r → Ends body s r)
    (hnone : ∀ fuel, eval fuel = none → ∃ n t, fuel ≤ n ∧ Passes body n s t) :
    (∀ r, Ends body s r ↔ ∃ fuel, eval fuel = some r) ∧
      ∀ t, Reached body s t → body t ≠ .stuck := by
  refine ⟨fun r => ⟨fun he => ?_, fun ⟨fuel, h⟩ => hsome fuel r h⟩, fun t ht hstuck => ?_⟩
  · obtain ⟨fuel, hfuel⟩ := ends_iff.mp he
    cases h : eval fuel with
    | some r' => exact ⟨fuel, h.trans (congrArg some ((hsome fuel r' h).unique he))⟩
    | none =>
      -- the fuel that the run ends with is used up by the passes
      obtain ⟨n, t, hle, hn⟩ := hnone fuel h
      cases hn.run_eq_none.symm.trans (run_mono hle hfuel)
  · obtain ⟨n, hn⟩ := reached_iff_passes.mp ht
    cases h : eval (n + 1) with
    | some r => exact ht.not_ends hstuck (hsome (n + 1) r h)
    | none =>
      obtain ⟨m, u, hle, hm⟩ := hnone (n + 1) h
      exact absurd (Nat.le_trans hle (hn.le_of_stuck hstuck hm)) (Nat.not_succ_le_self n)

end Loop
