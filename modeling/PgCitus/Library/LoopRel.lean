import PgCitus.Library.Loop

/-!
# Two loops side by side

Two loops whose states are related, and whose passes keep them related, do the same
number of passes and end with related results, or neither ends: with any amount of fuel
(`run_rel`). A relation on results is `Option.Rel`.
-/

namespace Loop

variable {σ σ' ρ ρ' : Type*}

/-- **Related passes**: both leave, with related results, or both go round again, with
related states, or both are stuck. -/
inductive Step.Rel (R : σ → σ' → Prop) (Q : ρ → ρ' → Prop) : Step σ ρ → Step σ' ρ' → Prop where
  | done {r : ρ} {r' : ρ'} (h : Q r r') : Step.Rel R Q (.done r) (.done r')
  | next {s : σ} {s' : σ'} (h : R s s') : Step.Rel R Q (.next s) (.next s')
  | stuck : Step.Rel R Q .stuck .stuck

/-- **Loops with related passes have related results.** -/
theorem run_rel {body : σ → Step σ ρ} {body' : σ' → Step σ' ρ'} (R : σ → σ' → Prop)
    {Q : ρ → ρ' → Prop} (hbody : ∀ s s', R s s' → Step.Rel R Q (body s) (body' s')) (fuel : ℕ)
    {s : σ} {s' : σ'} (h : R s s') : Option.Rel Q (run body fuel s) (run body' fuel s') := by
  induction fuel generalizing s s' with
  | zero => exact .none
  | succ fuel ih =>
    have hpass := hbody s s' h
    unfold run
    revert hpass
    generalize body s = x, body' s' = x'
    intro hpass
    cases hpass with
    | done h => exact .some h
    | next h => exact ih h
    | stuck => exact .none

end Loop
