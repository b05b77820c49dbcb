import Mathlib.Data.List.Induction

/-!
# Runs of a step function

A system that takes one action after another, where an action may be refused: a step
function into `Option`. `run` takes a list of actions; it is `none` when one of them is
refused.

`run_induction` is the rule for what holds along a run: a relation between the actions
taken so far and the state they led to, kept by every further action. An invariant of
the state alone is the special case `run_invariant`.
-/

namespace Run

variable {σ α : Type*} {step : σ → α → Option σ}

/-- **Take a list of actions**, one after another. -/
def run (step : σ → α → Option σ) : σ → List α → Option σ
  | s, [] => some s
  | s, a :: as => (step s a).bind fun s' => run step s' as

theorem run_append (s : σ) (as bs : List α) :
    run step s (as ++ bs) = (run step s as).bind fun s' => run step s' bs := by
  induction as generalizing s with
  | nil => rfl
  | cons a as ih =>
    show (step s a).bind (fun s' => run step s' (as ++ bs)) = _
    rw [funext ih]
    exact (Option.bind_assoc (step s a) _ _).symm

/-- One action more. -/
theorem run_concat {s s' s'' : σ} {as : List α} {a : α} (h : run step s as = some s')
    (ha : step s' a = some s'') : run step s (as ++ [a]) = some s'' := by
  rw [run_append, h]
  show (step s' a).bind (fun s => run step s []) = some s''
  rw [ha]
  rfl

/-- **Two systems in step.** If every action does in the one, seen through a function, what it
does in the other, then so does every run. -/
theorem run_map {τ : Type*} {step' : τ → α → Option τ} (f : σ → τ)
    (h : ∀ s a, (step s a).map f = step' (f s) a) (s : σ) (as : List α) :
    (run step s as).map f = run step' (f s) as := by
  induction as generalizing s with
  | nil => rfl
  | cons a as ih =>
    show ((step s a).bind fun s' => run step s' as).map f = (step' (f s) a).bind _
    rw [← h, Option.map_bind, Option.bind_map]
    exact congrArg (step s a).bind (funext ih)

/-- **Induction along a run**: a relation between the actions taken and the state they
lead to holds of every run, if it holds at the start and every action keeps it. -/
theorem run_induction {s₀ : σ} {P : List α → σ → Prop} (h₀ : P [] s₀)
    (hstep : ∀ as s a s', run step s₀ as = some s → P as s → step s a = some s' →
      P (as ++ [a]) s')
    {as : List α} {s : σ} (h : run step s₀ as = some s) : P as s := by
  induction as using List.reverseRecOn generalizing s with
  | nil =>
    rw [← Option.some.inj h]
    exact h₀
  | append_singleton as a ih =>
    rw [run_append] at h
    obtain ⟨s₁, h₁, h₂⟩ := Option.bind_eq_some_iff.mp h
    obtain ⟨s₂, h₃, h₄⟩ := Option.bind_eq_some_iff.mp h₂
    rw [← Option.some.inj h₄]
    exact hstep as s₁ a s₂ h₁ (ih h₁) h₃

/-- An invariant that every action keeps holds along every run. -/
theorem run_invariant {I : σ → Prop}
    (hstep : ∀ s a s', I s → step s a = some s' → I s') {s₀ s : σ} (h₀ : I s₀) {as : List α}
    (h : run step s₀ as = some s) : I s :=
  run_induction (P := fun _ s => I s) h₀ (fun _ s a s' _ hs ha => hstep s a s' hs ha) h

end Run
