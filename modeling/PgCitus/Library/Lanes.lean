import Mathlib.Data.List.FinRange

/-!
# Folds in lanes

A vector of accumulators, each of which folds its own sequence of values. Code that
is to run in parallel goes row by row: one value for each accumulator, then the next
row. What it computes is nevertheless each accumulator's own fold, since no
accumulator reads another (`getElem_rows`).

A pass over the accumulators is a fold over their numbers that stores into the vector
it reads, as an inner loop does; `getElem_pass` is what such a pass does.
-/

namespace Lanes

variable {σ ι : Type*} {n : ℕ}

/-- One pass: accumulator `j` is replaced by `f j` of it, one after another. -/
def pass (f : Fin n → σ → σ) (js : List (Fin n)) (s : Vector σ n) : Vector σ n :=
  js.foldl (fun s (j : Fin n) => s.set j (f j s[j])) s

/-- An accumulator a pass does not come to is as it was. -/
theorem getElem_pass_of_notMem (f : Fin n → σ → σ) {js : List (Fin n)} {j : Fin n}
    (hj : j ∉ js) (s : Vector σ n) : (pass f js s)[j] = s[j] := by
  induction js generalizing s with
  | nil => rfl
  | cons k js ih =>
    rw [List.mem_cons, not_or] at hj
    have hne : (k : ℕ) ≠ (j : ℕ) := fun h => hj.1 (Fin.ext h.symm)
    show (pass f js (s.set k (f k s[k])))[j] = s[j]
    rw [ih hj.2]
    exact Vector.getElem_set_ne k.isLt j.isLt hne

/-- An accumulator a pass comes to once is replaced once. -/
theorem getElem_pass_of_mem (f : Fin n → σ → σ) {js : List (Fin n)} (hnd : js.Nodup)
    {j : Fin n} (hj : j ∈ js) (s : Vector σ n) : (pass f js s)[j] = f j s[j] := by
  induction js generalizing s with
  | nil => cases hj
  | cons k js ih =>
    rw [List.nodup_cons] at hnd
    show (pass f js (s.set k (f k s[k])))[j] = f j s[j]
    by_cases hk : k = j
    · subst hk
      rw [getElem_pass_of_notMem f hnd.1]
      exact Vector.getElem_set_self k.isLt
    · have hne : (k : ℕ) ≠ (j : ℕ) := fun h => hk (Fin.ext h)
      rw [ih hnd.2 ((List.mem_cons.mp hj).resolve_left (fun h => hk h.symm))]
      exact congrArg (f j) (Vector.getElem_set_ne k.isLt j.isLt hne)

/-- **A whole pass replaces every accumulator, each by itself.** -/
theorem getElem_pass (f : Fin n → σ → σ) (s : Vector σ n) (j : Fin n) :
    (pass f (List.finRange n) s)[j] = f j s[j] :=
  getElem_pass_of_mem f (List.nodup_finRange n) (List.mem_finRange j) s

/-- **Row by row is lane by lane**: after a pass for each row, an accumulator holds
the fold of its own values. -/
theorem getElem_rows (f : ι → Fin n → σ → σ) (rows : List ι) (s : Vector σ n) (j : Fin n) :
    (rows.foldl (fun s i => pass (f i) (List.finRange n) s) s)[j]
      = rows.foldl (fun x i => f i j x) s[j] := by
  induction rows generalizing s with
  | nil => rfl
  | cons i rows ih =>
    rw [List.foldl_cons, List.foldl_cons, ih, getElem_pass]

end Lanes
