import Mathlib.Data.List.Nodup
import Mathlib.Logic.Function.Basic

/-!
# Chains of links

A singly linked list is a chain of vertices, each with a link to the next one, the last
one with a null link. The vertex it is held by comes first and is a vertex like the
others, so a chain is never empty, and taking out an element is the same wherever it
stands: the link of the vertex before it is set to what its own link leads to
(`Chain.unlink`). So is putting one in (`Chain.link`).
-/

namespace LinkChain

variable {V : Type*}

/-- The link of each vertex leads to the next one, and that of the last one nowhere. -/
def Linked (next : V → Option V) : List V → Prop
  | [] => True
  | x :: l => next x = l.head? ∧ Linked next l

/-- **A chain**: its vertices are linked, and no two of them are the same. -/
structure Chain (next : V → Option V) (l : List V) : Prop where
  nodup : l.Nodup
  linked : Linked next l

variable {next next' : V → Option V} {l xs ys : List V} {p x : V}

/-- Only the links of the vertices are read. -/
theorem Linked.congr (h : Linked next l) (heq : ∀ v ∈ l, next' v = next v) :
    Linked next' l := by
  induction l with
  | nil => trivial
  | cons x l ih =>
    refine ⟨?_, ih h.2 fun v hv => heq v (List.mem_cons_of_mem x hv)⟩
    rw [heq x List.mem_cons_self]
    exact h.1

/-- The link of a vertex in the middle. -/
theorem Linked.next_eq (h : Linked next (xs ++ x :: ys)) : next x = ys.head? := by
  induction xs with
  | nil => exact h.1
  | cons a xs ih => exact ih h.2

theorem Chain.congr (h : Chain next l) (heq : ∀ v ∈ l, next' v = next v) : Chain next' l :=
  ⟨h.nodup, h.linked.congr heq⟩

variable [DecidableEq V]

/-- A vertex alone. -/
theorem Chain.single (next : V → Option V) (p : V) : Chain (Function.update next p none) [p] :=
  ⟨List.nodup_singleton p, Function.update_self p none next, trivial⟩

theorem Linked.link (h : Linked next (xs ++ p :: ys)) (hnd : (xs ++ p :: ys).Nodup)
    (hx : x ∉ xs ++ p :: ys) :
    Linked (Function.update (Function.update next x (next p)) p (some x)) (xs ++ p :: x :: ys) := by
  induction xs with
  | nil =>
    rw [List.nil_append, List.mem_cons, not_or] at hx
    have hp : p ∉ ys := (List.nodup_cons.mp hnd).1
    refine ⟨Function.update_self p _ _, ?_, h.2.congr fun v hv => ?_⟩
    · rw [Function.update_of_ne hx.1, Function.update_self]
      exact h.1
    · rw [Function.update_of_ne (ne_of_mem_of_not_mem hv hp),
        Function.update_of_ne (ne_of_mem_of_not_mem hv hx.2)]
  | cons a xs ih =>
    rw [List.cons_append, List.mem_cons, not_or] at hx
    have hnd' := List.nodup_cons.mp hnd
    have hap : a ≠ p := by
      rintro rfl
      exact hnd'.1 (List.mem_append_right xs List.mem_cons_self)
    refine ⟨?_, ih h.2 hnd'.2 hx.2⟩
    rw [Function.update_of_ne hap, Function.update_of_ne (Ne.symm hx.1), h.1]
    cases xs <;> rfl

/-- **Putting in a vertex after `p`.** -/
theorem Chain.link (h : Chain next (xs ++ p :: ys)) (hx : x ∉ xs ++ p :: ys) :
    Chain (Function.update (Function.update next x (next p)) p (some x)) (xs ++ p :: x :: ys) := by
  refine ⟨?_, h.linked.link h.nodup hx⟩
  have hperm : (xs ++ p :: x :: ys).Perm (x :: (xs ++ p :: ys)) := by
    rw [List.append_cons, List.append_cons xs p ys]
    exact List.perm_middle
  exact hperm.nodup_iff.mpr (List.nodup_cons.mpr ⟨hx, h.nodup⟩)

theorem Linked.unlink (h : Linked next (xs ++ p :: x :: ys)) (hnd : (xs ++ p :: x :: ys).Nodup) :
    Linked (Function.update next p ys.head?) (xs ++ p :: ys) := by
  induction xs with
  | nil =>
    have hp : p ∉ ys := fun hmem => (List.nodup_cons.mp hnd).1 (List.mem_cons_of_mem x hmem)
    refine ⟨Function.update_self p _ next, h.2.2.congr fun v hv => ?_⟩
    have hne : v ≠ p := by
      rintro rfl
      exact hp hv
    exact Function.update_of_ne hne _ _
  | cons a xs ih =>
    have hap : a ≠ p := by
      rintro rfl
      exact (List.nodup_cons.mp hnd).1 (List.mem_append_right xs List.mem_cons_self)
    refine ⟨?_, ih h.2 (List.nodup_cons.mp hnd).2⟩
    rw [Function.update_of_ne hap, h.1]
    cases xs <;> rfl

/-- **Taking out the vertex after `p`.** -/
theorem Chain.unlink (h : Chain next (xs ++ p :: x :: ys)) :
    Chain (Function.update next p ys.head?) (xs ++ p :: ys) := by
  refine ⟨h.nodup.sublist ?_, h.linked.unlink h.nodup⟩
  exact ((List.sublist_cons_self x ys).cons_cons p).append_left xs

end LinkChain
