import PgCitus.Library.Quicksort

/-!
# Merging sorted scans

Several scans, each in order, are read as one: whoever merges them takes, as long as
anything is left, the head of some scan that is not above the head of any other.
`Merged` is that rule, with the choice among equal heads left open.

What comes out is in order (`Merged.pairwise`) and is what went in (`Merged.perm`), and
under a total preorder there is always a next step, so every scan is read to its end
(`exists_merged`).
-/

namespace Merge

open Quicksort

variable {α : Type*} {cmp : α → α → ℤ}

/-- **What merging scans gives.** -/
inductive Merged (cmp : α → α → ℤ) : List (List α) → List α → Prop where
  /-- All scans are at their ends. -/
  | done {scans : List (List α)} (h : ∀ s ∈ scans, s = []) : Merged cmp scans []
  /-- The head of a scan is taken that is not above any other head. -/
  | take {pre post : List (List α)} {x : α} {rest out : List α}
      (hleast : ∀ s ∈ pre ++ (x :: rest) :: post, ∀ y ∈ s.head?, cmp x y ≤ 0)
      (hm : Merged cmp (pre ++ rest :: post) out) :
      Merged cmp (pre ++ (x :: rest) :: post) (x :: out)

/-- **Nothing is lost and nothing is added.** -/
theorem Merged.perm {scans : List (List α)} {out : List α} (hm : Merged cmp scans out) :
    out.Perm scans.flatten := by
  induction hm with
  | @done scans h => rw [List.flatten_eq_nil_iff.mpr h]
  | @take pre post x rest out _ _ ih =>
    rw [List.flatten_append, List.flatten_cons] at ih ⊢
    exact (ih.cons x).trans List.perm_middle.symm

/-- What is left of a scan is the end of it. -/
theorem exists_suffix {pre post : List (List α)} {x : α} {rest s : List α}
    (hs : s ∈ pre ++ rest :: post) : ∃ t ∈ pre ++ (x :: rest) :: post, s <:+ t := by
  rcases List.mem_append.mp hs with hs | hs
  · exact ⟨s, List.mem_append_left _ hs, List.suffix_refl s⟩
  · rcases List.mem_cons.mp hs with rfl | hs
    · exact ⟨x :: s, List.mem_append_right _ List.mem_cons_self, List.suffix_cons x s⟩
    · exact ⟨s, List.mem_append_right _ (List.mem_cons_of_mem _ hs), List.suffix_refl s⟩

/-- A head that is not above the others is not above anything in a sorted scan. -/
theorem le_of_mem (hcmp : TotalPreorder cmp) {x y : α} {s : List α}
    (hsorted : s.Pairwise fun a b => cmp a b ≤ 0) (hx : ∀ z ∈ s.head?, cmp x z ≤ 0)
    (hy : y ∈ s) : cmp x y ≤ 0 := by
  cases s with
  | nil => exact absurd hy List.not_mem_nil
  | cons z zs =>
    have hxz : cmp x z ≤ 0 := hx z rfl
    rcases List.mem_cons.mp hy with rfl | hyz
    · exact hxz
    · exact hcmp.trans x z y hxz ((List.pairwise_cons.mp hsorted).1 y hyz)

/-- **Merging keeps the order.** -/
theorem Merged.pairwise (hcmp : TotalPreorder cmp) {scans : List (List α)} {out : List α}
    (hm : Merged cmp scans out)
    (hsorted : ∀ s ∈ scans, s.Pairwise fun a b => cmp a b ≤ 0) :
    out.Pairwise fun a b => cmp a b ≤ 0 := by
  induction hm with
  | done _ => exact List.Pairwise.nil
  | @take pre post x rest out hleast hm ih =>
    refine List.pairwise_cons.mpr ⟨fun y hy => ?_, ih fun s hs => ?_⟩
    · -- what is to come is in some scan
      obtain ⟨s, hs, hys⟩ := List.mem_flatten.mp (hm.perm.mem_iff.mp hy)
      obtain ⟨t, ht, hst⟩ := exists_suffix (x := x) hs
      exact le_of_mem hcmp (hsorted t ht) (hleast t ht) (hst.subset hys)
    · obtain ⟨t, ht, hst⟩ := exists_suffix (x := x) hs
      exact (hsorted t ht).sublist hst.sublist

/-- Some scan has a head that is not above any other, unless all are at their ends. -/
theorem exists_least_head (hcmp : TotalPreorder cmp) {scans : List (List α)}
    (h : ¬ ∀ s ∈ scans, s = []) :
    ∃ pre x rest post, scans = pre ++ (x :: rest) :: post ∧
      ∀ s ∈ scans, ∀ y ∈ s.head?, cmp x y ≤ 0 := by
  induction scans with
  | nil => exact absurd (fun s hs => absurd hs List.not_mem_nil) h
  | cons s scans ih =>
    by_cases hall : ∀ t ∈ scans, t = []
    · cases s with
      | nil =>
        have hnil : ∀ t ∈ ([] :: scans : List (List α)), t = [] :=
          List.forall_mem_cons.mpr ⟨rfl, hall⟩
        exact absurd hnil h
      | cons x rest =>
        refine ⟨[], x, rest, scans, rfl, List.forall_mem_cons.mpr ⟨fun y hy => ?_, ?_⟩⟩
        · cases hy
          exact (hcmp.refl x).le
        · intro t ht y hy
          rw [hall t ht] at hy
          cases hy
    · obtain ⟨pre, x, rest, post, rfl, hx⟩ := ih hall
      cases s with
      | nil =>
        refine ⟨[] :: pre, x, rest, post, rfl, List.forall_mem_cons.mpr ⟨fun y hy => ?_, hx⟩⟩
        cases hy
      | cons z zs =>
        rcases le_or_gt (cmp x z) 0 with hxz | hxz
        · refine ⟨(z :: zs) :: pre, x, rest, post, rfl, List.forall_mem_cons.mpr ⟨?_, hx⟩⟩
          intro y hy
          cases hy
          exact hxz
        · have hzx : cmp z x ≤ 0 := ((hcmp.pos_iff x z).mp hxz).le
          refine ⟨[], z, zs, _, rfl, List.forall_mem_cons.mpr ⟨fun y hy => ?_, ?_⟩⟩
          · cases hy
            exact (hcmp.refl z).le
          · exact fun t ht y hy => hcmp.trans z x y hzx (hx t ht y hy)

/-- **Scans can be merged to their ends**, by induction on how much is left. -/
theorem exists_merged (hcmp : TotalPreorder cmp) (scans : List (List α)) :
    ∃ out, Merged cmp scans out := by
  generalize hn : scans.flatten.length = n
  induction n generalizing scans with
  | zero =>
    have hall := List.flatten_eq_nil_iff.mp (List.eq_nil_of_length_eq_zero hn)
    exact ⟨[], .done hall⟩
  | succ n ih =>
    have hleft : ¬ ∀ s ∈ scans, s = [] := fun hall => by
      rw [List.flatten_eq_nil_iff.mpr hall] at hn
      cases hn
    obtain ⟨pre, x, rest, post, rfl, hx⟩ := exists_least_head hcmp hleft
    obtain ⟨out, hout⟩ := ih (pre ++ rest :: post) (by
      simp only [List.flatten_append, List.flatten_cons, List.length_append,
        List.length_cons] at hn ⊢
      omega)
    exact ⟨x :: out, .take hx hout⟩

end Merge
