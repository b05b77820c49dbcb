import Mathlib.Order.Preorder.Finite
import PgCitus.Library.Loop

/-!
# Orbits

A loop that applies a partial function as long as it is in a place where it goes on
follows the orbit of the place it starts at. It does not end exactly if the orbit never
leaves those places, and where the orbit has finitely many places to go to, that is when
it comes back to one of them (`circles_iff`): the loop ends exactly if it does not
circle (`ends_iff_not_circles`).
-/

namespace Orbit

open Loop

variable {α σ ρ : Type*} {f : α → Option α} {P : α → Prop} {a b : α}

theorem iter_add (m n : ℕ) (a : α) : iter f (m + n) a = (iter f m a).bind (iter f n) := by
  induction m generalizing a with
  | zero =>
    rw [Nat.zero_add]
    rfl
  | succ m ih =>
    rw [Nat.succ_add]
    show (f a).bind (iter f (m + n)) = ((f a).bind (iter f m)).bind (iter f n)
    rw [Option.bind_assoc]
    exact congrArg _ (funext ih)

theorem iter_next (h : f a = some b) (n : ℕ) : iter f (n + 1) a = iter f n b := by
  show (f a).bind (iter f n) = iter f n b
  rw [h]
  rfl

/-- **The orbit of a place circles**: it comes to a place that comes back to itself, and
goes on everywhere on the way. -/
def Circles (f : α → Option α) (P : α → Prop) (a : α) : Prop :=
  (∃ n k y, 0 < k ∧ iter f n a = some y ∧ iter f k y = some y) ∧
    ∀ n x, iter f n a = some x → P x

/-- A place that comes back to itself does so any number of times. -/
theorem iter_mul {k : ℕ} (h : iter f k a = some a) (j : ℕ) : iter f (k * j) a = some a := by
  induction j with
  | zero => rfl
  | succ j ih =>
    rw [Nat.mul_succ, iter_add, ih]
    exact h

/-- **An orbit that circles goes on forever**, and one that does so in finitely many
places circles. -/
theorem circles_iff {S : Set α} (hfin : S.Finite) (hmem : ∀ x y, f x = some y → y ∈ S) :
    Circles f P a ↔ ∀ n, ∃ x, iter f n a = some x ∧ P x := by
  constructor
  · rintro ⟨⟨n, k, y, hk, hn, hy⟩, hP⟩ m
    -- far enough round the circle, `m` steps are some of those taken
    have hle : m ≤ n + k * m :=
      le_trans (Nat.le_mul_of_pos_left m hk) (Nat.le_add_left (k * m) n)
    obtain ⟨j, hj⟩ := Nat.exists_eq_add_of_le hle
    have hround : iter f (n + k * m) a = some y := by
      rw [iter_add, hn]
      exact iter_mul hy m
    rw [hj, iter_add] at hround
    obtain ⟨x, hx, _⟩ := Option.bind_eq_some_iff.mp hround
    exact ⟨x, hx, hP m x hx⟩
  · intro h
    choose g hg hP using h
    have hstep : ∀ n, f (g n) = some (g (n + 1)) := fun n => by
      have hn := hg (n + 1)
      rw [iter_add, hg n] at hn
      exact (Option.bind_fun_some (f (g n))).symm.trans hn
    obtain ⟨i, j, hij, heq⟩ :=
      hfin.exists_lt_map_eq_of_forall_mem fun n => hmem _ _ (hstep n)
    refine ⟨⟨i + 1, j - i, g (i + 1), Nat.sub_pos_of_lt hij, hg (i + 1), ?_⟩, fun n x hx => ?_⟩
    · have hj := hg (j + 1)
      rw [← heq, show j + 1 = (i + 1) + (j - i) by omega, iter_add, hg (i + 1)] at hj
      exact hj
    · exact Option.some.inj ((hg n).symm.trans hx) ▸ hP n

variable {body : σ → Step σ ρ} (key : σ → α) (I : σ → Prop)

/-- **A loop that follows an orbit**: a pass that goes round again is a step of the orbit
from a place where it goes on, and a pass leaves the loop only where the orbit does not go
on for two steps more. It ends exactly if the orbit does not go on forever. -/
theorem ends_iff_not_forall
    (hpass : ∀ s, I s → (∃ r, body s = .done r) ∨
      ∃ s', body s = .next s' ∧ I s' ∧ P (key s) ∧ f (key s) = some (key s'))
    (hleave : ∀ s x y r, I s → P (key s) → f (key s) = some x → f x = some y →
      body s ≠ .done r) {s : σ} (hs : I s) :
    (∃ r, Ends body s r) ↔ ¬ ∀ n, ∃ x, iter f n (key s) = some x ∧ P x := by
  constructor
  · rintro ⟨r, h⟩ hall
    induction h with
    | @done s r h =>
      obtain ⟨w, hw, hP⟩ := hall 0
      have hws : key s = w := Option.some.inj hw
      obtain ⟨w', hw', _⟩ := hall 2
      obtain ⟨x, hx, hw'⟩ := Option.bind_eq_some_iff.mp hw'
      obtain ⟨y, hy, _⟩ := Option.bind_eq_some_iff.mp hw'
      exact hleave s x y r hs (hws ▸ hP) hx hy h
    | @next s s' r h _ ih =>
      rcases hpass s hs with ⟨r, hr⟩ | ⟨t, ht, hI, _, hf⟩
      · cases h.symm.trans hr
      · have hst : s' = t := Step.next.inj (h.symm.trans ht)
        subst hst
        refine ih hI fun n => ?_
        rw [← iter_next hf]
        exact hall (n + 1)
  · intro h
    obtain ⟨n, hn⟩ := not_forall.mp h
    clear h
    induction n generalizing s with
    | zero =>
      rcases hpass s hs with ⟨r, hr⟩ | ⟨_, _, _, hP, _⟩
      · exact ⟨r, .done hr⟩
      · exact absurd ⟨key s, rfl, hP⟩ hn
    | succ n ih =>
      rcases hpass s hs with ⟨r, hr⟩ | ⟨s', hs', hI, _, hf⟩
      · exact ⟨r, .done hr⟩
      · rw [iter_next hf] at hn
        obtain ⟨r, hr⟩ := ih hI hn
        exact ⟨r, .next hs' hr⟩

/-- **In finitely many places, it ends exactly if the orbit does not circle.** -/
theorem ends_iff_not_circles {S : Set α} (hfin : S.Finite) (hmem : ∀ x y, f x = some y → y ∈ S)
    (hpass : ∀ s, I s → (∃ r, body s = .done r) ∨
      ∃ s', body s = .next s' ∧ I s' ∧ P (key s) ∧ f (key s) = some (key s'))
    (hleave : ∀ s x y r, I s → P (key s) → f (key s) = some x → f x = some y →
      body s ≠ .done r) {s : σ} (hs : I s) :
    (∃ r, Ends body s r) ↔ ¬ Circles f P (key s) := by
  rw [circles_iff hfin hmem]
  exact ends_iff_not_forall key I hpass hleave hs

/-- The same of a loop that applies the function to its state as long as it goes on. -/
theorem ends_while_iff {S : Set α} (hfin : S.Finite) (hmem : ∀ x y, f x = some y → y ∈ S)
    {body : α → Step α ρ} (hstop : ∀ x, ¬ P x → ∃ r, body x = .done r)
    (hfail : ∀ x, P x → f x = none → ∃ r, body x = .done r)
    (hnext : ∀ x y, P x → f x = some y → body x = .next y) :
    (∃ r, Ends body a r) ↔ ¬ Circles f P a := by
  refine ends_iff_not_circles id (fun _ => True) hfin hmem (fun x _ => ?_)
    (fun x y _ r _ hP hx _ h => ?_) trivial
  · by_cases hP : P x
    · cases hf : f x with
      | none => exact .inl (hfail x hP hf)
      | some y => exact .inr ⟨y, hnext x y hP hf, trivial, hP, hf⟩
    · exact .inl (hstop x hP)
  · cases h.symm.trans (hnext x y hP hx)

/-- A function that leads strictly up has no circles. -/
theorem not_circles_of_lt [Preorder α] (hlt : ∀ x y, P x → f x = some y → x < y) :
    ¬ Circles f P a := by
  rintro ⟨⟨n, k, y, hk, hn, hy⟩, hP⟩
  have hup : ∀ j x z, 0 < j → (∀ m w, iter f m x = some w → P w) → iter f j x = some z →
      x < z := by
    intro j
    induction j with
    | zero => exact fun _ _ h => absurd h (Nat.lt_irrefl 0)
    | succ j ih =>
      intro x z _ hPx hz
      obtain ⟨w, hw, hwz⟩ := Option.bind_eq_some_iff.mp hz
      have hxw : x < w := hlt x w (hPx 0 x rfl) hw
      rcases Nat.eq_zero_or_pos j with rfl | hj
      · exact Option.some.inj hwz ▸ hxw
      · exact lt_trans hxw (ih w z hj (fun m v hv => hPx (m + 1) v (by rw [iter_next hw, hv])) hwz)
  refine lt_irrefl y (hup k y y hk (fun m w hw => hP (n + m) w ?_) hy)
  rw [iter_add, hn]
  exact hw

end Orbit
