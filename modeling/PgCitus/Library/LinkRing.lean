import Mathlib.Data.List.Nodup
import Mathlib.Logic.Function.Basic
import PgCitus.Library.Loop

/-!
# Rings of links

A doubly linked list is a ring: a vertex that is not an element, the **anchor**,
and the elements in order, each joined with the next one in both directions, the
last one with the anchor again. A ring of the anchor alone is the empty list.

The two link fields of all vertices are `Links`. What a list operation does to
them is one of two things, whatever the order of its writes and whichever of the
vertices it names coincide: it links a vertex in between two neighbours
(`Inserts`), or takes one out from between them (`Unlinks`). `IsRing.insert` and
`IsRing.remove` say what becomes of a ring whose elements are given as a part
before and a part after the place of the change, and `IsRing.congr` that a ring
none of whose vertices is concerned stays as it is.

Reading the links the other way round turns a ring into the ring of the reversed
list (`IsRing.reverse`), so that whatever is shown of `next` is had of `prev`.
-/

variable {V : Type*}

/-- The two links of every vertex, either of which can be null. -/
structure Links (V : Type*) where
  /-- The link forwards. -/
  next : V → Option V
  /-- The link backwards. -/
  prev : V → Option V

namespace Links

variable {L L' : Links V} {s x : V} {xs ys : List V}

/-- The links, the other way round. -/
def flip (L : Links V) : Links V := ⟨L.prev, L.next⟩

/-- The vertex `a` is followed by `b`, in both directions. -/
structure Joined (L : Links V) (a b : V) : Prop where
  /-- Forwards. -/
  next_eq : L.next a = some b
  /-- Backwards. -/
  prev_eq : L.prev b = some a

theorem joined_flip {a b : V} : L.flip.Joined b a ↔ L.Joined a b :=
  ⟨fun h => ⟨h.prev_eq, h.next_eq⟩, fun h => ⟨h.prev_eq, h.next_eq⟩⟩

/-- From `a`, the links lead through the vertices of the list, to end at `b`. -/
def Path (L : Links V) : V → List V → V → Prop
  | a, [], b => a = b
  | a, x :: l, b => L.Joined a x ∧ L.Path x l b

@[simp] theorem path_nil {a b : V} : L.Path a [] b ↔ a = b := Iff.rfl

@[simp] theorem path_cons {a b x : V} {l : List V} :
    L.Path a (x :: l) b ↔ L.Joined a x ∧ L.Path x l b := Iff.rfl

theorem path_singleton {a b : V} : L.Path a [b] b ↔ L.Joined a b := by
  rw [path_cons, path_nil, and_iff_left rfl]

/-- A path through one list and then another. -/
theorem path_append {a c : V} {l m : List V} :
    L.Path a (l ++ m) c ↔ L.Path a l (l.getLastD a) ∧ L.Path (l.getLastD a) m c := by
  induction l generalizing a with
  | nil => exact (and_iff_right rfl).symm
  | cons x l ih =>
    rw [List.cons_append, path_cons, ih, path_cons, List.getLastD_cons, and_assoc]

/-- The path of the elements back to the anchor, cut after its first step. -/
theorem path_concat {a : V} :
    L.Path a (ys ++ [s]) s ↔
      L.Joined a (ys.headD s) ∧ L.Path (ys.headD s) (ys ++ [s]).tail s := by
  cases ys with
  | nil => exact Iff.rfl
  | cons y ys => exact Iff.rfl

/-- **A path only reads** `next` before its end and `prev` after its start. -/
theorem Path.congr {a b : V} {l : List V} (h : L.Path a l b)
    (hnext : ∀ v ∈ (a :: l).dropLast, L'.next v = L.next v)
    (hprev : ∀ v ∈ l, L'.prev v = L.prev v) : L'.Path a l b := by
  induction l generalizing a with
  | nil => exact h
  | cons x l ih =>
    rw [List.dropLast_cons_cons] at hnext
    refine ⟨⟨?_, ?_⟩, ih h.2 (fun v hv => hnext v (List.mem_cons_of_mem _ hv))
      fun v hv => hprev v (List.mem_cons_of_mem _ hv)⟩
    · rw [hnext a List.mem_cons_self]
      exact h.1.next_eq
    · rw [hprev x List.mem_cons_self]
      exact h.1.prev_eq

/-- Read backwards, a path there is a path back. -/
theorem Path.reverse {a b : V} {l : List V} (h : L.Path a (l ++ [b]) b) :
    L.flip.Path b (l.reverse ++ [a]) a := by
  induction l generalizing a with
  | nil => exact path_singleton.mpr (joined_flip.mpr (path_singleton.mp h))
  | cons x l ih =>
    have hback := ih h.2
    have hlast : (l.reverse ++ [x]).getLastD b = x := List.getLastD_concat
    rw [List.reverse_cons, path_append, hlast]
    exact ⟨hback, path_singleton.mpr (joined_flip.mpr h.1)⟩

/-- **A ring**: from the anchor through the elements back to the anchor, no
vertex being passed twice. -/
structure IsRing (L : Links V) (s : V) (xs : List V) : Prop where
  /-- The elements are distinct, and the anchor is not one of them. -/
  nodup : (s :: xs).Nodup
  /-- The links lead through the elements and back. -/
  path : L.Path s (xs ++ [s]) s

namespace IsRing

theorem anchor_notMem (h : L.IsRing s xs) : s ∉ xs := (List.nodup_cons.mp h.nodup).1

theorem nodup_elements (h : L.IsRing s xs) : xs.Nodup := (List.nodup_cons.mp h.nodup).2

/-- **Read backwards**, a ring is the ring of the reversed list. -/
theorem reverse (h : L.IsRing s xs) : L.flip.IsRing s xs.reverse := by
  refine ⟨?_, h.path.reverse⟩
  rw [List.nodup_cons, List.mem_reverse, List.nodup_reverse]
  exact List.nodup_cons.mp h.nodup

/-- The two vertices on either side of a place in the ring are joined. -/
theorem joined (h : L.IsRing s (xs ++ ys)) : L.Joined (xs.getLastD s) (ys.headD s) := by
  have hp := h.path
  rw [List.append_assoc, path_append, path_concat] at hp
  exact hp.2.1

/-- The anchor and what follows it. -/
theorem joined_anchor (h : L.IsRing s xs) : L.Joined s (xs.headD s) := by
  have h' : L.IsRing s ([] ++ xs) := h
  exact h'.joined

/-- The anchor is followed by the first element, or by itself. -/
theorem next_anchor (h : L.IsRing s xs) : L.next s = some (xs.headD s) :=
  h.joined_anchor.next_eq

/-- The anchor follows the last element, or itself. -/
theorem prev_anchor (h : L.IsRing s xs) : L.prev s = some (xs.getLastD s) := by
  have h' : L.IsRing s (xs ++ []) := by rwa [List.append_nil]
  exact h'.joined.prev_eq

/-- An element is followed by the one after it, or by the anchor. -/
theorem next_element (h : L.IsRing s (xs ++ x :: ys)) :
    L.next x = some (ys.headD s) := by
  have h' : L.IsRing s (xs ++ [x] ++ ys) := by simpa using h
  simpa [List.getLastD_concat] using h'.joined.next_eq

/-- An element follows the one before it, or the anchor. -/
theorem prev_element (h : L.IsRing s (xs ++ x :: ys)) :
    L.prev x = some (xs.getLastD s) :=
  h.joined.prev_eq

/-- The element the anchor is followed by is the first one. -/
theorem eq_nil_of_next_anchor (h : L.IsRing s (xs ++ x :: ys)) (hn : L.next s = some x) :
    xs = [] := by
  cases xs with
  | nil => rfl
  | cons y xs =>
    have hy : some y = some x := h.next_anchor.symm.trans hn
    have hnd := h.nodup_elements
    rw [List.cons_append, List.nodup_cons] at hnd
    exact absurd (Option.some.inj hy ▸ List.mem_append_right xs List.mem_cons_self) hnd.1

/-- The element the anchor follows is the last one. -/
theorem eq_nil_of_prev_anchor (h : L.IsRing s (xs ++ x :: ys)) (hp : L.prev s = some x) :
    ys = [] := by
  have hrev : L.flip.IsRing s (ys.reverse ++ x :: xs.reverse) := by
    simpa using h.reverse
  exact List.reverse_eq_nil_iff.mp (hrev.eq_nil_of_next_anchor hp)

/-- **The frame rule**: a ring on whose vertices the links are the same. -/
theorem congr (h : L.IsRing s xs) (hnext : ∀ v ∈ s :: xs, L'.next v = L.next v)
    (hprev : ∀ v ∈ s :: xs, L'.prev v = L.prev v) : L'.IsRing s xs := by
  refine ⟨h.nodup, h.path.congr (fun v hv => hnext v ?_) fun v hv => hprev v ?_⟩
  · rwa [← List.cons_append, List.dropLast_concat] at hv
  · rw [List.mem_append, List.mem_singleton] at hv
    rcases hv with hv | rfl
    · exact List.mem_cons_of_mem _ hv
    · exact List.mem_cons_self

/-- **The anchor alone**, linked with itself, is the empty ring. -/
theorem empty (hnext : L.next s = some s) (hprev : L.prev s = some s) : L.IsRing s [] :=
  ⟨List.nodup_singleton s, path_singleton.mpr ⟨hnext, hprev⟩⟩

end IsRing

/-! ## Changes -/

/-- **`x` is linked in** between `a` and `b`, everything else being left. -/
structure Inserts (L L' : Links V) (a x b : V) : Prop where
  /-- `a` comes before `x`. -/
  before : L'.Joined a x
  /-- `b` comes after `x`. -/
  after : L'.Joined x b
  /-- No other link forwards is written. -/
  next_of_ne : ∀ v, v ≠ a → v ≠ x → L'.next v = L.next v
  /-- No other link backwards is written. -/
  prev_of_ne : ∀ v, v ≠ b → v ≠ x → L'.prev v = L.prev v

/-- **`x` is taken out** from between `a` and `b`; its own links are not said
anything about. -/
structure Unlinks (L L' : Links V) (a x b : V) : Prop where
  /-- `a` and `b` are neighbours. -/
  joined : L'.Joined a b
  /-- No other link forwards is written. -/
  next_of_ne : ∀ v, v ≠ a → v ≠ x → L'.next v = L.next v
  /-- No other link backwards is written. -/
  prev_of_ne : ∀ v, v ≠ b → v ≠ x → L'.prev v = L.prev v

/-- Linking in, by what becomes of each field. -/
theorem inserts_of_eq [DecidableEq V] {a b : V} (hxa : x ≠ a) (hxb : x ≠ b)
    (hnext : ∀ v, L'.next v
      = if v = a then some x else if v = x then some b else L.next v)
    (hprev : ∀ v, L'.prev v
      = if v = b then some x else if v = x then some a else L.prev v) :
    L.Inserts L' a x b where
  before := ⟨by rw [hnext, if_pos rfl], by rw [hprev, if_neg hxb, if_pos rfl]⟩
  after := ⟨by rw [hnext, if_neg hxa, if_pos rfl], by rw [hprev, if_pos rfl]⟩
  next_of_ne := fun v hva hvx => by rw [hnext, if_neg hva, if_neg hvx]
  prev_of_ne := fun v hvb hvx => by rw [hprev, if_neg hvb, if_neg hvx]

/-- A vertex before the last one is not the last one. -/
theorem ne_getLastD {a v : V} {l : List V} (hl : (a :: l).Nodup)
    (hv : v ∈ (a :: l).dropLast) : v ≠ l.getLastD a := by
  rintro rfl
  rw [← List.getLast_eq_getLastD (by simp)] at hv
  rw [← List.dropLast_append_getLast (List.cons_ne_nil a l), List.nodup_append] at hl
  exact hl.2.2 _ hv _ (List.mem_singleton_self _) rfl

theorem getLastD_mem_cons (a : V) (l : List V) : l.getLastD a ∈ a :: l := by
  rw [← List.getLast_eq_getLastD (List.cons_ne_nil a l)]
  exact List.getLast_mem _

theorem headD_mem_concat (a : V) (l : List V) : l.headD a ∈ l ++ [a] := by
  cases l with
  | nil => exact List.mem_singleton_self a
  | cons x l => exact List.mem_cons_self

/-- Where no element comes before a place, the anchor does. -/
theorem getLastD_eq_iff (hs : s ∉ xs) : xs.getLastD s = s ↔ xs = [] := by
  rcases List.eq_nil_or_concat xs with rfl | ⟨l, y, rfl⟩
  · simp
  · have hy : y ≠ s := fun he => hs (he ▸ by simp)
    simp [hy]

/-- Where no element follows a place, the anchor does. -/
theorem headD_eq_iff (hs : s ∉ ys) : ys.headD s = s ↔ ys = [] := by
  cases ys with
  | nil => simp
  | cons y ys =>
    have hy : y ≠ s := fun he => hs (he ▸ List.mem_cons_self)
    simp [hy]

theorem some_getLastD (hne : xs ≠ []) : some (xs.getLastD s) = xs.getLast? := by
  obtain ⟨l, y, rfl⟩ := (List.eq_nil_or_concat xs).resolve_left hne
  simp

theorem some_headD (hne : ys ≠ []) : some (ys.headD s) = ys.head? := by
  obtain ⟨y, l, rfl⟩ := List.exists_cons_of_ne_nil hne
  rfl

/-- The vertex before a place of the ring is one of the ring. -/
theorem getLastD_mem (a : V) (l m : List V) : l.getLastD a ∈ a :: (l ++ m) :=
  List.mem_append_left m (getLastD_mem_cons a l)

/-- And so is the vertex after it. -/
theorem headD_mem (a : V) (l m : List V) : m.headD a ∈ a :: (l ++ m) := by
  cases m with
  | nil => exact List.mem_cons_self
  | cons x m =>
    exact List.mem_cons_of_mem _ (List.mem_append_right l List.mem_cons_self)

/-- **The two ends of a change.** Where links are only written next to a place
of a ring, or at a vertex `x` outside it, the way to the place and the way on
from it stay as they are. -/
theorem Path.of_ne (hnd : (s :: (xs ++ ys)).Nodup) (hx : x ∉ s :: (xs ++ ys))
    (hnext : ∀ v, v ≠ xs.getLastD s → v ≠ x → L'.next v = L.next v)
    (hprev : ∀ v, v ≠ ys.headD s → v ≠ x → L'.prev v = L.prev v)
    (hfirst : L.Path s xs (xs.getLastD s))
    (hsecond : L.Path (ys.headD s) (ys ++ [s]).tail s) :
    L'.Path s xs (xs.getLastD s) ∧ L'.Path (ys.headD s) (ys ++ [s]).tail s := by
  rw [← List.cons_append, List.nodup_append] at hnd
  obtain ⟨hxs, hys, hdisj⟩ := hnd
  have hxx : ∀ v ∈ s :: xs, v ≠ x := fun v hv hvx =>
    hx (hvx ▸ List.mem_append_left ys hv)
  have hyx : ∀ v ∈ ys, v ≠ x := fun v hv hvx =>
    hx (hvx ▸ List.mem_cons_of_mem _ (List.mem_append_right xs hv))
  refine ⟨hfirst.congr (fun v hv => hnext v (ne_getLastD hxs hv)
      (hxx v (List.dropLast_subset _ hv))) fun v hv => hprev v ?_
      (hxx v (List.mem_cons_of_mem _ hv)), ?_⟩
  · -- an element before the place is not the first one after it
    have hhead := headD_mem_concat s ys
    rintro rfl
    rw [List.mem_append, List.mem_singleton] at hhead
    rcases hhead with hhead | hhead
    · exact hdisj _ (List.mem_cons_of_mem _ hv) _ hhead rfl
    · exact (List.nodup_cons.mp hxs).1 (hhead ▸ hv)
  · cases ys with
    | nil => exact hsecond
    | cons y ys =>
      refine hsecond.congr (fun v hv => ?_) fun v hv => ?_
      · -- an element after the place is not the last one before it
        rw [List.headD_cons, List.cons_append, List.tail_cons, ← List.cons_append,
          List.dropLast_concat] at hv
        exact hnext v (hdisj _ (getLastD_mem_cons s xs) v hv).symm (hyx v hv)
      · rw [List.cons_append, List.tail_cons, List.mem_append, List.mem_singleton] at hv
        rcases hv with hv | rfl
        · refine hprev v ?_ (hyx v (List.mem_cons_of_mem _ hv))
          exact ne_of_mem_of_not_mem hv (List.nodup_cons.mp hys).1
        · exact hprev v (hdisj v List.mem_cons_self y List.mem_cons_self)
            (hxx v List.mem_cons_self)

/-- Putting an element at its place changes nothing of what is in the ring. -/
theorem nodup_middle : (s :: (xs ++ x :: ys)).Nodup ↔
    x ∉ s :: (xs ++ ys) ∧ (s :: (xs ++ ys)).Nodup := by
  have hperm : (s :: (xs ++ x :: ys)).Perm (x :: s :: (xs ++ ys)) :=
    (List.perm_middle.cons s).trans (List.Perm.swap x s _)
  rw [hperm.nodup_iff, List.nodup_cons]

namespace IsRing

/-- **Linking in** a vertex that is not in the ring. -/
theorem insert (h : L.IsRing s (xs ++ ys)) (hx : x ∉ s :: (xs ++ ys))
    (hi : L.Inserts L' (xs.getLastD s) x (ys.headD s)) : L'.IsRing s (xs ++ x :: ys) := by
  have hp := h.path
  rw [List.append_assoc, path_append, path_concat] at hp
  obtain ⟨hfirst, hsecond⟩ :=
    Path.of_ne h.nodup hx hi.next_of_ne hi.prev_of_ne hp.1 hp.2.2
  refine ⟨nodup_middle.mpr ⟨hx, h.nodup⟩, ?_⟩
  rw [List.append_assoc, List.cons_append, path_append, path_cons, path_concat]
  exact ⟨hfirst, hi.before, hi.after, hsecond⟩

/-- **Taking out** an element. -/
theorem remove (h : L.IsRing s (xs ++ x :: ys))
    (hu : L.Unlinks L' (xs.getLastD s) x (ys.headD s)) : L'.IsRing s (xs ++ ys) := by
  obtain ⟨hx, hnd⟩ := nodup_middle.mp h.nodup
  have hp := h.path
  rw [List.append_assoc, List.cons_append, path_append, path_cons, path_concat] at hp
  obtain ⟨hfirst, hsecond⟩ :=
    Path.of_ne hnd hx hu.next_of_ne hu.prev_of_ne hp.1 hp.2.2.2
  refine ⟨hnd, ?_⟩
  rw [List.append_assoc, path_append, path_concat]
  exact ⟨hfirst, hu.joined, hsecond⟩

end IsRing

/-! ## Families of sequences -/

/-- **No element is in two of the sequences** – what becomes of sequences without a
common element is a matter of each of them. -/
def Apart {ι : Type*} (σ : ι → List V) : Prop :=
  ∀ ⦃i j : ι⦄ ⦃v : V⦄, v ∈ σ i → v ∈ σ j → i = j

namespace Apart

variable {ι : Type*} [DecidableEq ι] {σ : ι → List V} {i : ι}

/-- A sequence is given elements that none of the others has. -/
theorem update (h : Apart σ) (hnew : ∀ v ∈ xs, v ∈ σ i ∨ ∀ j, v ∉ σ j) :
    Apart (Function.update σ i xs) := by
  have hother : ∀ ⦃j : ι⦄, j ≠ i → ∀ v ∈ σ j, v ∉ xs := fun j hj v hv hx =>
    (hnew v hx).elim (fun hi => hj (h hv hi)) fun hno => hno j hv
  intro j k v hj hk
  by_cases hji : j = i <;> by_cases hki : k = i
  · rw [hji, hki]
  · rw [hji, Function.update_self] at hj
    rw [Function.update_of_ne hki] at hk
    exact absurd hj (hother hki v hk)
  · rw [hki, Function.update_self] at hk
    rw [Function.update_of_ne hji] at hj
    exact absurd hk (hother hji v hj)
  · rw [Function.update_of_ne hji] at hj
    rw [Function.update_of_ne hki] at hk
    exact h hj hk

/-- What leaves the sequences without `x` as they are changes the sequence of `x`
only. -/
theorem map_eq_update (h : Apart σ) {f : List V → List V} (hf : ∀ l, x ∉ l → f l = l)
    (hx : x ∈ σ i) : (fun j => f (σ j)) = Function.update σ i (f (σ i)) := by
  funext j
  by_cases hj : j = i
  · rw [hj, Function.update_self]
  · rw [Function.update_of_ne hj]
    exact hf _ fun hxj => hj (h hxj hx)

end Apart

/-! ## Walks -/

variable [DecidableEq V]

/-- The vertices passed by `for (cur = start; cur != stop; cur = next(cur))`. The
body cannot be run with `cur` null. -/
def walk (next : V → Option V) (stop : V) (fuel : ℕ) (start : Option V) :
    Option (List V) :=
  Loop.run (fun it : Option V × List V =>
    if it.1 = some stop then .done it.2
    else
      match it.1 with
      | none => .stuck
      | some cur => .next (next cur, it.2 ++ [cur])) fuel (start, [])

/-- A walk from a place of the ring, the part before it having been passed. -/
theorem IsRing.walk_from (h : L.IsRing s (xs ++ ys)) {fuel : ℕ} (hf : ys.length < fuel) :
    Loop.run (fun it : Option V × List V =>
      if it.1 = some s then .done it.2
      else
        match it.1 with
        | none => .stuck
        | some cur => .next (L.next cur, it.2 ++ [cur])) fuel (some (ys.headD s), xs)
      = some (xs ++ ys) := by
  induction ys generalizing xs fuel with
  | nil =>
    cases fuel with
    | zero => exact absurd hf (by simp)
    | succ fuel => exact Loop.run_done (by simp) fuel
  | cons y ys ih =>
    cases fuel with
    | zero => exact absurd hf (by simp)
    | succ fuel =>
      have hy : y ≠ s := by
        rintro rfl
        exact h.anchor_notMem (List.mem_append_right _ List.mem_cons_self)
      have hring : L.IsRing s (xs ++ [y] ++ ys) := by simpa using h
      have hlen : ys.length < fuel := by simpa using hf
      have hlast := ih hring hlen
      rw [List.append_assoc, List.singleton_append] at hlast
      rw [← hlast]
      exact Loop.run_next (by simp [hy, h.next_element]) fuel

/-- **A walk round the ring** passes the elements in order. -/
theorem IsRing.walk (h : L.IsRing s xs) {fuel : ℕ} (hf : xs.length < fuel) :
    walk L.next s fuel (L.next s) = some xs := by
  have h' : L.IsRing s ([] ++ xs) := h
  rw [Links.walk, h.next_anchor]
  exact h'.walk_from hf

end Links
