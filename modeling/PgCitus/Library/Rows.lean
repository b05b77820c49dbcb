import Mathlib.Algebra.BigOperators.Group.List.Basic
import Mathlib.Algebra.Ring.Nat
import Mathlib.Data.List.Dedup
import Mathlib.Data.List.Sort
import Mathlib.Logic.Equiv.Basic
import Mathlib.Tactic.Common

/-!
# Tables as lists of rows

A table is a list of rows, and a join of two of them is the list of the pairs of rows
that a condition holds of (`Rows.join`); a left join keeps the rows of the left table
that have no partner (`Rows.leftJoin`). Rows can be put in order by a key
(`Rows.orderBy`), and distinct values counted (`Rows.countDistinct`). A table with
constraints, such as unique indexes, carries a proof that its rows meet them
(`Rows.Table`), and inserting rows that do not meet them fails.

Two tables **pair up** under a condition when every row of either has exactly one
partner in the other. That can be counted: they pair up when they are as long as each
other and as their join, and no row is without a partner (`pairsUp_iff_length`). And it
can be said without the lists: there is one bijection that respects the condition, and
one only (`pairsUp_iff_equiv`).
-/

namespace Rows

variable {α β γ : Type*} {r : α → β → Bool} {A : List α} {B : List β}

/-- `A JOIN B ON r`. -/
def join (r : α → β → Bool) (A : List α) (B : List β) : List (α × β) :=
  A.flatMap fun a => (B.filter (r a)).map (Prod.mk a)

/-- `A LEFT JOIN B ON r`. -/
def leftJoin (r : α → β → Bool) (A : List α) (B : List β) : List (α × Option β) :=
  A.flatMap fun a =>
    match B.filter (r a) with
    | [] => [(a, none)]
    | b :: bs => (b :: bs).map fun b => (a, some b)

theorem mem_join {a : α} {b : β} : (a, b) ∈ join r A B ↔ a ∈ A ∧ b ∈ B ∧ r a b = true := by
  unfold join
  simp only [List.mem_flatMap, List.mem_map, List.mem_filter, Prod.mk.injEq]
  constructor
  · rintro ⟨a', ha, b', ⟨hb, hr⟩, rfl, rfl⟩
    exact ⟨ha, hb, hr⟩
  · rintro ⟨ha, hb, hr⟩
    exact ⟨a, ha, b, ⟨hb, hr⟩, rfl, rfl⟩

theorem mem_leftJoin_some {a : α} {b : β} :
    (a, some b) ∈ leftJoin r A B ↔ (a, b) ∈ join r A B := by
  unfold leftJoin join
  rw [List.mem_flatMap, List.mem_flatMap]
  refine exists_congr fun a' => and_congr_right fun _ => ?_
  generalize B.filter (r a') = bs
  cases bs with
  | nil => simp
  | cons b' bs => simp [eq_comm]

/-- **Conditions on the sides of a join** may be taken to the tables. -/
theorem filter_join (p : α → Bool) (q : β → Bool) :
    (join r A B).filter (fun x => p x.1 && q x.2) = join r (A.filter p) (B.filter q) := by
  unfold join
  induction A with
  | nil => rfl
  | cons a A ih =>
    have hcomp : ((fun x : α × β => p x.1 && q x.2) ∘ Prod.mk a) = fun b => p a && q b := rfl
    rw [List.flatMap_cons, List.filter_append, ih, List.filter_map, hcomp, List.filter_filter,
      List.filter_cons]
    cases p a with
    | true =>
      rw [if_pos rfl, List.flatMap_cons, List.filter_filter]
      simp only [Bool.true_and, Bool.and_comm]
    | false => simp

/-- **A condition on the right side drops what a left join adds.** -/
theorem filterMap_leftJoin (q : β → Bool) (row : α → β → γ) :
    ((leftJoin r A B).filter fun x => x.2.any q).filterMap (fun x => x.2.map (row x.1)) =
      ((join r A B).filter fun x => q x.2).map fun x => row x.1 x.2 := by
  unfold leftJoin join
  rw [List.filter_flatMap, List.filterMap_flatMap, List.filter_flatMap, List.map_flatMap]
  refine congrArg (fun h => A.flatMap h) (funext fun a => ?_)
  generalize B.filter (r a) = bs
  have hsome : ∀ bs : List β,
      ((bs.map fun b => (a, some b)).filter fun x => x.2.any q).filterMap
        (fun x => x.2.map (row x.1)) =
      (((bs.map (Prod.mk a)).filter fun x => q x.2).map fun x => row x.1 x.2) := by
    intro bs
    induction bs with
    | nil => rfl
    | cons b bs ih =>
      rw [List.map_cons, List.map_cons, List.filter_cons, List.filter_cons]
      cases hq : q b with
      | true => simp [hq, ih]
      | false => simp [hq, ih]
  cases bs with
  | nil => rfl
  | cons b bs => exact hsome (b :: bs)

/-! ## Counting a join -/

/-- A join has as many rows as there are partners to all rows of the left table. -/
theorem length_join (r : α → β → Bool) (A : List α) (B : List β) :
    (join r A B).length = (A.map fun a => (B.filter (r a)).length).sum := by
  unfold join
  rw [List.length_flatMap]
  simp only [List.length_map]

/-- Rows that meet a condition, gone through one by one. -/
theorem map_filter_eq_flatMap (p : β → Bool) (f : β → γ) (B : List β) :
    (B.filter p).map f = B.flatMap fun b => if p b = true then [f b] else [] := by
  induction B with
  | nil => rfl
  | cons b B ih =>
    rw [List.filter_cons, List.flatMap_cons, ← ih]
    split <;> rfl

/-- A condition more is one on the rows of the join. -/
theorem join_and (r s : α → β → Bool) (A : List α) (B : List β) :
    join (fun a b => r a b && s a b) A B = (join r A B).filter fun x => s x.1 x.2 := by
  unfold join
  rw [List.filter_flatMap]
  refine congrArg (fun h => A.flatMap h) (funext fun a => ?_)
  rw [List.filter_map, List.filter_filter]
  simp only [Function.comp_def, Bool.and_comm]

/-- The rows of a join are the same in any order of the tables' rows. -/
theorem join_perm {A' : List α} {B' : List β} (hA : A.Perm A') (hB : B.Perm B') :
    (join r A B).Perm (join r A' B') :=
  List.Perm.flatMap hA fun a _ => (hB.filter (r a)).map (Prod.mk a)

/-- **The sides of a join** may be exchanged. -/
theorem join_perm_swap (r : α → β → Bool) (A : List α) (B : List β) :
    (join r A B).Perm ((join (fun b a => r a b) B A).map Prod.swap) := by
  unfold join
  rw [List.map_flatMap]
  induction A with
  | nil =>
    have hnil : (B.flatMap fun _ => ([] : List (α × β))) = [] :=
      List.flatMap_eq_nil_iff.mpr fun _ _ => rfl
    exact List.Perm.of_eq hnil.symm
  | cons a A ih =>
    -- the pairs of the first row, and those of the others
    have hcons : ∀ b, (((a :: A).filter fun a => r a b).map (Prod.mk b)).map Prod.swap =
        (if r a b = true then [(a, b)] else []) ++
          ((A.filter fun a => r a b).map (Prod.mk b)).map Prod.swap := by
      intro b
      rw [List.filter_cons]
      split <;> rfl
    rw [List.flatMap_cons, map_filter_eq_flatMap, funext hcons]
    exact (ih.append_left _).trans (List.flatMap_append_perm B _ _)

/-- It makes no difference which table is on the left. -/
theorem length_join_comm (r : α → β → Bool) (A : List α) (B : List β) :
    (join r A B).length = (join (fun b a => r a b) B A).length :=
  (join_perm_swap r A B).length_eq.trans (List.length_map _)

/-- Where numbers are at least one each and one each on the whole, they are all one. -/
theorem eq_one_of_sum {f : α → ℕ} (hpos : ∀ a ∈ A, 1 ≤ f a) (hsum : (A.map f).sum = A.length) :
    ∀ a ∈ A, f a = 1 := by
  have hle : ∀ l : List α, (∀ a ∈ l, 1 ≤ f a) → l.length ≤ (l.map f).sum := by
    intro l hl
    induction l with
    | nil => exact Nat.le_refl _
    | cons a l ih =>
      have ha := hl a List.mem_cons_self
      have hrest := ih fun b hb => hl b (List.mem_cons_of_mem a hb)
      rw [List.map_cons, List.sum_cons, List.length_cons]
      omega
  induction A with
  | nil => exact fun a ha => nomatch ha
  | cons a A ih =>
    rw [List.map_cons, List.sum_cons, List.length_cons] at hsum
    have ha := hpos a List.mem_cons_self
    have hrest := fun b hb => hpos b (List.mem_cons_of_mem a hb)
    have hge := hle A hrest
    intro b hb
    rcases List.mem_cons.mp hb with rfl | hb
    · omega
    · exact ih hrest (by omega) b hb

/-- Of rows that are all different, one meets a condition if exactly one does. -/
theorem length_filter_eq_one_iff (hB : B.Nodup) (p : β → Bool) :
    (B.filter p).length = 1 ↔ ∃ b ∈ B, p b = true ∧ ∀ b' ∈ B, p b' = true → b' = b := by
  constructor
  · intro h
    obtain ⟨b, hb⟩ := List.length_eq_one_iff.mp h
    have hmem : ∀ x, x ∈ B ∧ p x = true ↔ x = b := by
      intro x
      rw [← List.mem_filter, hb, List.mem_singleton]
    exact ⟨b, ((hmem b).mpr rfl).1, ((hmem b).mpr rfl).2, fun b' hb' hp => (hmem b').mp ⟨hb', hp⟩⟩
  · rintro ⟨b, hb, hp, huniq⟩
    have hmem : b ∈ B.filter p := List.mem_filter.mpr ⟨hb, hp⟩
    have hnodup := hB.filter p
    have hall : ∀ x ∈ B.filter p, x = b := fun x hx =>
      huniq x (List.mem_filter.mp hx).1 (List.mem_filter.mp hx).2
    match hl : B.filter p with
    | [] =>
      rw [hl] at hmem
      cases hmem
    | [x] => rfl
    | x :: y :: l =>
      rw [hl] at hnodup hall
      have hx := hall x List.mem_cons_self
      have hy := hall y (List.mem_cons_of_mem x List.mem_cons_self)
      exact absurd (List.mem_cons.mpr (.inl (hx.trans hy.symm))) (List.nodup_cons.mp hnodup).1

/-- **Not both rows meet a condition.** -/
def NotBoth (p : α → Bool) (a b : α) : Prop := p a = true → p b = false

theorem NotBoth.symm {p : α → Bool} {a b : α} (h : NotBoth p a b) : NotBoth p b a := by
  intro hb
  by_contra ha
  rw [h (Bool.eq_true_of_not_eq_false ha)] at hb
  exact Bool.false_ne_true hb

/-- One row at most meets a condition exactly if no two of them do. -/
theorem length_filter_le_one_iff (p : α → Bool) (A : List α) :
    (A.filter p).length ≤ 1 ↔ A.Pairwise (NotBoth p) := by
  induction A with
  | nil => exact iff_of_true (Nat.zero_le 1) List.Pairwise.nil
  | cons a A ih =>
    rw [List.pairwise_cons, List.filter_cons]
    by_cases ha : p a = true
    · rw [if_pos ha, List.length_cons]
      constructor
      · intro h
        have hnil : A.filter p = [] := List.length_eq_zero_iff.mp (by omega)
        exact ⟨fun b hb _ => Bool.eq_false_of_not_eq_true (List.filter_eq_nil_iff.mp hnil b hb),
          ih.mp (by omega)⟩
      · rintro ⟨h, -⟩
        have hnil : A.filter p = [] :=
          List.filter_eq_nil_iff.mpr fun b hb hp => Bool.false_ne_true ((h b hb ha).symm.trans hp)
        rw [hnil]
        exact Nat.le_refl 1
    · rw [if_neg ha, ih]
      exact ⟨fun h => ⟨fun b _ hp => absurd hp ha, h⟩, fun h => h.2⟩

/-- **A join repeats no key** of the left table whose rows have one partner at most. -/
theorem nodup_map_join {key : α → γ} (hkey : (A.map key).Nodup)
    (hone : ∀ a ∈ A, (B.filter (r a)).length ≤ 1) :
    ((join r A B).map fun x => key x.1).Nodup := by
  induction A with
  | nil => exact List.nodup_nil
  | cons a A ih =>
    rw [List.map_cons, List.nodup_cons] at hkey
    have hrest := ih hkey.2 fun a' ha' => hone a' (List.mem_cons_of_mem a ha')
    unfold join at hrest ⊢
    rw [List.flatMap_cons, List.map_append, List.map_map]
    refine List.nodup_append.mpr ⟨?_, hrest, ?_⟩
    · have hlen := hone a List.mem_cons_self
      generalize B.filter (r a) = bs at hlen
      match bs, hlen with
      | [], _ => exact List.nodup_nil
      | [b], _ => exact List.nodup_singleton _
    · rintro k hk k' hk' rfl
      obtain ⟨b, -, rfl⟩ := List.mem_map.mp hk
      obtain ⟨⟨a', b'⟩, hx, heq⟩ := List.mem_map.mp hk'
      refine hkey.1 (List.mem_map.mpr ⟨a', ?_, heq⟩)
      exact (mem_join (r := r)).mp hx |>.1

/-- `count(distinct …)`. -/
def countDistinct [DecidableEq γ] (values : List γ) : ℕ := values.dedup.length

/-- **Counting distinct values** gives as many as there are rows if each row's key, and
nothing else, is among them. -/
theorem length_eq_countDistinct_iff [DecidableEq γ] {key : α → γ} {values : List γ}
    (hA : (A.map key).Nodup) (hsub : ∀ v ∈ values, v ∈ A.map key) :
    A.length = countDistinct values ↔ ∀ a ∈ A, key a ∈ values := by
  unfold countDistinct
  have hsub' : values.dedup ⊆ A.map key := fun v hv => hsub v (List.mem_dedup.mp hv)
  have hperm : values.dedup.Subperm (A.map key) :=
    List.subperm_of_subset (List.nodup_dedup values) hsub'
  constructor
  · intro hlen a ha
    have hle : (A.map key).length ≤ values.dedup.length := by rw [List.length_map, hlen]
    exact List.mem_dedup.mp ((hperm.perm_of_length_le hle).mem_iff.mpr (List.mem_map_of_mem ha))
  · intro hall
    have hback : A.map key ⊆ values.dedup := by
      intro v hv
      obtain ⟨a, ha, rfl⟩ := List.mem_map.mp hv
      exact List.mem_dedup.mpr (hall a ha)
    have hle := (List.subperm_of_subset hA hback).length_le
    have hge := hperm.length_le
    rw [List.length_map] at hle hge
    exact Nat.le_antisymm hle hge

/-! ## Joins on keys -/

/-- **A key finds its row**, and no other one. -/
theorem filter_key [DecidableEq γ] {key : β → γ} (hB : (B.map key).Nodup) {b : β} (hb : b ∈ B) :
    B.filter (fun b' => key b' = key b) = [b] := by
  induction B with
  | nil => exact absurd hb List.not_mem_nil
  | cons b₀ B ih =>
    rw [List.map_cons, List.nodup_cons] at hB
    rw [List.filter_cons]
    by_cases hkey : key b₀ = key b
    · have hnil : B.filter (fun b' => key b' = key b) = [] := by
        rw [List.filter_eq_nil_iff]
        intro b' hb' heq
        exact hB.1 (hkey.trans (of_decide_eq_true heq).symm ▸ List.mem_map_of_mem hb')
      rw [if_pos (decide_eq_true hkey), hnil]
      rcases List.mem_cons.mp hb with rfl | hb
      · rfl
      · exact absurd (hkey ▸ List.mem_map_of_mem hb) hB.1
    · rw [if_neg (by rwa [decide_eq_true_iff])]
      rcases List.mem_cons.mp hb with rfl | hb
      · exact absurd rfl hkey
      · exact ih hB.2 hb

/-- A condition on the left side alone. -/
theorem filter_join_left (p : α → Bool) :
    (join r A B).filter (fun x => p x.1) = join r (A.filter p) B := by
  have h := filter_join (r := r) (A := A) (B := B) p fun _ => true
  rw [List.filter_true] at h
  simpa only [Bool.and_true] using h

/-- A condition on the right side alone. -/
theorem filter_join_right (q : β → Bool) :
    (join r A B).filter (fun x => q x.2) = join r A (B.filter q) := by
  have h := filter_join (r := r) (A := A) (B := B) (fun _ => true) q
  rw [List.filter_true] at h
  simpa only [Bool.true_and] using h

/-- A join in which every row on the left has one partner lists these rows. -/
theorem map_fst_join (hone : ∀ a ∈ A, (B.filter (r a)).length = 1) :
    (join r A B).map Prod.fst = A := by
  induction A with
  | nil => rfl
  | cons a A ih =>
    obtain ⟨b, hb⟩ := List.length_eq_one_iff.mp (hone a List.mem_cons_self)
    unfold join at ih ⊢
    rw [List.flatMap_cons, List.map_append, hb, ih fun a' ha' =>
      hone a' (List.mem_cons_of_mem a ha')]
    rfl

/-- How often a key is on the left of a join. -/
theorem count_map_fst_join [DecidableEq γ] {key : α → γ} {k : γ} {n : ℕ}
    (hn : ∀ a ∈ A, key a = k → (B.filter (r a)).length = n) :
    ((join r A B).map fun x => key x.1).count k = (A.map key).count k * n := by
  unfold join
  induction A with
  | nil => exact (Nat.zero_mul n).symm
  | cons a A ih =>
    rw [List.flatMap_cons, List.map_append, List.count_append,
      ih fun a ha => hn a (List.mem_cons_of_mem _ ha), List.map_cons, List.count_cons,
      Nat.add_mul, Nat.add_comm, List.map_map]
    congr 1
    show ((B.filter (r a)).map fun _ => key a).count k = _
    rw [List.map_const', List.count_replicate]
    by_cases hk : key a = k
    · simp [hk, hn a List.mem_cons_self hk]
    · simp [hk]

/-- **Every row once on the left of a join**, as far as a key tells: each has one partner. -/
theorem perm_map_fst_join_iff [DecidableEq γ] {key : α → γ}
    (hkey : ∀ a ∈ A, ∀ a' ∈ A, key a = key a' → r a = r a') :
    ((join r A B).map fun x => key x.1).Perm (A.map key) ↔
      ∀ a ∈ A, (B.filter (r a)).length = 1 := by
  constructor
  · intro h a ha
    have hcount := List.perm_iff_count.mp h (key a)
    rw [count_map_fst_join fun a' ha' hk => congrArg (fun p => (B.filter p).length)
      (hkey a' ha' a ha hk)] at hcount
    have hpos : 0 < (A.map key).count (key a) :=
      List.count_pos_iff.mpr (List.mem_map_of_mem ha)
    exact Nat.eq_of_mul_eq_mul_left hpos (hcount.trans (Nat.mul_one _).symm)
  · intro h
    have hmap := congrArg (List.map key) (map_fst_join h)
    rw [List.map_map] at hmap
    exact List.Perm.of_eq hmap

/-- **Keys that occur once on the other side**: those of either side are the same, each of them
once. -/
theorem count_eq_one_iff [BEq γ] [LawfulBEq γ] {K L : List γ} :
    ((∀ k ∈ K, L.count k = 1) ∧ ∀ k ∈ L, K.count k = 1) ↔ K.Nodup ∧ K.Perm L := by
  constructor
  · rintro ⟨hK, hL⟩
    have mem_of {k : γ} {l : List γ} (h : l.count k = 1) : k ∈ l :=
      List.count_pos_iff.mp (h ▸ Nat.one_pos)
    have hK' : K.Nodup := List.nodup_iff_count_eq_one.mpr fun k hk => hL k (mem_of (hK k hk))
    have hL' : L.Nodup := List.nodup_iff_count_eq_one.mpr fun k hk => hK k (mem_of (hL k hk))
    exact ⟨hK', (List.perm_ext_iff_of_nodup hK' hL').mpr
      fun k => ⟨fun hk => mem_of (hK k hk), fun hk => mem_of (hL k hk)⟩⟩
  · rintro ⟨hK, hperm⟩
    exact ⟨fun k hk => List.count_eq_one_of_mem (hperm.nodup_iff.mp hK) (hperm.mem_iff.mp hk),
      fun k hk => List.count_eq_one_of_mem hK (hperm.mem_iff.mpr hk)⟩

/-- **A left join with one partner at most** adds it to each row, or NULL. -/
theorem leftJoin_eq_map (hone : ∀ a ∈ A, (B.filter (r a)).length ≤ 1) :
    leftJoin r A B = A.map fun a => (a, (B.filter (r a)).head?) := by
  induction A with
  | nil => rfl
  | cons a A ih =>
    have hlen := hone a List.mem_cons_self
    have hrest := ih fun a' ha' => hone a' (List.mem_cons_of_mem a ha')
    unfold leftJoin at hrest ⊢
    rw [List.flatMap_cons, List.map_cons, hrest]
    generalize B.filter (r a) = bs at hlen
    match bs, hlen with
    | [], _ => rfl
    | [b], _ => rfl

/-- `GROUP BY`: the keys there are, each with its rows. -/
def groupBy [DecidableEq γ] (key : α → γ) (A : List α) : List (γ × List α) :=
  (A.map key).dedup.map fun k => (k, A.filter fun a => key a = k)

/-- **A key has one group** if it has any rows. -/
theorem filter_groupBy [DecidableEq γ] (key : α → γ) (A : List α) (k : γ) :
    (groupBy key A).filter (fun g => g.1 = k) =
      if k ∈ A.map key then [(k, A.filter fun a => key a = k)] else [] := by
  unfold groupBy
  rw [List.filter_map]
  show ((A.map key).dedup.filter fun k' => k' = k).map _ = _
  rw [List.filter_eq, List.count_dedup]
  split <;> rfl

theorem mem_groupBy [DecidableEq γ] {key : α → γ} {g : γ × List α} :
    g ∈ groupBy key A ↔ g.1 ∈ A.map key ∧ g.2 = A.filter fun a => key a = g.1 := by
  unfold groupBy
  rw [List.mem_map]
  constructor
  · rintro ⟨k, hk, rfl⟩
    exact ⟨List.mem_dedup.mp hk, rfl⟩
  · rintro ⟨hk, hg⟩
    exact ⟨g.1, List.mem_dedup.mpr hk, Prod.ext rfl hg.symm⟩

/-- Groups have different keys. -/
theorem nodup_map_fst_groupBy [DecidableEq γ] (key : α → γ) (A : List α) :
    ((groupBy key A).map Prod.fst).Nodup := by
  unfold groupBy
  rw [List.map_map]
  show ((A.map key).dedup.map id).Nodup
  rw [List.map_id]
  exact List.nodup_dedup _

/-! ## Ordering rows -/

/-- `ORDER BY key`. -/
def orderBy [LinearOrder γ] (key : α → γ) (A : List α) : List α :=
  A.insertionSort fun a b => key a ≤ key b

theorem perm_orderBy [LinearOrder γ] (key : α → γ) (A : List α) : (orderBy key A).Perm A :=
  List.perm_insertionSort _ A

theorem mem_orderBy [LinearOrder γ] {key : α → γ} {a : α} : a ∈ orderBy key A ↔ a ∈ A :=
  (perm_orderBy key A).mem_iff

theorem pairwise_orderBy [LinearOrder γ] (key : α → γ) (A : List α) :
    (orderBy key A).Pairwise fun a b => key a ≤ key b := by
  have : Std.Total fun a b : α => key a ≤ key b := ⟨fun a b => le_total (key a) (key b)⟩
  have : IsTrans α fun a b : α => key a ≤ key b := ⟨fun a b c => le_trans⟩
  exact List.pairwise_insertionSort _ A

/-- A key that is different for all rows goes up. -/
theorem pairwise_lt_orderBy [LinearOrder γ] {key : α → γ} (hA : (A.map key).Nodup) :
    (orderBy key A).Pairwise fun a b => key a < key b := by
  have hnodup : ((orderBy key A).map key).Nodup := ((perm_orderBy key A).map key).nodup_iff.mpr hA
  have hne : (orderBy key A).Pairwise fun a b => key a ≠ key b := List.pairwise_map.mp hnodup
  exact ((pairwise_orderBy key A).and hne).imp fun hab => lt_of_le_of_ne hab.1 hab.2

/-- **Rows are in one order only**, where the key tells them apart. -/
theorem orderBy_eq [LinearOrder γ] {key : α → γ} (hkey : Function.Injective key) {A' : List α}
    (hperm : A'.Perm A) (hsorted : A'.Pairwise fun a b => key a ≤ key b) :
    orderBy key A = A' := by
  have : Std.Antisymm fun a b : α => key a ≤ key b :=
    ⟨fun a b hab hba => hkey (le_antisymm hab hba)⟩
  exact ((perm_orderBy key A).trans hperm.symm).eq_of_pairwise' (pairwise_orderBy key A) hsorted

/-- Rows listed in parts of equal length are the same only part by part. -/
theorem eq_of_flatMap_eq {f g : α → List β} (hlen : ∀ a ∈ A, (f a).length = (g a).length)
    (h : A.flatMap f = A.flatMap g) : ∀ a ∈ A, f a = g a := by
  induction A with
  | nil => exact fun a ha => nomatch ha
  | cons x A ih =>
    rw [List.flatMap_cons, List.flatMap_cons] at h
    obtain ⟨hx, hrest⟩ := List.append_inj h (hlen x List.mem_cons_self)
    intro a ha
    rcases List.mem_cons.mp ha with rfl | ha
    · exact hx
    · exact ih (fun a ha => hlen a (List.mem_cons_of_mem x ha)) hrest a ha

/-! ## Numbering rows -/

/-- **Rows numbered through**, each with as many numbers as it is to have. -/
def numbered (n : α → ℕ) : ℕ → List α → List (α × ℕ)
  | _, [] => []
  | k, a :: A => (List.range' k (n a)).map (Prod.mk a) ++ numbered n (k + n a) A

/-- The numbers are those from the first one on. -/
theorem map_snd_numbered (n : α → ℕ) (k : ℕ) (A : List α) :
    (numbered n k A).map Prod.snd = List.range' k (A.map n).sum := by
  induction A generalizing k with
  | nil => rfl
  | cons a A ih =>
    rw [numbered, List.map_append, List.map_map, ih, List.map_cons, List.sum_cons,
      ← List.range'_append_1]
    exact congrArg (· ++ _) (List.map_id _)

theorem fst_mem_of_mem_numbered {n : α → ℕ} {k : ℕ} {p : α × ℕ} (hp : p ∈ numbered n k A) :
    p.1 ∈ A := by
  induction A generalizing k with
  | nil => exact absurd hp List.not_mem_nil
  | cons a A ih =>
    rcases List.mem_append.mp hp with hp | hp
    · obtain ⟨_, _, rfl⟩ := List.mem_map.mp hp
      exact List.mem_cons_self
    · exact List.mem_cons_of_mem a (ih hp)

/-- The rows of a key, among those numbered. -/
theorem filter_numbered_cons [DecidableEq γ] {key : α → γ} (n : α → ℕ) (k : ℕ) {a : α}
    (ha : key a ∉ A.map key) :
    ((numbered n k (a :: A)).filter fun p => decide (key a = key p.1)) =
        (List.range' k (n a)).map (Prod.mk a) ∧
      ∀ a' ∈ A, ((numbered n k (a :: A)).filter fun p => decide (key a' = key p.1)) =
        (numbered n (k + n a) A).filter fun p => decide (key a' = key p.1) := by
  rw [numbered]
  simp only [List.filter_append, List.filter_map]
  constructor
  · have hrest : ((numbered n (k + n a) A).filter fun p => decide (key a = key p.1)) = [] :=
      List.filter_eq_nil_iff.mpr fun p hp hkey => ha (by
        rw [of_decide_eq_true hkey]
        exact List.mem_map_of_mem (fst_mem_of_mem_numbered hp))
    rw [hrest, List.append_nil]
    exact congrArg _ (List.filter_eq_self.mpr fun _ _ => decide_eq_true rfl)
  · intro a' ha'
    have hfirst : ((List.range' k (n a)).filter
        ((fun p : α × ℕ => decide (key a' = key p.1)) ∘ Prod.mk a)) = [] :=
      List.filter_eq_nil_iff.mpr fun i _ hkey => ha (by
        rw [← of_decide_eq_true hkey]
        exact List.mem_map_of_mem ha')
    rw [hfirst, List.map_nil, List.nil_append]

/-- **Row by row**, the numbered rows are all of them, in the same order. -/
theorem flatMap_filter_numbered [DecidableEq γ] {key : α → γ} (n : α → ℕ) (k : ℕ)
    (hA : (A.map key).Nodup) :
    (A.flatMap fun a => (numbered n k A).filter fun p => decide (key a = key p.1)) =
      numbered n k A := by
  induction A generalizing k with
  | nil => rfl
  | cons a A ih =>
    obtain ⟨ha, hA⟩ := List.nodup_cons.mp hA
    obtain ⟨hfirst, hrest⟩ := filter_numbered_cons n k ha
    rw [List.flatMap_cons, hfirst, List.flatMap_congr hrest, ih _ hA]
    rfl

/-- Each row has as many numbers as it is to have. -/
theorem length_filter_numbered [DecidableEq γ] {key : α → γ} (n : α → ℕ) (k : ℕ)
    (hA : (A.map key).Nodup) {a : α} (ha : a ∈ A) :
    ((numbered n k A).filter fun p => decide (key a = key p.1)).length = n a := by
  induction A generalizing k with
  | nil => exact absurd ha List.not_mem_nil
  | cons a₀ A ih =>
    obtain ⟨ha₀, hA⟩ := List.nodup_cons.mp hA
    obtain ⟨hfirst, hrest⟩ := filter_numbered_cons n k ha₀
    rcases List.mem_cons.mp ha with rfl | ha
    · rw [hfirst, List.length_map, List.length_range']
    · rw [hrest a ha, ih _ hA ha]

/-! ## Updating all rows -/

/-- What a computation in steps needs to succeed. -/
theorem bind_eq_ok {E α β : Type*} {x : Except E α} {f : α → Except E β} {b : β} :
    x.bind f = .ok b ↔ ∃ a, x = .ok a ∧ f a = .ok b := by
  cases x with
  | error e => exact ⟨(fun h => nomatch h), fun ⟨a, ha, _⟩ => nomatch ha⟩
  | ok a => exact ⟨fun h => ⟨a, rfl, h⟩, fun ⟨a', ha, h⟩ => Except.ok.inj ha ▸ h⟩

theorem map_eq_ok {E α β : Type*} {x : Except E α} {f : α → β} {b : β} :
    x.map f = .ok b ↔ ∃ a, x = .ok a ∧ f a = b := by
  cases x with
  | error e => exact ⟨(fun h => nomatch h), fun ⟨a, ha, _⟩ => nomatch ha⟩
  | ok a => exact ⟨fun h => ⟨a, rfl, Except.ok.inj h⟩, fun ⟨a', ha, h⟩ =>
      congrArg Except.ok (Except.ok.inj ha ▸ h)⟩

/-- The first row, and the others. -/
theorem mapM_cons_eq_ok {E : Type*} {f : α → Except E β} {a : α} (h : (a :: A).mapM f = .ok B) :
    ∃ b B', f a = .ok b ∧ A.mapM f = .ok B' ∧ B = b :: B' := by
  rw [List.mapM_cons] at h
  cases hb : f a with
  | error e =>
    rw [hb] at h
    cases h
  | ok b =>
    cases hB : A.mapM f with
    | error e =>
      rw [hb, hB] at h
      cases h
    | ok B' =>
      rw [hb, hB] at h
      exact ⟨b, B', rfl, rfl, (Except.ok.inj h).symm⟩

/-- **Rows updated one by one**, where an update that does not raise is known. -/
theorem mapM_eq_ok {E : Type*} {f : α → Except E β} {g : α → β}
    (hf : ∀ a b, f a = .ok b → b = g a) (h : A.mapM f = .ok B) : B = A.map g := by
  induction A generalizing B with
  | nil => exact (Except.ok.inj h).symm
  | cons a A ih =>
    obtain ⟨b, B', hb, hB, rfl⟩ := mapM_cons_eq_ok h
    rw [List.map_cons, hf a b hb, ih hB]

/-- **What an update of all rows returns**: of each row what it is updated to. -/
theorem mapM_eq_ok_iff {E : Type*} {f : α → Except E β} :
    A.mapM f = .ok B ↔ List.Forall₂ (fun a b => f a = .ok b) A B := by
  constructor
  · intro h
    induction A generalizing B with
    | nil => exact Except.ok.inj h ▸ .nil
    | cons a A ih =>
      obtain ⟨b, B', hb, hB, rfl⟩ := mapM_cons_eq_ok h
      exact .cons hb (ih hB)
  · intro h
    induction h with
    | nil => rfl
    | cons hb _ ih =>
      rw [List.mapM_cons, hb, ih]
      rfl

/-- **Two updates**, one after the other. -/
theorem mapM_mapM_eq_ok_iff {E : Type*} {f : α → Except E β} {g : β → Except E γ} {C : List γ} :
    (∃ B, A.mapM f = .ok B ∧ B.mapM g = .ok C) ↔
      List.Forall₂ (fun a c => ∃ b, f a = .ok b ∧ g b = .ok c) A C := by
  simp only [mapM_eq_ok_iff]
  constructor
  · rintro ⟨B, hA, hB⟩
    induction hA generalizing C with
    | nil =>
      cases hB
      exact .nil
    | cons hab _ ih =>
      cases hB with
      | cons hbc hB => exact .cons ⟨_, hab, hbc⟩ (ih hB)
  · intro h
    induction h with
    | nil => exact ⟨[], .nil, .nil⟩
    | cons hac _ ih =>
      obtain ⟨b, hab, hbc⟩ := hac
      obtain ⟨B, hA, hB⟩ := ih
      exact ⟨b :: B, .cons hab hA, .cons hbc hB⟩

/-- Rows made of two, one by one, where the second one is related to the first. -/
theorem exists_zipWith_eq_iff {R : α → γ → Prop} {g : α → γ → β} :
    (∃ C, List.Forall₂ R A C ∧ List.zipWith g A C = B) ↔
      List.Forall₂ (fun a b => ∃ c, R a c ∧ g a c = b) A B := by
  constructor
  · rintro ⟨C, h, rfl⟩
    induction h with
    | nil => exact .nil
    | cons hac _ ih => exact .cons ⟨_, hac, rfl⟩ ih
  · intro h
    induction h with
    | nil => exact ⟨[], .nil, rfl⟩
    | cons hab _ ih =>
      obtain ⟨c, hac, rfl⟩ := hab
      obtain ⟨C, hC, rfl⟩ := ih
      exact ⟨c :: C, .cons hac hC, rfl⟩

/-- Rows that are related one by one have what they have in common. -/
theorem map_eq_of_forall₂ {R : α → β → Prop} {f : α → γ} {g : β → γ}
    (hR : ∀ a b, R a b → g b = f a) (h : List.Forall₂ R A B) : B.map g = A.map f := by
  induction h with
  | nil => rfl
  | cons hab _ ih => rw [List.map_cons, List.map_cons, hR _ _ hab, ih]

/-- Where rows are related one by one, each of them is related to one. -/
theorem exists_of_forall₂ {R : α → β → Prop} (h : List.Forall₂ R A B) {b : β} (hb : b ∈ B) :
    ∃ a ∈ A, R a b := by
  induction h with
  | nil => exact absurd hb List.not_mem_nil
  | cons hab _ ih =>
    rcases List.mem_cons.mp hb with rfl | hb
    · exact ⟨_, List.mem_cons_self, hab⟩
    · obtain ⟨a', ha', hr⟩ := ih hb
      exact ⟨a', List.mem_cons_of_mem _ ha', hr⟩

theorem mapM_congr_left {E : Type*} {f g : α → Except E β} (h : ∀ a ∈ A, f a = g a) :
    A.mapM f = A.mapM g := by
  induction A with
  | nil => rfl
  | cons a A ih =>
    rw [List.mapM_cons, List.mapM_cons, h a List.mem_cons_self,
      ih fun a' ha' => h a' (List.mem_cons_of_mem a ha')]

/-- Rows are related to some rows one by one if each of them is related to one. -/
theorem exists_forall₂_iff {R : α → β → Prop} :
    (∃ B, List.Forall₂ R A B) ↔ ∀ a ∈ A, ∃ b, R a b := by
  induction A with
  | nil => exact iff_of_true ⟨[], .nil⟩ fun a ha => absurd ha List.not_mem_nil
  | cons a A ih =>
    rw [List.forall_mem_cons, ← ih]
    constructor
    · rintro ⟨B, h⟩
      cases h with
      | cons hab hA => exact ⟨⟨_, hab⟩, _, hA⟩
    · rintro ⟨⟨b, hab⟩, B, hA⟩
      exact ⟨b :: B, .cons hab hA⟩

/-- **It returns if no row raises an error.** -/
theorem exists_mapM_eq_ok {E : Type*} {f : α → Except E β} :
    (∃ B, A.mapM f = .ok B) ↔ ∀ a ∈ A, ∃ b, f a = .ok b := by
  simp only [mapM_eq_ok_iff]
  exact exists_forall₂_iff

/-- No row raises an error if the update does not. -/
theorem ok_of_mapM_eq_ok {E : Type*} {f : α → Except E β} (h : A.mapM f = .ok B) {a : α}
    (ha : a ∈ A) : ∃ b, f a = .ok b := exists_mapM_eq_ok.mp ⟨B, h⟩ a ha

/-- Every row that is returned is one that a row was updated to. -/
theorem exists_of_mapM_eq_ok {E : Type*} {f : α → Except E β} (h : A.mapM f = .ok B) {b : β}
    (hb : b ∈ B) : ∃ a ∈ A, f a = .ok b := exists_of_forall₂ (mapM_eq_ok_iff.mp h) hb

/-! ## Tables with constraints -/

/-- A constraint on the rows of a table. The empty table meets it. -/
structure Constraint (α : Type*) where
  ok : List α → Bool
  nil : ok [] = true

/-- A unique index on a key. -/
def unique [DecidableEq γ] (key : α → γ) : Constraint α where
  ok := fun A => decide (A.map key).Nodup
  nil := rfl

/-- No constraint. -/
def unconstrained : Constraint α where
  ok := fun _ => true
  nil := rfl

/-- Two constraints. -/
def Constraint.and (c d : Constraint α) : Constraint α where
  ok := fun A => c.ok A && d.ok A
  nil := by rw [c.nil, d.nil]; rfl

/-- A constraint on those rows only that meet a condition. -/
def Constraint.onlyFor (c : Constraint α) (p : α → Bool) : Constraint α where
  ok := fun A => c.ok (A.filter p)
  nil := c.nil

/-- **A table that meets its constraints.** -/
@[ext] structure Table {α : Type*} (c : Constraint α) where
  rows : List α
  valid : c.ok rows = true

/-- The empty table, such as after `TRUNCATE`. -/
def Table.empty (c : Constraint α) : Table c := ⟨[], c.nil⟩

/-- `INSERT INTO`, unless the rows violate a constraint. -/
def Table.insert {c : Constraint α} (t : Table c) (A : List α) : Option (Table c) :=
  if h : c.ok (t.rows ++ A) = true then some ⟨t.rows ++ A, h⟩ else none

/-- The rows of a table can be inserted into an empty one. -/
theorem Table.insert_rows {c : Constraint α} (t : Table c) :
    (Table.empty c).insert t.rows = some t := dif_pos t.valid

/-- What a unique index looks at may be unchanged. -/
theorem unique_map [DecidableEq γ] {key : α → γ} {f : α → α} (hf : ∀ a, key (f a) = key a) :
    (unique key).ok (A.map f) = (unique key).ok A := by
  unfold unique
  simp only [List.map_map, Function.comp_def, hf]

/-- And so may be what rows a constraint is for. -/
theorem onlyFor_map {c : Constraint α} {p : α → Bool} {f : α → α} (hp : ∀ a, p (f a) = p a)
    (hc : ∀ A : List α, c.ok (A.map f) = c.ok A) :
    (c.onlyFor p).ok (A.map f) = (c.onlyFor p).ok A := by
  show c.ok ((A.map f).filter p) = c.ok (A.filter p)
  rw [List.filter_map, hc, show p ∘ f = p from funext hp]

/-- Or it may be changed in the same way for all rows, and differently for different ones. -/
theorem unique_map_of_injective [DecidableEq γ] {key : α → γ} {f : α → α} {g : γ → γ}
    (hg : Function.Injective g) (hf : ∀ a, key (f a) = g (key a)) :
    (unique key).ok (A.map f) = (unique key).ok A := by
  unfold unique
  have hmap : (A.map f).map key = (A.map key).map g := by
    simp only [List.map_map, Function.comp_def, hf]
  simp only [hmap, List.nodup_map_iff hg]

/-! ## Tables that pair up -/

/-- **Two tables pair up**: every row of either has exactly one partner. -/
structure PairsUp (r : α → β → Bool) (A : List α) (B : List β) : Prop where
  left : ∀ a ∈ A, ∃ b ∈ B, r a b = true ∧ ∀ b' ∈ B, r a b' = true → b' = b
  right : ∀ b ∈ B, ∃ a ∈ A, r a b = true ∧ ∀ a' ∈ A, r a' b = true → a' = a

theorem PairsUp.symm (h : PairsUp r A B) : PairsUp (fun b a => r a b) B A := ⟨h.right, h.left⟩

/-- Tables that pair up are as long as their join. -/
theorem PairsUp.length (hB : B.Nodup) (h : PairsUp r A B) : (join r A B).length = A.length := by
  have hone : ∀ a ∈ A, (B.filter (r a)).length = 1 :=
    fun a ha => (length_filter_eq_one_iff hB (r a)).mpr (h.left a ha)
  rw [length_join, List.map_congr_left hone, List.map_const', List.sum_replicate_nat,
    Nat.mul_one]

/-- **Tables that pair up, by counting.** -/
theorem pairsUp_iff_length (hA : A.Nodup) (hB : B.Nodup) :
    PairsUp r A B ↔ A.length = B.length ∧ A.length = (join r A B).length ∧
      (∀ a ∈ A, ∃ b ∈ B, r a b = true) ∧ ∀ b ∈ B, ∃ a ∈ A, r a b = true := by
  constructor
  · intro h
    have hAlen := h.length hB
    have hBlen := h.symm.length hA
    rw [← length_join_comm] at hBlen
    exact ⟨hAlen.symm.trans hBlen, hAlen.symm,
      fun a ha => (h.left a ha).imp fun b hb => ⟨hb.1, hb.2.1⟩,
      fun b hb => (h.right b hb).imp fun a ha => ⟨ha.1, ha.2.1⟩⟩
  · rintro ⟨hlen, hjoin, hleft, hright⟩
    have hsumA := (length_join r A B).symm.trans hjoin.symm
    have hsumB := (length_join (fun b a => r a b) B A).symm.trans
      ((length_join_comm r A B).symm.trans (hjoin.symm.trans hlen))
    constructor
    · intro a ha
      refine (length_filter_eq_one_iff hB (r a)).mp (eq_one_of_sum (fun a ha => ?_) hsumA a ha)
      obtain ⟨b, hb, hr⟩ := hleft a ha
      exact List.length_pos_of_mem (List.mem_filter.mpr ⟨hb, hr⟩)
    · intro b hb
      refine (length_filter_eq_one_iff hA _).mp (eq_one_of_sum (fun b hb => ?_) hsumB b hb)
      obtain ⟨a, ha, hr⟩ := hright b hb
      exact List.length_pos_of_mem (List.mem_filter.mpr ⟨ha, hr⟩)

/-- **Tables that pair up, without the lists.** The condition is one that compares keys:
of rows that share partners, each is a partner of the other's partners. -/
theorem pairsUp_iff_equiv (hr : ∀ a a' b b', r a b = true → r a b' = true → r a' b' = true →
      r a' b = true) :
    PairsUp r A B ↔ ∃ e : {a // a ∈ A} ≃ {b // b ∈ B}, (∀ a, r a.1 (e a).1 = true) ∧
      ∀ e' : {a // a ∈ A} ≃ {b // b ∈ B}, (∀ a, r a.1 (e' a).1 = true) → e' = e := by
  constructor
  · intro h
    choose next hnext using fun a : {a // a ∈ A} => h.left a.1 a.2
    choose prev hprev using fun b : {b // b ∈ B} => h.right b.1 b.2
    let e : {a // a ∈ A} ≃ {b // b ∈ B} :=
      { toFun := fun a => ⟨next a, (hnext a).1⟩
        invFun := fun b => ⟨prev b, (hprev b).1⟩
        left_inv := fun a => Subtype.ext ((hprev _).2.2 a.1 a.2 (hnext a).2.1).symm
        right_inv := fun b => Subtype.ext ((hnext _).2.2 b.1 b.2 (hprev b).2.1).symm }
    refine ⟨e, fun a => (hnext a).2.1, fun e' he' => Equiv.ext fun a => Subtype.ext ?_⟩
    exact (hnext a).2.2 _ (e' a).2 (he' a)
  · rintro ⟨e, he, huniq⟩
    classical
    -- two partners of one row could be swapped
    have hswap : ∀ b b' : {b // b ∈ B}, (∃ a ∈ A, r a b.1 = true ∧ r a b'.1 = true) → b = b' := by
      rintro b b' ⟨a, _, hb, hb'⟩
      have heq := huniq (e.trans (Equiv.swap b b')) fun x => by
        show r x.1 (Equiv.swap b b' (e x)).1 = true
        have hx := he x
        by_cases hxb : e x = b
        · rw [hxb, Equiv.swap_apply_left]
          exact hr a x.1 b'.1 b.1 hb' hb (hxb ▸ hx)
        · by_cases hxb' : e x = b'
          · rw [hxb', Equiv.swap_apply_right]
            exact hr a x.1 b.1 b'.1 hb hb' (hxb' ▸ hx)
          · rw [Equiv.swap_apply_of_ne_of_ne hxb hxb']
            exact hx
      have happ : Equiv.swap b b' (e (e.symm b)) = e (e.symm b) :=
        congrArg (fun e' : {a // a ∈ A} ≃ {b // b ∈ B} => e' (e.symm b)) heq
      rw [e.apply_symm_apply, Equiv.swap_apply_left] at happ
      exact happ.symm
    constructor
    · intro a ha
      refine ⟨e ⟨a, ha⟩, (e ⟨a, ha⟩).2, he ⟨a, ha⟩, fun b' hb' hr' => ?_⟩
      exact congrArg Subtype.val (hswap ⟨b', hb'⟩ (e ⟨a, ha⟩) ⟨a, ha, hr', he ⟨a, ha⟩⟩)
    · intro b hb
      have hb' := he (e.symm ⟨b, hb⟩)
      rw [e.apply_symm_apply] at hb'
      refine ⟨e.symm ⟨b, hb⟩, (e.symm ⟨b, hb⟩).2, hb', fun a' ha' hr' => ?_⟩
      have hsame : e ⟨a', ha'⟩ = ⟨b, hb⟩ := hswap _ _ ⟨a', ha', he ⟨a', ha'⟩, hr'⟩
      exact congrArg Subtype.val (e.eq_symm_apply.mpr hsame)

end Rows
