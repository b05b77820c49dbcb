import Mathlib.Algebra.Group.Nat.Defs
import Mathlib.Data.Nat.Notation
import Mathlib.Order.Basic
import Mathlib.Tactic.Common

/-!
# Numerals of a fixed width

`digits b w n` are the `w` digits of `n` in base `b`, the most significant one first.
Numerals of one width are read back (`value_digits`), and the lexicographic order of
their digits is the order of what they stand for (`lexCompare_digits`) – which it would
not be without leading zeros.

The second holds because the order of two numbers is that of their quotients by some
divisor and, if these are equal, of their remainders (`compare_eq_then`). Whatever
writes a number down as a quotient and a remainder can use the same fact.
-/

namespace Numeral

/-- **The digits of a number**, in `w` places. -/
def digits (b : ℕ) : ℕ → ℕ → List ℕ
  | 0, _ => []
  | w + 1, n => n / b ^ w :: digits b w (n % b ^ w)

/-- What digits stand for, read from the left. -/
def value (b : ℕ) (ds : List ℕ) : ℕ := ds.foldl (fun n d => n * b + d) 0

theorem length_digits (b w n : ℕ) : (digits b w n).length = w := by
  induction w generalizing n with
  | zero => rfl
  | succ w ih => rw [digits, List.length_cons, ih]

/-- The digits of a number that has room are digits. -/
theorem digits_lt {b w n : ℕ} (hb : 0 < b) (hn : n < b ^ w) : ∀ d ∈ digits b w n, d < b := by
  induction w generalizing n with
  | zero => exact fun d hd => absurd hd List.not_mem_nil
  | succ w ih =>
    have hpos : 0 < b ^ w := Nat.pow_pos hb
    intro d hd
    rcases List.mem_cons.mp hd with rfl | hd
    · rw [Nat.div_lt_iff_lt_mul hpos, Nat.mul_comm, ← Nat.pow_succ]
      exact hn
    · exact ih (Nat.mod_lt n hpos) d hd

/-- Reading on from what has been read. -/
theorem foldl_eq_value (b : ℕ) (ds : List ℕ) (m : ℕ) :
    ds.foldl (fun n d => n * b + d) m = m * b ^ ds.length + value b ds := by
  induction ds generalizing m with
  | nil =>
    rw [List.length_nil, Nat.pow_zero, Nat.mul_one]
    rfl
  | cons d ds ih =>
    have hd : value b (d :: ds) = (0 * b + d) * b ^ ds.length + value b ds := ih (0 * b + d)
    rw [List.foldl_cons, ih, hd, List.length_cons, Nat.zero_mul, Nat.zero_add, Nat.add_mul,
      Nat.mul_assoc, ← Nat.pow_succ', Nat.add_assoc]

theorem value_cons (b d : ℕ) (ds : List ℕ) :
    value b (d :: ds) = d * b ^ ds.length + value b ds := by
  show ds.foldl (fun n d => n * b + d) (0 * b + d) = _
  rw [foldl_eq_value, Nat.zero_mul, Nat.zero_add]

/-- **Numerals are read back.** -/
theorem value_digits {b w n : ℕ} (hb : 0 < b) (hn : n < b ^ w) :
    value b (digits b w n) = n := by
  induction w generalizing n with
  | zero =>
    rw [Nat.pow_zero, Nat.lt_one_iff] at hn
    rw [hn]
    rfl
  | succ w ih =>
    rw [digits, value_cons, length_digits, ih (Nat.mod_lt n (Nat.pow_pos hb)),
      Nat.div_add_mod']

theorem value_lt {b : ℕ} {ds : List ℕ} (h : ∀ d ∈ ds, d < b) : value b ds < b ^ ds.length := by
  induction ds with
  | nil => exact Nat.one_pos
  | cons d ds ih =>
    have hlt := ih fun e he => h e (List.mem_cons_of_mem _ he)
    have hd : (d + 1) * b ^ ds.length ≤ b * b ^ ds.length :=
      Nat.mul_le_mul_right _ (h d List.mem_cons_self)
    rw [Nat.succ_mul] at hd
    rw [value_cons, List.length_cons, Nat.pow_succ']
    omega

/-- **Digits are the numeral of what they stand for.** -/
theorem digits_value {b : ℕ} {ds : List ℕ} (h : ∀ d ∈ ds, d < b) :
    digits b ds.length (value b ds) = ds := by
  induction ds with
  | nil => rfl
  | cons d ds ih =>
    have hds := fun e he => h e (List.mem_cons_of_mem _ he)
    have hlt := value_lt hds
    have hpos : 0 < b ^ ds.length := Nat.lt_of_le_of_lt (Nat.zero_le _) hlt
    rw [List.length_cons, digits, value_cons, Nat.add_comm,
      Nat.add_mul_div_right _ _ hpos, Nat.div_eq_of_lt hlt, Nat.zero_add,
      Nat.add_mul_mod_self_right, Nat.mod_eq_of_lt hlt, ih hds]

/-- **Each digit by itself**: divide its weight out, and leave away the digits before it. -/
theorem digits_eq_map {b w n : ℕ} (hb : 0 < b) (hn : n < b ^ w) :
    digits b w n = (List.range w).map fun i => n / b ^ (w - 1 - i) % b := by
  induction w generalizing n with
  | zero => rfl
  | succ w ih =>
    have hlt : n / b ^ w < b := by
      rw [Nat.div_lt_iff_lt_mul (Nat.pow_pos hb), ← Nat.pow_succ']
      exact hn
    rw [digits, ih (Nat.mod_lt n (Nat.pow_pos hb)), List.range_succ_eq_map, List.map_cons,
      List.map_map, Nat.succ_sub_one, Nat.sub_zero, Nat.mod_eq_of_lt hlt]
    refine congrArg (_ :: ·) (List.map_congr_left fun i hi => ?_)
    rw [List.mem_range] at hi
    have hsplit : b ^ w = b ^ (w - 1 - i) * (b * b ^ i) := by
      rw [← Nat.pow_succ', ← Nat.pow_add]
      congr 1
      omega
    show n % b ^ w / b ^ (w - 1 - i) % b = n / b ^ (w - (i + 1)) % b
    rw [hsplit, Nat.mod_mul_right_div_self, Nat.mod_mul_right_mod, Nat.sub_sub, Nat.add_comm 1]

/-! ## Order -/

/-- **Quotients first, then remainders.** -/
theorem compare_eq_then (d n m : ℕ) :
    compare n m = (compare (n / d) (m / d)).then (compare (n % d) (m % d)) := by
  have hn := Nat.div_add_mod n d
  have hm := Nat.div_add_mod m d
  rcases Nat.lt_trichotomy (n / d) (m / d) with h | h | h
  · rw [Nat.compare_eq_lt.mpr h, Nat.compare_eq_lt.mpr (Nat.lt_of_div_lt_div h)]
    rfl
  · rw [Nat.compare_eq_eq.mpr h]
    rw [h] at hn
    show compare n m = compare (n % d) (m % d)
    generalize d * (m / d) = q at hn hm
    rw [Nat.compare_eq_ite_lt, Nat.compare_eq_ite_lt]
    split_ifs <;> first | rfl | omega
  · rw [Nat.compare_eq_gt.mpr h, Nat.compare_eq_gt.mpr (Nat.lt_of_div_lt_div h)]
    rfl

variable {α β : Type*}

/-- **The lexicographic order** of two lists, by a key of their elements. -/
def lexCompare (key : α → ℕ) : List α → List α → Ordering
  | [], [] => .eq
  | [], _ :: _ => .lt
  | _ :: _, [] => .gt
  | a :: as, b :: bs => (compare (key a) (key b)).then (lexCompare key as bs)

/-- Only a list itself is equal to it, if the key tells elements apart. -/
theorem lexCompare_eq_iff {key : α → ℕ} (hkey : Function.Injective key) {as bs : List α} :
    lexCompare key as bs = .eq ↔ as = bs := by
  induction as generalizing bs with
  | nil =>
    cases bs with
    | nil => exact iff_of_true rfl rfl
    | cons b bs => exact iff_of_false (fun h => nomatch h) fun h => nomatch h
  | cons a as ih =>
    cases bs with
    | nil => exact iff_of_false (fun h => nomatch h) fun h => nomatch h
    | cons b bs =>
      rw [lexCompare, Ordering.then_eq_eq, Nat.compare_eq_eq, ih, List.cons.injEq]
      exact and_congr_left' hkey.eq_iff

/-- Lists that start with lists of one length are compared by these first. -/
theorem lexCompare_append {key : α → ℕ} {as bs cs ds : List α} (h : as.length = bs.length) :
    lexCompare key (as ++ cs) (bs ++ ds)
      = (lexCompare key as bs).then (lexCompare key cs ds) := by
  induction as generalizing bs with
  | nil =>
    rw [List.length_nil] at h
    rw [List.eq_nil_of_length_eq_zero h.symm]
    rfl
  | cons a as ih =>
    cases bs with
    | nil => exact absurd h (Nat.succ_ne_zero _)
    | cons b bs =>
      rw [List.length_cons, List.length_cons, Nat.add_right_cancel_iff] at h
      rw [List.cons_append, List.cons_append, lexCompare, ih h, lexCompare,
        Ordering.then_assoc]

/-- Writing every element in another way, which keeps the order of the elements. -/
theorem lexCompare_map {key : α → ℕ} {key' : β → ℕ} {f : α → β} {as bs : List α}
    (h : ∀ a ∈ as, ∀ b ∈ bs, compare (key' (f a)) (key' (f b)) = compare (key a) (key b)) :
    lexCompare key' (as.map f) (bs.map f) = lexCompare key as bs := by
  induction as generalizing bs with
  | nil => cases bs <;> rfl
  | cons a as ih =>
    cases bs with
    | nil => rfl
    | cons b bs =>
      rw [List.map_cons, List.map_cons, lexCompare, lexCompare,
        h a List.mem_cons_self b List.mem_cons_self,
        ih fun a ha b hb => h a (List.mem_cons_of_mem _ ha) b (List.mem_cons_of_mem _ hb)]

/-- **Numerals of one width are ordered as the numbers.** -/
theorem lexCompare_digits {b w n m : ℕ} (hb : 0 < b) (hn : n < b ^ w) (hm : m < b ^ w) :
    lexCompare id (digits b w n) (digits b w m) = compare n m := by
  induction w generalizing n m with
  | zero =>
    rw [Nat.pow_zero, Nat.lt_one_iff] at hn hm
    rw [hn, hm]
    rfl
  | succ w ih =>
    have hpos : 0 < b ^ w := Nat.pow_pos hb
    rw [digits, digits, lexCompare, ih (Nat.mod_lt n hpos) (Nat.mod_lt m hpos),
      compare_eq_then (b ^ w) n m]
    rfl

end Numeral
