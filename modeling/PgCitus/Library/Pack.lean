import PgCitus.Library.Loop

/-!
# Items one after another

An area in which items are laid one after another, where an item may be laid out in another way
at another offset, as it is if something in it has to be aligned. `pack` is such an area from
some offset on, and `start` is where an item starts in it; from there on the area has the item,
and the ones that follow it (`drop_start`).

Items of one length need no more than their number to be found (`start_eq_mul`), and where each
item says how long it is, a reader comes from each one to the next (`start_succ`).
-/

namespace Pack

variable {α β : Type*}

/-- **The items, from an offset on.** -/
def pack (enc : ℕ → α → List β) : ℕ → List α → List β
  | _, [] => []
  | off, a :: as => enc off a ++ pack enc (off + (enc off a).length) as

/-- Where the item of an index starts. -/
def start (enc : ℕ → α → List β) (off : ℕ) (as : List α) (i : ℕ) : ℕ :=
  off + (pack enc off (as.take i)).length

variable {enc : ℕ → α → List β} {off i : ℕ} {as bs : List α} {a : α}

theorem pack_append : pack enc off (as ++ bs) =
    pack enc off as ++ pack enc (off + (pack enc off as).length) bs := by
  induction as generalizing off with
  | nil => rfl
  | cons a as ih =>
    show enc off a ++ pack enc _ (as ++ bs) = _
    rw [ih, ← List.append_assoc, pack, List.length_append, Nat.add_assoc]

@[simp] theorem start_zero : start enc off as 0 = off := rfl

/-- An item ends where the next one starts. -/
theorem start_succ (h : as[i]? = some a) : start enc off as (i + 1) =
    start enc off as i + (enc (start enc off as i) a).length := by
  unfold start
  rw [List.take_add_one, h, Option.toList_some, pack_append, List.length_append, ← Nat.add_assoc]
  show _ + (enc _ a ++ []).length = _
  rw [List.append_nil]

/-- **The item is where it starts**, followed by the next ones. -/
theorem drop_start (enc : ℕ → α → List β) (off : ℕ) (h : as[i]? = some a) :
    (pack enc off as).drop (start enc off as i - off) =
      enc (start enc off as i) a ++ pack enc (start enc off as (i + 1)) (as.drop (i + 1)) := by
  obtain ⟨hi, hget⟩ := List.getElem?_eq_some_iff.mp h
  have hsplit : as = as.take i ++ a :: as.drop (i + 1) := by
    rw [← hget, List.getElem_cons_drop, List.take_append_drop]
  have hlen : start enc off as i - off = (pack enc off (as.take i)).length :=
    Nat.add_sub_cancel_left _ _
  rw [start_succ h, hlen]
  conv_lhs => rw [hsplit, pack_append, List.take_left' (by rw [List.length_take]; omega)]
  rw [List.drop_left]
  rfl

/-- The last item ends with the area. -/
theorem start_length : start enc off as as.length = off + (pack enc off as).length := by
  rw [start, List.take_length]

theorem start_le (enc : ℕ → α → List β) (off : ℕ) (as : List α) (i : ℕ) :
    start enc off as i ≤ off + (pack enc off as).length := by
  conv_rhs => rw [← List.take_append_drop i as, pack_append, List.length_append]
  exact Nat.add_le_add_left (Nat.le_add_right _ _) off

/-- **A walk over the items**: where a step leads from the start of each item to the start of
the next one, some steps lead that many items on. -/
theorem iter_start {σ : Type*} {next : σ → Option σ} (ptr : ℕ → σ)
    (h : ∀ i a, as[i]? = some a →
      next (ptr (start enc off as i)) = some (ptr (start enc off as (i + 1))))
    {j n : ℕ} (hn : j + n ≤ as.length) :
    Loop.iter next n (ptr (start enc off as j)) = some (ptr (start enc off as (j + n))) := by
  induction n generalizing j with
  | zero => rfl
  | succ n ih =>
    show (next (ptr (start enc off as j))).bind (Loop.iter next n) = _
    rw [h j as[j] (List.getElem?_eq_getElem (by omega)), Option.bind_some, ih (by omega),
      Nat.add_right_comm]
    rfl

/-- **Items of one length.** -/
theorem start_eq_mul {k : ℕ} (hk : ∀ off a, (enc off a).length = k) (hi : i ≤ as.length) :
    start enc off as i = off + k * i := by
  induction i with
  | zero => rfl
  | succ i ih =>
    rw [start_succ (List.getElem?_eq_getElem hi), ih (Nat.le_of_succ_le hi), hk, Nat.mul_succ,
      Nat.add_assoc]

/-- Items that look the same everywhere. -/
theorem pack_eq_flatMap (f : α → List β) (off : ℕ) (as : List α) :
    pack (fun _ => f) off as = as.flatMap f := by
  induction as generalizing off with
  | nil => rfl
  | cons a as ih => rw [pack, ih, List.flatMap_cons]

/-- **A table**: items of one length that look the same everywhere. -/
theorem drop_flatMap {f : α → List β} {k : ℕ} (hk : ∀ a, (f a).length = k)
    (h : as[i]? = some a) (rest : List β) :
    (as.flatMap f ++ rest).drop (k * i) = f a ++ ((as.drop (i + 1)).flatMap f ++ rest) := by
  obtain ⟨hi, -⟩ := List.getElem?_eq_some_iff.mp h
  have hstart : start (fun _ => f) 0 as i = k * i := by
    rw [start_eq_mul (fun _ => hk) (Nat.le_of_lt hi), Nat.zero_add]
  have hle : k * i ≤ (as.flatMap f).length := by
    have hend := start_le (fun _ => f) 0 as i
    rwa [hstart, pack_eq_flatMap, Nat.zero_add] at hend
  have hdrop := drop_start (fun _ => f) 0 h
  rw [hstart, Nat.sub_zero, pack_eq_flatMap, pack_eq_flatMap] at hdrop
  rw [List.drop_append_of_le_length hle, hdrop, List.append_assoc]

end Pack
