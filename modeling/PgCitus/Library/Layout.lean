import Mathlib.Tactic.Common

/-!
# Layouts that store no offsets

Items are laid one after another into an area of zeros. Each one is placed at its
offset or, where it has to be aligned, after some padding, and then copied there.
Nothing says where an item starts, so a reader computes it again, from what it
finds in the area: in front of an item it may be looking at padding or at the item
itself.

`Rules` are the four things a format has to say: where the writer puts an item and
how far that brings it, and the same for the reader, who has the contents of the
area in place of the item. They are sound (`Rules.Sound`) if the reader makes the
same of what is in the area as the writer made of the item, whatever comes after
it. Then every item is where it was put, and the reader finds it there
(`Rules.Sound.read_write`).
-/

variable {α δ : Type*} {β : Type}

/-- Copying into an area, which must not go over its end. -/
def copyAt (area : List β) (off : ℕ) (bytes : List β) : Option (List β) :=
  if off + bytes.length ≤ area.length then
    some (area.take off ++ bytes ++ area.drop (off + bytes.length))
  else none

/-- The rules of a layout, for items of type `α`, of which a reader knows what is in
`δ`, and an area of type `β`. -/
structure Rules (α δ : Type*) (β : Type) where
  /-- What a reader knows of an item. -/
  desc : α → δ
  /-- The contents of an item. -/
  bytes : α → List β
  /-- Where the writer puts an item. -/
  alignDatum : α → ℕ → Option ℕ
  /-- How far an item brings the writer. -/
  addDatum : α → ℕ → Option ℕ
  /-- Where the reader, with the area from its offset on, takes the item to be. -/
  alignPointer : δ → ℕ → List β → Option ℕ
  /-- How far the item, of which it has the area from the start on, brings the reader. -/
  addPointer : δ → ℕ → List β → Option ℕ

namespace Rules

variable (R : Rules α δ β)

/-- **The writer**: where it put each item, and the area then. -/
def write (area : List β) (off : ℕ) : List α → Option (List ℕ × List β)
  | [] => some ([], area)
  | a :: as => do
    let start ← R.alignDatum a off
    let area ← copyAt area start (R.bytes a)
    let off ← R.addDatum a start
    let (starts, area) ← write area off as
    return (start :: starts, area)

/-- **The reader**: where it finds each item. -/
def read (area : List β) (off : ℕ) : List δ → Option (List ℕ)
  | [] => some []
  | d :: ds => do
    let start ← R.alignPointer d off (area.drop off)
    let off ← R.addPointer d start (area.drop start)
    let starts ← read area off ds
    return start :: starts

/-- What the writer makes of the items: padding and contents, from offset `off` on. -/
def encode [Zero β] (place : α → ℕ → ℕ) (off : ℕ) : List α → List β
  | [] => []
  | a :: as =>
    List.replicate (place a off - off) 0 ++ R.bytes a
      ++ encode place (place a off + (R.bytes a).length) as

/-- Where the items start. -/
def starts (place : α → ℕ → ℕ) (off : ℕ) : List α → List ℕ
  | [] => []
  | a :: as => place a off :: starts place (place a off + (R.bytes a).length) as

/-- **Sound rules**: the writer puts an item at `place`, and the reader, who finds
padding up to there, the contents of the item and then anything, finds the same. -/
structure Sound [Zero β] (place : α → ℕ → ℕ) : Prop where
  le_place : ∀ a off, off ≤ place a off
  alignDatum_eq : ∀ a off, R.alignDatum a off = some (place a off)
  addDatum_eq : ∀ a off, R.addDatum a off = some (off + (R.bytes a).length)
  alignPointer_eq : ∀ a off rest, R.alignPointer (R.desc a) off
    (List.replicate (place a off - off) 0 ++ R.bytes a ++ rest) = some (place a off)
  addPointer_eq : ∀ a off rest,
    R.addPointer (R.desc a) off (R.bytes a ++ rest) = some (off + (R.bytes a).length)

variable {R} [Zero β] {place : α → ℕ → ℕ}

/-- Copying into zeros. -/
theorem copyAt_zeros (before bytes : List β) {p k : ℕ}
    (h : p + bytes.length ≤ k) :
    copyAt (before ++ List.replicate k 0) (before.length + p) bytes
      = some (before ++ (List.replicate p 0 ++ bytes)
        ++ List.replicate (k - (p + bytes.length)) 0) := by
  have hlen : before.length + p + bytes.length ≤ (before ++ List.replicate k (0 : β)).length := by
    rw [List.length_append, List.length_replicate]
    omega
  rw [copyAt, if_pos hlen, List.take_length_add_append, List.take_replicate,
    Nat.add_assoc, List.drop_length_add_append, List.drop_replicate,
    Nat.min_eq_left (by omega)]
  simp only [List.append_assoc]

/-- **What is written**: an area that is zero from the offset on has the encoding
there afterwards, followed by zeros. -/
theorem Sound.write_eq (hR : R.Sound place) (as : List α) :
    ∀ (before : List β) (k : ℕ), (R.encode place before.length as).length ≤ k →
      R.write (before ++ List.replicate k 0) before.length as
        = some (R.starts place before.length as,
          before ++ R.encode place before.length as
            ++ List.replicate (k - (R.encode place before.length as).length) 0) := by
  induction as with
  | nil =>
    intro before k _
    simp [write, starts, encode]
  | cons a as ih =>
    intro before k hk
    have hle := hR.le_place a before.length
    have hpad : before.length + (place a before.length - before.length)
        = place a before.length := by omega
    rw [encode, List.length_append, List.length_append, List.length_replicate] at hk
    have hcopy := copyAt_zeros before (R.bytes a)
      (p := place a before.length - before.length) (k := k) (by omega)
    rw [hpad] at hcopy
    have hlen : (before ++ (List.replicate (place a before.length - before.length) (0 : β)
        ++ R.bytes a)).length = place a before.length + (R.bytes a).length := by
      simp only [List.length_append, List.length_replicate]
      omega
    have hrest := ih (before ++ (List.replicate (place a before.length - before.length) 0
      ++ R.bytes a)) (k - (place a before.length - before.length + (R.bytes a).length))
      (by rw [hlen]; omega)
    rw [hlen] at hrest
    rw [write, hR.alignDatum_eq]
    simp only [Option.bind_eq_bind, Option.bind_some]
    rw [hcopy]
    simp only [Option.bind_some]
    rw [hR.addDatum_eq]
    simp only [Option.bind_some]
    rw [hrest]
    simp only [Option.bind_some, encode, starts, List.length_append, List.length_replicate,
      List.append_assoc, Nat.sub_sub, Nat.add_assoc]
    rfl

/-- The area from the start of the first item on. -/
theorem Sound.drop_place (hR : R.Sound place) (a : α) (as : List α) (before rest : List β) :
    (before ++ R.encode place before.length (a :: as) ++ rest).drop (place a before.length) =
      R.bytes a ++ (R.encode place (place a before.length + (R.bytes a).length) as ++ rest) := by
  have hpad : before.length + (place a before.length - before.length)
      = place a before.length := Nat.add_sub_cancel' (hR.le_place a before.length)
  have hoff : (before ++ R.encode place before.length (a :: as) ++ rest).drop before.length
      = List.replicate (place a before.length - before.length) 0 ++ (R.bytes a
        ++ (R.encode place (place a before.length + (R.bytes a).length) as ++ rest)) := by
    simp only [encode, List.append_assoc, List.drop_left]
  have hdrop : ∀ l : List β, l.drop (place a before.length)
      = (l.drop before.length).drop (place a before.length - before.length) := by
    intro l
    rw [List.drop_drop, hpad]
  rw [hdrop, hoff]
  exact List.drop_left' List.length_replicate

/-- **Every item is where it starts** in the encoding, whatever comes before and after it. -/
theorem Sound.bytes_encode (hR : R.Sound place) (as : List α) : ∀ before rest : List β,
    List.Forall₂ (fun a start =>
      R.bytes a <+: (before ++ R.encode place before.length as ++ rest).drop start)
      as (R.starts place before.length as) := by
  induction as with
  | nil => exact fun _ _ => .nil
  | cons a as ih =>
    intro before rest
    have hlen : (before ++ List.replicate (place a before.length - before.length) (0 : β)
        ++ R.bytes a).length = place a before.length + (R.bytes a).length := by
      have hle := hR.le_place a before.length
      simp only [List.length_append, List.length_replicate]
      omega
    have hrest := ih (before ++ List.replicate (place a before.length - before.length) 0
      ++ R.bytes a) rest
    rw [hlen] at hrest
    refine .cons ?_ ?_
    · rw [hR.drop_place]
      exact List.prefix_append _ _
    · rw [encode, ← List.append_assoc before, ← List.append_assoc before]
      exact hrest

/-- **What is read** from the encoding, whatever comes before and after it. -/
theorem Sound.read_encode (hR : R.Sound place) (as : List α) :
    ∀ before rest : List β,
      R.read (before ++ R.encode place before.length as ++ rest) before.length
          (as.map R.desc)
        = some (R.starts place before.length as) := by
  induction as with
  | nil => exact fun _ _ => rfl
  | cons a as ih =>
    intro before rest
    have hlen : (before ++ List.replicate (place a before.length - before.length) (0 : β)
        ++ R.bytes a).length = place a before.length + (R.bytes a).length := by
      have hle := hR.le_place a before.length
      simp only [List.length_append, List.length_replicate]
      omega
    have hrest := ih (before ++ List.replicate (place a before.length - before.length) 0
      ++ R.bytes a) rest
    rw [hlen] at hrest
    -- the area from the offset on
    have hoff : (before ++ R.encode place before.length (a :: as) ++ rest).drop before.length
        = List.replicate (place a before.length - before.length) 0 ++ R.bytes a
          ++ (R.encode place (place a before.length + (R.bytes a).length) as ++ rest) := by
      simp only [encode, List.append_assoc, List.drop_left]
    rw [List.map_cons, read, hoff, hR.alignPointer_eq]
    simp only [Option.bind_eq_bind, Option.bind_some, hR.drop_place, hR.addPointer_eq]
    rw [encode, starts, ← List.append_assoc before, ← List.append_assoc before, hrest]
    rfl

/-- **The reader finds every item where the writer put it**, and it is there. -/
theorem Sound.read_write (hR : R.Sound place) (as : List α) {n : ℕ}
    (hn : (R.encode place 0 as).length ≤ n) :
    ∃ starts area, R.write (List.replicate n 0) 0 as = some (starts, area) ∧
      R.read area 0 (as.map R.desc) = some starts ∧
      List.Forall₂ (fun a start => R.bytes a <+: area.drop start) as starts := by
  have hw := hR.write_eq as [] n hn
  exact ⟨_, _, hw, hR.read_encode as [] _, hR.bytes_encode as [] _⟩

end Rules
