import PgCitus.Library.Loop
import PgCitus.Library.Quicksort

/-!
# The sort template

`lib/sort_template.h` generates a sort for an element type and a comparator.
Where the element type is `void` it goes through the array in steps of
`element_size` bytes and exchanges elements byte by byte; otherwise its step is
one and what it exchanges are elements. Both are the same code over
`ST_POINTER_TYPE` and `ST_POINTER_STEP`, and it is this code that is modelled:
memory is a function from addresses to units, a pointer is an address, and an
element is the `step` units from its address on.

Loops are `Loop.run`. The recursion, and the `goto loop` that takes the place of
a second recursive call, are calls of `stSort` with less fuel.
-/

namespace SortTemplate

/-- **What the template is parameterised by**: the step of pointers in units,
and the comparison of two elements. -/
structure StTemplate (β : Type*) where
  /-- `ST_POINTER_STEP`. -/
  step : ℕ
  /-- `ST_COMPARE`. -/
  compare : (Fin step → β) → (Fin step → β) → ℤ

variable {β : Type*}

/-- The element at an address. -/
def StTemplate.element (T : StTemplate β) (mem : ℕ → β) (p : ℕ) : Fin T.step → β :=
  fun j => mem (p + j)

/-- `DO_COMPARE`. -/
def doCompare (T : StTemplate β) (mem : ℕ → β) (a b : ℕ) : ℤ :=
  T.compare (T.element mem a) (T.element mem b)

/-- `ST_MED3`: the median of three elements. -/
def stMed3 (T : StTemplate β) (mem : ℕ → β) (a b c : ℕ) : ℕ :=
  if doCompare T mem a b < 0 then
    if doCompare T mem b c < 0 then b
    else if doCompare T mem a c < 0 then c else a
  else
    if doCompare T mem b c > 0 then b
    else if doCompare T mem a c < 0 then a else c

/-- `ST_SWAP`: exchange two units. -/
def stSwap (mem : ℕ → β) (a b : ℕ) : ℕ → β :=
  Function.update (Function.update mem a (mem b)) b (mem a)

/-- `ST_SWAPN`: exchange `n` units, one after the other. -/
def stSwapn (mem : ℕ → β) (a b : ℕ) : ℕ → ℕ → β
  | 0 => mem
  | n + 1 => stSwap (stSwapn mem a b n) (a + n) (b + n)

/-- `DO_SWAP`: exchange two elements. -/
def doSwap (T : StTemplate β) (mem : ℕ → β) (a b : ℕ) : ℕ → β :=
  stSwapn mem a b T.step

/-! ## The parts of `ST_SORT` -/

/-- The inner loop of the insertion sort. -/
def stSink (T : StTemplate β) (a fuel pm : ℕ) (mem : ℕ → β) : Option (ℕ → β) :=
  Loop.run (fun ((pl, mem) : ℕ × (ℕ → β)) =>
    if a < pl ∧ doCompare T mem (pl - T.step) pl > 0 then
      .next (pl - T.step, doSwap T mem pl (pl - T.step))
    else .done mem) fuel (pm, mem)

/-- The insertion sort for fewer than seven elements. -/
def stInsertionSort (T : StTemplate β) (mem : ℕ → β) (a n : ℕ) : Option (ℕ → β) :=
  Loop.run (fun ((pm, mem) : ℕ × (ℕ → β)) =>
    if pm < a + n * T.step then
      match stSink T a (n + 1) pm mem with
      | none => .stuck
      | some mem' => .next (pm + T.step, mem')
    else .done mem) (n + 1) (a + T.step, mem)

/-- The check for presorted input. -/
def stPresorted (T : StTemplate β) (mem : ℕ → β) (a n : ℕ) : Option Bool :=
  Loop.run (fun pm =>
    if pm < a + n * T.step then
      if doCompare T mem (pm - T.step) pm > 0 then .done false
      else .next (pm + T.step)
    else .done true) (n + 1) (a + T.step)

/-- The choice of the pivot. -/
def stPivot (T : StTemplate β) (mem : ℕ → β) (a n : ℕ) : ℕ :=
  let pm := a + (n / 2) * T.step
  if n > 7 then
    let pl := a
    let pn := a + (n - 1) * T.step
    if n > 40 then
      let d := (n / 8) * T.step
      stMed3 T mem
        (stMed3 T mem pl (pl + d) (pl + 2 * d))
        (stMed3 T mem (pm - d) pm (pm + d))
        (stMed3 T mem (pn - 2 * d) (pn - d) pn)
    else stMed3 T mem pl pm pn
  else pm

/-- The scan from the left: `pa`, `pb` and the memory after it. -/
def stScanLeft (T : StTemplate β) (a fuel pc : ℕ) (pa pb : ℕ) (mem : ℕ → β) :
    Option (ℕ × ℕ × (ℕ → β)) :=
  Loop.run (fun ((pa, pb, mem) : ℕ × ℕ × (ℕ → β)) =>
    if pb ≤ pc ∧ doCompare T mem pb a ≤ 0 then
      if doCompare T mem pb a = 0 then
        .next (pa + T.step, pb + T.step, doSwap T mem pa pb)
      else .next (pa, pb + T.step, mem)
    else .done (pa, pb, mem)) fuel (pa, pb, mem)

/-- The scan from the right: `pc`, `pd` and the memory after it. -/
def stScanRight (T : StTemplate β) (a fuel pb : ℕ) (pc pd : ℕ) (mem : ℕ → β) :
    Option (ℕ × ℕ × (ℕ → β)) :=
  Loop.run (fun ((pc, pd, mem) : ℕ × ℕ × (ℕ → β)) =>
    if pb ≤ pc ∧ doCompare T mem pc a ≥ 0 then
      if doCompare T mem pc a = 0 then
        .next (pc - T.step, pd - T.step, doSwap T mem pc pd)
      else .next (pc - T.step, pd, mem)
    else .done (pc, pd, mem)) fuel (pc, pd, mem)

/-- The pointers of the partitioning, and the memory. -/
structure StPartition (β : Type*) where
  pa : ℕ
  pb : ℕ
  pc : ℕ
  pd : ℕ
  mem : ℕ → β

/-- The partitioning loop, for a pivot at `a`. -/
def stPartition (T : StTemplate β) (mem : ℕ → β) (a n : ℕ) : Option (StPartition β) :=
  Loop.run (fun (s : StPartition β) =>
    match stScanLeft T a (n + 1) s.pc s.pa s.pb s.mem with
    | none => .stuck
    | some (pa, pb, mem) =>
      match stScanRight T a (n + 1) pb s.pc s.pd mem with
      | none => .stuck
      | some (pc, pd, mem) =>
        if pb > pc then .done ⟨pa, pb, pc, pd, mem⟩
        else .next ⟨pa, pb + T.step, pc - T.step, pd, doSwap T mem pb pc⟩)
    (n + 1)
    ⟨a + T.step, a + T.step, a + (n - 1) * T.step, a + (n - 1) * T.step, mem⟩

/-- Exchanging the runs of elements equal to the pivot. -/
def stGather (T : StTemplate β) (s : StPartition β) (a pn : ℕ) : ℕ → β :=
  let d1 := min (s.pa - a) (s.pb - s.pa)
  let mem := stSwapn s.mem a (s.pb - d1) d1
  let d1 := min (s.pd - s.pc) (pn - s.pd - T.step)
  stSwapn mem s.pb (pn - d1) d1

/-- `ST_SORT`. -/
def stSort (T : StTemplate β) : ℕ → (ℕ → β) → ℕ → ℕ → Option (ℕ → β)
  | 0, _, _, _ => none
  | fuel + 1, mem, a, n =>
    if n < 7 then stInsertionSort T mem a n
    else
      match stPresorted T mem a n with
      | none => none
      | some true => some mem
      | some false =>
        match stPartition T (doSwap T mem a (stPivot T mem a n)) a n with
        | none => none
        | some s =>
          let pn := a + n * T.step
          let mem := stGather T s a pn
          let d1 := s.pb - s.pa
          let d2 := s.pd - s.pc
          if d1 ≤ d2 then
            -- recurse on the left partition, then iterate on the right one
            match (if d1 > T.step then stSort T fuel mem a (d1 / T.step)
                else some mem) with
            | none => none
            | some mem =>
              if d2 > T.step then stSort T fuel mem (pn - d2) (d2 / T.step)
              else some mem
          else
            -- recurse on the right partition, then iterate on the left one
            match (if d2 > T.step then stSort T fuel mem (pn - d2) (d2 / T.step)
                else some mem) with
            | none => none
            | some mem =>
              if d1 > T.step then stSort T fuel mem a (d1 / T.step)
              else some mem

end SortTemplate
