import PgCitus.SortTemplate

/-!
# The sort template with a record of what it does

The functions of `SortTemplate` once more, under the same words, on a memory that
comes with a record (`StLog`): which elements are compared, which runs of units
are exchanged, and on what the sort calls itself. A call of `DO_SORT` is recorded
with its depth and the number of elements of the call that makes it. What the
source does with `goto loop` is no call: it goes on with fewer elements at the
same depth, in the same call.

Forgetting the record gives the functions of `SortTemplate`, whatever the record
was at the start (`logSort_mem`).
-/

namespace SortTemplate

variable {β : Type*}

/-- Something the sort does. -/
inductive StEvent where
  /-- `DO_COMPARE` of two elements. -/
  | compare (a b : ℕ)
  /-- `ST_SWAPN`: `n` units from `a` on are exchanged with those from `b` on. -/
  | swapn (a b n : ℕ)
  /-- `DO_SORT` of `n` elements from `a` on, by a call at some depth on `caller` elements. -/
  | sort (depth caller a n : ℕ)
  deriving DecidableEq, Repr

/-- The memory, and what has been done so far, the last first. -/
structure StLog (β : Type*) where
  mem : ℕ → β
  log : List StEvent

def StLog.record (s : StLog β) (e : StEvent) : StLog β := { s with log := e :: s.log }

/-- `ST_SWAPN`. -/
def logSwapn (s : StLog β) (a b n : ℕ) : StLog β :=
  { mem := stSwapn s.mem a b n, log := .swapn a b n :: s.log }

/-- `DO_SWAP`. -/
def logSwap (T : StTemplate β) (s : StLog β) (a b : ℕ) : StLog β := logSwapn s a b T.step

/-- `ST_MED3`. -/
def logMed3 (T : StTemplate β) (s : StLog β) (a b c : ℕ) : ℕ × StLog β :=
  let s := s.record (.compare a b)
  if doCompare T s.mem a b < 0 then
    let s := s.record (.compare b c)
    if doCompare T s.mem b c < 0 then (b, s)
    else
      let s := s.record (.compare a c)
      if doCompare T s.mem a c < 0 then (c, s) else (a, s)
  else
    let s := s.record (.compare b c)
    if doCompare T s.mem b c > 0 then (b, s)
    else
      let s := s.record (.compare a c)
      if doCompare T s.mem a c < 0 then (a, s) else (c, s)

/-! ## The parts of `ST_SORT` -/

/-- The inner loop of the insertion sort. -/
def logSink (T : StTemplate β) (a fuel pm : ℕ) (s : StLog β) : Option (StLog β) :=
  Loop.run (fun ((pl, s) : ℕ × StLog β) =>
    if a < pl then
      let s := s.record (.compare (pl - T.step) pl)
      if doCompare T s.mem (pl - T.step) pl > 0 then
        .next (pl - T.step, logSwap T s pl (pl - T.step))
      else .done s
    else .done s) fuel (pm, s)

/-- The insertion sort for fewer than seven elements. -/
def logInsertionSort (T : StTemplate β) (s : StLog β) (a n : ℕ) : Option (StLog β) :=
  Loop.run (fun ((pm, s) : ℕ × StLog β) =>
    if pm < a + n * T.step then
      match logSink T a (n + 1) pm s with
      | none => .stuck
      | some s' => .next (pm + T.step, s')
    else .done s) (n + 1) (a + T.step, s)

/-- The check for presorted input, which leaves the memory as it is. -/
def logPresorted (T : StTemplate β) (s : StLog β) (a n : ℕ) : Option (Bool × StLog β) :=
  Loop.run (fun ((pm, log) : ℕ × List StEvent) =>
    if pm < a + n * T.step then
      let log := .compare (pm - T.step) pm :: log
      if doCompare T s.mem (pm - T.step) pm > 0 then .done (false, ⟨s.mem, log⟩)
      else .next (pm + T.step, log)
    else .done (true, ⟨s.mem, log⟩)) (n + 1) (a + T.step, s.log)

/-- The choice of the pivot. -/
def logPivot (T : StTemplate β) (s : StLog β) (a n : ℕ) : ℕ × StLog β :=
  let pm := a + (n / 2) * T.step
  if n > 7 then
    let pl := a
    let pn := a + (n - 1) * T.step
    if n > 40 then
      let d := (n / 8) * T.step
      let l := logMed3 T s pl (pl + d) (pl + 2 * d)
      let m := logMed3 T l.2 (pm - d) pm (pm + d)
      let r := logMed3 T m.2 (pn - 2 * d) (pn - d) pn
      logMed3 T r.2 l.1 m.1 r.1
    else logMed3 T s pl pm pn
  else (pm, s)

/-- The scan from the left: `pa`, `pb` and the memory after it. -/
def logScanLeft (T : StTemplate β) (a fuel pc : ℕ) (pa pb : ℕ) (s : StLog β) :
    Option (ℕ × ℕ × StLog β) :=
  Loop.run (fun ((pa, pb, s) : ℕ × ℕ × StLog β) =>
    if pb ≤ pc then
      let s := s.record (.compare pb a)
      if doCompare T s.mem pb a ≤ 0 then
        if doCompare T s.mem pb a = 0 then
          .next (pa + T.step, pb + T.step, logSwap T s pa pb)
        else .next (pa, pb + T.step, s)
      else .done (pa, pb, s)
    else .done (pa, pb, s)) fuel (pa, pb, s)

/-- The scan from the right: `pc`, `pd` and the memory after it. -/
def logScanRight (T : StTemplate β) (a fuel pb : ℕ) (pc pd : ℕ) (s : StLog β) :
    Option (ℕ × ℕ × StLog β) :=
  Loop.run (fun ((pc, pd, s) : ℕ × ℕ × StLog β) =>
    if pb ≤ pc then
      let s := s.record (.compare pc a)
      if doCompare T s.mem pc a ≥ 0 then
        if doCompare T s.mem pc a = 0 then
          .next (pc - T.step, pd - T.step, logSwap T s pc pd)
        else .next (pc - T.step, pd, s)
      else .done (pc, pd, s)
    else .done (pc, pd, s)) fuel (pc, pd, s)

/-- The pointers of the partitioning, and the memory. -/
structure StLogPartition (β : Type*) where
  pa : ℕ
  pb : ℕ
  pc : ℕ
  pd : ℕ
  s : StLog β

/-- The partitioning loop, for a pivot at `a`. -/
def logPartition (T : StTemplate β) (s : StLog β) (a n : ℕ) : Option (StLogPartition β) :=
  Loop.run (fun (p : StLogPartition β) =>
    match logScanLeft T a (n + 1) p.pc p.pa p.pb p.s with
    | none => .stuck
    | some (pa, pb, s) =>
      match logScanRight T a (n + 1) pb p.pc p.pd s with
      | none => .stuck
      | some (pc, pd, s) =>
        if pb > pc then .done ⟨pa, pb, pc, pd, s⟩
        else .next ⟨pa, pb + T.step, pc - T.step, pd, logSwap T s pb pc⟩)
    (n + 1)
    ⟨a + T.step, a + T.step, a + (n - 1) * T.step, a + (n - 1) * T.step, s⟩

/-- Exchanging the runs of elements equal to the pivot. -/
def logGather (T : StTemplate β) (p : StLogPartition β) (a pn : ℕ) : StLog β :=
  let d1 := min (p.pa - a) (p.pb - p.pa)
  let s := logSwapn p.s a (p.pb - d1) d1
  let d1 := min (p.pd - p.pc) (pn - p.pd - T.step)
  logSwapn s p.pb (pn - d1) d1

/-- `ST_SORT`, in a call at depth `depth` that was made on `caller` elements. -/
def logSort (T : StTemplate β) : ℕ → ℕ → ℕ → StLog β → ℕ → ℕ → Option (StLog β)
  | 0, _, _, _, _, _ => none
  | fuel + 1, depth, caller, s, a, n =>
    if n < 7 then logInsertionSort T s a n
    else
      match logPresorted T s a n with
      | none => none
      | some (true, s) => some s
      | some (false, s) =>
        let pm := logPivot T s a n
        match logPartition T (logSwap T pm.2 a pm.1) a n with
        | none => none
        | some p =>
          let pn := a + n * T.step
          let s := logGather T p a pn
          let d1 := p.pb - p.pa
          let d2 := p.pd - p.pc
          if d1 ≤ d2 then
            -- recurse on the left partition, then iterate on the right one
            match (if d1 > T.step then
                logSort T fuel (depth + 1) (d1 / T.step)
                  (s.record (.sort depth caller a (d1 / T.step))) a (d1 / T.step)
                else some s) with
            | none => none
            | some s =>
              if d2 > T.step then logSort T fuel depth caller s (pn - d2) (d2 / T.step)
              else some s
          else
            -- recurse on the right partition, then iterate on the left one
            match (if d2 > T.step then
                logSort T fuel (depth + 1) (d2 / T.step)
                  (s.record (.sort depth caller (pn - d2) (d2 / T.step))) (pn - d2) (d2 / T.step)
                else some s) with
            | none => none
            | some s =>
              if d1 > T.step then logSort T fuel depth caller s a (d1 / T.step)
              else some s

/-! ## Forgetting the record -/

variable (T : StTemplate β)

theorem logMed3_fst (s : StLog β) (a b c : ℕ) : (logMed3 T s a b c).1 = stMed3 T s.mem a b c := by
  unfold logMed3 stMed3 StLog.record
  dsimp only
  split_ifs <;> rfl

theorem logMed3_mem (s : StLog β) (a b c : ℕ) : (logMed3 T s a b c).2.mem = s.mem := by
  unfold logMed3 StLog.record
  dsimp only
  split_ifs <;> rfl

theorem logPivot_fst (s : StLog β) (a n : ℕ) : (logPivot T s a n).1 = stPivot T s.mem a n := by
  unfold logPivot stPivot
  dsimp only
  split_ifs
  · simp only [logMed3_fst, logMed3_mem]
  · exact logMed3_fst T s _ _ _
  · rfl

theorem logPivot_mem (s : StLog β) (a n : ℕ) : (logPivot T s a n).2.mem = s.mem := by
  unfold logPivot
  dsimp only
  split_ifs
  · simp only [logMed3_mem]
  · exact logMed3_mem T s _ _ _
  · rfl

theorem logSink_mem (a fuel pm : ℕ) (s : StLog β) :
    (logSink T a fuel pm s).map StLog.mem = stSink T a fuel pm s.mem := by
  refine (Loop.run_map (fun x : ℕ × StLog β => (x.1, x.2.mem)) StLog.mem (fun x => ?_) fuel
    (pm, s)).symm
  dsimp only
  by_cases hlt : a < x.1
  · rw [if_pos hlt]
    by_cases hc : doCompare T x.2.mem (x.1 - T.step) x.1 > 0
    · rw [if_pos ⟨hlt, hc⟩, if_pos (show doCompare T (x.2.record _).mem _ _ > 0 from hc)]
      rfl
    · rw [if_neg fun h => hc h.2,
        if_neg (show ¬ doCompare T (x.2.record _).mem _ _ > 0 from hc)]
      rfl
  · rw [if_neg fun h => hlt h.1, if_neg hlt]
    rfl

theorem logInsertionSort_mem (s : StLog β) (a n : ℕ) :
    (logInsertionSort T s a n).map StLog.mem = stInsertionSort T s.mem a n := by
  refine (Loop.run_map (fun x : ℕ × StLog β => (x.1, x.2.mem)) StLog.mem (fun x => ?_) (n + 1)
    (a + T.step, s)).symm
  dsimp only
  rw [← logSink_mem]
  by_cases hlt : x.1 < a + n * T.step
  · rw [if_pos hlt, if_pos hlt]
    cases logSink T a (n + 1) x.1 x.2 <;> rfl
  · rw [if_neg hlt, if_neg hlt]
    rfl

theorem logPresorted_fst (s : StLog β) (a n : ℕ) :
    (logPresorted T s a n).map Prod.fst = stPresorted T s.mem a n := by
  refine (Loop.run_map Prod.fst Prod.fst (fun x => ?_) (n + 1) (a + T.step, s.log)).symm
  dsimp only
  split_ifs <;> rfl

/-- The check for presorted input leaves the memory as it is. -/
theorem logPresorted_mem {s s' : StLog β} {a n : ℕ} {b : Bool}
    (h : logPresorted T s a n = some (b, s')) : s'.mem = s.mem := by
  refine (Loop.ends_iff.mpr ⟨_, h⟩).result (Q := fun r => r.2.mem = s.mem) fun x r hr => ?_
  dsimp only at hr
  split_ifs at hr <;> cases hr <;> rfl

/-- A scan without its record. -/
def logScanForget (x : ℕ × ℕ × StLog β) : ℕ × ℕ × (ℕ → β) := (x.1, x.2.1, x.2.2.mem)

theorem logScanLeft_forget (a fuel pc pa pb : ℕ) (s : StLog β) :
    (logScanLeft T a fuel pc pa pb s).map logScanForget
      = stScanLeft T a fuel pc pa pb s.mem := by
  refine (Loop.run_map logScanForget logScanForget (fun x => ?_) fuel (pa, pb, s)).symm
  dsimp only [StLog.record, logScanForget]
  by_cases hle : x.2.1 ≤ pc
  · rw [if_pos hle]
    by_cases hc : doCompare T x.2.2.mem x.2.1 a ≤ 0
    · rw [if_pos ⟨hle, hc⟩, if_pos hc]
      split_ifs <;> rfl
    · rw [if_neg fun h => hc h.2, if_neg hc]
      rfl
  · rw [if_neg fun h => hle h.1, if_neg hle]
    rfl

theorem logScanRight_forget (a fuel pb pc pd : ℕ) (s : StLog β) :
    (logScanRight T a fuel pb pc pd s).map logScanForget
      = stScanRight T a fuel pb pc pd s.mem := by
  refine (Loop.run_map logScanForget logScanForget (fun x => ?_) fuel (pc, pd, s)).symm
  dsimp only [StLog.record, logScanForget]
  by_cases hle : pb ≤ x.1
  · rw [if_pos hle]
    by_cases hc : doCompare T x.2.2.mem x.1 a ≥ 0
    · rw [if_pos ⟨hle, hc⟩, if_pos hc]
      split_ifs <;> rfl
    · rw [if_neg fun h => hc h.2, if_neg hc]
      rfl
  · rw [if_neg fun h => hle h.1, if_neg hle]
    rfl

/-- The partition without its record. -/
abbrev StLogPartition.forget (p : StLogPartition β) : StPartition β :=
  ⟨p.pa, p.pb, p.pc, p.pd, p.s.mem⟩

theorem logPartition_forget (s : StLog β) (a n : ℕ) :
    (logPartition T s a n).map StLogPartition.forget = stPartition T s.mem a n := by
  refine (Loop.run_map StLogPartition.forget StLogPartition.forget (fun p => ?_) (n + 1)
    ⟨a + T.step, a + T.step, a + (n - 1) * T.step, a + (n - 1) * T.step, s⟩).symm
  dsimp only [StLogPartition.forget]
  rw [← logScanLeft_forget]
  cases logScanLeft T a (n + 1) p.pc p.pa p.pb p.s with
  | none => rfl
  | some l =>
    dsimp only [Option.map_some, logScanForget]
    rw [← logScanRight_forget]
    cases logScanRight T a (n + 1) l.2.1 p.pc p.pd l.2.2 with
    | none => rfl
    | some r =>
      dsimp only [Option.map_some, logScanForget]
      split_ifs <;> rfl

theorem logGather_mem (p : StLogPartition β) (a pn : ℕ) :
    (logGather T p a pn).mem = stGather T p.forget a pn := rfl

/-- **Forgetting the record gives the sort.** -/
theorem logSort_mem (fuel depth caller : ℕ) (s : StLog β) (a n : ℕ) :
    (logSort T fuel depth caller s a n).map StLog.mem = stSort T fuel s.mem a n := by
  induction fuel generalizing depth caller s a n with
  | zero => rfl
  | succ fuel ih =>
    -- sorting one part, in a call of its own or in this one
    have hpart : ∀ (c : Prop) [Decidable c] (depth caller : ℕ) (s s' : StLog β) (a n : ℕ),
        s'.mem = s.mem →
        (if c then logSort T fuel depth caller s' a n else some s).map StLog.mem
          = if c then stSort T fuel s.mem a n else some s.mem := by
      intro c _ depth caller s s' a n hs
      split_ifs
      · rw [ih, hs]
      · rfl
    rw [logSort, stSort]
    by_cases h₇ : n < 7
    · rw [if_pos h₇, if_pos h₇]
      exact logInsertionSort_mem T s a n
    rw [if_neg h₇, if_neg h₇, ← logPresorted_fst]
    rcases hpre : logPresorted T s a n with _ | ⟨_ | _, s'⟩
    · rfl
    · have hmem := logPresorted_mem T hpre
      dsimp only [Option.map_some]
      have hswap : doSwap T s.mem a (stPivot T s.mem a n)
          = (logSwap T (logPivot T s' a n).2 a (logPivot T s' a n).1).mem := by
        rw [← hmem, ← logPivot_fst]
        show doSwap T s'.mem a _ = doSwap T (logPivot T s' a n).2.mem a _
        rw [logPivot_mem]
      rw [hswap, ← logPartition_forget]
      cases logPartition T (logSwap T (logPivot T s' a n).2 a (logPivot T s' a n).1) a n with
      | none => rfl
      | some p =>
        dsimp only [Option.map_some]
        rw [← logGather_mem]
        generalize logGather T p a (a + n * T.step) = g
        by_cases hside : p.pb - p.pa ≤ p.pd - p.pc
        · rw [if_pos hside, if_pos hside, ← hpart _ (depth + 1) ((p.pb - p.pa) / T.step) g
            (g.record (.sort depth caller a ((p.pb - p.pa) / T.step))) a _ rfl]
          generalize (if p.pb - p.pa > T.step then _ else some g) = left
          cases left with
          | none => rfl
          | some s => exact hpart _ depth caller s s _ _ rfl
        · rw [if_neg hside, if_neg hside, ← hpart _ (depth + 1) ((p.pd - p.pc) / T.step) g
            (g.record (.sort depth caller (a + n * T.step - (p.pd - p.pc))
              ((p.pd - p.pc) / T.step))) _ _ rfl]
          generalize (if p.pd - p.pc > T.step then _ else some g) = right
          cases right with
          | none => rfl
          | some s => exact hpart _ depth caller s s _ _ rfl
    · exact congrArg some (logPresorted_mem T hpre)

end SortTemplate
