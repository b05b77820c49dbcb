import Mathlib.Data.BitVec
import Mathlib.Data.Fintype.Basic
import PgCitus.Library.Run

/-!
# Backend status entries

The protocol by which `utils/backend_status.h` lets a backend change its entry in
shared memory, and others read it, without a lock. The backend increments
`st_changecount` before and after every change; a reader notes it, copies the entry
field by field, and looks at it again. The copy counts if both values are the same and
even, and otherwise the reader starts over.

One backend and any number of readers take steps in any order. What an entry holds
besides the counter are fields of any number and type: the protocol treats them alike,
and stores or copies one in one step. A read that is counted ran while no section was
open (`read_consistent`) – unless the counter came round, which takes `2 ^ 31` sections
during that read.
-/

namespace BackendStatus

variable {Field : Type*} {Value : Field → Type*}

/-! ## The macros -/

/-- `PgBackendStatus`: the counter, and the fields it guards. -/
structure PgBackendStatus (Value : Field → Type*) where
  stChangecount : BitVec 32
  fields : ∀ f, Value f

/-- `PGSTAT_BEGIN_WRITE_ACTIVITY`. -/
def pgstatBeginWriteActivity (beentry : PgBackendStatus Value) : PgBackendStatus Value :=
  { beentry with stChangecount := beentry.stChangecount + 1 }

/-- `PGSTAT_END_WRITE_ACTIVITY`. -/
def pgstatEndWriteActivity (beentry : PgBackendStatus Value) : Option (PgBackendStatus Value) :=
  let beentry := { beentry with stChangecount := beentry.stChangecount + 1 }
  if beentry.stChangecount &&& 1 = 0 then some beentry else none

/-- `pgstat_begin_read_activity`: the value for `before_changecount`. -/
def pgstatBeginReadActivity (beentry : PgBackendStatus Value) : BitVec 32 :=
  beentry.stChangecount

/-- `pgstat_end_read_activity`: the value for `after_changecount`. -/
def pgstatEndReadActivity (beentry : PgBackendStatus Value) : BitVec 32 :=
  beentry.stChangecount

/-- `pgstat_read_activity_complete`. -/
def pgstatReadActivityComplete (beforeChangecount afterChangecount : BitVec 32) : Bool :=
  beforeChangecount == afterChangecount && beforeChangecount &&& 1 == 0

/-! ## A backend and its readers -/

/-- A reader's private memory: the fields copied so far. -/
abbrev Copy (Value : Field → Type*) := ∀ f, Option (Value f)

/-- Where a reader is in the read loop. -/
inductive Reader (Value : Field → Type*) where
  /-- Before the first read. -/
  | idle
  /-- Between `pgstat_begin_read_activity` and `pgstat_end_read_activity`. -/
  | copying (beforeCt : BitVec 32) (copy : Copy Value)
  /-- After `pgstat_end_read_activity`; the reader starts over, or is done. -/
  | finished (beforeCt afterCt : BitVec 32) (copy : Copy Value)

/-- The shared entry, whether its backend is inside a write section, and the readers. -/
structure State (Value : Field → Type*) (ReaderId : Type*) where
  beentry : PgBackendStatus Value
  writing : Bool
  readers : ReaderId → Reader Value

/-- The steps of the backend and of the readers. -/
inductive Action (Value : Field → Type*) (ReaderId : Type*) where
  | beginWrite
  | store (f : Field) (v : Value f)
  | endWrite
  | beginRead (r : ReaderId)
  | copyField (r : ReaderId) (f : Field)
  | endRead (r : ReaderId)

variable [DecidableEq Field] [Fintype Field] {ReaderId : Type*} [DecidableEq ReaderId]

/-- **One step.** The backend stores into its entry inside of sections only, and
sections do not nest; a reader ends a read when it has copied every field. -/
def step (s : State Value ReaderId) : Action Value ReaderId → Option (State Value ReaderId)
  | .beginWrite =>
    if s.writing then none
    else some { s with beentry := pgstatBeginWriteActivity s.beentry, writing := true }
  | .store f v =>
    if s.writing then
      some { s with beentry := { s.beentry with fields := Function.update s.beentry.fields f v } }
    else none
  | .endWrite =>
    if s.writing then
      (pgstatEndWriteActivity s.beentry).map fun e => { s with beentry := e, writing := false }
    else none
  | .beginRead r =>
    match s.readers r with
    | .copying _ _ => none
    | _ =>
      some { s with
        readers := Function.update s.readers r
          (.copying (pgstatBeginReadActivity s.beentry) fun _ => none) }
  | .copyField r f =>
    match s.readers r with
    | .copying beforeCt copy =>
      some { s with
        readers := Function.update s.readers r
          (.copying beforeCt (Function.update copy f (some (s.beentry.fields f)))) }
    | _ => none
  | .endRead r =>
    match s.readers r with
    | .copying beforeCt copy =>
      if ∀ f, (copy f).isSome then
        some { s with
          readers := Function.update s.readers r
            (.finished beforeCt (pgstatEndReadActivity s.beentry) copy) }
      else none
    | _ => none

/-- **Where a run starts**: no section is open, the counter is even, and nobody reads. -/
structure Initial (s : State Value ReaderId) : Prop where
  writing : s.writing = false
  even : s.beentry.stChangecount &&& 1 = 0
  readers : ∀ r, s.readers r = .idle

/-- Whether an action starts a write section. -/
def Action.isBeginWrite : Action Value ReaderId → Bool
  | .beginWrite => true
  | _ => false

/-- Whether an action starts a read of reader `r`. -/
def Action.isBeginRead (r : ReaderId) : Action Value ReaderId → Bool
  | .beginRead r' => r' == r
  | _ => false

/-! ## What a step does -/

/-- **What a step does to the entry.** -/
inductive EntryStep (s : State Value ReaderId) :
    Action Value ReaderId → State Value ReaderId → Prop
  /-- A section starts. -/
  | opens {s' : State Value ReaderId} (hw : s.writing = false) (hw' : s'.writing = true)
      (hct : s'.beentry.stChangecount = s.beentry.stChangecount + 1)
      (hf : s'.beentry.fields = s.beentry.fields) : EntryStep s .beginWrite s'
  /-- Inside a section, a field changes. -/
  | stores {s' : State Value ReaderId} {f : Field} {v : Value f} (hw : s.writing = true)
      (hw' : s'.writing = true) (hct : s'.beentry.stChangecount = s.beentry.stChangecount) :
      EntryStep s (.store f v) s'
  /-- A section ends. -/
  | closes {s' : State Value ReaderId} (hw : s.writing = true) (hw' : s'.writing = false)
      (hct : s'.beentry.stChangecount = s.beentry.stChangecount + 1) : EntryStep s .endWrite s'
  /-- A reader's step. -/
  | reads {a : Action Value ReaderId} {s' : State Value ReaderId}
      (ha : a.isBeginWrite = false) (hw : s'.writing = s.writing)
      (he : s'.beentry = s.beentry) : EntryStep s a s'

/-- **What a step does to reader `r`.** -/
inductive ReaderStep (r : ReaderId) (s : State Value ReaderId) :
    Action Value ReaderId → State Value ReaderId → Prop
  /-- It starts a read. -/
  | begins {s' : State Value ReaderId}
      (hr : s'.readers r = .copying s.beentry.stChangecount fun _ => none) :
      ReaderStep r s (.beginRead r) s'
  /-- It copies a field. -/
  | copies {s' : State Value ReaderId} {f : Field} {beforeCt : BitVec 32} {copy : Copy Value}
      (hr : s.readers r = .copying beforeCt copy)
      (hr' : s'.readers r
        = .copying beforeCt (Function.update copy f (some (s.beentry.fields f)))) :
      ReaderStep r s (.copyField r f) s'
  /-- It ends its read. -/
  | ends {s' : State Value ReaderId} {beforeCt : BitVec 32} {copy : Copy Value}
      (hr : s.readers r = .copying beforeCt copy) (hall : ∀ f, (copy f).isSome)
      (hr' : s'.readers r = .finished beforeCt s.beentry.stChangecount copy) :
      ReaderStep r s (.endRead r) s'
  /-- It takes no part. -/
  | rests {a : Action Value ReaderId} {s' : State Value ReaderId}
      (ha : a.isBeginRead r = false) (hr : s'.readers r = s.readers r) : ReaderStep r s a s'

variable {s s' : State Value ReaderId} {a : Action Value ReaderId}

theorem entryStep (h : step s a = some s') : EntryStep s a s' := by
  cases a with
  | beginWrite =>
    simp only [step, Option.ite_none_left_eq_some, Option.some.injEq, Bool.not_eq_true] at h
    rw [← h.2]
    exact .opens h.1 rfl rfl rfl
  | store f v =>
    simp only [step, Option.ite_none_right_eq_some, Option.some.injEq] at h
    rw [← h.2]
    exact .stores h.1 h.1 rfl
  | endWrite =>
    simp only [step, Option.ite_none_right_eq_some, Option.map_eq_some_iff] at h
    obtain ⟨hw, e, he, rfl⟩ := h
    simp only [pgstatEndWriteActivity, Option.ite_none_right_eq_some, Option.some.injEq] at he
    exact .closes hw rfl (congrArg PgBackendStatus.stChangecount he.2.symm)
  | beginRead r =>
    simp only [step] at h
    split at h
    · cases h
    · rw [← Option.some.inj h]
      exact .reads rfl rfl rfl
  | copyField r f =>
    simp only [step] at h
    split at h
    · rw [← Option.some.inj h]
      exact .reads rfl rfl rfl
    · cases h
  | endRead r =>
    simp only [step] at h
    split at h
    · rw [← Option.some.inj (Option.ite_none_right_eq_some.mp h).2]
      exact .reads rfl rfl rfl
    · cases h

theorem readerStep (r : ReaderId) (h : step s a = some s') : ReaderStep r s a s' := by
  cases a with
  | beginWrite =>
    simp only [step, Option.ite_none_left_eq_some, Option.some.injEq] at h
    exact .rests rfl (by rw [← h.2])
  | store f v =>
    simp only [step, Option.ite_none_right_eq_some, Option.some.injEq] at h
    exact .rests rfl (by rw [← h.2])
  | endWrite =>
    simp only [step, Option.ite_none_right_eq_some, Option.map_eq_some_iff] at h
    obtain ⟨_, e, _, rfl⟩ := h
    exact .rests rfl rfl
  | beginRead r' =>
    simp only [step] at h
    split at h
    · cases h
    · rw [← Option.some.inj h]
      by_cases hr : r = r'
      · subst hr
        exact .begins (Function.update_self ..)
      · exact .rests (beq_false_of_ne (Ne.symm hr)) (Function.update_of_ne hr ..)
  | copyField r' f =>
    simp only [step] at h
    split at h
    · next beforeCt copy hcopy =>
      rw [← Option.some.inj h]
      by_cases hr : r = r'
      · subst hr
        exact .copies hcopy (Function.update_self ..)
      · exact .rests rfl (Function.update_of_ne hr ..)
    · cases h
  | endRead r' =>
    simp only [step] at h
    split at h
    · next beforeCt copy hcopy =>
      obtain ⟨hall, h⟩ := Option.ite_none_right_eq_some.mp h
      rw [← Option.some.inj h]
      by_cases hr : r = r'
      · subst hr
        exact .ends hcopy hall (Function.update_self ..)
      · exact .rests rfl (Function.update_of_ne hr ..)
    · cases h

/-! ## The counter's parity -/

theorem and_one_eq_zero_iff (c : BitVec 32) : c &&& 1 = 0 ↔ c.toNat % 2 = 0 := by
  have h : (c &&& 1).toNat = c.toNat % 2 := by
    rw [BitVec.toNat_and]
    exact Nat.and_one_is_mod c.toNat
  rw [← h]
  exact ⟨fun h => congrArg BitVec.toNat h, fun h => BitVec.eq_of_toNat_eq h⟩

theorem toNat_succ (c : BitVec 32) : (c + 1).toNat = (c.toNat + 1) % 4294967296 :=
  BitVec.toNat_add c 1

/-- **The counter is odd inside of sections, and even outside.** -/
def Parity (s : State Value ReaderId) : Prop :=
  s.beentry.stChangecount.toNat % 2 = s.writing.toNat

theorem parity_step (hp : Parity s) (h : step s a = some s') : Parity s' := by
  unfold Parity at hp ⊢
  cases entryStep h with
  | opens hw hw' hct =>
    rw [hct, hw', toNat_succ]
    rw [hw] at hp
    simp only [Bool.toNat_true, Bool.toNat_false] at hp ⊢
    omega
  | stores hw hw' hct => rw [hct, hw', hp, hw]
  | closes hw hw' hct =>
    rw [hct, hw', toNat_succ]
    rw [hw] at hp
    simp only [Bool.toNat_true, Bool.toNat_false] at hp ⊢
    omega
  | reads _ hw he => rw [he, hw, hp]

omit [DecidableEq Field] [Fintype Field] [DecidableEq ReaderId] in
theorem Initial.parity (h : Initial s) : Parity s := by
  unfold Parity
  rw [h.writing]
  exact (and_one_eq_zero_iff _).mp h.even

/-- The assertion of `PGSTAT_END_WRITE_ACTIVITY` never fails. -/
theorem endWrite_isSome (hp : Parity s) (hw : s.writing = true) :
    (step s .endWrite).isSome := by
  have heven : (s.beentry.stChangecount + 1) &&& 1 = 0 := by
    rw [and_one_eq_zero_iff, toNat_succ]
    unfold Parity at hp
    rw [hw, Bool.toNat_true] at hp
    omega
  simp only [step, hw, if_true, Option.isSome_map, pgstatEndWriteActivity, heven,
    Option.isSome_some]

/-! ## Along one read -/

/-- **What holds along a read** that started in state `s₁`, while no section was open.
The counter counts the sections begun since, and while there is none, the entry is what
it was, and so is all that was copied. -/
structure Reading (r : ReaderId) (s₁ : State Value ReaderId) (acts : List (Action Value ReaderId))
    (s : State Value ReaderId) : Prop where
  counter : (s.beentry.stChangecount.toNat + s.writing.toNat) % 4294967296
    = (s₁.beentry.stChangecount.toNat + 2 * acts.countP Action.isBeginWrite) % 4294967296
  quiet : acts.countP Action.isBeginWrite = 0 →
    s.writing = false ∧ s.beentry.fields = s₁.beentry.fields
  copied : acts.countP Action.isBeginWrite = 0 → ∀ beforeCt copy,
    s.readers r = .copying beforeCt copy → ∀ f v, copy f = some v → v = s₁.beentry.fields f

section Step

variable {r : ReaderId} {s₁ : State Value ReaderId} {acts : List (Action Value ReaderId)}

omit [DecidableEq Field] [Fintype Field] [DecidableEq ReaderId] in
theorem countP_concat (acts : List (Action Value ReaderId)) (a : Action Value ReaderId) :
    (acts ++ [a]).countP Action.isBeginWrite =
      acts.countP Action.isBeginWrite + if a.isBeginWrite then 1 else 0 := by
  rw [List.countP_append, List.countP_singleton]

/-- The counter goes on counting: an open section has been counted once, and a closed one
twice. -/
theorem Reading.counter_step (hs : Reading r s₁ acts s) (h : step s a = some s') :
    (s'.beentry.stChangecount.toNat + s'.writing.toNat) % 4294967296 =
      (s₁.beentry.stChangecount.toNat + 2 * (acts ++ [a]).countP Action.isBeginWrite)
        % 4294967296 := by
  have hcounter := hs.counter
  rw [countP_concat]
  cases entryStep h with
  | opens hw hw' hct =>
    rw [hct, hw', toNat_succ]
    rw [hw] at hcounter
    simp only [Action.isBeginWrite, if_true, Bool.toNat_true, Bool.toNat_false] at hcounter ⊢
    omega
  | stores hw hw' hct =>
    rw [hct, hw']
    rw [hw] at hcounter
    simp only [Action.isBeginWrite, Bool.false_eq_true, if_false, Nat.add_zero]
    exact hcounter
  | closes hw hw' hct =>
    rw [hct, hw', toNat_succ]
    rw [hw] at hcounter
    simp only [Action.isBeginWrite, Bool.false_eq_true, if_false, Bool.toNat_true,
      Bool.toNat_false] at hcounter ⊢
    omega
  | reads ha hw he =>
    rw [ha, he, hw]
    simp only [Bool.false_eq_true, if_false, Nat.add_zero]
    exact hcounter

/-- Where no section begins, none is open, and the entry does not change. -/
theorem Reading.quiet_step (hs : Reading r s₁ acts s) (h : step s a = some s')
    (hn : (acts ++ [a]).countP Action.isBeginWrite = 0) :
    s'.writing = false ∧ s'.beentry.fields = s₁.beentry.fields := by
  rw [countP_concat] at hn
  obtain ⟨hquiet, hfields⟩ := hs.quiet (Nat.add_eq_zero_iff.mp hn).1
  cases entryStep h with
  | opens hw hw' hct hf => simp [Action.isBeginWrite] at hn
  | stores hw hw' hct => exact absurd (hw.symm.trans hquiet) (by decide)
  | closes hw hw' hct => exact absurd (hw.symm.trans hquiet) (by decide)
  | reads ha hw he => exact ⟨hw.trans hquiet, by rw [he, hfields]⟩

/-- And so what is copied is what the entry was. -/
theorem Reading.copied_step (hs : Reading r s₁ acts s) (ha : a.isBeginRead r = false)
    (h : step s a = some s') (hn : (acts ++ [a]).countP Action.isBeginWrite = 0)
    {beforeCt : BitVec 32} {copy : Copy Value} (hcopy : s'.readers r = .copying beforeCt copy) :
    ∀ f v, copy f = some v → v = s₁.beentry.fields f := by
  intro f v hv
  rw [countP_concat] at hn
  have hn' : acts.countP Action.isBeginWrite = 0 := (Nat.add_eq_zero_iff.mp hn).1
  cases readerStep r h with
  | begins hr => exact absurd ha (by simp [Action.isBeginRead])
  | ends hr hall hr' =>
    rw [hr'] at hcopy
    cases hcopy
  | rests _ hr => exact hs.copied hn' beforeCt copy (hr ▸ hcopy) f v hv
  | @copies _ g beforeCt' copy' hr hr' =>
    rw [hr', Reader.copying.injEq] at hcopy
    rw [← hcopy.2] at hv
    by_cases hfg : f = g
    · subst hfg
      rw [Function.update_self, (hs.quiet hn').2] at hv
      exact (Option.some.inj hv).symm
    · rw [Function.update_of_ne hfg] at hv
      exact hs.copied hn' _ _ hr f v hv

theorem reading_step (hs : Reading r s₁ acts s) (ha : a.isBeginRead r = false)
    (h : step s a = some s') : Reading r s₁ (acts ++ [a]) s' :=
  ⟨hs.counter_step h, hs.quiet_step h, fun hn _ _ hcopy => hs.copied_step ha h hn hcopy⟩

end Step

theorem reading_run {r : ReaderId} {s₁ : State Value ReaderId} (hw : s₁.writing = false)
    (hr : s₁.readers r = .copying s₁.beentry.stChangecount fun _ => none)
    {acts : List (Action Value ReaderId)} (hacts : ∀ a ∈ acts, a.isBeginRead r = false)
    (hrun : Run.run step s₁ acts = some s) : Reading r s₁ acts s := by
  refine Run.run_induction
    (P := fun acts s => (∀ a ∈ acts, a.isBeginRead r = false) → Reading r s₁ acts s)
    (fun _ => ⟨?_, fun _ => ⟨hw, rfl⟩, ?_⟩) (fun as s a s' _ hs ha hno => ?_) hrun hacts
  · rw [hw]
    rfl
  · intro _ beforeCt copy hcopy f v hv
    rw [hr, Reader.copying.injEq] at hcopy
    rw [← hcopy.2] at hv
    cases hv
  · rw [List.forall_mem_append] at hno
    exact reading_step (hs hno.1) (hno.2 a (List.mem_singleton_self a)) ha

/-! ## Where a read was -/

/-- **A read of reader `r` in a run**: the run before it and its beginning lead to `s₁`,
the steps since to `s`; the reader has noted the counter of `s₁`. -/
structure IsRead (s₀ : State Value ReaderId) (r : ReaderId)
    (pre mid : List (Action Value ReaderId)) (s₁ s : State Value ReaderId) : Prop where
  before : Run.run step s₀ (pre ++ [.beginRead r]) = some s₁
  start : s₁.readers r = .copying s₁.beentry.stChangecount fun _ => none
  during : Run.run step s₁ mid = some s
  last : ∀ a ∈ mid, a.isBeginRead r = false

/-- **The last read of reader `r` is somewhere in the run**: the one it is at is up to the
end, and one it has finished ends in the run, with no other read of the same reader
after it. -/
def LastRead (s₀ : State Value ReaderId) (r : ReaderId) (acts : List (Action Value ReaderId))
    (s : State Value ReaderId) : Prop :=
  match s.readers r with
  | .idle => True
  | .copying beforeCt _ => ∃ pre mid s₁, acts = pre ++ .beginRead r :: mid ∧
      IsRead s₀ r pre mid s₁ s ∧ beforeCt = s₁.beentry.stChangecount
  | .finished beforeCt afterCt copy => ∃ pre mid post s₁ s₂,
      acts = pre ++ .beginRead r :: (mid ++ .endRead r :: post) ∧ IsRead s₀ r pre mid s₁ s₂ ∧
      beforeCt = s₁.beentry.stChangecount ∧ afterCt = s₂.beentry.stChangecount ∧
      s₂.readers r = .copying beforeCt copy ∧ (∀ f, (copy f).isSome) ∧
      ∀ a ∈ post, a.isBeginRead r = false

/-- A read goes on with what is no beginning of another one. -/
theorem IsRead.concat {s₀ s₁ : State Value ReaderId} {r : ReaderId}
    {pre mid : List (Action Value ReaderId)} {a : Action Value ReaderId}
    (hread : IsRead s₀ r pre mid s₁ s) (hno : a.isBeginRead r = false) (ha : step s a = some s') :
    IsRead s₀ r pre (mid ++ [a]) s₁ s' where
  before := hread.before
  start := hread.start
  during := Run.run_concat hread.during ha
  last := List.forall_mem_append.mpr ⟨hread.last, fun _ hb => (List.mem_singleton.mp hb) ▸ hno⟩

theorem lastRead_step {s₀ : State Value ReaderId} {r : ReaderId}
    {acts : List (Action Value ReaderId)} {a : Action Value ReaderId}
    (hrun : Run.run step s₀ acts = some s) (hs : LastRead s₀ r acts s) (ha : step s a = some s') :
    LastRead s₀ r (acts ++ [a]) s' := by
  unfold LastRead at hs ⊢
  cases readerStep r ha with
  | begins hr =>
    have he : s'.beentry = s.beentry := by
      cases entryStep ha with
      | reads _ _ he => exact he
    rw [hr]
    exact ⟨acts, [], s', rfl, ⟨Run.run_concat hrun ha, he ▸ hr, rfl, fun a h => nomatch h⟩,
      congrArg PgBackendStatus.stChangecount he.symm⟩
  | copies hr hr' =>
    rw [hr] at hs
    rw [hr']
    obtain ⟨pre, mid, s₁, rfl, hread, hb⟩ := hs
    exact ⟨pre, _, s₁, List.append_assoc .., hread.concat rfl ha, hb⟩
  | ends hr hall hr' =>
    rw [hr] at hs
    rw [hr']
    obtain ⟨pre, mid, s₁, rfl, hread, hb⟩ := hs
    exact ⟨pre, mid, [], s₁, s, List.append_assoc .., hread, hb, rfl, hr, hall,
      fun a h => nomatch h⟩
  | rests hno hr =>
    rw [hr]
    cases hcase : s.readers r with
    | idle => trivial
    | copying beforeCt copy =>
      rw [hcase] at hs
      obtain ⟨pre, mid, s₁, rfl, hread, hb⟩ := hs
      exact ⟨pre, _, s₁, List.append_assoc .., hread.concat hno ha, hb⟩
    | finished beforeCt afterCt copy =>
      rw [hcase] at hs
      obtain ⟨pre, mid, post, s₁, s₂, rfl, hread, hb, haft, hr₂, hall, hpost⟩ := hs
      refine ⟨pre, mid, post ++ [a], s₁, s₂, ?_, hread, hb, haft, hr₂, hall,
        List.forall_mem_append.mpr ⟨hpost, fun b hb => (List.mem_singleton.mp hb) ▸ hno⟩⟩
      rw [List.append_assoc, List.cons_append, List.append_assoc, List.cons_append]

/-- **In every run it is.** -/
theorem lastRead_run {s₀ : State Value ReaderId} {r : ReaderId} (h₀ : s₀.readers r = .idle)
    {acts : List (Action Value ReaderId)} (hrun : Run.run step s₀ acts = some s) :
    LastRead s₀ r acts s := by
  refine Run.run_induction (P := LastRead s₀ r) ?_
    (fun as s a s' has hs ha => lastRead_step has hs ha) hrun
  unfold LastRead
  rw [h₀]
  trivial

/-- **A completed read saw the entry as it was at one instant.** In every run, a reader
whose last read is complete holds in every field what the entry held at some instant of
that read, at which no write section was open – provided that fewer than `2 ^ 31`
sections began during it. -/
theorem read_consistent {s₀ : State Value ReaderId} (h₀ : Initial s₀)
    {acts : List (Action Value ReaderId)} (hrun : Run.run step s₀ acts = some s) {r : ReaderId}
    {beforeCt afterCt : BitVec 32} {copy : Copy Value}
    (hr : s.readers r = .finished beforeCt afterCt copy)
    (hcomplete : pgstatReadActivityComplete beforeCt afterCt = true) :
    ∃ pre mid post, acts = pre ++ .beginRead r :: (mid ++ .endRead r :: post) ∧
      (∀ a ∈ mid ++ post, a.isBeginRead r = false) ∧
      (mid.countP Action.isBeginWrite < 2 ^ 31 →
        ∃ mid₁ mid₂ t, mid = mid₁ ++ mid₂ ∧
          Run.run step s₀ (pre ++ .beginRead r :: mid₁) = some t ∧ t.writing = false ∧
          ∀ f, copy f = some (t.beentry.fields f)) := by
  have hread := lastRead_run (h₀.readers r) hrun
  unfold LastRead at hread
  rw [hr] at hread
  obtain ⟨pre, mid, post, s₁, s₂, rfl, hread, hb, haft, hr₂, hall, hpost⟩ := hread
  refine ⟨pre, mid, post, rfl, List.forall_mem_append.mpr ⟨hread.last, hpost⟩, fun hlt => ?_⟩
  have hparity : ∀ {acts t}, Run.run step s₀ acts = some t → Parity t := fun h =>
    Run.run_invariant (I := Parity) (fun _ _ _ hp ha => parity_step hp ha) h₀.parity h
  have hrun₂ : Run.run step s₀ (pre ++ [.beginRead r] ++ mid) = some s₂ := by
    rw [Run.run_append, hread.before]
    exact hread.during
  have hp₁ : Parity s₁ := hparity hread.before
  have hp₂ : Parity s₂ := hparity hrun₂
  unfold pgstatReadActivityComplete at hcomplete
  rw [Bool.and_eq_true, beq_iff_eq, beq_iff_eq, and_one_eq_zero_iff, hb, haft] at hcomplete
  -- the counter was even at both ends, so no section was open there
  have hw₁ : s₁.writing = false := by
    unfold Parity at hp₁
    exact Bool.toNat_eq_zero.mp (hp₁.symm.trans hcomplete.2)
  have hw₂ : s₂.writing = false := by
    unfold Parity at hp₂
    exact Bool.toNat_eq_zero.mp (hp₂.symm.trans (hcomplete.1 ▸ hcomplete.2))
  have hreading := reading_run hw₁ hread.start hread.last hread.during
  -- and it counted no section, as it cannot have come round
  have hquiet : mid.countP Action.isBeginWrite = 0 := by
    have hcounter := hreading.counter
    rw [hw₂, ← hcomplete.1, Bool.toNat_false] at hcounter
    omega
  refine ⟨[], mid, s₁, rfl, hread.before, hw₁, fun f => ?_⟩
  obtain ⟨v, hv⟩ := Option.isSome_iff_exists.mp (hall f)
  rw [hv, hreading.copied hquiet beforeCt copy hr₂ f v hv]

/-- An entry with two fields, of which none has been written yet. -/
def emptyEntry : State (fun _ : Bool => ℕ) Unit := ⟨⟨0, fun _ => 0⟩, false, fun _ => .idle⟩

/-- A reader, and a section that it finds open. -/
def overlapping : List (Action (fun _ : Bool => ℕ) Unit) :=
  [.beginRead (), .copyField () true, .beginWrite, .store true 5, .store false 7,
    .copyField () false, .endWrite, .endRead (), .beginRead (), .copyField () true,
    .copyField () false, .endRead (), .beginWrite, .store true 6]

/-- A section that stores into both fields between the copies of a reader, which then reads
again, and another section that is open after that. -/
theorem read_consistent_pair :
    ∃ pre mid post, overlapping = pre ++ .beginRead () :: (mid ++ .endRead () :: post) ∧
      (∀ a ∈ mid ++ post, a.isBeginRead () = false) ∧
      (mid.countP Action.isBeginWrite < 2 ^ 31 → ∃ mid₁ mid₂ t, mid = mid₁ ++ mid₂ ∧
        Run.run step emptyEntry (pre ++ .beginRead () :: mid₁) = some t ∧ t.writing = false ∧
        ∀ f, some (if f then 5 else 7) = some (t.beentry.fields f)) := by
  obtain ⟨s, hs⟩ : ∃ s, Run.run step emptyEntry overlapping = some s := ⟨_, rfl⟩
  have hr : s.readers () = .finished 2 2 fun f => some (if f then 5 else 7) := by
    rw [← Option.some.inj hs]
    refine congrArg (Reader.finished 2 2) (funext fun f => ?_)
    cases f <;> rfl
  exact read_consistent ⟨rfl, rfl, fun _ => rfl⟩ hs hr rfl

end BackendStatus
