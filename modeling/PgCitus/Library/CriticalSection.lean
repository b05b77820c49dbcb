import Mathlib.Logic.Function.Basic
import Mathlib.Logic.Relation
import PgCitus.Library.Run

/-!
# Critical sections behind a lock that is one word

Processes that share data and a word. Each may enter a section: it tries to get the lock,
again and again until it does or its patience is at an end, runs the section, and releases
the lock. An attempt is a few accesses to the word, a section a few accesses to the data; an
access reads, and stores what it makes of that, at once, and between two accesses anything
may happen. A process whose patience is at an end gives up, and does nothing any more.

A lock is sound (`Lock.Sound`) if the words are free or held, an attempt leaves them so
unless it gets the lock, and releasing a held word frees it. Then no two processes are in
their sections (`exclusive`), and what becomes of the data is what a serial execution of
the sections makes of it, in the order in which the lock was got (`serializable`); and
while nobody holds the lock, a process that runs alone gets it, unless it gives up at the end
of an attempt that has failed before (`gets_lock`).
-/

namespace CriticalSection

variable {W σ D Pid : Type*}

/-- **An attempt to get a lock**, and whether it succeeded. -/
inductive Attempt (W : Type*)
  | done (ok : Bool)
  | access (store : W → W) (k : W → Attempt W)

/-- **A section.** What it stores, and how it goes on, depends on what it has read. -/
inductive Section (σ : Type*)
  | done
  | access (store : σ → σ) (k : σ → Section σ)

/-- What a section makes of the data when nothing comes in between. -/
def Section.run : Section σ → σ → σ
  | done, d => d
  | access store k, d => (k d).run (store d)

/-- **A lock**: the first attempt to get it, and all the others. -/
structure Lock (W : Type*) where
  init : W
  first : Attempt W
  again : Attempt W
  release : W → W
  isFree : W → Bool

/-- **How long a process waits.** What it keeps of the attempts it has waited after, and
whether it waits once more or gives up. The first attempt is made before that. -/
structure Patience (D : Type*) where
  init : D
  wait : D → Option D

/-! ## Processes -/

/-- What a process does. -/
inductive Proc (W σ D : Type*)
  | idle
  /-- `d` is there after the first attempt. -/
  | acquiring (b : Section σ) (a : Attempt W) (d : Option D)
  | inside (b : Section σ)
  | gaveUp (b : Section σ)

/-- The word, the data, the processes, and the sections in the order in which their processes
got the lock. -/
structure State (W σ D Pid : Type*) where
  word : W
  data : σ
  procs : Pid → Proc W σ D
  order : List (Pid × Section σ)

/-- Nobody does anything. -/
def start (l : Lock W) (d₀ : σ) : State W σ D Pid := ⟨l.init, d₀, fun _ => .idle, []⟩

/-- A process wants to enter a section, or goes one step on. -/
inductive Action (σ Pid : Type*)
  | enter (i : Pid) (b : Section σ)
  | step (i : Pid)

/-- A process after an attempt that failed. -/
def Proc.again (l : Lock W) (patience : Patience D) (b : Section σ) : Option D → Proc W σ D
  | none => .acquiring b l.again (some patience.init)
  | some d => (patience.wait d).elim (.gaveUp b) fun d' => .acquiring b l.again (some d')

/-- **One action.** It is refused if the process is not where it would take it. -/
def step [DecidableEq Pid] (l : Lock W) (patience : Patience D) (s : State W σ D Pid) :
    Action σ Pid → Option (State W σ D Pid)
  | .enter i b =>
    match s.procs i with
    | .idle => some { s with procs := Function.update s.procs i (.acquiring b l.first none) }
    | _ => none
  | .step i =>
    match s.procs i with
    | .idle => none
    | .acquiring b (.access store k) d => some { s with
        word := store s.word
        procs := Function.update s.procs i (.acquiring b (k s.word) d) }
    | .acquiring b (.done false) d =>
      some { s with procs := Function.update s.procs i (.again l patience b d) }
    | .acquiring b (.done true) _ => some { s with
        procs := Function.update s.procs i (.inside b)
        order := s.order ++ [(i, b)] }
    | .inside (.access store k) => some { s with
        data := store s.data
        procs := Function.update s.procs i (.inside (k s.data)) }
    | .inside .done => some { s with
        word := l.release s.word
        procs := Function.update s.procs i .idle }
    | .gaveUp _ => none

/-! ## Sound locks -/

/-- An attempt leaves a held word held and a free one free, unless it gets the lock: then the
free word is held, and there is nothing more to do. -/
def Attempt.Sound (free held : W → Prop) : Attempt W → Prop
  | done ok => ok = false
  | access store k =>
    (∀ w, held w → held (store w) ∧ (k w).Sound free held) ∧
      ∀ w, free w → (free (store w) ∧ (k w).Sound free held) ∨ (held (store w) ∧ k w = .done true)

/-- What an attempt makes of the word when nothing comes in between, and whether it
succeeds. -/
def Attempt.run : Attempt W → W → W × Bool
  | done ok, w => (w, ok)
  | access store k, w => (k w).run (store w)

/-- **A sound lock.** -/
structure Lock.Sound (l : Lock W) (free held : W → Prop) : Prop where
  init : free l.init
  first : l.first.Sound free held
  again : l.again.Sound free held
  release : ∀ w, held w → free (l.release w)
  isFree_free : ∀ w, free w → l.isFree w = true
  isFree_held : ∀ w, held w → l.isFree w = false
  /-- An attempt that runs alone gets a lock that is free. -/
  alone : ∀ w, free w → (l.again.run w).2 = true

/-- A process holds the lock: it has just got it, or is in its section. -/
def Proc.Holds : Proc W σ D → Prop
  | acquiring _ (.done true) _ | inside _ => True
  | _ => False

/-- What is still to be done to the data. -/
def Proc.rest : Proc W σ D → σ → σ
  | inside b, d => b.run d
  | _, d => d

/-- **A serial execution** of sections. -/
def serial (d₀ : σ) (order : List (Pid × Section σ)) : σ := order.foldl (fun d c => c.2.run d) d₀

theorem serial_concat (d₀ : σ) (order : List (Pid × Section σ)) (c : Pid × Section σ) :
    serial d₀ (order ++ [c]) = c.2.run (serial d₀ order) := by
  unfold serial
  rw [List.foldl_append]
  rfl

/-- **What holds along a run**: the word is free and nobody holds the lock, or it is held and
somebody does, and nobody else. -/
structure Inv (free held : W → Prop) (d₀ : σ) (s : State W σ D Pid) : Prop where
  attempts : ∀ i b a d, s.procs i = .acquiring b a d → a = .done true ∨ a.Sound free held
  holder : (free s.word ∧ (∀ i, ¬ (s.procs i).Holds) ∧ s.data = serial d₀ s.order) ∨
    (held s.word ∧ ∃ i, (s.procs i).Holds ∧ (∀ j, (s.procs j).Holds → j = i) ∧
      (s.procs i).rest s.data = serial d₀ s.order)

/-- The sections that a process has entered, or wants to. -/
def entered [DecidableEq Pid] (i : Pid) (as : List (Action σ Pid)) : List (Section σ) :=
  as.filterMap fun
    | .enter j b => if j = i then some b else none
    | .step _ => none

/-- The sections of a process, of those in an order. -/
def sectionsOf [DecidableEq Pid] (i : Pid) (order : List (Pid × Section σ)) : List (Section σ) :=
  order.filterMap fun c => if c.1 = i then some c.2 else none

/-- The section that a process waits for, or gave up to wait for. -/
def Proc.waiting : Proc W σ D → List (Section σ)
  | acquiring b _ _ | gaveUp b => [b]
  | _ => []

section Steps

variable {free held : W → Prop} {d₀ : σ} {l : Lock W} {patience : Patience D}
  {s s' : State W σ D Pid} {i : Pid}

/-- A process tries again, or its patience is at an end. -/
theorem Proc.again_cases (l : Lock W) (patience : Patience D) (b : Section σ) (d : Option D) :
    (∃ d', Proc.again l patience b d = .acquiring b l.again (some d')) ∨
      (Proc.again l patience b d = .gaveUp b ∧ ∃ d', d = some d' ∧ patience.wait d' = none) := by
  cases d with
  | none => exact Or.inl ⟨_, rfl⟩
  | some d =>
    show (∃ d', (patience.wait d).elim _ _ = _) ∨ ((patience.wait d).elim _ _ = _ ∧ _)
    cases h : patience.wait d with
    | none => exact Or.inr ⟨rfl, d, rfl, h⟩
    | some d' => exact Or.inl ⟨d', rfl⟩

/-- A process that is still trying does not hold the lock. -/
theorem Attempt.Sound.not_holds {a : Attempt W} (h : a.Sound free held) (b : Section σ)
    (d : Option D) : ¬ (Proc.acquiring b a d).Holds := by
  cases a with
  | done ok =>
    cases ok with
    | false => exact id
    | true => exact absurd h nofun
  | access store k => exact id

/-- The process that holds the lock is the only one, and the word is held. -/
theorem Inv.holds (h : Inv free held d₀ s) (hi : (s.procs i).Holds) :
    held s.word ∧ (∀ j, (s.procs j).Holds → j = i) ∧
      (s.procs i).rest s.data = serial d₀ s.order := by
  rcases h.holder with ⟨-, hnone, -⟩ | ⟨hheld, i₀, -, huniq, hrest⟩
  · exact absurd hi (hnone i)
  · obtain rfl := huniq i hi
    exact ⟨hheld, huniq, hrest⟩

theorem inv_start (hl : l.Sound free held) (d₀ : σ) :
    Inv free held d₀ (start l d₀ : State W σ D Pid) where
  attempts _ _ _ _ h := nomatch h
  holder := Or.inl ⟨hl.init, fun _ => id, rfl⟩

variable [DecidableEq Pid]

/-- Where the attempts are after one process went on. -/
theorem Inv.attempts_update (h : Inv free held d₀ s) {p : Proc W σ D}
    (hp : ∀ b a d, p = .acquiring b a d → a = .done true ∨ a.Sound free held) (j : Pid)
    (b : Section σ) (a : Attempt W) (d : Option D)
    (hj : Function.update s.procs i p j = .acquiring b a d) :
    a = .done true ∨ a.Sound free held := by
  by_cases hji : j = i
  · rw [hji, Function.update_self] at hj
    exact hp b a d hj
  · rw [Function.update_of_ne hji] at hj
    exact h.attempts j b a d hj

/-- A process that does not hold the lock goes on and does not get it. -/
theorem Inv.quiet (h : Inv free held d₀ s) (hi : ¬ (s.procs i).Holds) {p : Proc W σ D} {w : W}
    (hp : ¬ p.Holds) (ha : ∀ b a d, p = .acquiring b a d → a = .done true ∨ a.Sound free held)
    (hfree : (∀ j, ¬ (s.procs j).Holds) → free s.word → free w) (hheld : held s.word → held w) :
    Inv free held d₀ { s with word := w, procs := Function.update s.procs i p } := by
  refine ⟨h.attempts_update ha, ?_⟩
  have hupdate (j : Pid) : (Function.update s.procs i p j).Holds ↔ (s.procs j).Holds := by
    by_cases hji : j = i
    · rw [hji, Function.update_self]
      exact iff_of_false hp hi
    · rw [Function.update_of_ne hji]
  rcases h.holder with ⟨hw, hnone, hdata⟩ | ⟨hw, i₀, hholds, huniq, hrest⟩
  · exact Or.inl ⟨hfree hnone hw, fun j hj => hnone j ((hupdate j).mp hj), hdata⟩
  · refine Or.inr ⟨hheld hw, i₀, (hupdate i₀).mpr hholds, fun j hj => huniq j ((hupdate j).mp hj),
      ?_⟩
    have hne : i₀ ≠ i := by
      rintro rfl
      exact hi hholds
    show (Function.update s.procs i p i₀).rest s.data = _
    rw [Function.update_of_ne hne]
    exact hrest

/-- A process that nobody keeps from it holds the lock now. -/
theorem inv_holder {p : Proc W σ D} {w : W} {d : σ} {order : List (Pid × Section σ)}
    (h : Inv free held d₀ s) (hothers : ∀ j, (s.procs j).Holds → j = i) (hp : p.Holds)
    (ha : ∀ b a d, p = .acquiring b a d → a = .done true ∨ a.Sound free held) (hw : held w)
    (hrest : p.rest d = serial d₀ order) :
    Inv free held d₀ ⟨w, d, Function.update s.procs i p, order⟩ := by
  refine ⟨h.attempts_update ha, Or.inr ⟨hw, i, ?_, fun j hj => ?_, ?_⟩⟩
  · show (Function.update s.procs i p i).Holds
    rwa [Function.update_self]
  · by_contra hji
    have hj' : (Function.update s.procs i p j).Holds := hj
    rw [Function.update_of_ne hji] at hj'
    exact hji (hothers j hj')
  · show (Function.update s.procs i p i).rest d = _
    rwa [Function.update_self]

/-- **Every action keeps the invariant.** -/
theorem Inv.step (hl : l.Sound free held) (h : Inv free held d₀ s) {a : Action σ Pid}
    (hs : step l patience s a = some s') : Inv free held d₀ s' := by
  cases a with
  | enter i b =>
    simp only [CriticalSection.step] at hs
    split at hs
    · rename_i hidle
      obtain rfl := Option.some.inj hs
      refine h.quiet (by rw [hidle]; exact id) (hl.first.not_holds b none) ?_ (fun _ => id) id
      rintro _ _ _ ⟨⟩
      exact Or.inr hl.first
    · exact nomatch hs
  | step i =>
    simp only [CriticalSection.step] at hs
    split at hs
    · exact nomatch hs
    · -- an access to the word
      rename_i b store k d hi
      obtain rfl := Option.some.inj hs
      have hsound : (Attempt.access store k).Sound free held :=
        (h.attempts i b _ d hi).resolve_left nofun
      have hnot : ¬ (s.procs i).Holds := by
        rw [hi]
        exact id
      rcases h.holder with ⟨hw, hnone, hdata⟩ | ⟨hw, i₀, hholds, -, -⟩
      · rcases hsound.2 s.word hw with ⟨hfree, hk⟩ | ⟨hheld, hk⟩
        · refine h.quiet hnot (hk.not_holds b d) ?_ (fun _ _ => hfree) fun hw => (hsound.1 _ hw).1
          rintro _ _ _ ⟨⟩
          exact Or.inr hk
        · rw [hk]
          refine inv_holder h (fun j hj => absurd hj (hnone j)) trivial ?_ hheld hdata
          rintro _ _ _ ⟨⟩
          exact Or.inl rfl
      · have hk := (hsound.1 s.word hw).2
        refine h.quiet hnot (hk.not_holds b d) ?_ (fun hnone => absurd hholds (hnone i₀))
          fun hw => (hsound.1 _ hw).1
        rintro _ _ _ ⟨⟩
        exact Or.inr hk
    · -- another attempt, or none any more
      rename_i b d hi
      obtain rfl := Option.some.inj hs
      obtain ⟨d', hagain⟩ | ⟨hgaveUp, -⟩ := Proc.again_cases l patience b d
      · rw [hagain]
        refine h.quiet (by rw [hi]; exact id) (hl.again.not_holds b _) ?_ (fun _ => id) id
        rintro _ _ _ ⟨⟩
        exact Or.inr hl.again
      · rw [hgaveUp]
        exact h.quiet (by rw [hi]; exact id) id nofun (fun _ => id) id
    · -- the process has got the lock
      rename_i b d hi
      obtain rfl := Option.some.inj hs
      obtain ⟨hw, huniq, hrest⟩ := h.holds (show (s.procs i).Holds by rw [hi]; trivial)
      rw [hi] at hrest
      refine inv_holder h huniq trivial nofun hw ?_
      rw [serial_concat, ← hrest]
      rfl
    · -- an access to the data
      rename_i store k hi
      obtain rfl := Option.some.inj hs
      obtain ⟨hw, huniq, hrest⟩ := h.holds (show (s.procs i).Holds by rw [hi]; trivial)
      rw [hi] at hrest
      exact inv_holder h huniq trivial nofun hw hrest
    · -- the lock is released
      rename_i hi
      obtain rfl := Option.some.inj hs
      obtain ⟨hw, huniq, hrest⟩ := h.holds (show (s.procs i).Holds by rw [hi]; trivial)
      rw [hi] at hrest
      refine ⟨h.attempts_update nofun, Or.inl ⟨hl.release _ hw, fun j hj => ?_, hrest⟩⟩
      by_cases hji : j = i
      · rw [hji] at hj
        have hj' : (Function.update s.procs i Proc.idle i).Holds := hj
        rw [Function.update_self] at hj'
        exact hj'
      · have hj' : (Function.update s.procs i Proc.idle j).Holds := hj
        rw [Function.update_of_ne hji] at hj'
        exact hji (huniq j hj')
    · exact nomatch hs

/-- **Along every run.** -/
theorem inv_of_run (hl : l.Sound free held) {as : List (Action σ Pid)}
    (h : Run.run (CriticalSection.step l patience) (start l d₀) as = some s) : Inv free held d₀ s :=
  Run.run_invariant (fun _ _ _ hs ha => hs.step hl ha) (inv_start hl d₀) h

/-- **Mutual exclusion.** -/
theorem exclusive (hl : l.Sound free held) {as : List (Action σ Pid)}
    (h : Run.run (CriticalSection.step l patience) (start l d₀) as = some s) {j : Pid}
    (hi : (s.procs i).Holds) (hj : (s.procs j).Holds) : i = j :=
  (((inv_of_run hl h).holds hj).2.1 i hi)

/-- **Serializability.** What the process that holds the lock has still to do makes of the data
what the serial execution makes of it; when nobody does, the data is that. -/
theorem serializable (hl : l.Sound free held) {as : List (Action σ Pid)}
    (h : Run.run (CriticalSection.step l patience) (start l d₀) as = some s) :
    (l.isFree s.word = true ∧ (∀ i, ¬ (s.procs i).Holds) ∧ s.data = serial d₀ s.order) ∨
    (l.isFree s.word = false ∧ ∃ i, (s.procs i).Holds ∧
      (s.procs i).rest s.data = serial d₀ s.order) := by
  rcases (inv_of_run hl h).holder with ⟨hw, hnone, hdata⟩ | ⟨hw, i, hi, -, hrest⟩
  · exact Or.inl ⟨hl.isFree_free _ hw, hnone, hdata⟩
  · exact Or.inr ⟨hl.isFree_held _ hw, i, hi, hrest⟩

/-- What processes wait for, where one of them goes on and waits for the same. -/
theorem waiting_update {procs : Pid → Proc W σ D} {k : Pid} {p : Proc W σ D}
    (hp : p.waiting = (procs k).waiting) (i : Pid) :
    (Function.update procs k p i).waiting = (procs i).waiting := by
  by_cases hik : i = k
  · rw [hik, Function.update_self, hp]
  · rw [Function.update_of_ne hik]

theorem entered_concat (i : Pid) (as : List (Action σ Pid)) (a : Action σ Pid) :
    entered i (as ++ [a]) = entered i as ++ entered i [a] := List.filterMap_append

/-- **No section is lost, and none comes twice.** In the order are the sections of a process in
the order in which it entered them, up to one that it waits for. -/
theorem sectionsOf_append_waiting {as : List (Action σ Pid)}
    (h : Run.run (CriticalSection.step l patience) (start l d₀) as = some s) (i : Pid) :
    sectionsOf i s.order ++ (s.procs i).waiting = entered i as := by
  refine Run.run_induction (P := fun as s =>
    sectionsOf i s.order ++ (s.procs i).waiting = entered i as) rfl ?_ h
  intro as s a s' _ ih hs
  rw [entered_concat, ← ih]
  cases a with
  | enter k b =>
    simp only [CriticalSection.step] at hs
    split at hs
    · rename_i hidle
      obtain rfl := Option.some.inj hs
      show sectionsOf i s.order ++ (Function.update s.procs k _ i).waiting = _
      by_cases hik : k = i
      · subst hik
        rw [Function.update_self, hidle]
        simp [entered, Proc.waiting]
      · rw [Function.update_of_ne (Ne.symm hik)]
        simp [entered, hik]
    · exact nomatch hs
  | step k =>
    have hentered : entered i [(Action.step k : Action σ Pid)] = [] := rfl
    rw [hentered, List.append_nil]
    simp only [CriticalSection.step] at hs
    split at hs
    · exact nomatch hs
    · rename_i hk
      obtain rfl := Option.some.inj hs
      exact congrArg _ (waiting_update (by rw [hk]; rfl) i)
    · rename_i b d hk
      obtain rfl := Option.some.inj hs
      refine congrArg _ (waiting_update ?_ i)
      rw [hk]
      obtain ⟨d', hagain⟩ | ⟨hgaveUp, -⟩ := Proc.again_cases l patience b d
      · rw [hagain]
        rfl
      · rw [hgaveUp]
        rfl
    · -- the section that the process waited for comes into the order
      rename_i b d hk
      obtain rfl := Option.some.inj hs
      show sectionsOf i (s.order ++ [(k, b)]) ++ (Function.update s.procs k _ i).waiting = _
      by_cases hik : k = i
      · subst hik
        rw [Function.update_self, hk]
        simp [sectionsOf, Proc.waiting]
      · rw [Function.update_of_ne (Ne.symm hik)]
        simp [sectionsOf, hik]
    · rename_i hk
      obtain rfl := Option.some.inj hs
      exact congrArg _ (waiting_update (by rw [hk]; rfl) i)
    · rename_i hk
      obtain rfl := Option.some.inj hs
      exact congrArg _ (waiting_update (by rw [hk]; rfl) i)
    · exact nomatch hs

/-! ## Getting the lock -/

/-- An attempt that runs alone on a free word gets the lock, or leaves the word free. -/
theorem Attempt.Sound.run_free {a : Attempt W} (h : a.Sound free held) {w : W} (hw : free w) :
    ((a.run w).2 = true ∨ ((a.run w).2 = false ∧ free (a.run w).1)) := by
  induction a generalizing w with
  | done ok =>
    obtain rfl : ok = false := h
    exact Or.inr ⟨rfl, hw⟩
  | access store k ih =>
    rcases h.2 w hw with ⟨hfree, hk⟩ | ⟨-, hk⟩
    · exact ih w hk hfree
    · left
      show ((k w).run (store w)).2 = true
      rw [hk]
      rfl

/-- A process goes on, and nobody else does. -/
def Alone (l : Lock W) (patience : Patience D) (i : Pid) :
    State W σ D Pid → State W σ D Pid → Prop :=
  Relation.ReflTransGen fun s s' => CriticalSection.step l patience s (.step i) = some s'

theorem Alone.head {s'' : State W σ D Pid}
    (h : CriticalSection.step l patience s (.step i) = some s') (h' : Alone l patience i s' s'') :
    Alone l patience i s s'' := Relation.ReflTransGen.head h h'

/-- A process that runs alone goes through its attempt. -/
theorem run_attempt {b : Section σ} {a : Attempt W} {d : Option D}
    (hi : s.procs i = .acquiring b a d) :
    Alone l patience i s { s with
      word := (a.run s.word).1
      procs := Function.update s.procs i (.acquiring b (.done (a.run s.word).2) d) } := by
  induction a generalizing s with
  | done ok =>
    have hsame : Function.update s.procs i (.acquiring b (.done ok) d) = s.procs := by
      rw [← hi, Function.update_eq_self]
    show Alone l patience i s
      { s with procs := Function.update s.procs i (.acquiring b (.done ok) d) }
    rw [hsame]
    exact .refl
  | access store k ih =>
    let s₁ : State W σ D Pid := { s with
      word := store s.word
      procs := Function.update s.procs i (.acquiring b (k s.word) d) }
    have hstep : CriticalSection.step l patience s (.step i) = some s₁ := by
      simp only [CriticalSection.step, hi]
      rfl
    have hrest := ih s.word (s := s₁) (Function.update_self i _ s.procs)
    have hidem : Function.update s₁.procs i
        (.acquiring b (.done ((Attempt.access store k).run s.word).2) d) =
        Function.update s.procs i
          (.acquiring b (.done ((Attempt.access store k).run s.word).2) d) :=
      Function.update_idem _ _ _
    refine .head hstep ?_
    rw [← hidem]
    exact hrest

/-- A process that runs alone and whose attempt succeeds is in its section then. -/
theorem gets_lock_of_attempt {b : Section σ} {a : Attempt W} {d : Option D}
    (hi : s.procs i = .acquiring b a d) (hok : (a.run s.word).2 = true) :
    ∃ s', Alone l patience i s s' ∧ s'.procs i = .inside b := by
  have hrun : Alone l patience i s _ := run_attempt hi
  rw [hok] at hrun
  refine ⟨{ s with
    word := (a.run s.word).1
    procs := Function.update s.procs i (.inside b)
    order := s.order ++ [(i, b)] }, hrun.tail ?_, Function.update_self i _ _⟩
  simp only [CriticalSection.step, Function.update_self, Function.update_idem]

/-- **While nobody holds the lock, a process that runs alone gets it**, unless it gives up: its
patience is at an end, and the attempt that it is in has failed. -/
theorem gets_lock (hl : l.Sound free held) {as : List (Action σ Pid)}
    (h : Run.run (CriticalSection.step l patience) (start l d₀) as = some s)
    (hnone : ∀ i, ¬ (s.procs i).Holds) {b : Section σ} {a : Attempt W} {d : Option D}
    (hi : s.procs i = .acquiring b a d) :
    (∃ s', Alone l patience i s s' ∧ s'.procs i = .inside b) ∨
      ((a.run s.word).2 = false ∧ (∃ d', d = some d' ∧ patience.wait d' = none) ∧
        ∃ s', Alone l patience i s s' ∧ s'.procs i = .gaveUp b) := by
  have hinv := inv_of_run hl h
  have hsound : a.Sound free held := by
    refine (hinv.attempts i b a d hi).resolve_left ?_
    rintro rfl
    exact hnone i (by rw [hi]; trivial)
  have hw : free s.word := by
    rcases hinv.holder with ⟨hw, -, -⟩ | ⟨-, i₀, hi₀, -, -⟩
    · exact hw
    · exact absurd hi₀ (hnone i₀)
  rcases hsound.run_free hw with hok | ⟨hok, hfree⟩
  · exact Or.inl (gets_lock_of_attempt hi hok)
  · have hrun : Alone l patience i s _ := run_attempt hi
    rw [hok] at hrun
    let s₁ : State W σ D Pid := { s with
      word := (a.run s.word).1
      procs := Function.update s.procs i (.again l patience b d) }
    have hnext : Alone l patience i s s₁ := by
      refine hrun.tail ?_
      simp only [CriticalSection.step, Function.update_self, Function.update_idem]
      rfl
    have hs₁ : s₁.procs i = .again l patience b d := Function.update_self i _ _
    rcases Proc.again_cases l patience b d with ⟨d', hagain⟩ | ⟨hgaveUp, hd⟩
    · -- the next attempt succeeds
      obtain ⟨s', hs', hin⟩ := gets_lock_of_attempt (hs₁.trans hagain) (hl.alone _ hfree)
      exact Or.inl ⟨s', hnext.trans hs', hin⟩
    · exact Or.inr ⟨hok, hd, s₁, hnext, hs₁.trans hgaveUp⟩

end Steps

end CriticalSection
