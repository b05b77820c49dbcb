import Mathlib.Data.List.Perm.Basic
import Mathlib.Logic.Relation
import PgCitus.Library.Rows

/-!
# Tables with row-level triggers

A table whose rows pass through a `BEFORE INSERT OR UPDATE` trigger before they are
stored. The trigger is called for one row at a time, sees the table with the rows that
the same statement has processed already, and may raise; then come the checks on the row
and the constraints of the table, which are immediate. What a statement does is a list of
row operations, and a command may consist of several statements. If any of them raises,
the table is as it was before the command.

A row operation that succeeds leaves the new row beside the others
(`TableDef.apply_cases`). Properties of all the tables a session goes through follow from
what one row operation keeps (`Command.Keeps`, `keeps_points`); for a relation between any
two rows it is enough to compare the new row with the others (`pairwise_of_apply`).
-/

namespace RowTrigger

variable {N R E : Type*}

/-- `TG_OP`, with `OLD`. -/
inductive TgOp (R : Type*)
  | insert
  | update (old : R)

/-- **The definition of a table**: the trigger, from `NEW` and the table to the row it
returns; the checks a row must pass to be stored; the constraints. -/
structure TableDef (N R E : Type*) where
  trigger : TgOp R → N → List R → Except E N
  store : N → Except E R
  constraint : Rows.Constraint R
  violation : E

/-- What a statement does to one row. -/
inductive RowOp (N : Type*)
  | insert (new : N)
  | update (i : ℕ) (new : N)
  | delete (i : ℕ)

/-- The table with a new row, if its constraints allow it. -/
def TableDef.accept (d : TableDef N R E) (rows : List R) : Except E (List R) :=
  if d.constraint.ok rows = true then .ok rows else .error d.violation

/-- The row that is stored for `NEW`. -/
def TableDef.row (d : TableDef N R E) (op : TgOp R) (new : N) (rows : List R) : Except E R :=
  (d.trigger op new rows).bind d.store

/-- **One row operation.** -/
def TableDef.apply (d : TableDef N R E) (rows : List R) : RowOp N → Except E (List R)
  | .insert new => (d.row .insert new rows).bind fun r => d.accept (rows ++ [r])
  | .update i new =>
    match rows[i]? with
    | some old => (d.row (.update old) new rows).bind fun r => d.accept (rows.set i r)
    | none => .ok rows
  | .delete i => .ok (rows.eraseIdx i)

theorem accept_eq_ok {d : TableDef N R E} {rows rows' : List R} (h : d.accept rows = .ok rows') :
    rows' = rows ∧ d.constraint.ok rows' = true := by
  unfold TableDef.accept at h
  split at h
  · obtain rfl := Except.ok.inj h
    exact ⟨rfl, ‹_›⟩
  · exact nomatch h

/-- **What a row operation does that succeeds.** It takes rows away, or it leaves a new row,
which passed the trigger and the checks, beside the others, and the table meets its
constraints. The others are all rows, or all but the one that is updated. -/
theorem TableDef.apply_cases {d : TableDef N R E} {rows rows' : List R} {op : RowOp N}
    (h : d.apply rows op = .ok rows') :
    rows'.Sublist rows ∨
    ∃ tg new r others, d.row tg new rows = .ok r ∧ rows'.Perm (r :: others) ∧
      d.constraint.ok rows' = true ∧
      ((tg = .insert ∧ others = rows) ∨ ∃ old, tg = .update old ∧ rows.Perm (old :: others)) := by
  cases op with
  | insert new =>
    obtain ⟨r, hr, haccept⟩ := Rows.bind_eq_ok.mp h
    obtain ⟨rfl, hok⟩ := accept_eq_ok haccept
    exact Or.inr ⟨.insert, new, r, rows, hr, List.perm_append_singleton r rows, hok,
      Or.inl ⟨rfl, rfl⟩⟩
  | update i new =>
    simp only [TableDef.apply] at h
    split at h
    · rename_i old hold
      obtain ⟨hi, rfl⟩ := List.getElem?_eq_some_iff.mp hold
      obtain ⟨r, hr, haccept⟩ := Rows.bind_eq_ok.mp h
      obtain ⟨rfl, hok⟩ := accept_eq_ok haccept
      exact Or.inr ⟨.update rows[i], new, r, rows.eraseIdx i, hr,
        List.set_perm_cons_eraseIdx hi r, hok,
        Or.inr ⟨rows[i], rfl, (List.getElem_cons_eraseIdx_perm hi).symm⟩⟩
    · obtain rfl := Except.ok.inj h
      exact Or.inl (List.Sublist.refl rows)
  | delete i =>
    obtain rfl := Except.ok.inj h
    exact Or.inl (List.eraseIdx_sublist rows i)

/-! ## Commands -/

/-- **A command**: the tables that it leaves one after another, and the last one, or the
error it raises. -/
def Command (E R : Type*) := List R → List (List R) × Except E (List R)

/-- A statement: row operations one after another. -/
def TableDef.statement (d : TableDef N R E) : List (RowOp N) → Command E R
  | [], rows => ([], .ok rows)
  | op :: ops, rows =>
    match d.apply rows op with
    | .ok rows' => let (points, result) := d.statement ops rows'; (rows' :: points, result)
    | .error e => ([], .error e)

/-- A statement that finds out what to do from the table as it begins. -/
def TableDef.query (d : TableDef N R E) (ops : List R → List (RowOp N)) : Command E R :=
  fun rows => d.statement (ops rows) rows

/-- `UPDATE … SET … WHERE`: the rows that meet a condition, from a position on. -/
def updatesFrom (p : R → Bool) (set : R → N) : ℕ → List R → List (RowOp N)
  | _, [] => []
  | i, r :: rows =>
    if p r = true then .update i (set r) :: updatesFrom p set (i + 1) rows
    else updatesFrom p set (i + 1) rows

/-- `UPDATE … SET … WHERE`. -/
def TableDef.updateWhere (d : TableDef N R E) (p : R → Bool) (set : R → N) : Command E R :=
  d.query (updatesFrom p set 0)

/-- `IF … THEN RAISE`. -/
def Command.raiseIf (p : List R → Bool) (e : E) : Command E R :=
  fun rows => ([], if p rows then .error e else .ok rows)

/-- One command after another, unless the first one raises. -/
def Command.seq (c c' : Command E R) : Command E R := fun rows =>
  match c rows with
  | (points, .ok rows') => let (points', result) := c' rows'; (points ++ points', result)
  | (points, .error e) => (points, .error e)

/-- **The table after a command**, which is the table before it if it raises. -/
def Command.after (c : Command E R) (rows : List R) : List R :=
  match (c rows).2 with
  | .ok rows' => rows'
  | .error _ => rows

/-- The table after a sequence of commands. -/
def afterAll (cs : List (Command E R)) (rows : List R) : List R :=
  cs.foldl (fun rows c => c.after rows) rows

/-- **Every table of a session**, in the middle of commands and between them. -/
def points : List (Command E R) → List R → List (List R)
  | [], rows => [rows]
  | c :: cs, rows => rows :: (c rows).1 ++ points cs (c.after rows)

/-- An update of the row after the ones that were passed already. -/
theorem TableDef.apply_update_append (d : TableDef N R E) {passed rows rows' : List R} {old : R}
    {new : N} (h : d.apply (passed ++ old :: rows) (.update passed.length new) = .ok rows') :
    ∃ r, d.row (.update old) new (passed ++ old :: rows) = .ok r ∧ rows' = passed ++ r :: rows := by
  have hold : (passed ++ old :: rows)[passed.length]? = some old := by
    rw [List.getElem?_append_right (Nat.le_refl _), Nat.sub_self]
    rfl
  simp only [TableDef.apply, hold] at h
  obtain ⟨r, hr, haccept⟩ := Rows.bind_eq_ok.mp h
  refine ⟨r, hr, (accept_eq_ok haccept).1.trans ?_⟩
  rw [List.set_append_right _ _ (Nat.le_refl _), Nat.sub_self]
  rfl

/-- **What an update leaves that does not raise**: the rows it is about are changed as it
says, and the others are as they were. -/
theorem TableDef.updateWhere_eq_ok {d : TableDef N R E} {p : R → Bool} {set : R → N} {g : R → R}
    (hg : ∀ old rows r, d.row (.update old) (set old) rows = .ok r → r = g old)
    {rows rows' : List R} (h : (d.updateWhere p set rows).2 = .ok rows') :
    rows' = rows.map fun r => if p r = true then g r else r := by
  -- over the rows still to come, with those passed already in front
  suffices hfrom : ∀ (todo passed : List R),
      (d.statement (updatesFrom p set passed.length todo) (passed ++ todo)).2 = .ok rows' →
      rows' = passed ++ todo.map fun r => if p r = true then g r else r from hfrom rows [] h
  intro todo
  induction todo with
  | nil =>
    intro passed h
    exact (Except.ok.inj h).symm
  | cons old todo ih =>
    intro passed h
    have happend (r : R) (l : List R) : passed ++ r :: l = (passed ++ [r]) ++ l := by
      rw [List.append_assoc]
      rfl
    have hlen (r : R) : passed.length + 1 = (passed ++ [r]).length := by
      rw [List.length_append]
      rfl
    unfold updatesFrom at h
    rw [List.map_cons, happend]
    by_cases hp : p old = true
    · rw [if_pos hp] at h ⊢
      unfold TableDef.statement at h
      split at h
      · rename_i rows₁ hop
        obtain ⟨r, hr, rfl⟩ := d.apply_update_append hop
        rw [happend, hlen r] at h
        rw [← hg old _ r hr]
        exact ih (passed ++ [r]) h
      · exact nomatch h
    · rw [if_neg hp] at h ⊢
      rw [happend, hlen old] at h
      exact ih (passed ++ [old]) h

/-- A sequence of commands that does not raise. -/
theorem Command.seq_eq_ok {c c' : Command E R} {rows rows' : List R}
    (h : (c.seq c' rows).2 = .ok rows') :
    ∃ rows₁, (c rows).2 = .ok rows₁ ∧ (c' rows₁).2 = .ok rows' := by
  unfold Command.seq at h
  split at h
  · rename_i points rows₁ hc
    exact ⟨rows₁, congrArg Prod.snd hc, h⟩
  · exact nomatch h

/-- A check that did not raise changed nothing. -/
theorem Command.raiseIf_eq_ok {p : List R → Bool} {e : E} {rows rows' : List R}
    (h : (Command.raiseIf p e rows).2 = .ok rows') : p rows = false ∧ rows' = rows := by
  simp only [Command.raiseIf] at h
  split at h
  · exact nomatch h
  · rename_i hp
    exact ⟨Bool.eq_false_of_not_eq_true hp, (Except.ok.inj h).symm⟩

/-! ## What commands keep -/

variable {d : TableDef N R E} {I : List R → Prop}

/-- **A command keeps a property** of the table at every point, and in its result. -/
def Command.Keeps (I : List R → Prop) (c : Command E R) : Prop :=
  ∀ rows, I rows → (∀ p ∈ (c rows).1, I p) ∧ ∀ rows', (c rows).2 = .ok rows' → I rows'

/-- A statement keeps what its row operations keep. -/
theorem keeps_statement (h : ∀ rows op rows', I rows → d.apply rows op = .ok rows' → I rows')
    (ops : List (RowOp N)) : Command.Keeps I (d.statement ops) := by
  induction ops with
  | nil =>
    intro rows hI
    refine ⟨fun p hp => absurd hp List.not_mem_nil, fun rows' hr => ?_⟩
    exact Except.ok.inj hr ▸ hI
  | cons op ops ih =>
    intro rows hI
    unfold TableDef.statement
    split
    · rename_i rows₁ hop
      have hI₁ := h rows op rows₁ hI hop
      obtain ⟨hpoints, hresult⟩ := ih rows₁ hI₁
      refine ⟨fun p hp => ?_, hresult⟩
      rcases List.mem_cons.mp hp with rfl | hp
      · exact hI₁
      · exact hpoints p hp
    · exact ⟨fun p hp => absurd hp List.not_mem_nil, fun _ hr => nomatch hr⟩

theorem keeps_query (h : ∀ rows op rows', I rows → d.apply rows op = .ok rows' → I rows')
    (ops : List R → List (RowOp N)) : Command.Keeps I (d.query ops) :=
  fun rows => keeps_statement h (ops rows) rows

theorem keeps_raiseIf (p : List R → Bool) (e : E) : Command.Keeps I (Command.raiseIf p e) := by
  intro rows hI
  refine ⟨fun p hp => absurd hp List.not_mem_nil, fun rows' hr => ?_⟩
  simp only [Command.raiseIf] at hr
  split at hr
  · exact nomatch hr
  · exact Except.ok.inj hr ▸ hI

theorem Command.Keeps.seq {c c' : Command E R} (h : c.Keeps I) (h' : c'.Keeps I) :
    (c.seq c').Keeps I := by
  intro rows hI
  obtain ⟨hpoints, hresult⟩ := h rows hI
  unfold Command.seq
  split
  · rename_i points rows₁ hc
    rw [hc] at hpoints hresult
    obtain ⟨hpoints', hresult'⟩ := h' rows₁ (hresult rows₁ rfl)
    refine ⟨fun p hp => ?_, hresult'⟩
    rcases List.mem_append.mp hp with hp | hp
    · exact hpoints p hp
    · exact hpoints' p hp
  · rename_i points e hc
    rw [hc] at hpoints
    exact ⟨hpoints, fun _ hr => nomatch hr⟩

/-- What a command keeps holds after it, whether it raises or not. -/
theorem Command.Keeps.after {c : Command E R} (h : c.Keeps I) {rows : List R} (hI : I rows) :
    I (c.after rows) := by
  unfold Command.after
  split
  · exact (h rows hI).2 _ ‹_›
  · exact hI

/-- A command that raises leaves the table alone. -/
theorem Command.after_of_error {c : Command E R} {rows : List R} {e : E}
    (h : (c rows).2 = .error e) : c.after rows = rows := by
  unfold Command.after
  rw [h]

/-- **What all commands keep holds at every point of a session.** -/
theorem keeps_points {cs : List (Command E R)} (h : ∀ c ∈ cs, c.Keeps I) {rows : List R}
    (hI : I rows) : ∀ p ∈ points cs rows, I p := by
  induction cs generalizing rows with
  | nil =>
    intro p hp
    exact List.mem_singleton.mp hp ▸ hI
  | cons c cs ih =>
    have hc := h c List.mem_cons_self
    intro p hp
    rcases List.mem_append.mp hp with hp | hp
    · rcases List.mem_cons.mp hp with rfl | hp
      · exact hI
      · exact (hc rows hI).1 p hp
    · exact ih (fun c' hc' => h c' (List.mem_cons_of_mem c hc')) (hc.after hI) p hp

/-- **A relation between any two rows** is kept if it relates every new row to the others. -/
theorem pairwise_of_apply {S : R → R → Prop} (hsymm : ∀ {a b}, S a b → S b a)
    {rows rows' : List R} {op : RowOp N} (hrows : rows.Pairwise S)
    (hnew : ∀ tg new r others, d.row tg new rows = .ok r → d.constraint.ok rows' = true →
      rows'.Perm (r :: others) →
      ((tg = .insert ∧ others = rows) ∨ ∃ old, tg = .update old ∧ rows.Perm (old :: others)) →
      ∀ a ∈ others, S r a)
    (h : d.apply rows op = .ok rows') : rows'.Pairwise S := by
  rcases d.apply_cases h with hsub | ⟨tg, new, r, others, hr, hperm, hok, htg⟩
  · exact hrows.sublist hsub
  · rw [hperm.pairwise_iff hsymm, List.pairwise_cons]
    refine ⟨hnew tg new r others hr hok hperm htg, ?_⟩
    rcases htg with ⟨-, rfl⟩ | ⟨old, -, hold⟩
    · exact hrows
    · exact (List.pairwise_cons.mp ((hold.pairwise_iff hsymm).mp hrows)).2

/-- **A property of every row** is kept if every new row has it. -/
theorem forall_of_apply {P : R → Prop} {rows rows' : List R} {op : RowOp N}
    (hrows : ∀ a ∈ rows, P a) (hnew : ∀ tg new r, d.row tg new rows = .ok r → P r)
    (h : d.apply rows op = .ok rows') : ∀ a ∈ rows', P a := by
  rcases d.apply_cases h with hsub | ⟨tg, new, r, others, hr, hperm, -, htg⟩
  · exact fun a ha => hrows a (hsub.subset ha)
  · intro a ha
    rcases List.mem_cons.mp (hperm.mem_iff.mp ha) with rfl | ha
    · exact hnew tg new a hr
    · rcases htg with ⟨-, rfl⟩ | ⟨old, -, hold⟩
      · exact hrows a ha
      · exact hrows a (hold.mem_iff.mpr (List.mem_cons_of_mem old ha))

/-- A unique key is kept as long as the constraints have it. -/
theorem nodup_of_apply {γ : Type*} {key : R → γ}
    (hkey : ∀ rows, d.constraint.ok rows = true → (rows.map key).Nodup)
    {rows rows' : List R} {op : RowOp N} (hrows : (rows.map key).Nodup)
    (h : d.apply rows op = .ok rows') : (rows'.map key).Nodup := by
  rcases d.apply_cases h with hsub | ⟨-, -, -, -, -, -, hok, -⟩
  · exact hrows.sublist (hsub.map key)
  · exact hkey rows' hok

end RowTrigger
