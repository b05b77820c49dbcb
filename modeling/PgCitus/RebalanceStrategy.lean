import PgCitus.Library.RowTrigger
import PgCitus.PgUpgrade

/-!
# Rebalance strategies

The table `pg_dist_rebalance_strategy`, with the trigger that validates its rows and the
two functions that write to it. That one strategy at most is the default, and that the
thresholds of each are in order, is left to the trigger, which sees one row at a time and
the table in the middle of the statement.

The trigger looks for another default only if the row becomes one. That is enough: a row
that is not the default takes nothing, and a row that was the default before is what the
table allowed already (`apply_keeps_oneDefault`). `citus_set_default_rebalance_strategy`
takes the flag from the old default before it gives it to the new one, so that the
trigger lets it pass.

A strategy that is added has all of its arguments but the last one
(`add_rebalance_strategy_stored_iff`).

The check for the community edition, a statement-level trigger that 10.1 drops, is left
out. What an upgrade assumes of the table (`PgUpgrade.Catalogs`) is proved of it here
(`catalog_constraint_of_valid`).
-/

namespace RebalanceStrategy

open RowTrigger
open PgUpgrade (Oid Float4 PgDistRebalanceStrategy)

/-! ## Comparing thresholds -/

/-- `isnan`. -/
def isnan (val : Float4) : Bool := val &&& 0x7fffffff > 0x7f800000

/-- Where a number that is not a NaN is in order; zero is the same with either sign. -/
def float4Key (val : Float4) : ℤ :=
  if val &&& 0x80000000 = 0 then (val &&& 0x7fffffff).toNat else -(val &&& 0x7fffffff).toNat

/-- `float4_lt`. -/
def float4Lt (val1 val2 : Float4) : Bool :=
  !isnan val1 && (isnan val2 || float4Key val1 < float4Key val2)

/-- `float4_ge`. -/
def float4Ge (val1 val2 : Float4) : Bool :=
  isnan val1 || (!isnan val2 && float4Key val1 ≥ float4Key val2)

/-- A threshold that is not smaller is greater or equal, NaNs included. -/
theorem float4Ge_eq_not_float4Lt (val1 val2 : Float4) :
    float4Ge val1 val2 = !float4Lt val1 val2 := by
  unfold float4Ge float4Lt
  have hdec : decide (float4Key val1 ≥ float4Key val2) =
      !decide (float4Key val1 < float4Key val2) := by
    rw [← decide_not, decide_eq_decide, not_lt]
  cases isnan val1 <;> cases isnan val2 <;> simp [hdec]

/-! ## The trigger -/

/-- A row on its way into the table, where a column may still be NULL. -/
structure NewStrategy where
  name : Option String
  defaultStrategy : Option Bool
  shardCostFunction : Option Oid
  nodeCapacityFunction : Option Oid
  shardAllowedOnNodeFunction : Option Oid
  defaultThreshold : Option Float4
  minimumThreshold : Option Float4
  improvementThreshold : Option Float4

/-- A row that is in the table, as the start of a new one. -/
def NewStrategy.ofRow (r : PgDistRebalanceStrategy) : NewStrategy where
  name := some r.name
  defaultStrategy := some r.defaultStrategy
  shardCostFunction := some r.shardCostFunction
  nodeCapacityFunction := some r.nodeCapacityFunction
  shardAllowedOnNodeFunction := some r.shardAllowedOnNodeFunction
  defaultThreshold := some r.defaultThreshold
  minimumThreshold := some r.minimumThreshold
  improvementThreshold := some r.improvementThreshold

/-- What a statement may raise. -/
inductive Error
  | invalidFunctions
  | exception (message : String)
  | notNullViolation
  | uniqueViolation
  deriving DecidableEq

/-- Whether the functions of a strategy have the right signatures, which is for
`citus_validate_rebalance_strategy_functions` to say. -/
abbrev Validate := Oid → Oid → Oid → Bool

/-- `PERFORM citus_validate_rebalance_strategy_functions(…)`, which is strict. -/
def performValidate (validate : Validate) (new : NewStrategy) : Bool :=
  match new.shardCostFunction, new.nodeCapacityFunction, new.shardAllowedOnNodeFunction with
  | some cost, some capacity, some allowed => validate cost capacity allowed
  | _, _, _ => true

/-- `NEW.default_threshold < NEW.minimum_threshold`. -/
def thresholdTooSmall (new : NewStrategy) : Option Bool :=
  match new.defaultThreshold, new.minimumThreshold with
  | some default, some minimum => some (float4Lt default minimum)
  | _, _ => none

/-- `TG_OP = 'UPDATE' AND NEW.default_strategy = OLD.default_strategy`. -/
def keepsFlag (op : TgOp PgDistRebalanceStrategy) (new : NewStrategy) : Option Bool :=
  match op with
  | .insert => some false
  | .update old => new.defaultStrategy.map fun flag => flag == old.defaultStrategy

/-- `pg_dist_rebalance_strategy_trigger_func`. A condition that is NULL is not met. -/
def pgDistRebalanceStrategyTriggerFunc (validate : Validate) (op : TgOp PgDistRebalanceStrategy)
    (new : NewStrategy) (table : List PgDistRebalanceStrategy) : Except Error NewStrategy :=
  if performValidate validate new = false then .error .invalidFunctions
  else if thresholdTooSmall new = some true then
    .error (.exception "default_threshold cannot be smaller than minimum_threshold")
  else if new.defaultStrategy.map not = some true then .ok new
  else if keepsFlag op new = some true then .ok new
  else if table.any PgDistRebalanceStrategy.defaultStrategy = true then
    .error (.exception "there cannot be two default strategies")
  else .ok new

/-- The row that is stored: all columns are `NOT NULL`. -/
def NewStrategy.store : NewStrategy → Except Error PgDistRebalanceStrategy
  | ⟨some name, some defaultStrategy, some cost, some capacity, some allowed,
      some default, some minimum, some improvement⟩ =>
    .ok ⟨name, defaultStrategy, cost, capacity, allowed, default, minimum, improvement⟩
  | _ => .error .notNullViolation

/-- `pg_dist_rebalance_strategy`. -/
def pgDistRebalanceStrategy (validate : Validate) :
    TableDef NewStrategy PgDistRebalanceStrategy Error where
  trigger := pgDistRebalanceStrategyTriggerFunc validate
  store := NewStrategy.store
  constraint := Rows.unique PgDistRebalanceStrategy.name
  violation := .uniqueViolation

/-! ## Statements -/

/-- `citus_add_rebalance_strategy`. What is not inserted has its default, and so the last
argument has no effect. -/
def citusAddRebalanceStrategy (validate : Validate) (name : Option String)
    (shardCostFunction nodeCapacityFunction shardAllowedOnNodeFunction : Option Oid)
    (defaultThreshold minimumThreshold _improvementThreshold : Option Float4) :
    Command Error PgDistRebalanceStrategy :=
  (pgDistRebalanceStrategy validate).statement [.insert {
    name := name
    defaultStrategy := some false
    shardCostFunction := shardCostFunction
    nodeCapacityFunction := nodeCapacityFunction
    shardAllowedOnNodeFunction := shardAllowedOnNodeFunction
    defaultThreshold := defaultThreshold
    minimumThreshold := minimumThreshold
    improvementThreshold := some 0 }]

/-- A row with its flag set. -/
def NewStrategy.withFlag (flag : Bool) (r : PgDistRebalanceStrategy) : NewStrategy :=
  { NewStrategy.ofRow r with defaultStrategy := some flag }

/-- `citus_set_default_rebalance_strategy`, which is strict. -/
def citusSetDefaultRebalanceStrategy (validate : Validate) :
    Option String → Command Error PgDistRebalanceStrategy
  | none => (pgDistRebalanceStrategy validate).statement []
  | some name =>
    (Command.raiseIf (fun table => !table.any fun t => t.name == name)
      (.exception "strategy with specified name does not exist")).seq
    (((pgDistRebalanceStrategy validate).updateWhere (fun t => t.defaultStrategy == true)
      (NewStrategy.withFlag false)).seq
    ((pgDistRebalanceStrategy validate).updateWhere (fun t => t.name == name)
      (NewStrategy.withFlag true)))

/-- **A statement on the table.** An update says for each row, by its position, what it
becomes. -/
inductive Statement
  | insert (rows : List NewStrategy)
  | update (changes : List (ℕ × NewStrategy))
  | delete (positions : List ℕ)
  | addRebalanceStrategy (name : Option String)
      (shardCostFunction nodeCapacityFunction shardAllowedOnNodeFunction : Option Oid)
      (defaultThreshold minimumThreshold improvementThreshold : Option Float4)
  | setDefaultRebalanceStrategy (name : Option String)

/-- What a statement does. -/
def Statement.command (validate : Validate) : Statement → Command Error PgDistRebalanceStrategy
  | insert rows => (pgDistRebalanceStrategy validate).statement (rows.map .insert)
  | update changes =>
    (pgDistRebalanceStrategy validate).statement (changes.map fun c => .update c.1 c.2)
  | delete positions => (pgDistRebalanceStrategy validate).statement (positions.map .delete)
  | addRebalanceStrategy name cost capacity allowed default minimum improvement =>
    citusAddRebalanceStrategy validate name cost capacity allowed default minimum improvement
  | setDefaultRebalanceStrategy name => citusSetDefaultRebalanceStrategy validate name

/-- The statements of a session. Which functions are valid may change between them. -/
def commands (session : List (Validate × Statement)) :
    List (Command Error PgDistRebalanceStrategy) :=
  session.map fun s => s.2.command s.1

/-! ## What holds of the table -/

/-- **What the table promises.** -/
structure Valid (table : List PgDistRebalanceStrategy) : Prop where
  oneDefault : (table.filter PgDistRebalanceStrategy.defaultStrategy).length ≤ 1
  names : (table.map PgDistRebalanceStrategy.name).Nodup
  thresholds : ∀ r ∈ table, float4Ge r.defaultThreshold r.minimumThreshold = true

/-- **What a row has passed that is stored**: the flag and the thresholds are those the
trigger saw. -/
theorem row_eq_ok {validate : Validate} {op : TgOp PgDistRebalanceStrategy} {new : NewStrategy}
    {table : List PgDistRebalanceStrategy} {r : PgDistRebalanceStrategy}
    (h : (pgDistRebalanceStrategy validate).row op new table = .ok r) :
    new = NewStrategy.ofRow r ∧ float4Lt r.defaultThreshold r.minimumThreshold = false ∧
    (r.defaultStrategy = false ∨ (∃ old, op = .update old ∧ old.defaultStrategy = true) ∨
      ∀ t ∈ table, t.defaultStrategy = false) := by
  obtain ⟨new', htrigger, hstore⟩ := Rows.bind_eq_ok.mp h
  obtain rfl : new' = NewStrategy.ofRow r := by
    simp only [pgDistRebalanceStrategy, NewStrategy.store] at hstore
    split at hstore
    · obtain rfl := Except.ok.inj hstore
      rfl
    · exact nomatch hstore
  simp only [pgDistRebalanceStrategy, pgDistRebalanceStrategyTriggerFunc] at htrigger
  split at htrigger
  · exact nomatch htrigger
  split at htrigger
  · exact nomatch htrigger
  rename_i hsmall
  have hsame : new = NewStrategy.ofRow r := by
    split at htrigger
    · exact Except.ok.inj htrigger
    split at htrigger
    · exact Except.ok.inj htrigger
    split at htrigger
    · exact nomatch htrigger
    · exact Except.ok.inj htrigger
  subst hsame
  refine ⟨rfl, Bool.eq_false_of_not_eq_true fun hlt => hsmall (congrArg some hlt), ?_⟩
  split at htrigger
  · rename_i hflag
    exact Or.inl (by simpa [NewStrategy.ofRow] using hflag)
  rename_i hflag
  split at htrigger
  · rename_i hkeep
    cases op with
    | insert => exact nomatch hkeep
    | update old =>
      have hr : r.defaultStrategy = true := by simpa [NewStrategy.ofRow] using hflag
      have heq : r.defaultStrategy = old.defaultStrategy := by
        simpa [keepsFlag, NewStrategy.ofRow] using hkeep
      exact Or.inr (Or.inl ⟨old, rfl, heq ▸ hr⟩)
  · split at htrigger
    · exact nomatch htrigger
    · rename_i hany
      refine Or.inr (Or.inr fun t ht => Bool.eq_false_of_not_eq_true fun hd => hany ?_)
      exact List.any_eq_true.mpr ⟨t, ht, hd⟩

/-- **One row operation keeps that one row at most is the default.** A row that becomes the
default finds no other one; a row that was it already is the one that the table allowed. -/
theorem apply_keeps_oneDefault {validate : Validate} {table table' : List PgDistRebalanceStrategy}
    {op : RowOp NewStrategy}
    (htable : table.Pairwise (Rows.NotBoth PgDistRebalanceStrategy.defaultStrategy))
    (h : (pgDistRebalanceStrategy validate).apply table op = .ok table') :
    table'.Pairwise (Rows.NotBoth PgDistRebalanceStrategy.defaultStrategy) := by
  refine pairwise_of_apply Rows.NotBoth.symm htable ?_ h
  intro tg new r others hr _ _ htg a ha hd
  obtain ⟨-, -, hpassed⟩ := row_eq_ok hr
  rcases hpassed with hfalse | ⟨old, rfl, hold⟩ | hnone
  · exact absurd hd (by rw [hfalse]; exact Bool.false_ne_true)
  · rcases htg with ⟨hins, -⟩ | ⟨old', hup, hperm⟩
    · exact nomatch hins
    · obtain rfl := TgOp.update.inj hup
      have hpair := (hperm.pairwise_iff Rows.NotBoth.symm).mp htable
      exact (List.pairwise_cons.mp hpair).1 a ha hold
  · refine hnone a ?_
    rcases htg with ⟨-, rfl⟩ | ⟨old, -, hperm⟩
    · exact ha
    · exact hperm.mem_iff.mpr (List.mem_cons_of_mem old ha)

/-- **One row operation keeps what the table promises.** -/
theorem apply_keeps_valid {validate : Validate} (table : List PgDistRebalanceStrategy)
    (op : RowOp NewStrategy) (table' : List PgDistRebalanceStrategy) (hvalid : Valid table)
    (h : (pgDistRebalanceStrategy validate).apply table op = .ok table') : Valid table' where
  oneDefault := (Rows.length_filter_le_one_iff _ table').mpr
    (apply_keeps_oneDefault ((Rows.length_filter_le_one_iff _ table).mp hvalid.oneDefault) h)
  names := nodup_of_apply (fun _ hok => of_decide_eq_true hok) hvalid.names h
  thresholds := forall_of_apply hvalid.thresholds (fun tg new r hr => by
    rw [float4Ge_eq_not_float4Lt, (row_eq_ok hr).2.1]
    rfl) h

/-- Every statement keeps it. -/
theorem command_keeps_valid (validate : Validate) (s : Statement) :
    (s.command validate).Keeps Valid := by
  cases s with
  | setDefaultRebalanceStrategy name =>
    cases name with
    | none => exact keeps_statement apply_keeps_valid _
    | some name =>
      exact (keeps_raiseIf _ _).seq
        ((keeps_query apply_keeps_valid _).seq (keeps_query apply_keeps_valid _))
  | _ => exact keeps_statement apply_keeps_valid _

theorem commands_keep_valid (session : List (Validate × Statement)) :
    ∀ c ∈ commands session, c.Keeps Valid := by
  intro c hc
  obtain ⟨s, -, rfl⟩ := List.mem_map.mp hc
  exact command_keeps_valid s.1 s.2

/-- The table as created is empty. -/
theorem valid_nil : Valid [] := ⟨Nat.zero_le 1, List.nodup_nil, fun _ h => nomatch h⟩

/-- **A valid table meets what an upgrade assumes of it.** -/
theorem catalog_constraint_of_valid {table : List PgDistRebalanceStrategy} (h : Valid table) :
    ((Rows.unique PgDistRebalanceStrategy.name).and
      ((Rows.unique PgDistRebalanceStrategy.defaultStrategy).onlyFor
        PgDistRebalanceStrategy.defaultStrategy)).ok table = true := by
  have hdefault : ((table.filter PgDistRebalanceStrategy.defaultStrategy).map
      PgDistRebalanceStrategy.defaultStrategy).Nodup := by
    have hlen := h.oneDefault
    generalize table.filter PgDistRebalanceStrategy.defaultStrategy = l at hlen
    match l, hlen with
    | [], _ => exact List.nodup_nil
    | [r], _ => exact List.nodup_singleton _
    | _ :: _ :: _, hlen => exact absurd hlen (by simp)
  exact Bool.and_eq_true_iff.mpr ⟨decide_eq_true h.names, decide_eq_true hdefault⟩

/-! ## Setting the default -/

/-- A row given a flag, if it is stored. -/
theorem row_withFlag {validate : Validate} (flag : Bool) (old : PgDistRebalanceStrategy)
    (table : List PgDistRebalanceStrategy) (r : PgDistRebalanceStrategy)
    (h : (pgDistRebalanceStrategy validate).row (.update old) (NewStrategy.withFlag flag old)
      table = .ok r) : r = { old with defaultStrategy := flag } := by
  have heq := (row_eq_ok h).1
  simp only [NewStrategy.withFlag, NewStrategy.ofRow, NewStrategy.mk.injEq,
    Option.some.injEq] at heq
  obtain ⟨h₁, h₂, h₃, h₄, h₅, h₆, h₇, h₈⟩ := heq
  rw [h₁, h₂, h₃, h₄, h₅, h₆, h₇, h₈]

/-- **What `citus_set_default_rebalance_strategy` leaves** when it does not raise: there is
a strategy of that name, it is the default and no other one is, and nothing else has
changed. -/
theorem citusSetDefaultRebalanceStrategy_eq_ok {validate : Validate} {name : String}
    {table table' : List PgDistRebalanceStrategy}
    (h : (citusSetDefaultRebalanceStrategy validate (some name) table).2 = .ok table') :
    (∃ r ∈ table, r.name = name) ∧
    table' = table.map fun r => { r with defaultStrategy := r.name == name } := by
  obtain ⟨table₁, h₁, hupdates⟩ := Command.seq_eq_ok h
  obtain ⟨hexists, rfl⟩ := Command.raiseIf_eq_ok h₁
  obtain ⟨table₂, h₂, h₃⟩ := Command.seq_eq_ok hupdates
  rw [TableDef.updateWhere_eq_ok (row_withFlag true) h₃,
    TableDef.updateWhere_eq_ok (row_withFlag false) h₂, List.map_map]
  refine ⟨?_, List.map_congr_left fun r _ => ?_⟩
  · rw [Bool.not_eq_false', List.any_eq_true] at hexists
    obtain ⟨r, hr, hname⟩ := hexists
    exact ⟨r, hr, beq_iff_eq.mp hname⟩
  · obtain ⟨n, d, _, _, _, _, _, _⟩ := r
    by_cases hn : n = name <;> cases d <;> simp [hn]

/-- **The table through any session.** From the table as created, at every point one
strategy at most is the default, names are unique and the thresholds of every row are in
order. Setting the default, where it succeeds, makes the named strategy the default, and
the only one, and changes nothing else; and a statement that raises leaves the table as
it was. -/
theorem rebalance_strategies_valid (session : List (Validate × Statement)) :
    (∀ table ∈ points (commands session) [], Valid table) ∧
    (∀ (validate : Validate) (name : String) (table' : List PgDistRebalanceStrategy),
      (citusSetDefaultRebalanceStrategy validate (some name)
        (afterAll (commands session) [])).2 = .ok table' →
      (∃ r ∈ afterAll (commands session) [], r.name = name) ∧
      table' = (afterAll (commands session) []).map
        fun r => { r with defaultStrategy := r.name == name }) ∧
    (∀ (validate : Validate) (s : Statement) (e : Error),
      (s.command validate (afterAll (commands session) [])).2 = .error e →
      (s.command validate).after (afterAll (commands session) []) =
        afterAll (commands session) []) :=
  ⟨keeps_points (commands_keep_valid session) valid_nil,
    fun _ _ _ h => citusSetDefaultRebalanceStrategy_eq_ok h,
    fun _ _ _ h => Command.after_of_error h⟩

/-- Two strategies, as the extension brings them. -/
def twoStrategies : List (Validate × Statement) :=
  [(fun _ _ _ => true, .insert [
    ⟨some "by_shard_count", some true, some 1, some 2, some 3, some 0, some 0, some 0⟩,
    ⟨some "by_disk_size", some false, some 4, some 2, some 3, some 1, some 0, some 0⟩])]

/-- The second one can be made the default, and a third one cannot be inserted as such. -/
theorem rebalance_strategies_valid_two :
    Valid (afterAll (commands twoStrategies) []) ∧
    [⟨"by_shard_count", false, 1, 2, 3, 0, 0, 0⟩, ⟨"by_disk_size", true, 4, 2, 3, 1, 0, 0⟩] =
      (afterAll (commands twoStrategies) []).map
        (fun r => { r with defaultStrategy := r.name == "by_disk_size" }) ∧
    (Statement.command (fun _ _ _ => true) (.insert
      [⟨some "third", some true, some 1, some 2, some 3, some 0, some 0, some 0⟩])).after
      (afterAll (commands twoStrategies) []) = afterAll (commands twoStrategies) [] :=
  have h := rebalance_strategies_valid twoStrategies
  ⟨h.1 _ (by decide +kernel),
    (h.2.1 (fun _ _ _ => true) "by_disk_size" _ (by decide +kernel)).2,
    h.2.2 _ _ (.exception "there cannot be two default strategies") (by decide +kernel)⟩

/-! ## Adding a strategy -/

/-- An argument with a default, as a call has it. -/
inductive Arg (α : Type)
  | given (value : Option α)
  | omitted

/-- What the function is called with. -/
def Arg.value {α : Type} (default : Option α) : Arg α → Option α
  | given value => value
  | omitted => default

/-- **The arguments of a call** of `citus_add_rebalance_strategy`. -/
structure AddArgs where
  name : Option String
  shardCostFunction : Option Oid
  nodeCapacityFunction : Option Oid
  shardAllowedOnNodeFunction : Option Oid
  defaultThreshold : Option Float4
  /-- `minimum_threshold float4 DEFAULT 0`. -/
  minimumThreshold : Arg Float4
  /-- `improvement_threshold float4 DEFAULT 0`. -/
  improvementThreshold : Arg Float4

/-- The call. -/
def AddArgs.call (validate : Validate) (a : AddArgs) : Command Error PgDistRebalanceStrategy :=
  citusAddRebalanceStrategy validate a.name a.shardCostFunction a.nodeCapacityFunction
    a.shardAllowedOnNodeFunction a.defaultThreshold (a.minimumThreshold.value (some 0))
    (a.improvementThreshold.value (some 0))

/-- The row that the arguments describe. -/
def AddArgs.described (a : AddArgs) : NewStrategy where
  name := a.name
  defaultStrategy := some false
  shardCostFunction := a.shardCostFunction
  nodeCapacityFunction := a.nodeCapacityFunction
  shardAllowedOnNodeFunction := a.shardAllowedOnNodeFunction
  defaultThreshold := a.defaultThreshold
  minimumThreshold := a.minimumThreshold.value (some 0)
  improvementThreshold := a.improvementThreshold.value (some 0)

/-- **One row more**, and it is the one that the arguments describe. -/
def AddArgs.Stored (a : AddArgs) (table table' : List PgDistRebalanceStrategy) : Prop :=
  ∃ r, table'.Perm (r :: table) ∧ NewStrategy.ofRow r = a.described

/-- **What a call adds**: a row with every argument but the last one, and the default of the
column in its place. -/
theorem AddArgs.call_eq_ok {validate : Validate} {a : AddArgs}
    {table table' : List PgDistRebalanceStrategy} (h : (a.call validate table).2 = .ok table') :
    ∃ r, table' = table ++ [r] ∧
      NewStrategy.ofRow r = { a.described with improvementThreshold := some 0 } := by
  unfold AddArgs.call citusAddRebalanceStrategy TableDef.statement at h
  split at h
  · rename_i table₁ hop
    obtain rfl : table₁ = table' := Except.ok.inj h
    obtain ⟨r, hrow, haccept⟩ := Rows.bind_eq_ok.mp hop
    exact ⟨r, (accept_eq_ok haccept).1, (row_eq_ok hrow).1.symm⟩
  · exact nomatch h

/-- **The row holds its arguments exactly if the improvement threshold is that of the
column default.** Everything else reaches its column. -/
theorem add_rebalance_strategy_stored_iff {validate : Validate} (a : AddArgs)
    {table table' : List PgDistRebalanceStrategy} (h : (a.call validate table).2 = .ok table') :
    a.Stored table table' ↔ a.improvementThreshold.value (some 0) = some 0 := by
  obtain ⟨r, rfl, hr⟩ := AddArgs.call_eq_ok h
  constructor
  · rintro ⟨r', hperm, hr'⟩
    -- there is only one row more
    have hsame : [r].Perm [r'] :=
      (List.perm_append_right_iff table).mp
        ((List.perm_append_singleton r table).symm.trans hperm)
    obtain rfl : r = r' := List.singleton_perm_singleton.mp hsame
    exact congrArg NewStrategy.improvementThreshold (hr'.symm.trans hr)
  · intro himp
    refine ⟨r, List.perm_append_singleton r table, hr.trans ?_⟩
    unfold AddArgs.described
    rw [himp]

/-- A strategy that is to improve by a half. -/
def addHalf : AddArgs where
  name := some "by_size"
  shardCostFunction := some 4
  nodeCapacityFunction := some 2
  shardAllowedOnNodeFunction := some 3
  defaultThreshold := some 0x3dcccccd
  minimumThreshold := .omitted
  improvementThreshold := .given (some 0x3f000000)

/-- The same with the default. -/
def addPlain : AddArgs := { addHalf with improvementThreshold := .omitted }

theorem add_rebalance_strategy_stored_iff_plain :
    addPlain.Stored [] [⟨"by_size", false, 4, 2, 3, 0x3dcccccd, 0, 0⟩] ↔
      addPlain.improvementThreshold.value (some 0) = some 0 :=
  have h : (addPlain.call (fun _ _ _ => true) []).2 =
    .ok [⟨"by_size", false, 4, 2, 3, 0x3dcccccd, 0, 0⟩] := rfl
  add_rebalance_strategy_stored_iff addPlain h

/-- **An improvement threshold is dropped**: the call succeeds and the row has zero. -/
theorem add_rebalance_strategy_drops_improvement :
    (addHalf.call (fun _ _ _ => true) []).2 =
      .ok [⟨"by_size", false, 4, 2, 3, 0x3dcccccd, 0, 0⟩] ∧
    ¬ addHalf.Stored [] [⟨"by_size", false, 4, 2, 3, 0x3dcccccd, 0, 0⟩] := by
  refine ⟨rfl, ?_⟩
  rintro ⟨r, hperm, hr⟩
  obtain rfl := List.singleton_perm_singleton.mp hperm
  exact absurd (congrArg NewStrategy.improvementThreshold hr) (by decide)

end RebalanceStrategy
