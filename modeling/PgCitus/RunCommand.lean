import Mathlib.Data.Option.NAry
import PgCitus.TablesColocated

/-!
# Running a command on shards

`run_command_on_placements`, `run_command_on_colocated_placements` and
`run_command_on_shards` list shards or placements from the catalogs, make arrays of their
nodes and of the commands, have `master_run_on_worker` run those, and put the ids of the
shards to the results, for which there is nothing but the place of a result in the list.

What is listed for two tables are the pairs of active placements, of shards that hold the same
range, on the same node. `distributed_tables_colocated` is asked before, and this is the later
one of the two bodies it has: it compares the colocation ids of the tables, and knows nothing
of their shards and placements (reference tables pass, whose shards hold no range). So what a
call that returns has run the command on is up to the placements alone: it is each placement of
both tables, once, exactly where the two tables have the same ranges on the same nodes, each of
them once (`runCommandOnColocatedPlacements_covers_iff`).

The parameters are the names of shards and `format` with the command in it, both of which may
raise an error, and what comes of a command on a node.
-/

namespace RunCommand

open TablesColocated (Catalogs PgDistShard PgDistShardPlacement sqlEq sameRange shardsOf
  shardsOf_nodup activePlacements activeNodes mem_activeNodes slippedCatalogs)

variable {Text : Type} [LinearOrder Text]

/-! ## Arrays -/

/-- `array_agg`, which is `NULL` when there are no rows. -/
def arrayAgg {α : Type*} (rows : List α) : Option (List α) :=
  if rows.isEmpty then none else some rows

/-- `a[i]`, counted from one. -/
def subscript {α : Type*} (a : Option (List α)) (i : ℕ) : Option α :=
  a.bind fun l => if i = 0 then none else l[i - 1]?

/-- A row of `master_run_on_worker`. -/
structure WorkerResult (Text : Type) where
  nodeName : Text
  nodePort : ℤ
  success : Bool
  result : Text
deriving DecidableEq, Repr

/-- What running a command on a node comes to. -/
abbrev Runner (Text : Type) := Text → ℤ → Text → Bool × Text

/-- `master_run_on_worker`: a row for each place in the arrays, in their order. It is strict,
and then there are no rows. -/
def masterRunOnWorker (run : Runner Text) :
    Option (List Text) → Option (List ℤ) → Option (List Text) → List (WorkerResult Text)
  | some workers, some ports, some commands =>
    List.zipWith (fun wp command =>
      ⟨wp.1, wp.2, (run wp.1 wp.2 command).1, (run wp.1 wp.2 command).2⟩)
      (workers.zip ports) commands
  | _, _, _ => []

/-- `WITH ORDINALITY`. -/
def withOrdinality {α : Type*} (rows : List α) : List (α × ℕ) := rows.zipIdx 1

/-- What is raised. -/
inductive Error where
  /-- By `shard_name`, `shard_id cannot be zero or negative value` and the like, or by `format`,
  `too few arguments for format()` and the like. -/
  | invalidParameterValue
  /-- `tables % and % are not co-located` -/
  | notColocated (tableName1 tableName2 : ℕ)
deriving DecidableEq

/-- **What the three functions do with the rows they have listed**: with the names that each row
has, its command is made, and the commands are run; the results are put together with what is
known of the row by its place. -/
def runCommands {α β : Type} (run : Runner Text) (format : List Text → Except Error Text)
    (rows : List α) (names : α → Except Error (List Text)) (worker : α → Text) (port : α → ℤ)
    (result : WorkerResult Text → ℕ → β) : Except Error (List β) := do
  let shardnames ← rows.mapM names
  let commands ← shardnames.mapM format
  let results := masterRunOnWorker run (arrayAgg (rows.map worker)) (arrayAgg (rows.map port))
    (arrayAgg commands)
  return (withOrdinality results).map fun (r, ordinality) => result r ordinality

/-! ## The functions -/

/-- A row of `active_shard_placements`. -/
structure ActiveShardPlacement (Text : Type) where
  logicalrelid : ℕ
  shardid : ℤ
  shardminvalue : Option Text
  shardmaxvalue : Option Text
  nodename : Text
  nodeport : ℤ

/-- `ORDER BY logicalrelid, shardid, nodename, nodeport`. -/
def ActiveShardPlacement.orderKey (p : ActiveShardPlacement Text) : ℕ ×ₗ ℤ ×ₗ Text ×ₗ ℤ :=
  toLex (p.logicalrelid, toLex (p.shardid, toLex (p.nodename, p.nodeport)))

/-- A row of `pg_dist_partition`, which has a unique index on its tables. -/
structure PgDistPartition where
  logicalrelid : ℕ
  colocationid : ℤ

variable (c : Catalogs Text) (partitions : List PgDistPartition) (run : Runner Text)
  (shardName : ℕ → ℤ → Except Error Text) (format : List Text → Except Error Text)

/-- `FROM pg_dist_shard ds JOIN pg_dist_shard_placement dsp USING (shardid) WHERE
dsp.shardstate = 1 and …`. -/
def activeShardPlacements (tables : ℕ → Bool) : List (ActiveShardPlacement Text) :=
  ((Rows.join (fun (ds : PgDistShard Text) dsp => decide (ds.shardid = dsp.shardid))
    c.pgDistShard c.pgDistShardPlacement).filter fun x =>
      decide (x.2.shardstate = 1) && tables x.1.logicalrelid).map fun x =>
    ⟨x.1.logicalrelid, x.1.shardid, x.1.shardminvalue, x.1.shardmaxvalue, x.2.nodename,
      x.2.nodeport⟩

/-- A row of `run_command_on_placements`. -/
structure PlacementResult (Text : Type) where
  nodename : Text
  nodeport : ℤ
  shardid : Option ℤ
  success : Bool
  result : Text

/-- `run_command_on_placements`. -/
def runCommandOnPlacements (tableName : ℕ) : Except Error (List (PlacementResult Text)) :=
  let citusPlacements := Rows.orderBy ActiveShardPlacement.orderKey
    (activeShardPlacements c fun t => decide (t = tableName))
  let shards := arrayAgg (citusPlacements.map (·.shardid))
  runCommands run format citusPlacements
    (fun cp => do
      let shardname ← shardName cp.logicalrelid cp.shardid
      return [shardname])
    (·.nodename) (·.nodeport) fun r ordinality =>
      ⟨r.nodeName, r.nodePort, subscript shards ordinality, r.success, r.result⟩

/-- `SELECT colocationid INTO … FROM pg_catalog.pg_dist_partition WHERE logicalrelid = …`. -/
def colocationid (table : ℕ) : Option ℤ :=
  (partitions.find? fun p => decide (p.logicalrelid = table)).map (·.colocationid)

/-- `distributed_tables_colocated`, as it is from version 9.0-2 on. It is `NULL` for a table
that is not in `pg_dist_partition`. -/
def distributedTablesColocated (table1 table2 : ℕ) : Option Bool :=
  Option.map₂ (fun table1Colocationid table2Colocationid : ℤ =>
    decide (table1Colocationid = table2Colocationid))
    (colocationid partitions table1) (colocationid partitions table2)

/-- A row of `run_command_on_colocated_placements`. -/
structure ColocatedResult (Text : Type) where
  nodename : Text
  nodeport : ℤ
  shardid1 : Option ℤ
  shardid2 : Option ℤ
  success : Bool
  result : Text

/-- The condition of `citus_colocated_placements`. -/
def colocatedPlacement (tableName1 tableName2 : ℕ) (a b : ActiveShardPlacement Text) : Bool :=
  sqlEq a.shardminvalue b.shardminvalue && sqlEq a.shardmaxvalue b.shardmaxvalue &&
    decide (a.logicalrelid ≠ b.logicalrelid) && decide (a.nodename = b.nodename) &&
    decide (a.nodeport = b.nodeport) && decide (a.logicalrelid = tableName1) &&
    decide (b.logicalrelid = tableName2)

/-- `citus_colocated_placements`. -/
def citusColocatedPlacements (tableName1 tableName2 : ℕ) :
    List (ActiveShardPlacement Text × ActiveShardPlacement Text) :=
  let activeShardPlacements := Rows.orderBy ActiveShardPlacement.orderKey
    (activeShardPlacements c fun t => decide (t = tableName1) || decide (t = tableName2))
  Rows.orderBy (fun x => x.1.orderKey)
    (Rows.join (colocatedPlacement tableName1 tableName2) activeShardPlacements
      activeShardPlacements)

/-- `run_command_on_colocated_placements`. -/
def runCommandOnColocatedPlacements (tableName1 tableName2 : ℕ) :
    Except Error (List (ColocatedResult Text)) :=
  if distributedTablesColocated partitions tableName1 tableName2 = some false then
    .error (.notColocated tableName1 tableName2)
  else do
    -- the names in `active_shard_placements` are computed, and then not used
    let _ ← (activeShardPlacements c fun t =>
      decide (t = tableName1) || decide (t = tableName2)).mapM fun ds =>
        shardName ds.logicalrelid ds.shardid
    let cps := citusColocatedPlacements c tableName1 tableName2
    let shards1 := arrayAgg (cps.map (·.1.shardid))
    let shards2 := arrayAgg (cps.map (·.2.shardid))
    runCommands run format cps
      (fun cp => do
        let shardname1 ← shardName cp.1.logicalrelid cp.1.shardid
        let shardname2 ← shardName cp.2.logicalrelid cp.2.shardid
        return [shardname1, shardname2])
      (·.1.nodename) (·.1.nodeport) fun r ordinality =>
        ⟨r.nodeName, r.nodePort, subscript shards1 ordinality, subscript shards2 ordinality,
          r.success, r.result⟩

/-- A row of `run_command_on_shards`. -/
structure ShardResult (Text : Type) where
  shardid : Option ℤ
  success : Bool
  result : Text

/-- `FROM pg_dist_shard ds LEFT JOIN pg_dist_shard_placement dsp USING (shardid) WHERE
dsp.shardstate = 1 and …`. The condition on the state drops the shards that have no
placement. -/
def shardRows (tableName : ℕ) : List (PgDistShard Text × Option (PgDistShardPlacement Text)) :=
  (Rows.leftJoin (fun (ds : PgDistShard Text) dsp => decide (ds.shardid = dsp.shardid))
    c.pgDistShard c.pgDistShardPlacement).filter fun x =>
      (x.2.any fun dsp => decide (dsp.shardstate = 1)) && decide (x.1.logicalrelid = tableName)

/-- `GROUP BY ds.logicalrelid, ds.shardid`. -/
def shardKey (x : PgDistShard Text × Option (PgDistShardPlacement Text)) : ℕ × ℤ :=
  (x.1.logicalrelid, x.1.shardid)

/-- `citus_shards` of `run_command_on_shards`: the shards with the first node of each. -/
def citusShards (tableName : ℕ) : List (ℕ × ℤ × Text × ℤ) :=
  let groups := Rows.orderBy (fun g => toLex g.1) (Rows.groupBy shardKey (shardRows c tableName))
  -- a group has a first row
  groups.filterMap fun g => (g.2.filterMap (·.2)).head?.map fun dsp =>
    (g.1.1, g.1.2, dsp.nodename, dsp.nodeport)

/-- `run_command_on_shards`: whether there is the notice that some shards do not have active
placements, and the rows. -/
def runCommandOnShards (tableName : ℕ) : Except Error (Bool × List (ShardResult Text)) :=
  let shardCount := (c.pgDistShard.filter fun s => decide (s.logicalrelid = tableName)).length
  let citusShards := citusShards c tableName
  let shards := arrayAgg (citusShards.map (·.2.1))
  (runCommands run format citusShards
    (fun cs => do
      let shardname ← shardName cs.1 cs.2.1
      return [shardname])
    (·.2.2.1) (·.2.2.2) fun r ordinality =>
      ⟨subscript shards ordinality, r.success, r.result⟩).map fun rows =>
    ((arrayAgg (citusShards.map (·.2.2.1))).any fun w => decide (shardCount ≠ w.length), rows)

/-! ## Results and ids -/

section Arrays

variable {α β : Type} {run format}

omit [LinearOrder Text] in
/-- The arrays of one list of rows go together. -/
theorem masterRunOnWorker_arrayAgg {rows : List α} {commands : List Text} (worker : α → Text)
    (port : α → ℤ) (hlen : rows.length = commands.length) :
    masterRunOnWorker run (arrayAgg (rows.map worker)) (arrayAgg (rows.map port))
        (arrayAgg commands) =
      List.zipWith (fun a command => ⟨worker a, port a, (run (worker a) (port a) command).1,
        (run (worker a) (port a) command).2⟩) rows commands := by
  cases rows with
  | nil => rfl
  | cons a rows =>
    cases commands with
    | nil => cases hlen
    | cons command commands =>
      have hsome {γ : Type} (l : List γ) (x : γ) : arrayAgg (x :: l) = some (x :: l) := rfl
      rw [List.map_cons, List.map_cons, hsome, hsome, hsome, masterRunOnWorker, ← List.map_cons,
        ← List.map_cons, List.zip_map', List.zipWith_map_left]

theorem subscript_arrayAgg {rows : List α} (k : α → β) {i : ℕ} (hi : i < rows.length) :
    subscript (arrayAgg (rows.map k)) (i + 1) = some (k rows[i]) := by
  cases rows with
  | nil => exact absurd hi (Nat.not_lt_zero i)
  | cons a rows =>
    show ((a :: rows).map k)[i]? = _
    rw [List.getElem?_eq_getElem (by rwa [List.length_map]), List.getElem_map]

omit [LinearOrder Text] in
/-- What the results are put together with by their places are the rows they come from. -/
theorem map_withOrdinality {rows : List α} {commands : List Text} {worker : α → Text}
    {port : α → ℤ} {result : WorkerResult Text → ℕ → β} (result' : α → WorkerResult Text → β)
    (hresult : ∀ i (hi : i < rows.length) r, result r (i + 1) = result' rows[i] r)
    (hlen : rows.length = commands.length) :
    (withOrdinality (masterRunOnWorker run (arrayAgg (rows.map worker))
        (arrayAgg (rows.map port)) (arrayAgg commands))).map (fun (r, ordinality) =>
          result r ordinality) =
      List.zipWith (fun a command => result' a ⟨worker a, port a,
        (run (worker a) (port a) command).1, (run (worker a) (port a) command).2⟩) rows
          commands := by
  rw [masterRunOnWorker_arrayAgg worker port hlen]
  refine List.ext_getElem (by simp [withOrdinality]) fun i hi hi' => ?_
  have hi₁ : i < rows.length := by
    rw [List.length_zipWith] at hi'
    exact lt_of_lt_of_le hi' (Nat.min_le_left _ _)
  simp only [withOrdinality, List.getElem_map, List.getElem_zipIdx, List.getElem_zipWith]
  rw [Nat.add_comm]
  exact hresult i hi₁ _

omit [LinearOrder Text] in
/-- **What the functions return**: for each row that they have listed the result of its command,
with what is known of the row. -/
theorem runCommands_eq_ok_iff {rows : List α} {names : α → Except Error (List Text)}
    {worker : α → Text} {port : α → ℤ} {result : WorkerResult Text → ℕ → β}
    {out : List β} (result' : α → WorkerResult Text → β)
    (hresult : ∀ i (hi : i < rows.length) r, result r (i + 1) = result' rows[i] r) :
    runCommands run format rows names worker port result = .ok out ↔
      List.Forall₂ (fun a b => ∃ ns command, names a = .ok ns ∧ format ns = .ok command ∧
        result' a ⟨worker a, port a, (run (worker a) (port a) command).1,
          (run (worker a) (port a) command).2⟩ = b) rows out := by
  have hrow (a : α) (b : β) : (∃ ns command, names a = .ok ns ∧ format ns = .ok command ∧
      result' a ⟨worker a, port a, (run (worker a) (port a) command).1,
        (run (worker a) (port a) command).2⟩ = b) ↔
      ∃ command, (∃ ns, names a = .ok ns ∧ format ns = .ok command) ∧
        result' a ⟨worker a, port a, (run (worker a) (port a) command).1,
          (run (worker a) (port a) command).2⟩ = b :=
    ⟨fun ⟨ns, command, hns, hcommand, hb⟩ => ⟨command, ⟨ns, hns, hcommand⟩, hb⟩,
      fun ⟨command, ⟨ns, hns, hcommand⟩, hb⟩ => ⟨ns, command, hns, hcommand, hb⟩⟩
  simp only [hrow]
  rw [← Rows.exists_zipWith_eq_iff]
  constructor
  · intro h
    obtain ⟨shardnames, hnames, h⟩ := Rows.bind_eq_ok.mp h
    obtain ⟨commands, hcommands, h⟩ := Rows.bind_eq_ok.mp h
    have hall := Rows.mapM_mapM_eq_ok_iff.mp ⟨shardnames, hnames, hcommands⟩
    exact ⟨commands, hall,
      (map_withOrdinality result' hresult hall.length_eq).symm.trans (Except.ok.inj h)⟩
  · rintro ⟨commands, hall, rfl⟩
    obtain ⟨shardnames, hnames, hcommands⟩ := Rows.mapM_mapM_eq_ok_iff.mpr hall
    refine Rows.bind_eq_ok.mpr ⟨shardnames, hnames, Rows.bind_eq_ok.mpr ⟨commands, hcommands, ?_⟩⟩
    rw [← map_withOrdinality result' hresult hall.length_eq]
    rfl

end Arrays

section Rows

variable {c partitions run shardName format} {tableName tableName1 tableName2 : ℕ}

/-- The command for a shard: there is a name for it, and `format` takes it. -/
def CommandFor (shardName : ℕ → ℤ → Except Error Text) (format : List Text → Except Error Text)
    (logicalrelid : ℕ) (shardid : ℤ) (command : Text) : Prop :=
  ∃ shardname, shardName logicalrelid shardid = .ok shardname ∧ format [shardname] = .ok command

omit [LinearOrder Text] in
theorem CommandFor.unique {logicalrelid : ℕ} {shardid : ℤ} {command command' : Text}
    (h : CommandFor shardName format logicalrelid shardid command)
    (h' : CommandFor shardName format logicalrelid shardid command') : command = command' := by
  obtain ⟨name, hname, hcommand⟩ := h
  obtain ⟨name', hname', hcommand'⟩ := h'
  obtain rfl := Except.ok.inj (hname.symm.trans hname')
  exact Except.ok.inj (hcommand.symm.trans hcommand')

omit [LinearOrder Text] in
/-- A command from one name. -/
theorem exists_name_iff {logicalrelid : ℕ} {shardid : ℤ} {P : Text → Prop} :
    (∃ ns command, (do
        let shardname ← shardName logicalrelid shardid
        return [shardname]) = .ok ns ∧ format ns = .ok command ∧ P command) ↔
      ∃ command, CommandFor shardName format logicalrelid shardid command ∧ P command := by
  constructor
  · rintro ⟨ns, command, hns, hcommand, hP⟩
    obtain ⟨name, hname, hret⟩ := Rows.bind_eq_ok.mp hns
    obtain rfl : [name] = ns := Except.ok.inj hret
    exact ⟨command, ⟨name, hname, hcommand⟩, hP⟩
  · rintro ⟨command, ⟨name, hname, hcommand⟩, hP⟩
    exact ⟨[name], command, Rows.bind_eq_ok.mpr ⟨name, hname, rfl⟩, hcommand, hP⟩

/-! ## What is listed -/

/-- The row for a placement of a shard. -/
def placementOf (s : PgDistShard Text) (sp : PgDistShardPlacement Text) :
    ActiveShardPlacement Text :=
  ⟨s.logicalrelid, s.shardid, s.shardminvalue, s.shardmaxvalue, sp.nodename, sp.nodeport⟩

omit [LinearOrder Text] in
/-- The active placements of the shards, one shard after another. -/
theorem activeShardPlacements_eq (tables : ℕ → Bool) : activeShardPlacements c tables =
    (c.pgDistShard.filter fun s => tables s.logicalrelid).flatMap fun s =>
      (activePlacements c s).map (placementOf s) := by
  have hfilter := Rows.filter_join (r := fun (ds : PgDistShard Text) dsp =>
      decide (ds.shardid = dsp.shardid)) (A := c.pgDistShard) (B := c.pgDistShardPlacement)
    (fun ds => tables ds.logicalrelid) fun dsp => decide (dsp.shardstate = 1)
  have hcomm : (fun x : PgDistShard Text × PgDistShardPlacement Text =>
      decide (x.2.shardstate = 1) && tables x.1.logicalrelid) =
      fun x => tables x.1.logicalrelid && decide (x.2.shardstate = 1) :=
    funext fun x => Bool.and_comm _ _
  unfold activeShardPlacements activePlacements
  rw [hcomm, hfilter, Rows.join, List.map_flatMap]
  simp only [List.map_map, List.filter_filter]
  rfl

/-- The active placements of a table. -/
abbrev placementsOf (c : Catalogs Text) (table : ℕ) : List (ActiveShardPlacement Text) :=
  activeShardPlacements c fun t => decide (t = table)

omit [LinearOrder Text] in
theorem placementsOf_eq (table : ℕ) : placementsOf c table =
    (shardsOf c table).flatMap fun s => (activePlacements c s).map (placementOf s) :=
  activeShardPlacements_eq _

omit [LinearOrder Text] in
theorem mem_placementsOf {table : ℕ} {p : ActiveShardPlacement Text} :
    p ∈ placementsOf c table ↔
      ∃ s ∈ shardsOf c table, ∃ sp ∈ activePlacements c s, placementOf s sp = p := by
  rw [placementsOf_eq, List.mem_flatMap]
  simp only [List.mem_map]

omit [LinearOrder Text] in
/-- The placements of one of several tables. -/
theorem filter_activeShardPlacements (tables : ℕ → Bool) {table : ℕ} (h : tables table = true) :
    ((activeShardPlacements c tables).filter fun p => decide (p.logicalrelid = table)) =
      placementsOf c table := by
  unfold placementsOf activeShardPlacements
  rw [List.filter_map, List.filter_filter]
  refine congrArg _ (List.filter_congr fun x _ => ?_)
  by_cases hx : x.1.logicalrelid = table
  · simp [hx, h]
  · simp [hx]

/-- Placements on one node, of shards that hold the same range. -/
def samePlace (a b : ActiveShardPlacement Text) : Bool :=
  sqlEq a.shardminvalue b.shardminvalue && sqlEq a.shardmaxvalue b.shardmaxvalue &&
    decide (a.nodename = b.nodename) && decide (a.nodeport = b.nodeport)

/-- **The pairs listed**, of two different tables. -/
theorem perm_citusColocatedPlacements (hne : tableName1 ≠ tableName2) :
    (citusColocatedPlacements c tableName1 tableName2).Perm
      (Rows.join samePlace (placementsOf c tableName1) (placementsOf c tableName2)) := by
  have hcond : (colocatedPlacement tableName1 tableName2 : ActiveShardPlacement Text → _) =
      fun a b => samePlace a b &&
        (decide (a.logicalrelid = tableName1) && decide (b.logicalrelid = tableName2)) := by
    funext a b
    unfold colocatedPlacement samePlace
    by_cases ha : a.logicalrelid = tableName1
    · by_cases hb : b.logicalrelid = tableName2
      · simp [ha, hb, hne]
      · simp [hb]
    · simp [ha]
  unfold citusColocatedPlacements
  refine (Rows.perm_orderBy _ _).trans
    ((Rows.join_perm (Rows.perm_orderBy _ _) (Rows.perm_orderBy _ _)).trans ?_)
  rw [hcond, Rows.join_and, Rows.filter_join (fun a : ActiveShardPlacement Text =>
    decide (a.logicalrelid = tableName1)) fun b : ActiveShardPlacement Text =>
      decide (b.logicalrelid = tableName2), filter_activeShardPlacements _ (by simp),
    filter_activeShardPlacements _ (by simp)]

/-- Nothing is listed for a table and itself. -/
theorem citusColocatedPlacements_self (table : ℕ) :
    citusColocatedPlacements c table table = [] := by
  have hnil : Rows.orderBy (fun x => x.1.orderKey) ([] : List (ActiveShardPlacement Text × _)) =
      ([] : List (ActiveShardPlacement Text × ActiveShardPlacement Text)) := rfl
  unfold citusColocatedPlacements
  rw [← hnil]
  refine congrArg _ (List.eq_nil_iff_forall_not_mem.mpr fun x hx => ?_)
  obtain ⟨-, -, hr⟩ := Rows.mem_join.mp hx
  simp only [colocatedPlacement, Bool.and_eq_true, decide_eq_true_eq] at hr
  obtain ⟨⟨⟨⟨⟨-, hne⟩, -⟩, -⟩, ha⟩, hb⟩ := hr
  exact hne (ha.trans hb.symm)

/-- **What comes of the commands for placements.** -/
theorem runCommandOnPlacements_eq_ok_iff {rows : List (PlacementResult Text)} :
    runCommandOnPlacements c run shardName format tableName = .ok rows ↔
      List.Forall₂ (fun p row => ∃ command,
        CommandFor shardName format p.logicalrelid p.shardid command ∧
        ⟨p.nodename, p.nodeport, some p.shardid, (run p.nodename p.nodeport command).1,
          (run p.nodename p.nodeport command).2⟩ = row)
        (Rows.orderBy ActiveShardPlacement.orderKey (placementsOf c tableName)) rows := by
  unfold runCommandOnPlacements
  rw [runCommands_eq_ok_iff (fun p r =>
    PlacementResult.mk r.nodeName r.nodePort (some p.shardid) r.success r.result) fun i hi r => by
      rw [subscript_arrayAgg _ hi]]
  simp only [exists_name_iff]

/-- **What comes of the commands for pairs of placements.** -/
theorem runCommandOnColocatedPlacements_eq_ok_iff {rows : List (ColocatedResult Text)} :
    runCommandOnColocatedPlacements c partitions run shardName format tableName1 tableName2 =
        .ok rows ↔
      distributedTablesColocated partitions tableName1 tableName2 ≠ some false ∧
      (∀ p ∈ activeShardPlacements c fun t => decide (t = tableName1) || decide (t = tableName2),
        ∃ shardname, shardName p.logicalrelid p.shardid = .ok shardname) ∧
      List.Forall₂ (fun cp row => ∃ shardname1 shardname2 command,
        shardName cp.1.logicalrelid cp.1.shardid = .ok shardname1 ∧
        shardName cp.2.logicalrelid cp.2.shardid = .ok shardname2 ∧
        format [shardname1, shardname2] = .ok command ∧
        ⟨cp.1.nodename, cp.1.nodeport, some cp.1.shardid, some cp.2.shardid,
          (run cp.1.nodename cp.1.nodeport command).1,
          (run cp.1.nodename cp.1.nodeport command).2⟩ = row)
        (citusColocatedPlacements c tableName1 tableName2) rows := by
  unfold runCommandOnColocatedPlacements
  by_cases hfalse : distributedTablesColocated partitions tableName1 tableName2 = some false
  · rw [if_pos hfalse]
    exact iff_of_false (fun h => nomatch h) fun h => h.1 hfalse
  rw [if_neg hfalse, and_iff_right hfalse, ← Rows.exists_mapM_eq_ok]
  refine Rows.bind_eq_ok.trans (exists_and_right.trans (and_congr_right fun _ => ?_))
  rw [runCommands_eq_ok_iff (fun cp r => ColocatedResult.mk r.nodeName r.nodePort
    (some cp.1.shardid) (some cp.2.shardid) r.success r.result) fun i hi r => by
      rw [subscript_arrayAgg _ hi, subscript_arrayAgg _ hi]]
  refine iff_of_eq (congrArg (List.Forall₂ · _ _) (funext fun cp => funext fun row => propext ?_))
  constructor
  · rintro ⟨ns, command, hns, hcommand, hrow⟩
    obtain ⟨name1, hname1, hns⟩ := Rows.bind_eq_ok.mp hns
    obtain ⟨name2, hname2, hns⟩ := Rows.bind_eq_ok.mp hns
    obtain rfl : [name1, name2] = ns := Except.ok.inj hns
    exact ⟨name1, name2, command, hname1, hname2, hcommand, hrow⟩
  · rintro ⟨name1, name2, command, hname1, hname2, hcommand, hrow⟩
    exact ⟨[name1, name2], command, Rows.bind_eq_ok.mpr ⟨name1, hname1,
      Rows.bind_eq_ok.mpr ⟨name2, hname2, rfl⟩⟩, hcommand, hrow⟩

/-- Each pair that is listed is one of placements at the same place. -/
theorem mem_citusColocatedPlacements
    {cp : ActiveShardPlacement Text × ActiveShardPlacement Text} :
    cp ∈ citusColocatedPlacements c tableName1 tableName2 ↔ tableName1 ≠ tableName2 ∧
      cp.1 ∈ placementsOf c tableName1 ∧ cp.2 ∈ placementsOf c tableName2 ∧
      samePlace cp.1 cp.2 = true := by
  by_cases hne : tableName1 = tableName2
  · subst hne
    rw [citusColocatedPlacements_self]
    exact iff_of_false List.not_mem_nil fun h => h.1 rfl
  · rw [(perm_citusColocatedPlacements hne).mem_iff, Rows.mem_join]
    exact (and_iff_right hne).symm

omit [LinearOrder Text] in
theorem mem_activeShardPlacements_or {p : ActiveShardPlacement Text} :
    (p ∈ activeShardPlacements c fun t => decide (t = tableName1) || decide (t = tableName2)) ↔
      p ∈ placementsOf c tableName1 ∨ p ∈ placementsOf c tableName2 := by
  simp only [activeShardPlacements_eq, List.mem_flatMap, List.mem_filter, Bool.or_eq_true,
    and_or_left, or_and_right, exists_or]

/-! ## Every placement once -/

/-- What a placement holds, and where: the range of its shard, and its node. -/
def ActiveShardPlacement.spot (p : ActiveShardPlacement Text) :
    Option Text × Option Text × Text × ℤ :=
  (p.shardminvalue, p.shardmaxvalue, p.nodename, p.nodeport)

/-- A placement holds a range: the bounds of its shard are not `NULL`. -/
def ActiveShardPlacement.HasRange (p : ActiveShardPlacement Text) : Prop :=
  p.shardminvalue.isSome ∧ p.shardmaxvalue.isSome

theorem sqlEq_iff {x y : Option Text} : sqlEq x y = true ↔ x.isSome ∧ x = y := by
  cases x with
  | none => simp [sqlEq]
  | some x => cases y <;> simp [sqlEq]

/-- **Placements at the same place** hold a range, the same one, on the same node. -/
theorem samePlace_iff {p q : ActiveShardPlacement Text} :
    samePlace p q = true ↔ p.HasRange ∧ p.spot = q.spot := by
  unfold samePlace ActiveShardPlacement.HasRange ActiveShardPlacement.spot
  simp only [Bool.and_eq_true, sqlEq_iff, decide_eq_true_eq, Prod.mk.injEq]
  tauto

theorem samePlace_comm (p q : ActiveShardPlacement Text) : samePlace p q = samePlace q p := by
  refine Bool.eq_iff_iff.mpr ?_
  rw [samePlace_iff, samePlace_iff]
  unfold ActiveShardPlacement.HasRange ActiveShardPlacement.spot
  simp only [Prod.mk.injEq]
  constructor
  · rintro ⟨hrange, h₁, h₂, h₃, h₄⟩
    exact ⟨h₁ ▸ h₂ ▸ hrange, h₁.symm, h₂.symm, h₃.symm, h₄.symm⟩
  · rintro ⟨hrange, h₁, h₂, h₃, h₄⟩
    exact ⟨h₁ ▸ h₂ ▸ hrange, h₁.symm, h₂.symm, h₃.symm, h₄.symm⟩

/-- The partners of a placement, counted. -/
theorem length_filter_samePlace {p : ActiveShardPlacement Text} (hp : p.HasRange)
    (B : List (ActiveShardPlacement Text)) :
    (B.filter (samePlace p)).length = (B.map (·.spot)).count p.spot := by
  rw [List.count, List.countP_map, List.countP_eq_length_filter]
  refine congrArg List.length (List.filter_congr fun q _ => Bool.eq_iff_iff.mpr ?_)
  rw [samePlace_iff, and_iff_right hp, eq_comm]
  exact beq_iff_eq.symm

/-- **One partner each**: the two lists hold the same ranges on the same nodes, each of them
once. -/
theorem partners_iff {A B : List (ActiveShardPlacement Text)} :
    ((∀ p ∈ A, (B.filter (samePlace p)).length = 1) ∧
      ∀ q ∈ B, (A.filter (samePlace q)).length = 1) ↔
      (∀ p ∈ A, p.HasRange) ∧ (A.map (·.spot)).Nodup ∧ (A.map (·.spot)).Perm (B.map (·.spot)) := by
  have hrange {A B : List (ActiveShardPlacement Text)}
      (h : ∀ p ∈ A, (B.filter (samePlace p)).length = 1) : ∀ p ∈ A, p.HasRange := by
    intro p hp
    obtain ⟨q, hq⟩ := List.exists_mem_of_length_pos (h p hp ▸ Nat.one_pos)
    exact (samePlace_iff.mp (List.mem_filter.mp hq).2).1
  rw [← Rows.count_eq_one_iff, List.forall_mem_map, List.forall_mem_map]
  constructor
  · rintro ⟨hA, hB⟩
    exact ⟨hrange hA, fun p hp => length_filter_samePlace (hrange hA p hp) B ▸ hA p hp,
      fun q hq => length_filter_samePlace (hrange hB q hq) A ▸ hB q hq⟩
  · rintro ⟨hrange, hA, hB⟩
    refine ⟨fun p hp => length_filter_samePlace (hrange p hp) B ▸ hA p hp, fun q hq => ?_⟩
    -- what is at the same spot holds a range as well
    obtain ⟨p, hp, hspot⟩ := List.mem_map.mp (List.count_pos_iff.mp (hB q hq ▸ Nat.one_pos))
    have hq' : q.HasRange := by
      have hp' := hrange p hp
      unfold ActiveShardPlacement.spot at hspot
      unfold ActiveShardPlacement.HasRange at hp' ⊢
      simp only [Prod.mk.injEq] at hspot
      rwa [hspot.1, hspot.2.1] at hp'
    exact length_filter_samePlace hq' A ▸ hB q hq

/-- The placement that a command was run on. -/
def ColocatedResult.placement1 (r : ColocatedResult Text) : Option ℤ × Text × ℤ :=
  (r.shardid1, r.nodename, r.nodeport)

/-- The other one. -/
def ColocatedResult.placement2 (r : ColocatedResult Text) : Option ℤ × Text × ℤ :=
  (r.shardid2, r.nodename, r.nodeport)

/-- Where a placement is. -/
def ActiveShardPlacement.place (p : ActiveShardPlacement Text) : Option ℤ × Text × ℤ :=
  (some p.shardid, p.nodename, p.nodeport)

/-- Placements of a table that are at the same place are alike. -/
theorem samePlace_congr {table : ℕ} {p q : ActiveShardPlacement Text}
    (hp : p ∈ placementsOf c table) (hq : q ∈ placementsOf c table) (h : p.place = q.place) :
    samePlace p = samePlace q := by
  obtain ⟨s, hs, sp, -, rfl⟩ := mem_placementsOf.mp hp
  obtain ⟨t, ht, tp, -, rfl⟩ := mem_placementsOf.mp hq
  obtain ⟨hid, hnode⟩ := Prod.mk.inj h
  obtain ⟨hname, hport⟩ := Prod.mk.inj hnode
  obtain rfl : s = t := List.inj_on_of_nodup_map (shardsOf_nodup c table).1 hs ht
    (Option.some.inj hid)
  funext r
  unfold samePlace placementOf
  rw [show sp.nodename = tp.nodename from hname, show sp.nodeport = tp.nodeport from hport]

/-- The placements that the command was run on are those of the pairs listed. -/
theorem runCommandOnColocatedPlacements_placements {rows : List (ColocatedResult Text)}
    (h : runCommandOnColocatedPlacements c partitions run shardName format tableName1 tableName2 =
      .ok rows) :
    rows.map ColocatedResult.placement1 =
        (citusColocatedPlacements c tableName1 tableName2).map (fun cp => cp.1.place) ∧
      rows.map ColocatedResult.placement2 =
        (citusColocatedPlacements c tableName1 tableName2).map fun cp => cp.2.place := by
  obtain ⟨-, -, hall⟩ := runCommandOnColocatedPlacements_eq_ok_iff.mp h
  refine ⟨Rows.map_eq_of_forall₂ ?_ hall, ?_⟩
  · rintro cp row ⟨_, _, _, -, -, -, rfl⟩
    rfl
  · have hplace : (citusColocatedPlacements c tableName1 tableName2).map (fun cp => cp.2.place) =
        (citusColocatedPlacements c tableName1 tableName2).map fun cp =>
          (some cp.2.shardid, cp.1.nodename, cp.1.nodeport) := by
      refine List.map_congr_left fun cp hcp => ?_
      obtain ⟨-, -, -, hsame⟩ := mem_citusColocatedPlacements.mp hcp
      have hspot := (samePlace_iff.mp hsame).2
      simp only [ActiveShardPlacement.spot, Prod.mk.injEq] at hspot
      unfold ActiveShardPlacement.place
      rw [hspot.2.2.1, hspot.2.2.2]
    rw [hplace]
    refine Rows.map_eq_of_forall₂ ?_ hall
    rintro cp row ⟨_, _, _, -, -, -, rfl⟩
    rfl

/-- When the function succeeds. -/
theorem runCommandOnColocatedPlacements_isOk_iff :
    (∃ rows, runCommandOnColocatedPlacements c partitions run shardName format tableName1
        tableName2 = .ok rows) ↔
      distributedTablesColocated partitions tableName1 tableName2 ≠ some false ∧
      (∀ p, p ∈ placementsOf c tableName1 ∨ p ∈ placementsOf c tableName2 →
        ∃ shardname, shardName p.logicalrelid p.shardid = .ok shardname) ∧
      (tableName1 ≠ tableName2 → ∀ a ∈ placementsOf c tableName1, ∀ b ∈ placementsOf c tableName2,
        samePlace a b = true → ∀ shardname1 shardname2,
          shardName a.logicalrelid a.shardid = .ok shardname1 →
          shardName b.logicalrelid b.shardid = .ok shardname2 →
          ∃ command, format [shardname1, shardname2] = .ok command) := by
  refine (exists_congr fun rows => runCommandOnColocatedPlacements_eq_ok_iff).trans
    (exists_and_left.trans (and_congr_right fun _ => exists_and_left.trans ?_))
  rw [Rows.exists_forall₂_iff]
  simp only [mem_activeShardPlacements_or]
  refine and_congr_right fun hnamed => ?_
  constructor
  · intro h hne a ha b hb hsame name1 name2 hname1 hname2
    obtain ⟨_, _, _, command, hname1', hname2', hcommand, -⟩ :=
      h (a, b) (mem_citusColocatedPlacements.mpr ⟨hne, ha, hb, hsame⟩)
    obtain rfl := Except.ok.inj (hname1.symm.trans hname1')
    obtain rfl := Except.ok.inj (hname2.symm.trans hname2')
    exact ⟨command, hcommand⟩
  · rintro h ⟨a, b⟩ hcp
    obtain ⟨hne, ha, hb, hsame⟩ := mem_citusColocatedPlacements.mp hcp
    obtain ⟨name1, hname1⟩ := hnamed a (.inl ha)
    obtain ⟨name2, hname2⟩ := hnamed b (.inr hb)
    obtain ⟨command, hcommand⟩ := h hne a ha b hb hsame name1 name2 hname1 hname2
    exact ⟨_, name1, name2, command, hname1, hname2, hcommand, rfl⟩

/-- When the pairs listed are all placements of both tables, each of them once. -/
theorem perm_places_iff :
    ((citusColocatedPlacements c tableName1 tableName2).map fun cp => cp.1.place).Perm
        ((placementsOf c tableName1).map ActiveShardPlacement.place) ∧
      ((citusColocatedPlacements c tableName1 tableName2).map fun cp => cp.2.place).Perm
        ((placementsOf c tableName2).map ActiveShardPlacement.place) ↔
    (tableName1 ≠ tableName2 ∨ placementsOf c tableName1 = []) ∧
      (∀ p ∈ placementsOf c tableName1, p.HasRange) ∧
      ((placementsOf c tableName1).map ActiveShardPlacement.spot).Nodup ∧
      ((placementsOf c tableName1).map ActiveShardPlacement.spot).Perm
        ((placementsOf c tableName2).map ActiveShardPlacement.spot) := by
  by_cases hne : tableName1 = tableName2
  · -- nothing is listed for one table
    subst hne
    rw [citusColocatedPlacements_self, or_iff_right (not_not_intro rfl)]
    constructor
    · rintro ⟨hnil, -⟩
      have hempty := List.map_eq_nil_iff.mp (List.nil_perm.mp hnil)
      rw [hempty]
      exact ⟨rfl, (fun _ h => nomatch h), List.nodup_nil, List.Perm.refl _⟩
    · rintro ⟨hempty, -⟩
      rw [hempty]
      exact ⟨List.Perm.refl _, List.Perm.refl _⟩
  · have hperm := perm_citusColocatedPlacements (c := c) hne
    have hswap : ((Rows.join samePlace (placementsOf c tableName1)
        (placementsOf c tableName2)).map fun cp => cp.2.place).Perm
          ((Rows.join samePlace (placementsOf c tableName2) (placementsOf c tableName1)).map
            fun cp => cp.1.place) := by
      have h := (Rows.join_perm_swap samePlace (placementsOf c tableName1)
        (placementsOf c tableName2)).map fun cp => cp.2.place
      rwa [List.map_map, funext fun b => funext fun a => samePlace_comm a b] at h
    rw [(hperm.map fun cp => cp.1.place).congr_left, (hperm.map fun cp => cp.2.place).congr_left,
      hswap.congr_left, Rows.perm_map_fst_join_iff fun _ hp _ hq => samePlace_congr hp hq,
      Rows.perm_map_fst_join_iff fun _ hp _ hq => samePlace_congr hp hq, partners_iff,
      and_iff_right (Or.inl hne)]

/-- **Each placement of both tables once.** The function succeeds if and only if the colocation
ids do not say that the tables are not co-located, each active placement of either table has a
shard with a name, and `format` takes the names of each pair. Of a call that succeeds, the command
was run on each active placement of both tables, and once, if and only if they are two tables (or
have no placements), and the active placements of both hold the same ranges on the same nodes,
each of them once and none of them `NULL`. -/
theorem runCommandOnColocatedPlacements_covers_iff (c : Catalogs Text)
    (partitions : List PgDistPartition) (run : Runner Text)
    (shardName : ℕ → ℤ → Except Error Text) (format : List Text → Except Error Text)
    (tableName1 tableName2 : ℕ) :
    ((∃ rows, runCommandOnColocatedPlacements c partitions run shardName format tableName1
        tableName2 = .ok rows) ↔
      distributedTablesColocated partitions tableName1 tableName2 ≠ some false ∧
      (∀ p, p ∈ placementsOf c tableName1 ∨ p ∈ placementsOf c tableName2 →
        ∃ shardname, shardName p.logicalrelid p.shardid = .ok shardname) ∧
      (tableName1 ≠ tableName2 → ∀ a ∈ placementsOf c tableName1, ∀ b ∈ placementsOf c tableName2,
        samePlace a b = true → ∀ shardname1 shardname2,
          shardName a.logicalrelid a.shardid = .ok shardname1 →
          shardName b.logicalrelid b.shardid = .ok shardname2 →
          ∃ command, format [shardname1, shardname2] = .ok command)) ∧
    ∀ rows, runCommandOnColocatedPlacements c partitions run shardName format tableName1
        tableName2 = .ok rows →
      ((rows.map ColocatedResult.placement1).Perm
          ((placementsOf c tableName1).map ActiveShardPlacement.place) ∧
        (rows.map ColocatedResult.placement2).Perm
          ((placementsOf c tableName2).map ActiveShardPlacement.place) ↔
      (tableName1 ≠ tableName2 ∨ placementsOf c tableName1 = []) ∧
        (∀ p ∈ placementsOf c tableName1, p.HasRange) ∧
        ((placementsOf c tableName1).map ActiveShardPlacement.spot).Nodup ∧
        ((placementsOf c tableName1).map ActiveShardPlacement.spot).Perm
          ((placementsOf c tableName2).map ActiveShardPlacement.spot)) := by
  refine ⟨runCommandOnColocatedPlacements_isOk_iff, fun rows hrows => ?_⟩
  obtain ⟨hplaces1, hplaces2⟩ := runCommandOnColocatedPlacements_placements hrows
  rw [hplaces1, hplaces2]
  exact perm_places_iff

/-- Two tables that the command is not run on all placements of: the shards of a pair are not on
the same nodes. -/
theorem runCommandOnColocatedPlacements_covers_iff_slipped :
    ∃ rows, runCommandOnColocatedPlacements slippedCatalogs [⟨1, 7⟩, ⟨2, 7⟩]
        (fun _ _ command => (true, command)) (fun _ shardid => .ok (toString shardid))
        (fun names => .ok (String.join names)) 1 2 = .ok rows ∧
      ¬((rows.map ColocatedResult.placement1).Perm
          ((placementsOf slippedCatalogs 1).map ActiveShardPlacement.place) ∧
        (rows.map ColocatedResult.placement2).Perm
          ((placementsOf slippedCatalogs 2).map ActiveShardPlacement.place)) := by
  obtain ⟨hreturns, hcovers⟩ := runCommandOnColocatedPlacements_covers_iff slippedCatalogs
    [⟨1, 7⟩, ⟨2, 7⟩] (fun _ _ command => (true, command)) (fun _ shardid => .ok (toString shardid))
    (fun names => .ok (String.join names)) 1 2
  obtain ⟨rows, hrows⟩ := hreturns.mpr ⟨by decide, fun _ _ => ⟨_, rfl⟩,
    fun _ _ _ _ _ _ _ _ _ _ => ⟨_, rfl⟩⟩
  refine ⟨rows, hrows, fun hall => ?_⟩
  obtain ⟨-, -, -, hspots⟩ := (hcovers rows hrows).mp hall
  revert hspots
  decide +kernel

/-! ## A command on shards -/

omit [LinearOrder Text] in
/-- The shards of the table, with their active placements. -/
theorem mem_shardRows {x : PgDistShard Text × Option (PgDistShardPlacement Text)} :
    x ∈ shardRows c tableName ↔
      x.1 ∈ shardsOf c tableName ∧ ∃ sp ∈ activePlacements c x.1, x.2 = some sp := by
  unfold shardRows
  obtain ⟨s, o⟩ := x
  rw [List.mem_filter, Bool.and_eq_true, decide_eq_true_eq, shardsOf, List.mem_filter,
    decide_eq_true_eq]
  cases o with
  | none => simp
  | some sp =>
    rw [Rows.mem_leftJoin_some, Rows.mem_join, activePlacements]
    simp only [Option.any_some, List.mem_filter, Bool.and_eq_true, decide_eq_true_eq,
      Option.some.injEq, exists_eq_right']
    tauto

omit [LinearOrder Text] in
/-- A shard is listed with a node that it has an active placement on. -/
theorem exists_of_mem_citusShards {x : ℕ × ℤ × Text × ℤ} (hx : x ∈ citusShards c tableName) :
    ∃ s ∈ shardsOf c tableName, ∃ sp ∈ activePlacements c s,
      x = (s.logicalrelid, s.shardid, sp.nodename, sp.nodeport) := by
  obtain ⟨g, hg, hx⟩ := List.mem_filterMap.mp hx
  obtain ⟨-, hrows⟩ := Rows.mem_groupBy.mp (Rows.mem_orderBy.mp hg)
  obtain ⟨dsp, hdsp, rfl⟩ := Option.map_eq_some_iff.mp hx
  obtain ⟨y, hy, hsome⟩ := List.mem_filterMap.mp (List.mem_of_mem_head? hdsp)
  rw [hrows, List.mem_filter, mem_shardRows, decide_eq_true_eq] at hy
  obtain ⟨⟨hs, sp, hsp, hy₂⟩, hkey⟩ := hy
  obtain rfl : dsp = sp := Option.some.inj (hsome.symm.trans hy₂)
  exact ⟨y.1, hs, dsp, hsp, by rw [← hkey]; rfl⟩

omit [LinearOrder Text] in
/-- And each shard that has an active placement is. -/
theorem exists_mem_citusShards {s : PgDistShard Text} (hs : s ∈ shardsOf c tableName)
    (hact : (activeNodes c s).Nonempty) :
    ∃ x ∈ citusShards c tableName, x.1 = s.logicalrelid ∧ x.2.1 = s.shardid := by
  obtain ⟨n, hn⟩ := hact
  obtain ⟨sp, hsp, -⟩ := mem_activeNodes.mp hn
  have hrow := mem_shardRows (x := (s, some sp)).mpr ⟨hs, sp, hsp, rfl⟩
  -- the group of the shard has this row
  have hg : (shardKey (s, some sp), (shardRows c tableName).filter fun x =>
      shardKey x = shardKey (s, some sp)) ∈ Rows.groupBy shardKey (shardRows c tableName) :=
    Rows.mem_groupBy.mpr ⟨List.mem_map_of_mem hrow, rfl⟩
  have hdsp : sp ∈ ((shardRows c tableName).filter fun x =>
      shardKey x = shardKey (s, some sp)).filterMap (·.2) :=
    List.mem_filterMap.mpr ⟨_, List.mem_filter.mpr ⟨hrow, decide_eq_true rfl⟩, rfl⟩
  obtain ⟨dsp, hhead⟩ := Option.isSome_iff_exists.mp
    (List.isSome_head?.mpr (List.ne_nil_of_mem hdsp))
  exact ⟨_, List.mem_filterMap.mpr ⟨_, Rows.mem_orderBy.mpr hg, by rw [hhead]; rfl⟩, rfl, rfl⟩

omit [LinearOrder Text] in
theorem activeNodes_nonempty {s : PgDistShard Text} {sp : PgDistShardPlacement Text}
    (hsp : sp ∈ activePlacements c s) : (activeNodes c s).Nonempty :=
  ⟨_, mem_activeNodes.mpr ⟨sp, hsp, rfl⟩⟩

omit [LinearOrder Text] in
/-- What holds of the shards listed. -/
theorem forall_citusShards_iff {P : ℕ → ℤ → Prop} :
    (∀ x ∈ citusShards c tableName, P x.1 x.2.1) ↔
      ∀ s ∈ shardsOf c tableName, (activeNodes c s).Nonempty → P s.logicalrelid s.shardid := by
  constructor
  · intro h s hs hact
    obtain ⟨x, hx, hrel, hid⟩ := exists_mem_citusShards hs hact
    exact hrel ▸ hid ▸ h x hx
  · intro h x hx
    obtain ⟨s, hs, sp, hsp, rfl⟩ := exists_of_mem_citusShards hx
    exact h s hs (activeNodes_nonempty hsp)

omit [LinearOrder Text] in
/-- The same holds of the placements listed. -/
theorem forall_placementsOf_iff {P : ℕ → ℤ → Prop} :
    (∀ p ∈ placementsOf c tableName, P p.logicalrelid p.shardid) ↔
      ∀ s ∈ shardsOf c tableName, (activeNodes c s).Nonempty → P s.logicalrelid s.shardid := by
  constructor
  · rintro h s hs ⟨n, hn⟩
    obtain ⟨sp, hsp, -⟩ := mem_activeNodes.mp hn
    exact h _ (mem_placementsOf.mpr ⟨s, hs, sp, hsp, rfl⟩)
  · intro h p hp
    obtain ⟨s, hs, sp, hsp, rfl⟩ := mem_placementsOf.mp hp
    exact h s hs (activeNodes_nonempty hsp)

omit [LinearOrder Text] in
/-- The shards are listed by their ids. -/
theorem pairwise_citusShards (c : Catalogs Text) (tableName : ℕ) :
    (citusShards c tableName).Pairwise fun x y => x.2.1 < y.2.1 := by
  have hkeys : ((Rows.groupBy shardKey (shardRows c tableName)).map fun g => toLex g.1).Nodup := by
    have h := (Rows.nodup_map_fst_groupBy shardKey (shardRows c tableName)).map toLex.injective
    rwa [List.map_map] at h
  refine List.pairwise_filterMap.mpr (List.Pairwise.imp_of_mem ?_ (Rows.pairwise_lt_orderBy hkeys))
  intro g g' hg hg' hlt x hx y hy
  obtain ⟨s, hs, _, _, hxs⟩ := exists_of_mem_citusShards (List.mem_filterMap.mpr ⟨g, hg, hx⟩)
  obtain ⟨t, ht, _, _, hyt⟩ := exists_of_mem_citusShards (List.mem_filterMap.mpr ⟨g', hg', hy⟩)
  obtain ⟨dsp, -, rfl⟩ := Option.map_eq_some_iff.mp hx
  obtain ⟨dsp', -, rfl⟩ := Option.map_eq_some_iff.mp hy
  have hrel : g.1.1 = g'.1.1 := by
    calc g.1.1 = s.logicalrelid := congrArg (fun x : ℕ × ℤ × Text × ℤ => x.1) hxs
      _ = tableName := of_decide_eq_true (List.mem_filter.mp hs).2
      _ = t.logicalrelid := (of_decide_eq_true (List.mem_filter.mp ht).2).symm
      _ = g'.1.1 := congrArg (fun x : ℕ × ℤ × Text × ℤ => x.1) hyt.symm
  rcases Prod.Lex.lt_iff.mp hlt with hlt | ⟨-, hlt⟩
  · exact absurd hrel (ne_of_lt hlt)
  · exact hlt

omit [LinearOrder Text] in
/-- The shards listed are those that have an active placement. -/
theorem mem_map_citusShards {id : ℤ} : id ∈ (citusShards c tableName).map (·.2.1) ↔
    ∃ s ∈ shardsOf c tableName, s.shardid = id ∧ (activeNodes c s).Nonempty := by
  rw [List.mem_map]
  constructor
  · rintro ⟨x, hx, rfl⟩
    obtain ⟨s, hs, sp, hsp, rfl⟩ := exists_of_mem_citusShards hx
    exact ⟨s, hs, rfl, activeNodes_nonempty hsp⟩
  · rintro ⟨s, hs, rfl, hact⟩
    obtain ⟨x, hx, -, hid⟩ := exists_mem_citusShards hs hact
    exact ⟨x, hx, hid⟩

omit [LinearOrder Text] in
/-- **The notice** is for tables some of whose shards are listed, and some are not. -/
theorem listed_ne_iff :
    (citusShards c tableName ≠ [] ∧
        (shardsOf c tableName).length ≠ (citusShards c tableName).length) ↔
      (∃ s ∈ shardsOf c tableName, (activeNodes c s).Nonempty) ∧
        ∃ s ∈ shardsOf c tableName, activeNodes c s = ∅ := by
  classical
  have hids : ((citusShards c tableName).map (·.2.1)).Nodup :=
    List.pairwise_map.mpr ((pairwise_citusShards c tableName).imp fun h => ne_of_lt h)
  have hperm : ((citusShards c tableName).map (·.2.1)).Perm
      (((shardsOf c tableName).filter fun s => decide (activeNodes c s).Nonempty).map
        (·.shardid)) := by
    refine (List.perm_ext_iff_of_nodup hids
      ((shardsOf_nodup c tableName).1.sublist (List.filter_sublist.map _))).mpr fun id => ?_
    rw [mem_map_citusShards, List.mem_map]
    simp only [List.mem_filter, decide_eq_true_eq, and_right_comm, and_assoc]
  have hlen : (citusShards c tableName).length =
      ((shardsOf c tableName).filter fun s => decide (activeNodes c s).Nonempty).length := by
    simpa only [List.length_map] using hperm.length_eq
  rw [← List.length_pos_iff_ne_nil, hlen]
  refine and_congr ?_ ?_
  · rw [List.length_pos_iff_exists_mem]
    simp only [List.mem_filter, decide_eq_true_eq]
  · rw [ne_comm, ne_eq, List.length_filter_eq_length_iff]
    simp only [decide_eq_true_eq, not_forall, ← Set.not_nonempty_iff_eq_empty, exists_prop]

omit [LinearOrder Text] in
/-- **What comes of the commands for shards.** -/
theorem runCommandOnShards_eq_ok_iff {notice : Bool} {rows : List (ShardResult Text)} :
    runCommandOnShards c run shardName format tableName = .ok (notice, rows) ↔
      (notice = true ↔ citusShards c tableName ≠ [] ∧
        (shardsOf c tableName).length ≠ (citusShards c tableName).length) ∧
      List.Forall₂ (fun x row => ∃ command, CommandFor shardName format x.1 x.2.1 command ∧
        ⟨some x.2.1, (run x.2.2.1 x.2.2.2 command).1, (run x.2.2.1 x.2.2.2 command).2⟩ = row)
        (citusShards c tableName) rows := by
  have hnotice : ((arrayAgg ((citusShards c tableName).map (·.2.2.1))).any fun w =>
      decide ((shardsOf c tableName).length ≠ w.length)) = true ↔ citusShards c tableName ≠ [] ∧
        (shardsOf c tableName).length ≠ (citusShards c tableName).length := by
    cases citusShards c tableName with
    | nil => simp [arrayAgg]
    | cons x l => simp [arrayAgg]
  have hall (rows : List (ShardResult Text)) : runCommands run format (citusShards c tableName)
      (fun cs => do
        let shardname ← shardName cs.1 cs.2.1
        return [shardname]) (·.2.2.1) (·.2.2.2) (fun r ordinality =>
          ⟨subscript (arrayAgg ((citusShards c tableName).map (·.2.1))) ordinality, r.success,
            r.result⟩) = .ok rows ↔ _ :=
    runCommands_eq_ok_iff (fun x r => ShardResult.mk (some x.2.1) r.success r.result)
      fun i hi r => by rw [subscript_arrayAgg _ hi]
  simp only [exists_name_iff] at hall
  rw [← hall]
  refine Rows.map_eq_ok.trans ?_
  constructor
  · rintro ⟨rows', hrows, heq⟩
    obtain ⟨hn, rfl⟩ := Prod.mk.inj heq
    exact ⟨hn ▸ hnotice, hrows⟩
  · rintro ⟨hn, hrows⟩
    exact ⟨rows, hrows, Prod.ext (Bool.eq_iff_iff.mpr (hnotice.trans hn.symm)) rfl⟩

/-- **One placement of each shard, of those that all placements give.** Both functions succeed
if and only if there is a command for each shard of the table that has an active placement: the
shard has a name, and `format` takes it. Then the function returns a row for each of these
shards, by the ids of the shards; each of them is, less its node, a row of
`run_command_on_placements`, which has one for each active placement. The notice is raised if
and only if there are shards with an active placement and shards without: it is not when no
shard has one. -/
theorem runCommandOnShards_spec (c : Catalogs Text) (run : Runner Text)
    (shardName : ℕ → ℤ → Except Error Text) (format : List Text → Except Error Text)
    (tableName : ℕ) :
    ((∃ placements, runCommandOnPlacements c run shardName format tableName = .ok placements) ↔
      ∀ s ∈ shardsOf c tableName, (activeNodes c s).Nonempty →
        ∃ command, CommandFor shardName format s.logicalrelid s.shardid command) ∧
    ((∃ out, runCommandOnShards c run shardName format tableName = .ok out) ↔
      ∀ s ∈ shardsOf c tableName, (activeNodes c s).Nonempty →
        ∃ command, CommandFor shardName format s.logicalrelid s.shardid command) ∧
    ∀ placements notice rows,
      runCommandOnPlacements c run shardName format tableName = .ok placements →
      runCommandOnShards c run shardName format tableName = .ok (notice, rows) →
      (placements.map fun p => (p.shardid, p.nodename, p.nodeport)).Perm
          ((placementsOf c tableName).map ActiveShardPlacement.place) ∧
        (∃ ids : List ℤ, ids.Pairwise (· < ·) ∧
          (∀ id, id ∈ ids ↔
            ∃ s ∈ shardsOf c tableName, s.shardid = id ∧ (activeNodes c s).Nonempty) ∧
          rows.map (·.shardid) = ids.map some) ∧
        (∀ r ∈ rows, ∃ p ∈ placements,
          (p.shardid, p.success, p.result) = (r.shardid, r.success, r.result)) ∧
        (notice = true ↔
          (∃ s ∈ shardsOf c tableName, (activeNodes c s).Nonempty) ∧
            ∃ s ∈ shardsOf c tableName, activeNodes c s = ∅) := by
  have hrow {β : Type} {C : Text → Prop} {row : Text → β} :
      (∃ b command, C command ∧ row command = b) ↔ ∃ command, C command :=
    ⟨fun ⟨_, command, hC, _⟩ => ⟨command, hC⟩, fun ⟨command, hC⟩ => ⟨_, command, hC, rfl⟩⟩
  refine ⟨?_, ?_, fun placements notice rows hplacements hshards => ?_⟩
  · refine (exists_congr fun _ => runCommandOnPlacements_eq_ok_iff).trans
      (Rows.exists_forall₂_iff.trans ?_)
    simp only [Rows.mem_orderBy, hrow]
    exact forall_placementsOf_iff (P := fun table id =>
      ∃ command, CommandFor shardName format table id command)
  · rw [← forall_citusShards_iff (P := fun table id =>
      ∃ command, CommandFor shardName format table id command)]
    constructor
    · rintro ⟨⟨notice, rows⟩, hout⟩ x hx
      obtain ⟨row, command, hcommand, -⟩ :=
        Rows.exists_forall₂_iff.mp ⟨rows, (runCommandOnShards_eq_ok_iff.mp hout).2⟩ x hx
      exact ⟨command, hcommand⟩
    · intro h
      obtain ⟨rows, hrows⟩ := Rows.exists_forall₂_iff.mpr fun x hx => hrow.mpr (h x hx)
      exact ⟨(_, rows), runCommandOnShards_eq_ok_iff.mpr ⟨decide_eq_true_iff, hrows⟩⟩
  · have hall₁ := runCommandOnPlacements_eq_ok_iff.mp hplacements
    obtain ⟨hnotice, hall₂⟩ := runCommandOnShards_eq_ok_iff.mp hshards
    refine ⟨?_, ⟨(citusShards c tableName).map (·.2.1), ?_, fun id => mem_map_citusShards, ?_⟩,
      fun r hr => ?_, hnotice.trans listed_ne_iff⟩
    · rw [Rows.map_eq_of_forall₂ (f := ActiveShardPlacement.place) ?_ hall₁]
      · exact (Rows.perm_orderBy _ _).map _
      · rintro p row ⟨command, -, rfl⟩
        rfl
    · exact List.pairwise_map.mpr (pairwise_citusShards c tableName)
    · rw [List.map_map, Rows.map_eq_of_forall₂ ?_ hall₂]
      rintro x row ⟨command, -, rfl⟩
      rfl
    · obtain ⟨x, hx, command, hcommand, rfl⟩ := Rows.exists_of_forall₂ hall₂ hr
      obtain ⟨s, hs, sp, hsp, rfl⟩ := exists_of_mem_citusShards hx
      -- the placement has the row for the same command
      obtain ⟨p, hp, command', hcommand', rfl⟩ := Rows.exists_of_forall₂ hall₁.flip
        (Rows.mem_orderBy.mpr (mem_placementsOf.mpr ⟨s, hs, sp, hsp, rfl⟩))
      obtain rfl := hcommand.unique hcommand'
      exact ⟨_, hp, rfl⟩

end Rows

end RunCommand
