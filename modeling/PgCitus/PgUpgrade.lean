import Mathlib.Logic.Equiv.Defs
import PgCitus.Library.Rows

/-!
# Taking the catalogs through pg_upgrade

`pg_upgrade` moves the tables of the users to a new server, but not the contents of an
extension's own tables. Before it runs, `citus_prepare_pg_upgrade` copies the catalogs of
the extension to tables in the schema `public`; when the new server is there,
`citus_finish_pg_upgrade` copies them back, and sets up again what gets lost on the way:
the values of sequences and the triggers on distributed tables.

Oids of functions are different on the new server. Where a catalog has such oids, what is
copied are names: the signatures of functions, and the addresses of objects as
`pg_identify_object_as_address` gives them.

All of this is modelled on the catalogs as lists of rows, with their unique indexes. The
entries of `pg_depend` are left out, and so are the checks on single rows, which a row
that was in the table before passes again.
-/

namespace PgUpgrade

abbrev Oid := ℕ

/-! ## The catalogs -/

structure PgDistPartition where
  logicalrelid : Oid
  partmethod : Char
  partkey : Option String
  colocationid : ℤ
  repmodel : Char
deriving DecidableEq

structure PgDistShard where
  logicalrelid : Oid
  shardid : ℤ
  shardstorage : Char
  shardminvalue : Option String
  shardmaxvalue : Option String
deriving DecidableEq

structure PgDistPlacement where
  placementid : ℤ
  shardid : ℤ
  shardstate : ℤ
  shardlength : ℤ
  groupid : ℤ
deriving DecidableEq

structure PgDistNodeMetadata where
  metadata : String
deriving DecidableEq

/-- `noderole`. -/
inductive Noderole where
  | primary
  | secondary
  | unavailable
deriving DecidableEq

structure PgDistNode where
  nodeid : ℤ
  groupid : ℤ
  nodename : String
  nodeport : ℤ
  noderack : String
  hasmetadata : Bool
  isactive : Bool
  noderole : Noderole
  nodecluster : String
  metadatasynced : Option Bool
  shouldhaveshards : Bool
deriving DecidableEq

structure PgDistLocalGroup where
  groupid : ℤ
deriving DecidableEq

structure PgDistTransaction where
  groupid : ℤ
  gid : String
deriving DecidableEq

structure PgDistColocation where
  colocationid : ℤ
  shardcount : ℤ
  replicationfactor : ℤ
  distributioncolumntype : Oid
  distributioncolumncollation : Oid
deriving DecidableEq

structure PgDistAuthinfo where
  nodeid : ℤ
  rolename : String
  authinfo : String
deriving DecidableEq

structure PgDistPoolinfo where
  nodeid : ℤ
  poolinfo : String
deriving DecidableEq

/-- A `float4`, which is copied only: its bits. -/
abbrev Float4 := UInt32

structure PgDistRebalanceStrategy where
  name : String
  defaultStrategy : Bool
  shardCostFunction : Oid
  nodeCapacityFunction : Oid
  shardAllowedOnNodeFunction : Oid
  defaultThreshold : Float4
  minimumThreshold : Float4
  improvementThreshold : Float4
deriving DecidableEq

/-- An object, by its oid. -/
structure ObjectAddress where
  classid : Oid
  objid : Oid
  objsubid : ℤ
deriving DecidableEq

structure PgDistObject where
  address : ObjectAddress
  -- fields used for upgrades
  type : Option String
  objectNames : Option (List String)
  objectArgs : Option (List String)
  -- fields of distributed functions
  distributionArgumentIndex : Option ℤ
  colocationid : Option ℤ
deriving DecidableEq

/-- **The twelve catalogs**, with what is unique in them. A group of nodes has one primary
at most, and one rebalance strategy at most is the default. -/
structure Catalogs where
  pgDistPartition : Rows.Table (Rows.unique PgDistPartition.logicalrelid)
  pgDistShard : Rows.Table (Rows.unique PgDistShard.shardid)
  pgDistPlacement : Rows.Table ((Rows.unique PgDistPlacement.placementid).and
    (Rows.unique fun p : PgDistPlacement => (p.shardid, p.groupid)))
  pgDistNodeMetadata : Rows.Table (Rows.unconstrained (α := PgDistNodeMetadata))
  pgDistNode : Rows.Table (((Rows.unique PgDistNode.nodeid).and
    (Rows.unique fun n : PgDistNode => (n.nodename, n.nodeport))).and
      ((Rows.unique PgDistNode.groupid).onlyFor fun n => decide (n.noderole = .primary)))
  pgDistLocalGroup : Rows.Table (Rows.unique PgDistLocalGroup.groupid)
  pgDistTransaction : Rows.Table (Rows.unique fun t : PgDistTransaction => (t.groupid, t.gid))
  pgDistColocation : Rows.Table (Rows.unique PgDistColocation.colocationid)
  pgDistAuthinfo : Rows.Table (Rows.unique fun a : PgDistAuthinfo => (a.rolename, a.nodeid))
  pgDistPoolinfo : Rows.Table (Rows.unique PgDistPoolinfo.nodeid)
  pgDistRebalanceStrategy : Rows.Table ((Rows.unique PgDistRebalanceStrategy.name).and
    ((Rows.unique PgDistRebalanceStrategy.defaultStrategy).onlyFor
      PgDistRebalanceStrategy.defaultStrategy))
  pgDistObject : Rows.Table (Rows.unique PgDistObject.address)

/-- The catalogs of a new server. -/
def Catalogs.empty : Catalogs :=
  ⟨.empty _, .empty _, .empty _, .empty _, .empty _, .empty _, .empty _, .empty _, .empty _,
    .empty _, .empty _, .empty _⟩

/-! ## The backup tables -/

/-- A row of `public.pg_dist_rebalance_strategy`: with signatures, instead of oids. -/
structure NamedStrategy where
  name : String
  defaultStrategy : Bool
  shardCostFunction : String
  nodeCapacityFunction : String
  shardAllowedOnNodeFunction : String
  defaultThreshold : Float4
  minimumThreshold : Float4
  improvementThreshold : Float4

/-- An object, by its names. -/
structure NamedAddress where
  type : String
  objectNames : List String
  objectArgs : List String
deriving DecidableEq

/-- A row of `public.pg_dist_object`. -/
structure NamedObject where
  address : NamedAddress
  distributionArgumentIndex : Option ℤ
  colocationid : Option ℤ

/-- **The backup tables**, in the schema `public`. A table may not exist. -/
structure Backup where
  pgDistPartition : Option (List PgDistPartition)
  pgDistShard : Option (List PgDistShard)
  pgDistPlacement : Option (List PgDistPlacement)
  pgDistNodeMetadata : Option (List PgDistNodeMetadata)
  pgDistNode : Option (List PgDistNode)
  pgDistLocalGroup : Option (List PgDistLocalGroup)
  pgDistTransaction : Option (List PgDistTransaction)
  pgDistColocation : Option (List PgDistColocation)
  pgDistAuthinfo : Option (List PgDistAuthinfo)
  pgDistPoolinfo : Option (List PgDistPoolinfo)
  pgDistRebalanceStrategy : Option (List NamedStrategy)
  pgDistObject : Option (List NamedObject)

/-- No backup table exists. -/
def Backup.none : Backup :=
  ⟨.none, .none, .none, .none, .none, .none, .none, .none, .none, .none, .none, .none⟩

/-! ## The rest of the database -/

/-- A sequence with its bounds. -/
structure Sequence (minValue maxValue : ℤ) where
  lastValue : ℤ
  isCalled : Bool

/-- The value that `nextval` returns. -/
def Sequence.next {lo hi : ℤ} (s : Sequence lo hi) : ℤ :=
  if s.isCalled then s.lastValue + 1 else s.lastValue

/-- A new sequence. -/
def Sequence.start (lo hi : ℤ) : Sequence lo hi := ⟨lo, false⟩

/-- **The sequences that ids are drawn from.** -/
structure Sequences where
  pgDistShardidSeq : Sequence 102008 9223372036854775807
  pgDistPlacementPlacementidSeq : Sequence 1 9223372036854775807
  pgDistGroupidSeq : Sequence 1 4294967296
  pgDistNodeNodeidSeq : Sequence 1 4294967294
  pgDistColocationidSeq : Sequence 1 4294967296

/-- The sequences of a new server. -/
def Sequences.start : Sequences :=
  ⟨.start _ _, .start _ _, .start _ _, .start _ _, .start _ _⟩

/-- A trigger that executes `citus_truncate_trigger`. -/
structure Trigger where
  tgrelid : Oid
  tgname : String
  tgisinternal : Bool
deriving DecidableEq

/-- `pg_class.relkind`. -/
inductive Relkind where
  /-- An ordinary table. -/
  | relation
  | partitionedTable
  | foreignTable
  | view
  /-- Any of the others: indexes, sequences, materialized views and so on. -/
  | other
deriving DecidableEq

/-- What `array_cat_agg` is defined for. -/
inductive AggArgument where
  | anyarray
  | anycompatiblearray
deriving DecidableEq

/-- **How a server names functions and objects**, and finds them by their names. -/
structure ObjectNames where
  /-- `regprocedure::text`. -/
  regprocedureText : Oid → String
  /-- `text::regprocedure`. -/
  textRegprocedure : String → Option Oid
  /-- `pg_identify_object_as_address`. -/
  identifyObjectAsAddress : ObjectAddress → NamedAddress
  /-- `pg_get_object_address`. -/
  getObjectAddress : NamedAddress → Option ObjectAddress

/-- A database with the extension. -/
structure Database where
  serverVersion : ℕ
  names : ObjectNames
  /-- The kind of a relation, if there is one with this oid. -/
  relkind : Oid → Option Relkind
  catalogs : Catalogs
  backup : Backup
  sequences : Sequences
  triggers : List Trigger
  arrayCatAggs : List AggArgument

/-- What is raised. -/
inductive Error where
  /-- `relation "%" already exists` -/
  | duplicateTable
  /-- `relation "%" does not exist` -/
  | undefinedTable
  /-- `function "%" already exists with same argument types` -/
  | duplicateFunction
  /-- `more than one row returned by a subquery used as an expression` -/
  | cardinalityViolation
  /-- `duplicate key value violates unique constraint "%"` -/
  | uniqueViolation
  /-- `function "%" does not exist` -/
  | undefinedFunction
  /-- `% "%" does not exist`, for any object. -/
  | undefinedObject
  /-- `integer out of range`, or `bigint out of range` -/
  | outOfRange
  /-- `setval: value % is out of bounds for sequence "%" (%..%)` -/
  | setvalOutOfBounds
  /-- `syntax error at or near "%"` -/
  | syntaxError
  /-- `"%" is a foreign table`, `"%" is a view`, or `relation "%" cannot have triggers` -/
  | wrongObjectType
  /-- `trigger "%" for relation "%" already exists` -/
  | duplicateTrigger
deriving DecidableEq

/-- A result that may be missing, with the error for that. -/
def orRaise {α : Type} (e : Error) : Option α → Except Error α
  | some a => .ok a
  | none => .error e

/-! ## Preparing -/

/-- `CREATE TABLE … AS SELECT …`. -/
def createTableAs {α : Type} (table : Option (List α)) (rows : List α) :
    Except Error (Option (List α)) :=
  match table with
  | some _ => .error .duplicateTable
  | none => .ok (some rows)

/-- The row of `public.pg_dist_rebalance_strategy` for a strategy. -/
def nameStrategy (names : ObjectNames) (r : PgDistRebalanceStrategy) : NamedStrategy where
  name := r.name
  defaultStrategy := r.defaultStrategy
  shardCostFunction := names.regprocedureText r.shardCostFunction
  nodeCapacityFunction := names.regprocedureText r.nodeCapacityFunction
  shardAllowedOnNodeFunction := names.regprocedureText r.shardAllowedOnNodeFunction
  defaultThreshold := r.defaultThreshold
  minimumThreshold := r.minimumThreshold
  improvementThreshold := r.improvementThreshold

/-- The row of `public.pg_dist_object` for an object. -/
def nameObject (names : ObjectNames) (o : PgDistObject) : NamedObject where
  address := names.identifyObjectAsAddress o.address
  distributionArgumentIndex := o.distributionArgumentIndex
  colocationid := o.colocationid

/-- `Drop existing backup tables`. -/
def dropExistingBackupTables (b : Backup) : Backup :=
  { b with
    pgDistPartition := none
    pgDistShard := none
    pgDistPlacement := none
    pgDistNodeMetadata := none
    pgDistNode := none
    pgDistLocalGroup := none
    pgDistTransaction := none
    pgDistColocation := none
    pgDistAuthinfo := none
    pgDistPoolinfo := none
    pgDistRebalanceStrategy := none
    pgDistObject := none }

/-- `backup citus catalog tables`. -/
def backupCatalogTables (names : ObjectNames) (c : Catalogs) (b : Backup) :
    Except Error Backup := do
  let pgDistPartition ← createTableAs b.pgDistPartition c.pgDistPartition.rows
  let pgDistShard ← createTableAs b.pgDistShard c.pgDistShard.rows
  let pgDistPlacement ← createTableAs b.pgDistPlacement c.pgDistPlacement.rows
  let pgDistNodeMetadata ← createTableAs b.pgDistNodeMetadata c.pgDistNodeMetadata.rows
  let pgDistNode ← createTableAs b.pgDistNode c.pgDistNode.rows
  let pgDistLocalGroup ← createTableAs b.pgDistLocalGroup c.pgDistLocalGroup.rows
  let pgDistTransaction ← createTableAs b.pgDistTransaction c.pgDistTransaction.rows
  let pgDistColocation ← createTableAs b.pgDistColocation c.pgDistColocation.rows
  let pgDistAuthinfo ← createTableAs b.pgDistAuthinfo c.pgDistAuthinfo.rows
  let pgDistPoolinfo ← createTableAs b.pgDistPoolinfo c.pgDistPoolinfo.rows
  let pgDistRebalanceStrategy ← createTableAs b.pgDistRebalanceStrategy
    (c.pgDistRebalanceStrategy.rows.map (nameStrategy names))
  let pgDistObject ← createTableAs b.pgDistObject (c.pgDistObject.rows.map (nameObject names))
  return { pgDistPartition, pgDistShard, pgDistPlacement, pgDistNodeMetadata, pgDistNode,
           pgDistLocalGroup, pgDistTransaction, pgDistColocation, pgDistAuthinfo, pgDistPoolinfo,
           pgDistRebalanceStrategy, pgDistObject }

/-- `citus_prepare_pg_upgrade`. -/
def citusPreparePgUpgrade (s : Database) : Except Error Database := do
  -- DROP AGGREGATE IF EXISTS, for either argument
  let arrayCatAggs := (s.arrayCatAggs.filter (· ≠ .anyarray)).filter (· ≠ .anycompatiblearray)
  let backup ← backupCatalogTables s.names s.catalogs (dropExistingBackupTables s.backup)
  return { s with arrayCatAggs, backup }

/-! ## Upgrading -/

/-- An upgrade: the new version of the server, and the new oids of functions. -/
structure Upgrade where
  serverVersion : ℕ
  procOid : Equiv.Perm Oid

/-- The oid of the catalog `pg_proc`. -/
def pgProc : Oid := 1255

/-- The address of an object when the oids of functions change. -/
def ObjectAddress.renumber (procOid : Oid → Oid) (a : ObjectAddress) : ObjectAddress :=
  if a.classid = pgProc then { a with objid := procOid a.objid } else a

/-- The names on a new server, where functions have other oids, and the names that they
had. -/
def ObjectNames.renumber (names : ObjectNames) (procOid : Equiv.Perm Oid) : ObjectNames where
  regprocedureText f := names.regprocedureText (procOid.symm f)
  textRegprocedure t := (names.textRegprocedure t).map procOid
  identifyObjectAsAddress a := names.identifyObjectAsAddress (a.renumber procOid.symm)
  getObjectAddress n := (names.getObjectAddress n).map (ObjectAddress.renumber procOid)

/-- **`pg_upgrade`**: it keeps the tables in `public`, the oids of relations, and of the
triggers those that are not internal; the extension's own tables are empty, and its sequences
new. -/
def pgUpgrade (u : Upgrade) (s : Database) : Database where
  serverVersion := u.serverVersion
  names := s.names.renumber u.procOid
  relkind := s.relkind
  catalogs := .empty
  backup := s.backup
  sequences := .start
  triggers := s.triggers.filter fun t => !t.tgisinternal
  arrayCatAggs := s.arrayCatAggs

/-! ## Finishing -/

/-- `CREATE AGGREGATE array_cat_agg`, and the search for its oid. -/
def createArrayCatAgg (serverVersion : ℕ) (aggs : List AggArgument) :
    Except Error (List AggArgument) :=
  let arg : AggArgument := if serverVersion ≥ 14 then .anycompatiblearray else .anyarray
  if aggs.contains arg then .error .duplicateFunction
  else if (aggs ++ [arg]).length > 1 then .error .cardinalityViolation
  else .ok (aggs ++ [arg])

/-- `INSERT INTO … SELECT * FROM …`. -/
def insertSelect {α : Type} {con : Rows.Constraint α} (table : Rows.Table con)
    (backup : Option (List α)) : Except Error (Rows.Table con) := do
  let rows ← orRaise .undefinedTable backup
  orRaise .uniqueViolation (table.insert rows)

/-- The strategy for a row of `public.pg_dist_rebalance_strategy`. -/
def restoreStrategy (names : ObjectNames) (r : NamedStrategy) :
    Except Error PgDistRebalanceStrategy := do
  let shardCostFunction ←
    orRaise .undefinedFunction (names.textRegprocedure r.shardCostFunction)
  let nodeCapacityFunction ←
    orRaise .undefinedFunction (names.textRegprocedure r.nodeCapacityFunction)
  let shardAllowedOnNodeFunction ←
    orRaise .undefinedFunction (names.textRegprocedure r.shardAllowedOnNodeFunction)
  return { name := r.name, defaultStrategy := r.defaultStrategy, shardCostFunction,
           nodeCapacityFunction, shardAllowedOnNodeFunction,
           defaultThreshold := r.defaultThreshold, minimumThreshold := r.minimumThreshold,
           improvementThreshold := r.improvementThreshold }

/-- The object for a row of `public.pg_dist_object`. Its other columns get their defaults. -/
def restoreObject (names : ObjectNames) (r : NamedObject) : Except Error PgDistObject := do
  let address ← orRaise .undefinedObject (names.getObjectAddress r.address)
  return { address, type := none, objectNames := none, objectArgs := none,
           distributionArgumentIndex := r.distributionArgumentIndex,
           colocationid := r.colocationid }

/-- `restore citus catalog tables`. -/
def restoreCatalogTables (names : ObjectNames) (b : Backup) (c : Catalogs) :
    Except Error Catalogs := do
  let pgDistPartition ← insertSelect c.pgDistPartition b.pgDistPartition
  let pgDistShard ← insertSelect c.pgDistShard b.pgDistShard
  let pgDistPlacement ← insertSelect c.pgDistPlacement b.pgDistPlacement
  let pgDistNodeMetadata ← insertSelect c.pgDistNodeMetadata b.pgDistNodeMetadata
  let pgDistNode ← insertSelect c.pgDistNode b.pgDistNode
  let pgDistLocalGroup ← insertSelect c.pgDistLocalGroup b.pgDistLocalGroup
  let pgDistTransaction ← insertSelect c.pgDistTransaction b.pgDistTransaction
  let pgDistColocation ← insertSelect c.pgDistColocation b.pgDistColocation
  let pgDistAuthinfo ← insertSelect c.pgDistAuthinfo b.pgDistAuthinfo
  let pgDistPoolinfo ← insertSelect c.pgDistPoolinfo b.pgDistPoolinfo
  let strategies ← orRaise .undefinedTable b.pgDistRebalanceStrategy
  let restored ← strategies.mapM (restoreStrategy names)
  let pgDistRebalanceStrategy ← insertSelect c.pgDistRebalanceStrategy (some restored)
  return { pgDistPartition, pgDistShard, pgDistPlacement, pgDistNodeMetadata, pgDistNode,
           pgDistLocalGroup, pgDistTransaction, pgDistColocation, pgDistAuthinfo, pgDistPoolinfo,
           pgDistRebalanceStrategy, pgDistObject := c.pgDistObject }

/-- `DROP TABLE`. -/
def dropTable {α : Type} (table : Option (List α)) : Except Error (Option (List α)) :=
  match table with
  | some _ => .ok none
  | none => .error .undefinedTable

/-- `drop backup tables`: all but `public.pg_dist_object`. -/
def dropBackupTables (b : Backup) : Except Error Backup := do
  let pgDistAuthinfo ← dropTable b.pgDistAuthinfo
  let pgDistColocation ← dropTable b.pgDistColocation
  let pgDistLocalGroup ← dropTable b.pgDistLocalGroup
  let pgDistNode ← dropTable b.pgDistNode
  let pgDistNodeMetadata ← dropTable b.pgDistNodeMetadata
  let pgDistPartition ← dropTable b.pgDistPartition
  let pgDistPlacement ← dropTable b.pgDistPlacement
  let pgDistPoolinfo ← dropTable b.pgDistPoolinfo
  let pgDistShard ← dropTable b.pgDistShard
  let pgDistTransaction ← dropTable b.pgDistTransaction
  let pgDistRebalanceStrategy ← dropTable b.pgDistRebalanceStrategy
  return { pgDistPartition, pgDistShard, pgDistPlacement, pgDistNodeMetadata, pgDistNode,
           pgDistLocalGroup, pgDistTransaction, pgDistColocation, pgDistAuthinfo, pgDistPoolinfo,
           pgDistRebalanceStrategy, pgDistObject := b.pgDistObject }

/-- The greatest `bigint`. -/
def int8Max : ℤ := 9223372036854775807
/-- The greatest `int`. -/
def int4Max : ℤ := 2147483647

/-- `SELECT MAX(…) + 1`, of a column whose type goes up to `typeMax`. It is `NULL` for an
empty table. -/
def maxPlusOne (typeMax : ℤ) (ids : List ℤ) : Except Error (Option ℤ) :=
  match ids.max? with
  | none => .ok none
  | some m => if m + 1 ≤ typeMax then .ok (some (m + 1)) else .error .outOfRange

/-- `setval(…, false)`, which does nothing for `NULL`. -/
def setval {lo hi : ℤ} (s : Sequence lo hi) : Option ℤ → Except Error (Sequence lo hi)
  | none => .ok s
  | some v => if lo ≤ v ∧ v ≤ hi then .ok ⟨v, false⟩ else .error .setvalOutOfBounds

/-- `setval`, to the greatest id and one. -/
def resetSequence {lo hi : ℤ} (typeMax : ℤ) (s : Sequence lo hi) (ids : List ℤ) :
    Except Error (Sequence lo hi) := do
  let v ← maxPlusOne typeMax ids
  setval s v

/-- `reset sequences`. -/
def resetSequences (c : Catalogs) (s : Sequences) : Except Error Sequences := do
  let pgDistShardidSeq ←
    resetSequence int8Max s.pgDistShardidSeq (c.pgDistShard.rows.map (·.shardid))
  let pgDistPlacementPlacementidSeq ← resetSequence int8Max s.pgDistPlacementPlacementidSeq
    (c.pgDistPlacement.rows.map (·.placementid))
  let pgDistGroupidSeq ←
    resetSequence int4Max s.pgDistGroupidSeq (c.pgDistNode.rows.map (·.groupid))
  let pgDistNodeNodeidSeq ←
    resetSequence int4Max s.pgDistNodeNodeidSeq (c.pgDistNode.rows.map (·.nodeid))
  let pgDistColocationidSeq ← resetSequence int4Max s.pgDistColocationidSeq
    (c.pgDistColocation.rows.map (·.colocationid))
  return { pgDistShardidSeq, pgDistPlacementPlacementidSeq, pgDistGroupidSeq,
           pgDistNodeNodeidSeq, pgDistColocationidSeq }

/-- `'truncate_trigger_' || table_name::oid`. -/
def triggerName (tableName : Oid) : String := "truncate_trigger_" ++ toString tableName

/-- `create trigger … after truncate on …`. -/
def createTrigger (relkind : Oid → Option Relkind) (triggers : List Trigger) (tableName : Oid)
    (name : String) : Except Error (List Trigger) :=
  match relkind tableName with
  -- the text of an oid without a relation is a number
  | none => .error .syntaxError
  -- foreign tables cannot have TRUNCATE triggers, and neither can views
  | some .foreignTable | some .view | some .other => .error .wrongObjectType
  | some .relation | some .partitionedTable =>
    if triggers.any fun t => t.tgrelid == tableName && t.tgname == name then
      .error .duplicateTrigger
    else .ok (triggers ++ [⟨tableName, name, false⟩])

/-- `update pg_trigger set tgisinternal = true where tgname = …`. -/
def setInternal (name : String) (triggers : List Trigger) : List Trigger :=
  triggers.map fun t => if t.tgname == name then { t with tgisinternal := true } else t

/-- `register triggers`, one pass of the loop. -/
def registerTrigger (relkind : Oid → Option Relkind) (triggers : List Trigger)
    (p : PgDistPartition) : Except Error (List Trigger) := do
  let triggers ← createTrigger relkind triggers p.logicalrelid (triggerName p.logicalrelid)
  return setInternal (triggerName p.logicalrelid) triggers

/-- `restore pg_dist_object from the stable identifiers`. -/
def restoreObjects (names : ObjectNames) (b : Backup) (c : Catalogs) :
    Except Error (Catalogs × Backup) := do
  let naming ← orRaise .undefinedTable b.pgDistObject
  let restored ← naming.mapM (restoreObject names)
  -- TRUNCATE citus.pg_dist_object
  let pgDistObject ← insertSelect (.empty _) (some restored)
  let dropped ← dropTable b.pgDistObject
  return ({ c with pgDistObject }, { b with pgDistObject := dropped })

/-- `citus_finish_pg_upgrade`. -/
def citusFinishPgUpgrade (s : Database) : Except Error Database := do
  let arrayCatAggs ← createArrayCatAgg s.serverVersion s.arrayCatAggs
  let catalogs ← restoreCatalogTables s.names s.backup s.catalogs
  let backup ← dropBackupTables s.backup
  let sequences ← resetSequences catalogs s.sequences
  let triggers ← catalogs.pgDistPartition.rows.foldlM (registerTrigger s.relkind) s.triggers
  let (catalogs, backup) ← restoreObjects s.names backup catalogs
  return { s with arrayCatAggs, catalogs, backup, sequences, triggers }

/-- **A cycle**: prepare, upgrade and finish. -/
def cycle (u : Upgrade) (s : Database) : Except Error Database := do
  let s ← citusPreparePgUpgrade s
  citusFinishPgUpgrade (pgUpgrade u s)

end PgUpgrade
