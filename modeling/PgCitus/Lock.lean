import Mathlib.Data.BitVec

/-!
# Lock tags

`storage/lock.h` and `distributed/resource_lock.h`: the macros that write the identity
of a lockable object into the five fields of a `LOCKTAG`. Ten kinds of object are
PostgreSQL's own, told apart by `locktag_type`; Citus has seven more, all of them
advisory locks, told apart by the class in `locktag_field4`.

What the macros promise is that a tag identifies its object. A tag can be read back:
the type says which fields hold ids (`Locktag.pgObject`), and for an advisory tag the
class says how Citus filled them (`CitusObject.ofAdvisory`). Both readings undo the
macros (`pgObject_setLocktag`, `ofAdvisory_asAdvisory`), so that no two objects share a
tag and nothing of what the variable held before is left in it.
-/

namespace Lock

/-! ## The tag -/

/-- `LockTagType`. -/
inductive LockTagType
  | relation
  | relationExtend
  | databaseFrozenIds
  | page
  | tuple
  | transaction
  | virtualtransaction
  | speculativeToken
  | object
  | userlock
  | advisory
  deriving DecidableEq, Repr

/-- The number the enumeration gives to a type, as `locktag_type` holds it. -/
def LockTagType.value : LockTagType → BitVec 8
  | relation => 0
  | relationExtend => 1
  | databaseFrozenIds => 2
  | page => 3
  | tuple => 4
  | transaction => 5
  | virtualtransaction => 6
  | speculativeToken => 7
  | object => 8
  | userlock => 9
  | advisory => 10

/-- `DEFAULT_LOCKMETHOD`. -/
def defaultLockmethod : BitVec 8 := 1

/-- `USER_LOCKMETHOD`. -/
def userLockmethod : BitVec 8 := 2

/-- `LOCKTAG`. -/
@[ext]
structure Locktag where
  field1 : BitVec 32
  field2 : BitVec 32
  field3 : BitVec 32
  field4 : BitVec 16
  type : BitVec 8
  lockmethodid : BitVec 8
  deriving DecidableEq, Repr

abbrev Oid := BitVec 32
abbrev BlockNumber := BitVec 32
abbrev OffsetNumber := BitVec 16
abbrev TransactionId := BitVec 32

/-- `VirtualTransactionId`. -/
structure VirtualTransactionId where
  backendId : BitVec 32
  localTransactionId : BitVec 32
  deriving DecidableEq, Repr

/-! ## PostgreSQL's kinds -/

/-- The six assignments each of the macros is made of. -/
def setLocktag (_locktag : Locktag) (field1 field2 field3 : BitVec 32) (field4 : BitVec 16)
    (type : LockTagType) (lockmethodid : BitVec 8) : Locktag where
  field1 := field1
  field2 := field2
  field3 := field3
  field4 := field4
  type := type.value
  lockmethodid := lockmethodid

/-- `SET_LOCKTAG_RELATION`. -/
def setLocktagRelation (locktag : Locktag) (dboid reloid : Oid) : Locktag :=
  setLocktag locktag dboid reloid 0 0 .relation defaultLockmethod

/-- `SET_LOCKTAG_RELATION_EXTEND`. -/
def setLocktagRelationExtend (locktag : Locktag) (dboid reloid : Oid) : Locktag :=
  setLocktag locktag dboid reloid 0 0 .relationExtend defaultLockmethod

/-- `SET_LOCKTAG_DATABASE_FROZEN_IDS`. -/
def setLocktagDatabaseFrozenIds (locktag : Locktag) (dboid : Oid) : Locktag :=
  setLocktag locktag dboid 0 0 0 .databaseFrozenIds defaultLockmethod

/-- `SET_LOCKTAG_PAGE`. -/
def setLocktagPage (locktag : Locktag) (dboid reloid : Oid) (blocknum : BlockNumber) : Locktag :=
  setLocktag locktag dboid reloid blocknum 0 .page defaultLockmethod

/-- `SET_LOCKTAG_TUPLE`. -/
def setLocktagTuple (locktag : Locktag) (dboid reloid : Oid) (blocknum : BlockNumber)
    (offnum : OffsetNumber) : Locktag :=
  setLocktag locktag dboid reloid blocknum offnum .tuple defaultLockmethod

/-- `SET_LOCKTAG_TRANSACTION`. -/
def setLocktagTransaction (locktag : Locktag) (xid : TransactionId) : Locktag :=
  setLocktag locktag xid 0 0 0 .transaction defaultLockmethod

/-- `SET_LOCKTAG_VIRTUALTRANSACTION`. -/
def setLocktagVirtualtransaction (locktag : Locktag) (vxid : VirtualTransactionId) : Locktag :=
  setLocktag locktag vxid.backendId vxid.localTransactionId 0 0 .virtualtransaction
    defaultLockmethod

/-- `SET_LOCKTAG_SPECULATIVE_INSERTION`. -/
def setLocktagSpeculativeInsertion (locktag : Locktag) (xid : TransactionId)
    (token : BitVec 32) : Locktag :=
  setLocktag locktag xid token 0 0 .speculativeToken defaultLockmethod

/-- `SET_LOCKTAG_OBJECT`. The assignment to a 16-bit field cuts `objsubid` off. -/
def setLocktagObject (locktag : Locktag) (dboid classoid objoid : Oid)
    (objsubid : BitVec 32) : Locktag :=
  setLocktag locktag dboid classoid objoid (objsubid.setWidth 16) .object defaultLockmethod

/-- `SET_LOCKTAG_ADVISORY`. The assignment to a 16-bit field cuts `id4` off. -/
def setLocktagAdvisory (locktag : Locktag) (id1 id2 id3 id4 : BitVec 32) : Locktag :=
  setLocktag locktag id1 id2 id3 (id4.setWidth 16) .advisory userLockmethod

/-! ## Citus's kinds -/

/-- `AdvisoryLocktagClass`. -/
inductive AdvisoryLocktagClass
  | int64
  | int32
  | citusShardMetadata
  | citusShard
  | citusJob
  | citusRebalanceColocation
  | citusColocatedShardsMetadata
  | citusOperations
  | citusPlacementCleanup
  deriving DecidableEq, Repr

/-- The numbers of the enumeration; 3 is not used. -/
def AdvisoryLocktagClass.value : AdvisoryLocktagClass → BitVec 32
  | int64 => 1
  | int32 => 2
  | citusShardMetadata => 4
  | citusShard => 5
  | citusJob => 6
  | citusRebalanceColocation => 7
  | citusColocatedShardsMetadata => 8
  | citusOperations => 9
  | citusPlacementCleanup => 10

/-- The type of an id that the macros shift, which is whatever the caller passes. -/
inductive Signedness
  | int64
  | uint64
  deriving DecidableEq, Repr

/-- `x >> 32`: the sign is shifted in when the type is signed. -/
def Signedness.shiftRight32 : Signedness → BitVec 64 → BitVec 64
  | int64, x => x.sshiftRight 32
  | uint64, x => x >>> 32

/-- `(uint32) (x >> 32)`. -/
def highWord (sign : Signedness) (x : BitVec 64) : BitVec 32 := (sign.shiftRight32 x).setWidth 32

/-- `(uint32) x`. -/
def lowWord (x : BitVec 64) : BitVec 32 := x.setWidth 32

/-- `SET_LOCKTAG_SHARD_METADATA_RESOURCE`. -/
def setLocktagShardMetadataResource (sign : Signedness) (tag : Locktag) (db : Oid)
    (shardid : BitVec 64) : Locktag :=
  setLocktagAdvisory tag db (highWord sign shardid) (lowWord shardid)
    AdvisoryLocktagClass.citusShardMetadata.value

/-- `SET_LOCKTAG_COLOCATED_SHARDS_METADATA_RESOURCE`. -/
def setLocktagColocatedShardsMetadataResource (tag : Locktag) (db : Oid)
    (colocationId shardIntervalIndex : BitVec 32) : Locktag :=
  setLocktagAdvisory tag db shardIntervalIndex colocationId
    AdvisoryLocktagClass.citusColocatedShardsMetadata.value

/-- `SET_LOCKTAG_SHARD_RESOURCE`. -/
def setLocktagShardResource (sign : Signedness) (tag : Locktag) (db : Oid)
    (shardid : BitVec 64) : Locktag :=
  setLocktagAdvisory tag db (highWord sign shardid) (lowWord shardid)
    AdvisoryLocktagClass.citusShard.value

/-- `SET_LOCKTAG_JOB_RESOURCE`. -/
def setLocktagJobResource (sign : Signedness) (tag : Locktag) (db : Oid)
    (jobid : BitVec 64) : Locktag :=
  setLocktagAdvisory tag db (highWord sign jobid) (lowWord jobid)
    AdvisoryLocktagClass.citusJob.value

/-- `SET_LOCKTAG_REBALANCE_COLOCATION`, with the global variable it reads. -/
def setLocktagRebalanceColocation (sign : Signedness) (myDatabaseId : Oid) (tag : Locktag)
    (colocationOrTableId : BitVec 64) : Locktag :=
  setLocktagAdvisory tag myDatabaseId (highWord sign colocationOrTableId)
    (lowWord colocationOrTableId) AdvisoryLocktagClass.citusRebalanceColocation.value

/-- `SET_LOCKTAG_CITUS_OPERATION`. -/
def setLocktagCitusOperation (myDatabaseId : Oid) (tag : Locktag)
    (operationId : BitVec 32) : Locktag :=
  setLocktagAdvisory tag myDatabaseId 0 operationId AdvisoryLocktagClass.citusOperations.value

/-- `SET_LOCKTAG_PLACEMENT_CLEANUP`. -/
def setLocktagPlacementCleanup (myDatabaseId : Oid) (tag : Locktag) : Locktag :=
  setLocktagAdvisory tag myDatabaseId 0 0 AdvisoryLocktagClass.citusPlacementCleanup.value

/-! ## What the tags stand for -/

/-- An object that PostgreSQL locks. -/
inductive PgObject
  | relation (dboid reloid : Oid)
  | relationExtend (dboid reloid : Oid)
  | databaseFrozenIds (dboid : Oid)
  | page (dboid reloid : Oid) (blocknum : BlockNumber)
  | tuple (dboid reloid : Oid) (blocknum : BlockNumber) (offnum : OffsetNumber)
  | transaction (xid : TransactionId)
  | virtualtransaction (vxid : VirtualTransactionId)
  | speculativeInsertion (xid : TransactionId) (token : BitVec 32)
  | object (dboid classoid objoid : Oid) (objsubid : BitVec 32)
  | advisory (id1 id2 id3 id4 : BitVec 32)
  deriving DecidableEq, Repr

/-- An object that Citus locks, of this database or of the one it names. -/
inductive CitusObject
  | shardMetadata (db : Oid) (shardid : BitVec 64)
  | colocatedShardsMetadata (db : Oid) (colocationId shardIntervalIndex : BitVec 32)
  | shard (db : Oid) (shardid : BitVec 64)
  | job (db : Oid) (jobid : BitVec 64)
  | rebalanceColocation (myDatabaseId : Oid) (colocationOrTableId : BitVec 64)
  | citusOperation (myDatabaseId : Oid) (operationId : BitVec 32)
  | placementCleanup (myDatabaseId : Oid)
  deriving DecidableEq, Repr

/-- **A lockable object** of any of the kinds. -/
inductive Lockable
  | pg (o : PgObject)
  | citus (o : CitusObject)
  deriving DecidableEq, Repr

/-- The macro for an object of PostgreSQL's. -/
def PgObject.setLocktag (locktag : Locktag) : PgObject → Locktag
  | relation dboid reloid => setLocktagRelation locktag dboid reloid
  | relationExtend dboid reloid => setLocktagRelationExtend locktag dboid reloid
  | databaseFrozenIds dboid => setLocktagDatabaseFrozenIds locktag dboid
  | page dboid reloid blocknum => setLocktagPage locktag dboid reloid blocknum
  | tuple dboid reloid blocknum offnum => setLocktagTuple locktag dboid reloid blocknum offnum
  | transaction xid => setLocktagTransaction locktag xid
  | virtualtransaction vxid => setLocktagVirtualtransaction locktag vxid
  | speculativeInsertion xid token => setLocktagSpeculativeInsertion locktag xid token
  | object dboid classoid objoid objsubid =>
    setLocktagObject locktag dboid classoid objoid objsubid
  | advisory id1 id2 id3 id4 => setLocktagAdvisory locktag id1 id2 id3 id4

/-- The macro for an object of Citus's. -/
def CitusObject.setLocktag (sign : Signedness) (tag : Locktag) : CitusObject → Locktag
  | shardMetadata db shardid => setLocktagShardMetadataResource sign tag db shardid
  | colocatedShardsMetadata db colocationId shardIntervalIndex =>
    setLocktagColocatedShardsMetadataResource tag db colocationId shardIntervalIndex
  | shard db shardid => setLocktagShardResource sign tag db shardid
  | job db jobid => setLocktagJobResource sign tag db jobid
  | rebalanceColocation myDatabaseId colocationOrTableId =>
    setLocktagRebalanceColocation sign myDatabaseId tag colocationOrTableId
  | citusOperation myDatabaseId operationId =>
    setLocktagCitusOperation myDatabaseId tag operationId
  | placementCleanup myDatabaseId => setLocktagPlacementCleanup myDatabaseId tag

/-- **The tag of an object**, written over whatever the variable held. -/
def Lockable.setLocktag (sign : Signedness) (locktag : Locktag) : Lockable → Locktag
  | pg o => o.setLocktag locktag
  | citus o => o.setLocktag sign locktag

/-- The ids that have 16 bits in a tag keep within them. -/
def PgObject.Fits : PgObject → Prop
  | object _ _ _ objsubid => objsubid.toNat < 2 ^ 16
  | advisory _ _ _ id4 => id4.toNat < 2 ^ 16
  | _ => True

/-- Only PostgreSQL's kinds have an id of 16 bits. -/
def Lockable.Fits : Lockable → Prop
  | pg o => o.Fits
  | citus _ => True

/-- **The advisory lock an object of Citus's is**: its ids, split into words, with its
class for the fourth. -/
def CitusObject.asAdvisory : CitusObject → PgObject
  | shardMetadata db shardid =>
    .advisory db (shardid.extractLsb' 32 32) (shardid.extractLsb' 0 32)
      AdvisoryLocktagClass.citusShardMetadata.value
  | colocatedShardsMetadata db colocationId shardIntervalIndex =>
    .advisory db shardIntervalIndex colocationId
      AdvisoryLocktagClass.citusColocatedShardsMetadata.value
  | shard db shardid =>
    .advisory db (shardid.extractLsb' 32 32) (shardid.extractLsb' 0 32)
      AdvisoryLocktagClass.citusShard.value
  | job db jobid =>
    .advisory db (jobid.extractLsb' 32 32) (jobid.extractLsb' 0 32)
      AdvisoryLocktagClass.citusJob.value
  | rebalanceColocation db colocationOrTableId =>
    .advisory db (colocationOrTableId.extractLsb' 32 32) (colocationOrTableId.extractLsb' 0 32)
      AdvisoryLocktagClass.citusRebalanceColocation.value
  | citusOperation db operationId =>
    .advisory db 0 operationId AdvisoryLocktagClass.citusOperations.value
  | placementCleanup db => .advisory db 0 0 AdvisoryLocktagClass.citusPlacementCleanup.value

/-- **The same object of the same kind.** Two objects of PostgreSQL's, or two of
Citus's, are the same when they are equal; an object of Citus's is the advisory lock
that it is. -/
def Lockable.SameObject : Lockable → Lockable → Prop
  | pg a, pg b => a = b
  | citus a, citus b => a = b
  | pg a, citus b => a = b.asAdvisory
  | citus a, pg b => a.asAdvisory = b

/-! ## Reading a tag -/

/-- **The object a tag is of**, by its type. -/
def Locktag.pgObject (tag : Locktag) : Option PgObject :=
  if tag.type = LockTagType.relation.value then some (.relation tag.field1 tag.field2)
  else if tag.type = LockTagType.relationExtend.value then
    some (.relationExtend tag.field1 tag.field2)
  else if tag.type = LockTagType.databaseFrozenIds.value then
    some (.databaseFrozenIds tag.field1)
  else if tag.type = LockTagType.page.value then
    some (.page tag.field1 tag.field2 tag.field3)
  else if tag.type = LockTagType.tuple.value then
    some (.tuple tag.field1 tag.field2 tag.field3 tag.field4)
  else if tag.type = LockTagType.transaction.value then some (.transaction tag.field1)
  else if tag.type = LockTagType.virtualtransaction.value then
    some (.virtualtransaction ⟨tag.field1, tag.field2⟩)
  else if tag.type = LockTagType.speculativeToken.value then
    some (.speculativeInsertion tag.field1 tag.field2)
  else if tag.type = LockTagType.object.value then
    some (.object tag.field1 tag.field2 tag.field3 (tag.field4.setWidth 32))
  else if tag.type = LockTagType.advisory.value then
    some (.advisory tag.field1 tag.field2 tag.field3 (tag.field4.setWidth 32))
  else none

/-- **The object of Citus's an advisory lock is of**, by its class. -/
def CitusObject.ofAdvisory : PgObject → Option CitusObject
  | .advisory id1 id2 id3 id4 =>
    if id4 = AdvisoryLocktagClass.citusShardMetadata.value then
      some (.shardMetadata id1 (id2 ++ id3))
    else if id4 = AdvisoryLocktagClass.citusColocatedShardsMetadata.value then
      some (.colocatedShardsMetadata id1 id3 id2)
    else if id4 = AdvisoryLocktagClass.citusShard.value then some (.shard id1 (id2 ++ id3))
    else if id4 = AdvisoryLocktagClass.citusJob.value then some (.job id1 (id2 ++ id3))
    else if id4 = AdvisoryLocktagClass.citusRebalanceColocation.value then
      some (.rebalanceColocation id1 (id2 ++ id3))
    else if id4 = AdvisoryLocktagClass.citusOperations.value then some (.citusOperation id1 id3)
    else if id4 = AdvisoryLocktagClass.citusPlacementCleanup.value then
      some (.placementCleanup id1)
    else none
  | _ => none

/-- An id of 16 bits survives being cut off to them. -/
theorem setWidth_setWidth_of_lt {x : BitVec 32} (h : x.toNat < 2 ^ 16) :
    (x.setWidth 16).setWidth 32 = x := by
  refine BitVec.eq_of_toNat_eq ?_
  rw [BitVec.toNat_setWidth, BitVec.toNat_setWidth, Nat.mod_eq_of_lt h,
    Nat.mod_eq_of_lt x.isLt]

/-- **Reading a tag undoes writing it**, whatever it was written over. -/
theorem pgObject_setLocktag (locktag : Locktag) {o : PgObject} (ho : o.Fits) :
    (o.setLocktag locktag).pgObject = some o := by
  cases o with
  | object dboid classoid objoid objsubid =>
    exact congrArg (some ∘ PgObject.object dboid classoid objoid) (setWidth_setWidth_of_lt ho)
  | advisory id1 id2 id3 id4 =>
    exact congrArg (some ∘ PgObject.advisory id1 id2 id3) (setWidth_setWidth_of_lt ho)
  | _ => rfl

/-- The words of an id put together again. -/
theorem extract_append_extract (x : BitVec 64) :
    x.extractLsb' 32 32 ++ x.extractLsb' 0 32 = x :=
  @BitVec.extractLsb'_append_extractLsb' 32 32 x

/-- **The class tells Citus's kinds apart, and all the bits of an id are in the tag.** -/
theorem ofAdvisory_asAdvisory (o : CitusObject) :
    CitusObject.ofAdvisory o.asAdvisory = some o := by
  cases o with
  | shardMetadata db shardid =>
    exact congrArg (some ∘ CitusObject.shardMetadata db) (extract_append_extract shardid)
  | shard db shardid =>
    exact congrArg (some ∘ CitusObject.shard db) (extract_append_extract shardid)
  | job db jobid => exact congrArg (some ∘ CitusObject.job db) (extract_append_extract jobid)
  | rebalanceColocation db id =>
    exact congrArg (some ∘ CitusObject.rebalanceColocation db) (extract_append_extract id)
  | colocatedShardsMetadata | citusOperation | placementCleanup => rfl

/-! ## Tags and objects -/

/-- The words the macros cut a 64-bit id into are its halves: which shift the compiler
takes does not matter, since only bits of the id are kept. -/
theorem highWord_eq (sign : Signedness) (x : BitVec 64) :
    highWord sign x = x.extractLsb' 32 32 := by
  have hlt (i : ℕ) (hi : i < 32) : 32 + i < 64 := by omega
  ext i hi
  cases sign with
  | int64 =>
    simp [highWord, Signedness.shiftRight32, BitVec.getLsbD_sshiftRight, hlt i hi]
    omega
  | uint64 => simp [highWord, Signedness.shiftRight32]

theorem lowWord_eq (x : BitVec 64) : lowWord x = x.extractLsb' 0 32 := by
  ext i hi
  simp [lowWord]

/-- **A tag of Citus's is the tag of the advisory lock it stands for.** -/
theorem setLocktag_asAdvisory (sign : Signedness) (tag tag' : Locktag) (o : CitusObject) :
    o.setLocktag sign tag = o.asAdvisory.setLocktag tag' := by
  cases o <;>
    simp only [CitusObject.setLocktag, CitusObject.asAdvisory, PgObject.setLocktag,
      setLocktagShardMetadataResource, setLocktagColocatedShardsMetadataResource,
      setLocktagShardResource, setLocktagJobResource, setLocktagRebalanceColocation,
      setLocktagCitusOperation, setLocktagPlacementCleanup, highWord_eq, lowWord_eq] <;>
    rfl

/-- A class has 16 bits. -/
theorem AdvisoryLocktagClass.value_lt (cls : AdvisoryLocktagClass) : cls.value.toNat < 2 ^ 16 := by
  cases cls <;> decide

theorem asAdvisory_fits (o : CitusObject) : o.asAdvisory.Fits := by
  cases o <;> exact AdvisoryLocktagClass.value_lt _

/-- **The macros of PostgreSQL's kinds give no tag to two objects.** -/
theorem pg_setLocktag_inj (locktag locktag' : Locktag) {a b : PgObject} (ha : a.Fits)
    (hb : b.Fits) : a.setLocktag locktag = b.setLocktag locktag' ↔ a = b := by
  constructor
  · intro h
    have hread := congrArg Locktag.pgObject h
    rw [pgObject_setLocktag locktag ha, pgObject_setLocktag locktag' hb] at hread
    exact Option.some.inj hread
  · rintro rfl
    cases a <;> rfl

/-- Two objects of Citus's that are the same advisory lock are the same object. -/
theorem asAdvisory_inj {a b : CitusObject} : a.asAdvisory = b.asAdvisory ↔ a = b := by
  constructor
  · intro h
    have hread := congrArg CitusObject.ofAdvisory h
    rw [ofAdvisory_asAdvisory, ofAdvisory_asAdvisory] at hread
    exact Option.some.inj hread
  · rintro rfl
    rfl

/-- **No object of Citus's is an advisory lock of the classes of `lockfuncs.c`.** -/
theorem asAdvisory_ne_advisory (o : CitusObject) (id1 id2 id3 : BitVec 32)
    {cls : AdvisoryLocktagClass} (hcls : cls = .int64 ∨ cls = .int32) :
    o.asAdvisory ≠ .advisory id1 id2 id3 cls.value := by
  intro h
  have hnone : CitusObject.ofAdvisory (.advisory id1 id2 id3 cls.value) = none := by
    rcases hcls with rfl | rfl <;> rfl
  rw [← h, ofAdvisory_asAdvisory] at hnone
  exact Option.some_ne_none o hnone

/-- **A tag identifies a lockable object.** Tags that the macros write, each over a
variable with any content, are equal exactly when they are of the same object. Tags of
Citus's own are equal only for equal objects – one kind, one database, every bit of the
id – and never equal to those of the classes PostgreSQL uses itself. -/
theorem setLocktag_eq_iff (sign sign' : Signedness) (locktag locktag' : Locktag)
    (a b : Lockable) (ha : a.Fits) (hb : b.Fits) :
    (a.setLocktag sign locktag = b.setLocktag sign' locktag' ↔ a.SameObject b) ∧
    (∀ o o' : CitusObject,
      o.setLocktag sign locktag = o'.setLocktag sign' locktag' ↔ o = o') ∧
    (∀ (o : CitusObject) (id1 id2 id3 : BitVec 32) (cls : AdvisoryLocktagClass),
      cls = .int64 ∨ cls = .int32 →
      o.setLocktag sign locktag ≠ setLocktagAdvisory locktag' id1 id2 id3 cls.value) := by
  have citus_inj (o o' : CitusObject) :
      o.setLocktag sign locktag = o'.setLocktag sign' locktag' ↔ o = o' := by
    rw [setLocktag_asAdvisory sign locktag locktag o,
      setLocktag_asAdvisory sign' locktag' locktag' o',
      pg_setLocktag_inj _ _ (asAdvisory_fits o) (asAdvisory_fits o'), asAdvisory_inj]
  refine ⟨?_, citus_inj, ?_⟩
  · cases a with
    | pg a =>
      cases b with
      | pg b => exact pg_setLocktag_inj locktag locktag' ha hb
      | citus b =>
        show a.setLocktag locktag = b.setLocktag sign' locktag' ↔ a = b.asAdvisory
        rw [setLocktag_asAdvisory sign' locktag' locktag' b,
          pg_setLocktag_inj _ _ ha (asAdvisory_fits b)]
    | citus a =>
      cases b with
      | pg b =>
        show a.setLocktag sign locktag = b.setLocktag locktag' ↔ a.asAdvisory = b
        rw [setLocktag_asAdvisory sign locktag locktag a,
          pg_setLocktag_inj _ _ (asAdvisory_fits a) hb]
      | citus b => exact citus_inj a b
  · intro o id1 id2 id3 cls hcls h
    have hfits : (PgObject.advisory id1 id2 id3 cls.value).Fits := cls.value_lt
    rw [setLocktag_asAdvisory sign locktag locktag o] at h
    exact asAdvisory_ne_advisory o id1 id2 id3 hcls
      ((pg_setLocktag_inj locktag locktag' (asAdvisory_fits o) hfits).mp h)

/-- A shard of Citus's and the advisory lock it is, each over another variable. -/
theorem setLocktag_eq_iff_shard :
    (Lockable.citus (.shard 5 0x100000002)).setLocktag .int64 ⟨1, 1, 1, 1, 1, 1⟩ =
      (Lockable.pg (.advisory 5 1 2 5)).setLocktag .int64 ⟨0, 0, 0, 0, 0, 0⟩ :=
  (setLocktag_eq_iff .int64 .int64 ⟨1, 1, 1, 1, 1, 1⟩ ⟨0, 0, 0, 0, 0, 0⟩
    (.citus (.shard 5 0x100000002)) (.pg (.advisory 5 1 2 5)) trivial
    (show (5#32).toNat < 2 ^ 16 by decide)).1.mpr rfl

end Lock
