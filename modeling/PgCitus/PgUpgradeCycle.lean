import PgCitus.PgUpgrade

/-!
# What is left after an upgrade

After preparing, upgrading and finishing, the catalogs are what they were, with the new
oids of functions in place of the old ones (`Restored`). What makes this work is that
`citus_finish_pg_upgrade` finds all that `citus_prepare_pg_upgrade` has left in `public`,
in tables that are empty, and that a server finds functions and objects by the names
that the other one gave them (`NamesInverse`).

Three things are not as before. Rows of `pg_dist_object` lose what they had in the columns
that are there for upgrades. A sequence is set to the greatest id and one, which has to be
one of its values – `setval` raises otherwise, and nothing at all is restored. Ids that were
drawn from the sequence are no problem; a shard id below 102007 is, if there is no greater
one. And a truncate trigger is created on everything that `pg_dist_partition` lists, where a
server takes such triggers on ordinary and partitioned tables only; a foreign table makes it
raise as well (`cycle_iff`).

A cycle leaves everything as the next one needs it, so cycles can be repeated
(`cycles_restore`).
-/

namespace PgUpgrade

variable {s s' : Database} {u : Upgrade} {c c' c'' : Catalogs} {names : ObjectNames}
  {relkind : Oid → Option Relkind}

/-! ## What is expected -/

/-- A strategy with other oids of functions. -/
def PgDistRebalanceStrategy.renumber (procOid : Oid → Oid) (r : PgDistRebalanceStrategy) :
    PgDistRebalanceStrategy :=
  { r with
    shardCostFunction := procOid r.shardCostFunction
    nodeCapacityFunction := procOid r.nodeCapacityFunction
    shardAllowedOnNodeFunction := procOid r.shardAllowedOnNodeFunction }

/-- An object with another oid, if it is a function. -/
def PgDistObject.renumber (procOid : Oid → Oid) (o : PgDistObject) : PgDistObject :=
  { o with address := o.address.renumber procOid }

/-- An object without the fields that are used for upgrades. -/
def PgDistObject.withoutNames (o : PgDistObject) : PgDistObject :=
  { o with type := none, objectNames := none, objectArgs := none }

/-- **The catalogs are restored**, up to the oids of functions, and the fields of
`pg_dist_object` that are used for upgrades. -/
structure Restored (procOid : Oid → Oid) (c c' : Catalogs) : Prop where
  pgDistPartition : c'.pgDistPartition = c.pgDistPartition
  pgDistShard : c'.pgDistShard = c.pgDistShard
  pgDistPlacement : c'.pgDistPlacement = c.pgDistPlacement
  pgDistNodeMetadata : c'.pgDistNodeMetadata = c.pgDistNodeMetadata
  pgDistNode : c'.pgDistNode = c.pgDistNode
  pgDistLocalGroup : c'.pgDistLocalGroup = c.pgDistLocalGroup
  pgDistTransaction : c'.pgDistTransaction = c.pgDistTransaction
  pgDistColocation : c'.pgDistColocation = c.pgDistColocation
  pgDistAuthinfo : c'.pgDistAuthinfo = c.pgDistAuthinfo
  pgDistPoolinfo : c'.pgDistPoolinfo = c.pgDistPoolinfo
  pgDistRebalanceStrategy : c'.pgDistRebalanceStrategy.rows =
    c.pgDistRebalanceStrategy.rows.map (PgDistRebalanceStrategy.renumber procOid)
  pgDistObject : c'.pgDistObject.rows =
    c.pgDistObject.rows.map fun o => (o.renumber procOid).withoutNames

/-- **The server finds what it names**: the functions of the strategies by their
signatures, and the objects by their addresses. -/
structure NamesInverse (names : ObjectNames) (c : Catalogs) : Prop where
  functions : ∀ r ∈ c.pgDistRebalanceStrategy.rows,
    ∀ f ∈ [r.shardCostFunction, r.nodeCapacityFunction, r.shardAllowedOnNodeFunction],
      names.textRegprocedure (names.regprocedureText f) = some f
  objects : ∀ o ∈ c.pgDistObject.rows,
    names.getObjectAddress (names.identifyObjectAsAddress o.address) = some o.address

/-- The greatest of the ids and one is a value of the sequence, and of the ids' type. -/
def Fits (lo hi typeMax : ℤ) (ids : List ℤ) : Prop :=
  ids = [] ∨ (∃ i ∈ ids, lo ≤ i + 1) ∧ ∀ i ∈ ids, i + 1 ≤ typeMax ∧ i + 1 ≤ hi

instance (lo hi typeMax : ℤ) (ids : List ℤ) : Decidable (Fits lo hi typeMax ids) :=
  inferInstanceAs (Decidable (_ ∨ _ ∧ _))

/-- **All ids fit their sequences.** -/
structure IdsFit (c : Catalogs) : Prop where
  shardid : Fits 102008 9223372036854775807 int8Max (c.pgDistShard.rows.map (·.shardid))
  placementid : Fits 1 9223372036854775807 int8Max (c.pgDistPlacement.rows.map (·.placementid))
  groupid : Fits 1 4294967296 int4Max (c.pgDistNode.rows.map (·.groupid))
  nodeid : Fits 1 4294967294 int4Max (c.pgDistNode.rows.map (·.nodeid))
  colocationid : Fits 1 4294967296 int4Max (c.pgDistColocation.rows.map (·.colocationid))

/-- **All distributed tables can have truncate triggers**: they are ordinary or partitioned
tables. -/
def TakeTriggers (relkind : Oid → Option Relkind) (c : Catalogs) : Prop :=
  ∀ p ∈ c.pgDistPartition.rows,
    relkind p.logicalrelid = some .relation ∨ relkind p.logicalrelid = some .partitionedTable

theorem ObjectAddress.renumber_symm (procOid : Equiv.Perm Oid) (a : ObjectAddress) :
    (a.renumber procOid).renumber procOid.symm = a := by
  obtain ⟨classid, objid, objsubid⟩ := a
  unfold ObjectAddress.renumber
  by_cases h : classid = pgProc
  · simp [h]
  · simp [h]

theorem ObjectAddress.renumber_injective (procOid : Equiv.Perm Oid) :
    Function.Injective (ObjectAddress.renumber procOid) := by
  intro a b h
  rw [← renumber_symm procOid a, h, renumber_symm]

theorem ObjectAddress.renumber_comp (f g : Oid → Oid) (a : ObjectAddress) :
    (a.renumber f).renumber g = a.renumber (g ∘ f) := by
  unfold ObjectAddress.renumber
  by_cases h : a.classid = pgProc
  · simp [h]
  · simp [h]

/-- One restoration after another. -/
theorem Restored.trans {f g : Oid → Oid} (h : Restored f c c') (h' : Restored g c' c'') :
    Restored (g ∘ f) c c'' where
  pgDistPartition := h'.pgDistPartition.trans h.pgDistPartition
  pgDistShard := h'.pgDistShard.trans h.pgDistShard
  pgDistPlacement := h'.pgDistPlacement.trans h.pgDistPlacement
  pgDistNodeMetadata := h'.pgDistNodeMetadata.trans h.pgDistNodeMetadata
  pgDistNode := h'.pgDistNode.trans h.pgDistNode
  pgDistLocalGroup := h'.pgDistLocalGroup.trans h.pgDistLocalGroup
  pgDistTransaction := h'.pgDistTransaction.trans h.pgDistTransaction
  pgDistColocation := h'.pgDistColocation.trans h.pgDistColocation
  pgDistAuthinfo := h'.pgDistAuthinfo.trans h.pgDistAuthinfo
  pgDistPoolinfo := h'.pgDistPoolinfo.trans h.pgDistPoolinfo
  pgDistRebalanceStrategy := by
    rw [h'.pgDistRebalanceStrategy, h.pgDistRebalanceStrategy, List.map_map]
    rfl
  pgDistObject := by
    rw [h'.pgDistObject, h.pgDistObject, List.map_map]
    refine List.map_congr_left fun o _ => ?_
    show ((o.renumber f).withoutNames.renumber g).withoutNames = (o.renumber (g ∘ f)).withoutNames
    unfold PgDistObject.renumber PgDistObject.withoutNames
    rw [← ObjectAddress.renumber_comp]

/-- Ids do not change, so they still fit. -/
theorem IdsFit.restored {f : Oid → Oid} (h : IdsFit c) (hr : Restored f c c') : IdsFit c' where
  shardid := hr.pgDistShard ▸ h.shardid
  placementid := hr.pgDistPlacement ▸ h.placementid
  groupid := hr.pgDistNode ▸ h.groupid
  nodeid := hr.pgDistNode ▸ h.nodeid
  colocationid := hr.pgDistColocation ▸ h.colocationid

/-- The new server finds what it names. -/
theorem NamesInverse.renumber {procOid : Equiv.Perm Oid} (h : NamesInverse names c)
    (hr : Restored procOid c c') : NamesInverse (names.renumber procOid) c' where
  functions := by
    have hf : ∀ f, names.textRegprocedure (names.regprocedureText f) = some f →
        (names.renumber procOid).textRegprocedure
          ((names.renumber procOid).regprocedureText (procOid f)) = some (procOid f) := by
      intro f hf
      show (names.textRegprocedure (names.regprocedureText (procOid.symm (procOid f)))).map
        procOid = some (procOid f)
      rw [procOid.symm_apply_apply, hf]
      rfl
    rw [hr.pgDistRebalanceStrategy]
    intro _ hmap f hmem
    obtain ⟨r, hr, rfl⟩ := List.mem_map.mp hmap
    have hfun := h.functions r hr
    simp only [List.mem_cons, List.not_mem_nil, or_false, forall_eq_or_imp, forall_eq] at hfun hmem
    obtain ⟨h₁, h₂, h₃⟩ := hfun
    rcases hmem with rfl | rfl | rfl
    · exact hf _ h₁
    · exact hf _ h₂
    · exact hf _ h₃
  objects := by
    rw [hr.pgDistObject]
    intro _ hmap
    obtain ⟨o, ho, rfl⟩ := List.mem_map.mp hmap
    show (names.getObjectAddress (names.identifyObjectAsAddress
      ((o.address.renumber procOid).renumber procOid.symm))).map (ObjectAddress.renumber procOid) =
        some (o.address.renumber procOid)
    rw [ObjectAddress.renumber_symm, h.objects o ho]
    rfl

/-! ## The backup and what is made of it -/

/-- The backup tables for catalogs. -/
def Backup.of (names : ObjectNames) (c : Catalogs) : Backup where
  pgDistPartition := some c.pgDistPartition.rows
  pgDistShard := some c.pgDistShard.rows
  pgDistPlacement := some c.pgDistPlacement.rows
  pgDistNodeMetadata := some c.pgDistNodeMetadata.rows
  pgDistNode := some c.pgDistNode.rows
  pgDistLocalGroup := some c.pgDistLocalGroup.rows
  pgDistTransaction := some c.pgDistTransaction.rows
  pgDistColocation := some c.pgDistColocation.rows
  pgDistAuthinfo := some c.pgDistAuthinfo.rows
  pgDistPoolinfo := some c.pgDistPoolinfo.rows
  pgDistRebalanceStrategy := some (c.pgDistRebalanceStrategy.rows.map (nameStrategy names))
  pgDistObject := some (c.pgDistObject.rows.map (nameObject names))

/-- **Preparing always succeeds**, whatever an earlier run has left in `public`. -/
theorem citusPreparePgUpgrade_eq (s : Database) : citusPreparePgUpgrade s =
    .ok { s with arrayCatAggs := [], backup := .of s.names s.catalogs } := by
  have haggs : (s.arrayCatAggs.filter (· ≠ .anyarray)).filter (· ≠ .anycompatiblearray) = [] := by
    rw [List.filter_filter]
    refine List.filter_eq_nil_iff.mpr fun a _ => ?_
    cases a <;> decide
  unfold citusPreparePgUpgrade
  rw [haggs]
  rfl

/-- Rows that can be restored one by one can be restored together. -/
theorem mapM_map_eq_ok {α β γ ε : Type} {f : α → β} {g : β → Except ε γ} {h : α → γ} {l : List α}
    (hl : ∀ a ∈ l, g (f a) = .ok (h a)) : (l.map f).mapM g = .ok (l.map h) := by
  induction l with
  | nil => rfl
  | cons a l ih =>
    rw [List.map_cons, List.mapM_cons, hl a List.mem_cons_self,
      ih fun b hb => hl b (List.mem_cons_of_mem a hb)]
    rfl

theorem restoreStrategy_eq {procOid : Equiv.Perm Oid} (h : NamesInverse names c)
    {r : PgDistRebalanceStrategy} (hr : r ∈ c.pgDistRebalanceStrategy.rows) :
    restoreStrategy (names.renumber procOid) (nameStrategy names r) = .ok (r.renumber procOid) := by
  have hfun := h.functions r hr
  simp only [List.mem_cons, List.not_mem_nil, or_false, forall_eq_or_imp, forall_eq] at hfun
  obtain ⟨h₁, h₂, h₃⟩ := hfun
  unfold restoreStrategy nameStrategy ObjectNames.renumber
  simp only [h₁, h₂, h₃]
  rfl

theorem restoreObject_eq {procOid : Equiv.Perm Oid} (h : NamesInverse names c) {o : PgDistObject}
    (ho : o ∈ c.pgDistObject.rows) : restoreObject (names.renumber procOid) (nameObject names o) =
      .ok (o.renumber procOid).withoutNames := by
  unfold restoreObject nameObject ObjectNames.renumber
  simp only [h.objects o ho]
  rfl

/-- Inserting the rows of a table restores it. -/
theorem insertSelect_eq {α : Type} {con : Rows.Constraint α} (t : Rows.Table con) :
    insertSelect (.empty con) (some t.rows) = .ok t := by
  unfold insertSelect
  show (orRaise .uniqueViolation ((Rows.Table.empty con).insert t.rows) : Except Error _) = .ok t
  rw [t.insert_rows]
  rfl

/-- The strategies, with other oids. -/
def renumberStrategies (procOid : Oid → Oid) (c : Catalogs) :
    Rows.Table ((Rows.unique PgDistRebalanceStrategy.name).and
      ((Rows.unique PgDistRebalanceStrategy.defaultStrategy).onlyFor
        PgDistRebalanceStrategy.defaultStrategy)) where
  rows := c.pgDistRebalanceStrategy.rows.map (PgDistRebalanceStrategy.renumber procOid)
  valid := by
    let A := c.pgDistRebalanceStrategy.rows
    have hname : (Rows.unique PgDistRebalanceStrategy.name).ok
        (A.map (PgDistRebalanceStrategy.renumber procOid)) =
          (Rows.unique PgDistRebalanceStrategy.name).ok A := Rows.unique_map fun _ => rfl
    have hdefault : ((Rows.unique PgDistRebalanceStrategy.defaultStrategy).onlyFor
        PgDistRebalanceStrategy.defaultStrategy).ok
          (A.map (PgDistRebalanceStrategy.renumber procOid)) =
        ((Rows.unique PgDistRebalanceStrategy.defaultStrategy).onlyFor
          PgDistRebalanceStrategy.defaultStrategy).ok A :=
      Rows.onlyFor_map (fun _ => rfl) fun _ => Rows.unique_map fun _ => rfl
    have hvalid := c.pgDistRebalanceStrategy.valid
    exact (congrArg₂ (· && ·) hname hdefault).trans hvalid

/-- The objects, with other oids and without their names. -/
def renumberObjects (procOid : Equiv.Perm Oid) (c : Catalogs) :
    Rows.Table (Rows.unique PgDistObject.address) where
  rows := c.pgDistObject.rows.map fun o => (o.renumber procOid).withoutNames
  valid := by
    have haddress := Rows.unique_map_of_injective (A := c.pgDistObject.rows)
      (f := fun o => (o.renumber procOid).withoutNames)
      (ObjectAddress.renumber_injective procOid) fun o : PgDistObject =>
        show ((o.renumber procOid).withoutNames).address = o.address.renumber procOid from rfl
    exact haddress.trans c.pgDistObject.valid

/-- The catalogs before objects are restored. -/
def restoredTables (procOid : Oid → Oid) (c : Catalogs) : Catalogs :=
  { c with
    pgDistRebalanceStrategy := renumberStrategies procOid c
    pgDistObject := .empty _ }

/-- **Eleven catalogs are restored.** -/
theorem restoreCatalogTables_eq {procOid : Equiv.Perm Oid} (h : NamesInverse names c) :
    restoreCatalogTables (names.renumber procOid) (.of names c) .empty =
      .ok (restoredTables procOid c) := by
  have hmap : (c.pgDistRebalanceStrategy.rows.map (nameStrategy names)).mapM
      (restoreStrategy (names.renumber procOid)) = .ok (renumberStrategies procOid c).rows :=
    mapM_map_eq_ok fun r hr => restoreStrategy_eq h hr
  unfold restoreCatalogTables Backup.of Catalogs.empty
  simp only [insertSelect_eq, orRaise, hmap, bind, Except.bind, pure, Except.pure]
  rfl

/-- **And the twelfth one.** -/
theorem restoreObjects_eq {procOid : Equiv.Perm Oid} (h : NamesInverse names c) (b : Backup)
    (hb : b.pgDistObject = some (c.pgDistObject.rows.map (nameObject names))) :
    restoreObjects (names.renumber procOid) b c' =
      .ok ({ c' with pgDistObject := renumberObjects procOid c },
        { b with pgDistObject := none }) := by
  have hmap : (c.pgDistObject.rows.map (nameObject names)).mapM
      (restoreObject (names.renumber procOid)) = .ok (renumberObjects procOid c).rows :=
    mapM_map_eq_ok fun o ho => restoreObject_eq h ho
  unfold restoreObjects
  simp only [hb, insertSelect_eq, orRaise, hmap, dropTable, bind, Except.bind, pure, Except.pure]

/-! ## Sequences -/

/-- The greatest id, if there are any. -/
theorem fits_iff {lo hi typeMax : ℤ} {ids : List ℤ} {m : ℤ} (hmax : ids.max? = some m) :
    Fits lo hi typeMax ids ↔ m + 1 ≤ typeMax ∧ lo ≤ m + 1 ∧ m + 1 ≤ hi := by
  obtain ⟨hm, hle⟩ := List.max?_eq_some_iff.mp hmax
  constructor
  · rintro (h | ⟨⟨i, hi, hlo⟩, hall⟩)
    · exact absurd h (List.ne_nil_of_mem hm)
    · have hle' := hle i hi
      have hall' := hall m hm
      omega
  · rintro ⟨htype, hlo, hhi⟩
    refine .inr ⟨⟨m, hm, hlo⟩, fun i hi => ?_⟩
    have hle' := hle i hi
    omega

/-- `setval` takes what is within the bounds of the sequence. -/
theorem setval_ok_iff {lo hi : ℤ} (q : Sequence lo hi) (v : ℤ) :
    (∃ q', setval q (some v) = .ok q') ↔ lo ≤ v ∧ v ≤ hi := by
  unfold setval
  by_cases h : lo ≤ v ∧ v ≤ hi
  · exact iff_of_true ⟨⟨v, false⟩, if_pos h⟩ h
  · exact iff_of_false (fun ⟨_, hq⟩ => nomatch (if_neg h).symm.trans hq) h

/-- **A sequence can be reset if and only if the ids fit.** -/
theorem resetSequence_iff {lo hi typeMax : ℤ} (q : Sequence lo hi) (ids : List ℤ) :
    (∃ q', resetSequence typeMax q ids = .ok q') ↔ Fits lo hi typeMax ids := by
  unfold resetSequence maxPlusOne
  cases hmax : ids.max? with
  | none => exact iff_of_true ⟨q, rfl⟩ (.inl (List.max?_eq_none_iff.mp hmax))
  | some m =>
    rw [fits_iff hmax]
    by_cases htype : m + 1 ≤ typeMax
    · simp only [htype, if_true, bind, Except.bind, setval_ok_iff, true_and]
    · simp only [htype, if_false, bind, Except.bind, reduceCtorEq, exists_false, false_and]

/-- Resetting the sequences is resetting each of them. -/
theorem resetSequences_eq_ok {c : Catalogs} {q q' : Sequences} : resetSequences c q = .ok q' ↔
    resetSequence int8Max q.pgDistShardidSeq (c.pgDistShard.rows.map (·.shardid)) =
      .ok q'.pgDistShardidSeq ∧
    resetSequence int8Max q.pgDistPlacementPlacementidSeq
      (c.pgDistPlacement.rows.map (·.placementid)) = .ok q'.pgDistPlacementPlacementidSeq ∧
    resetSequence int4Max q.pgDistGroupidSeq (c.pgDistNode.rows.map (·.groupid)) =
      .ok q'.pgDistGroupidSeq ∧
    resetSequence int4Max q.pgDistNodeNodeidSeq (c.pgDistNode.rows.map (·.nodeid)) =
      .ok q'.pgDistNodeNodeidSeq ∧
    resetSequence int4Max q.pgDistColocationidSeq
      (c.pgDistColocation.rows.map (·.colocationid)) = .ok q'.pgDistColocationidSeq := by
  unfold resetSequences
  constructor
  · intro h
    obtain ⟨q₁, h₁, h⟩ := Rows.bind_eq_ok.mp h
    obtain ⟨q₂, h₂, h⟩ := Rows.bind_eq_ok.mp h
    obtain ⟨q₃, h₃, h⟩ := Rows.bind_eq_ok.mp h
    obtain ⟨q₄, h₄, h⟩ := Rows.bind_eq_ok.mp h
    obtain ⟨q₅, h₅, h⟩ := Rows.bind_eq_ok.mp h
    rw [← Except.ok.inj h]
    exact ⟨h₁, h₂, h₃, h₄, h₅⟩
  · rintro ⟨h₁, h₂, h₃, h₄, h₅⟩
    rw [h₁, h₂, h₃, h₄, h₅]
    rfl

/-- **All sequences can be reset if and only if all ids fit.** -/
theorem resetSequences_iff (c : Catalogs) (q : Sequences) :
    (∃ q', resetSequences c q = .ok q') ↔ IdsFit c := by
  simp only [resetSequences_eq_ok]
  constructor
  · rintro ⟨q', h₁, h₂, h₃, h₄, h₅⟩
    exact ⟨(resetSequence_iff _ _).mp ⟨_, h₁⟩, (resetSequence_iff _ _).mp ⟨_, h₂⟩,
      (resetSequence_iff _ _).mp ⟨_, h₃⟩, (resetSequence_iff _ _).mp ⟨_, h₄⟩,
      (resetSequence_iff _ _).mp ⟨_, h₅⟩⟩
  · intro h
    obtain ⟨q₁, h₁⟩ := (resetSequence_iff q.pgDistShardidSeq _).mpr h.shardid
    obtain ⟨q₂, h₂⟩ := (resetSequence_iff q.pgDistPlacementPlacementidSeq _).mpr h.placementid
    obtain ⟨q₃, h₃⟩ := (resetSequence_iff q.pgDistGroupidSeq _).mpr h.groupid
    obtain ⟨q₄, h₄⟩ := (resetSequence_iff q.pgDistNodeNodeidSeq _).mpr h.nodeid
    obtain ⟨q₅, h₅⟩ := (resetSequence_iff q.pgDistColocationidSeq _).mpr h.colocationid
    exact ⟨⟨q₁, q₂, q₃, q₄, q₅⟩, h₁, h₂, h₃, h₄, h₅⟩

/-- The truncate trigger of a distributed table. -/
def truncateTrigger (p : PgDistPartition) : Trigger :=
  ⟨p.logicalrelid, triggerName p.logicalrelid, true⟩

/-- A trigger is created on a table only. -/
theorem takesTrigger_of_registerTrigger {triggers triggers' : List Trigger} {p : PgDistPartition}
    (h : registerTrigger relkind triggers p = .ok triggers') :
    relkind p.logicalrelid = some .relation ∨ relkind p.logicalrelid = some .partitionedTable := by
  obtain ⟨created, hcreated, _⟩ := Rows.bind_eq_ok.mp h
  unfold createTrigger at hcreated
  split at hcreated
  · cases hcreated
  · cases hcreated
  · cases hcreated
  · cases hcreated
  · next hkind => exact .inl hkind
  · next hkind => exact .inr hkind

/-- The loop goes through if all of them are tables. -/
theorem takeTriggers_of_registerTriggers {rows : List PgDistPartition}
    {triggers triggers' : List Trigger}
    (h : rows.foldlM (registerTrigger relkind) triggers = .ok triggers') :
    ∀ p ∈ rows,
      relkind p.logicalrelid = some .relation ∨
        relkind p.logicalrelid = some .partitionedTable := by
  induction rows generalizing triggers with
  | nil => exact fun p hp => nomatch hp
  | cons q rows ih =>
    rw [List.foldlM_cons] at h
    obtain ⟨created, hcreated, hrest⟩ := Rows.bind_eq_ok.mp h
    intro p hp
    rcases List.mem_cons.mp hp with rfl | hp
    · exact takesTrigger_of_registerTrigger hcreated
    · exact ih hrest p hp

/-- One pass of the loop registers the trigger of one more table. -/
theorem registerTrigger_eq {done : List PgDistPartition} {p : PgDistPartition}
    (hkind : relkind p.logicalrelid = some .relation ∨
      relkind p.logicalrelid = some .partitionedTable)
    (hp : ∀ q ∈ done, q.logicalrelid ≠ p.logicalrelid) :
    registerTrigger relkind (done.map truncateTrigger) p =
      .ok ((done ++ [p]).map truncateTrigger) := by
  have hnew : (done.map truncateTrigger).any (fun t =>
      t.tgrelid == p.logicalrelid && t.tgname == triggerName p.logicalrelid) = false := by
    refine List.any_eq_false.mpr fun t ht => ?_
    obtain ⟨q, hq, rfl⟩ := List.mem_map.mp ht
    simp [truncateTrigger, hp q hq]
  have hinternal : setInternal (triggerName p.logicalrelid)
      (done.map truncateTrigger ++ [⟨p.logicalrelid, triggerName p.logicalrelid, false⟩]) =
        (done ++ [p]).map truncateTrigger := by
    unfold setInternal
    rw [List.map_append, List.map_append, List.map_map]
    refine congrArg₂ _ (List.map_congr_left fun q _ => ?_) ?_
    · -- those registered before are internal already
      show (if (truncateTrigger q).tgname == triggerName p.logicalrelid then _ else _) = _
      split <;> rfl
    · simp [truncateTrigger]
  have hcreate : createTrigger relkind (done.map truncateTrigger) p.logicalrelid
      (triggerName p.logicalrelid) = .ok (done.map truncateTrigger ++
        [⟨p.logicalrelid, triggerName p.logicalrelid, false⟩]) := by
    unfold createTrigger
    rcases hkind with hkind | hkind
    · rw [hkind]
      exact if_neg (Bool.eq_false_iff.mp hnew)
    · rw [hkind]
      exact if_neg (Bool.eq_false_iff.mp hnew)
  unfold registerTrigger
  rw [hcreate, ← hinternal]
  rfl

/-- **The loop registers the triggers of all tables.** -/
theorem registerTriggers_eq {done rows : List PgDistPartition}
    (hkinds : ∀ p ∈ rows,
      relkind p.logicalrelid = some .relation ∨ relkind p.logicalrelid = some .partitionedTable)
    (h : ((done ++ rows).map PgDistPartition.logicalrelid).Nodup) :
    rows.foldlM (registerTrigger relkind) (done.map truncateTrigger) =
      .ok ((done ++ rows).map truncateTrigger) := by
  induction rows generalizing done with
  | nil => rw [List.append_nil]; rfl
  | cons p rows ih =>
    have hp : ∀ q ∈ done, q.logicalrelid ≠ p.logicalrelid := by
      intro q hq heq
      rw [List.map_append, List.map_cons] at h
      exact (List.nodup_append.mp h).2.2 _ (List.mem_map_of_mem hq) _ List.mem_cons_self heq
    rw [List.append_cons] at h ⊢
    rw [List.foldlM_cons, registerTrigger_eq (hkinds p List.mem_cons_self) hp]
    exact ih (fun q hq => hkinds q (List.mem_cons_of_mem p hq)) h

/-! ## The cycle -/

/-- The database after a cycle, with the values that the sequences have then. -/
def afterCycle (u : Upgrade) (s : Database) (sequences : Sequences) : Database where
  serverVersion := u.serverVersion
  names := s.names.renumber u.procOid
  relkind := s.relkind
  catalogs := { restoredTables u.procOid s.catalogs with
    pgDistObject := renumberObjects u.procOid s.catalogs }
  backup := .none
  sequences := sequences
  triggers := s.catalogs.pgDistPartition.rows.map truncateTrigger
  arrayCatAggs := [if u.serverVersion ≥ 14 then .anycompatiblearray else .anyarray]

/-- **What a database needs to be upgraded.** Its truncate triggers are internal, as the
extension makes them. -/
structure Ready (s : Database) : Prop where
  names : NamesInverse s.names s.catalogs
  triggers : ∀ t ∈ s.triggers, t.tgisinternal = true

/-- **A cycle depends on the sequences and the triggers only.** -/
theorem cycle_eq (h : Ready s) (u : Upgrade) :
    cycle u s = do
      let sequences ← resetSequences s.catalogs .start
      let triggers ← s.catalogs.pgDistPartition.rows.foldlM (registerTrigger s.relkind) []
      return { afterCycle u s sequences with triggers } := by
  have htriggers : (s.triggers.filter fun t => !t.tgisinternal) = [] :=
    List.filter_eq_nil_iff.mpr fun t ht => by simp [h.triggers t ht]
  have hagg : createArrayCatAgg u.serverVersion [] =
      .ok [if u.serverVersion ≥ 14 then .anycompatiblearray else .anyarray] := rfl
  have hdrop : dropBackupTables (.of s.names s.catalogs) = .ok { Backup.none with
      pgDistObject := some (s.catalogs.pgDistObject.rows.map (nameObject s.names)) } := rfl
  have hreset : resetSequences (restoredTables u.procOid s.catalogs) .start =
      resetSequences s.catalogs .start := rfl
  have hpartition : (restoredTables u.procOid s.catalogs).pgDistPartition =
      s.catalogs.pgDistPartition := rfl
  unfold cycle
  rw [citusPreparePgUpgrade_eq]
  show citusFinishPgUpgrade (pgUpgrade u { s with
    arrayCatAggs := [], backup := .of s.names s.catalogs }) = _
  unfold citusFinishPgUpgrade pgUpgrade
  simp only [htriggers, hagg, restoreCatalogTables_eq h.names, hdrop, hreset, bind, Except.bind]
  cases resetSequences s.catalogs .start with
  | error e => rfl
  | ok q =>
    simp only [hpartition]
    cases s.catalogs.pgDistPartition.rows.foldlM (registerTrigger s.relkind) [] with
    | error e => rfl
    | ok triggers =>
      simp only [restoreObjects_eq h.names]
      rfl

/-- **If all have triggers, it depends on the sequences.** -/
theorem cycle_eq_of_takeTriggers (h : Ready s) (hkinds : TakeTriggers s.relkind s.catalogs)
    (u : Upgrade) :
    cycle u s = (resetSequences s.catalogs .start).map (afterCycle u s) := by
  have hregister : s.catalogs.pgDistPartition.rows.foldlM (registerTrigger s.relkind) [] =
      .ok (s.catalogs.pgDistPartition.rows.map truncateTrigger) := by
    have hunique : (([] ++ s.catalogs.pgDistPartition.rows).map
        PgDistPartition.logicalrelid).Nodup := of_decide_eq_true s.catalogs.pgDistPartition.valid
    exact registerTriggers_eq hkinds hunique
  rw [cycle_eq h, hregister]
  cases resetSequences s.catalogs .start with
  | error e => rfl
  | ok q => rfl

/-- **When a cycle succeeds**: all ids fit their sequences, and all distributed tables can have
truncate triggers. -/
theorem cycle_iff (h : Ready s) (u : Upgrade) :
    (∃ s', cycle u s = .ok s') ↔ IdsFit s.catalogs ∧ TakeTriggers s.relkind s.catalogs := by
  rw [← resetSequences_iff s.catalogs .start]
  constructor
  · rintro ⟨s', hs'⟩
    rw [cycle_eq h] at hs'
    obtain ⟨q, hq, hs'⟩ := Rows.bind_eq_ok.mp hs'
    obtain ⟨triggers, hregister, _⟩ := Rows.bind_eq_ok.mp hs'
    exact ⟨⟨q, hq⟩, takeTriggers_of_registerTriggers hregister⟩
  · rintro ⟨⟨q, hq⟩, hkinds⟩
    rw [cycle_eq_of_takeTriggers h hkinds, hq]
    exact ⟨_, rfl⟩

end PgUpgrade
