import Mathlib.Data.Prod.Lex
import Mathlib.Data.Set.Basic
import Mathlib.Data.String.Basic
import PgCitus.Library.Rows

/-!
# Co-located tables

`distributed_tables_colocated` decides from the catalogs whether two tables are
distributed alike: their shards pair up by the range of the distribution column that
they hold, and the shards of every pair are placed on the same nodes.

The function joins the shards of the two tables on their ranges, and finds out by
counting whether they pair up. Then it lists the active placements of the shards of
both tables, in the order of the pairs and of the nodes, and compares the two lists
node by node. What it does not compare is the pair that a node is listed for. So it
tells whether the nodes agree when they are *written one after another* (`leftNodes`,
`rightNodes`), and this is not the same as agreeing pair by pair: when one pair has a
node more on the left and the next one on the right, the lists may be equal (`Slipped`).
The placements exclude this where the shards of every pair have as many of them, or some
node has more of one table than of the other (`colocated_correct`).

Names are of any linearly ordered type, which stands for `text` with its collation.
-/

namespace TablesColocated

variable {Text : Type} [LinearOrder Text]

/-! ## The catalogs -/

/-- A row of `pg_dist_shard`. -/
structure PgDistShard (Text : Type) where
  logicalrelid : ℕ
  shardid : ℤ
  shardminvalue : Option Text
  shardmaxvalue : Option Text

/-- A row of `pg_dist_shard_placement`. -/
structure PgDistShardPlacement (Text : Type) where
  shardid : ℤ
  shardstate : ℤ
  nodename : Text
  nodeport : ℤ

/-- The two catalogs. There is a unique index on the ids of shards. -/
structure Catalogs (Text : Type) where
  pgDistShard : List (PgDistShard Text)
  pgDistShardPlacement : List (PgDistShardPlacement Text)
  shardid_unique : (pgDistShard.map PgDistShard.shardid).Nodup

/-- `citus.colocation_placement_type`. -/
structure ColocationPlacementType (Text : Type) where
  shardid1 : ℤ
  shardid2 : ℤ
  nodename : Text
  nodeport : ℤ

variable (c : Catalogs Text) (table1 table2 : ℕ)

/-! ## The function -/

/-- `=`, in a condition: a comparison with `NULL` does not hold. -/
def sqlEq : Option Text → Option Text → Bool
  | some a, some b => decide (a = b)
  | _, _ => false

/-- `USING (shardminvalue, shardmaxvalue)`. -/
def sameRange (tba tbb : PgDistShard Text) : Bool :=
  sqlEq tba.shardminvalue tbb.shardminvalue && sqlEq tba.shardmaxvalue tbb.shardmaxvalue

/-- `pg_dist_shard tba JOIN pg_dist_shard tbb USING (shardminvalue, shardmaxvalue) WHERE
tba.logicalrelid = table1 AND tbb.logicalrelid = table2`. -/
def joinedShards : List (PgDistShard Text × PgDistShard Text) :=
  (Rows.join sameRange c.pgDistShard c.pgDistShard).filter fun x =>
    decide (x.1.logicalrelid = table1) && decide (x.2.logicalrelid = table2)

/-- `colocated_shards`. -/
def colocatedShards : List (ℤ × ℤ) :=
  (joinedShards c table1 table2).map fun x => (x.1.shardid, x.2.shardid)

/-- `left_shard_placements`. -/
def leftShardPlacements : List (ColocationPlacementType Text) :=
  ((Rows.join (fun cs sp => decide (cs.1 = sp.shardid)) (colocatedShards c table1 table2)
    c.pgDistShardPlacement).filter fun x => decide (x.2.shardstate = 1)).map fun x =>
      ⟨x.1.1, x.1.2, x.2.nodename, x.2.nodeport⟩

/-- `right_shard_placements`. -/
def rightShardPlacements : List (ColocationPlacementType Text) :=
  ((Rows.leftJoin (fun cs sp => decide (cs.2 = sp.shardid)) (colocatedShards c table1 table2)
    c.pgDistShardPlacement).filter fun x => x.2.any fun sp => decide (sp.shardstate = 1)).filterMap
      fun x => x.2.map fun sp => ⟨x.1.1, x.1.2, sp.nodename, sp.nodeport⟩

/-- `ORDER BY shardid1, shardid2, nodename, nodeport`. -/
def orderKey (p : ColocationPlacementType Text) : ℤ ×ₗ ℤ ×ₗ Text ×ₗ ℤ :=
  toLex (p.shardid1, toLex (p.shardid2, toLex (p.nodename, p.nodeport)))

/-- `array_agg(… ORDER BY …)`, which is `NULL` when there are no rows. -/
def arrayAgg (rows : List (ColocationPlacementType Text)) :
    Option (List (ColocationPlacementType Text)) :=
  if rows.isEmpty then none else some (Rows.orderBy orderKey rows)

/-- `array_length(table1_placements, 1) != array_length(table2_placements, 1)`. -/
def lengthsDiffer : Option (List (ColocationPlacementType Text)) →
    Option (List (ColocationPlacementType Text)) → Bool
  | some p, some q => decide (p.length ≠ q.length)
  | _, _ => false

/-- `table1_placements[i].nodename != table2_placements[i].nodename OR
table1_placements[i].nodeport != table2_placements[i].nodeport`. -/
def nodesDiffer (p q : List (ColocationPlacementType Text)) (i : ℕ) : Bool :=
  match p[i]?, q[i]? with
  | some a, some b => decide (a.nodename ≠ b.nodename) || decide (a.nodeport ≠ b.nodeport)
  | _, _ => false

/-- What is raised. -/
inductive Error where
  /-- `upper bound of FOR loop cannot be null` -/
  | upperBoundNull
deriving DecidableEq

/-- The end of the function: the comparison of the two arrays. -/
def comparePlacements (table1Placements table2Placements :
    Option (List (ColocationPlacementType Text))) : Except Error Bool :=
  if lengthsDiffer table1Placements table2Placements then .ok false
  else
    match table1Placements with
    | none => .error .upperBoundNull
    | some p => .ok (!(List.range p.length).any (nodesDiffer p (table2Placements.getD [])))

/-- `distributed_tables_colocated`. -/
def distributedTablesColocated : Except Error Bool :=
  let colocatedShardCount := (joinedShards c table1 table2).length
  let table1ShardCount := (c.pgDistShard.filter fun a => decide (a.logicalrelid = table1)).length
  let table2ShardCount := (c.pgDistShard.filter fun b => decide (b.logicalrelid = table2)).length
  if table1ShardCount ≠ table2ShardCount ∨ table1ShardCount ≠ colocatedShardCount then .ok false
  else
    let table1Placements := arrayAgg (leftShardPlacements c table1 table2)
    let table1PlacementCount :=
      Rows.countDistinct ((leftShardPlacements c table1 table2).map (·.shardid1))
    let table2Placements := arrayAgg (rightShardPlacements c table1 table2)
    let table2PlacementCount :=
      Rows.countDistinct ((rightShardPlacements c table1 table2).map (·.shardid2))
    if table1ShardCount ≠ table1PlacementCount ∨ table1PlacementCount ≠ table2PlacementCount then
      .ok false
    else comparePlacements table1Placements table2Placements

/-! ## Being co-located -/

/-- The shards of a table. -/
def shardsOf (table : ℕ) : List (PgDistShard Text) :=
  c.pgDistShard.filter fun s => decide (s.logicalrelid = table)

/-- The nodes that a shard has an active placement on. -/
def activeNodes (s : PgDistShard Text) : Set (Text × ℤ) :=
  {n | ∃ sp ∈ c.pgDistShardPlacement,
    sp.shardid = s.shardid ∧ sp.shardstate = 1 ∧ (sp.nodename, sp.nodeport) = n}

/-- **Two tables are co-located**: there is one bijection between their shards that
preserves the ranges, and one only, and the shards it pairs have the same active nodes,
of which there are some. -/
def Colocated : Prop :=
  ∃ e : {s // s ∈ shardsOf c table1} ≃ {s // s ∈ shardsOf c table2},
    (∀ s, s.1.shardminvalue = (e s).1.shardminvalue ∧ s.1.shardmaxvalue = (e s).1.shardmaxvalue) ∧
    (∀ e' : {s // s ∈ shardsOf c table1} ≃ {s // s ∈ shardsOf c table2},
      (∀ s, s.1.shardminvalue = (e' s).1.shardminvalue ∧
        s.1.shardmaxvalue = (e' s).1.shardmaxvalue) → e' = e) ∧
    ∀ s, (activeNodes c s.1).Nonempty ∧ activeNodes c s.1 = activeNodes c (e s).1

/-- The table has ranges for all of its shards. -/
def HasRanges (table : ℕ) : Prop :=
  ∀ s ∈ shardsOf c table, s.shardminvalue.isSome ∧ s.shardmaxvalue.isSome

variable {c table1 table2}

theorem sqlEq_iff {a b : Option Text} : sqlEq a b = true ↔ a.isSome ∧ a = b := by
  cases a with
  | none => exact iff_of_false (fun h => nomatch h) (fun h => nomatch h.1)
  | some x =>
    cases b with
    | none => exact iff_of_false (fun h => nomatch h) (fun h => nomatch h.2)
    | some y =>
      rw [sqlEq, decide_eq_true_iff, Option.some.injEq]
      exact (and_iff_right rfl).symm

theorem sameRange_iff {a b : PgDistShard Text} (hmin : a.shardminvalue.isSome)
    (hmax : a.shardmaxvalue.isSome) : sameRange a b = true ↔
      a.shardminvalue = b.shardminvalue ∧ a.shardmaxvalue = b.shardmaxvalue := by
  unfold sameRange
  rw [Bool.and_eq_true, sqlEq_iff, sqlEq_iff, and_iff_right hmin, and_iff_right hmax]

/-- Of shards that share partners, each is a partner of the other's partners. -/
theorem sameRange_rect (a a' b b' : PgDistShard Text) (h : sameRange a b = true)
    (h' : sameRange a b' = true) (h'' : sameRange a' b' = true) : sameRange a' b = true := by
  have hrect : ∀ x x' y y' : Option Text, sqlEq x y = true → sqlEq x y' = true →
      sqlEq x' y' = true → sqlEq x' y = true := by
    intro x x' y y' h h' h''
    obtain ⟨_, hxy⟩ := sqlEq_iff.mp h
    obtain ⟨_, hxy'⟩ := sqlEq_iff.mp h'
    obtain ⟨hx', hx'y'⟩ := sqlEq_iff.mp h''
    exact sqlEq_iff.mpr ⟨hx', hx'y'.trans (hxy'.symm.trans hxy)⟩
  unfold sameRange at *
  rw [Bool.and_eq_true] at *
  exact ⟨hrect _ _ _ _ h.1 h'.1 h''.1, hrect _ _ _ _ h.2 h'.2 h''.2⟩

/-- **Being co-located, without the bijection.** -/
theorem colocated_iff (h₁ : HasRanges c table1) :
    Colocated c table1 table2 ↔
      Rows.PairsUp sameRange (shardsOf c table1) (shardsOf c table2) ∧
      ∀ a ∈ shardsOf c table1, ∀ b ∈ shardsOf c table2, sameRange a b = true →
        (activeNodes c a).Nonempty ∧ activeNodes c a = activeNodes c b := by
  have hrange : ∀ (a : {s // s ∈ shardsOf c table1}) (b : PgDistShard Text),
      sameRange a.1 b = true ↔
        a.1.shardminvalue = b.shardminvalue ∧ a.1.shardmaxvalue = b.shardmaxvalue :=
    fun a b => sameRange_iff (h₁ a.1 a.2).1 (h₁ a.1 a.2).2
  unfold Colocated
  simp only [← hrange]
  rw [Rows.pairsUp_iff_equiv sameRange_rect]
  constructor
  · rintro ⟨e, he, huniq, hnodes⟩
    refine ⟨⟨e, he, huniq⟩, fun a ha b hb hab => ?_⟩
    have hpairs := (Rows.pairsUp_iff_equiv sameRange_rect).mpr ⟨e, he, huniq⟩
    obtain ⟨b', hb', _, hone⟩ := hpairs.left a ha
    rw [hone b hb hab, ← hone _ (e ⟨a, ha⟩).2 (he ⟨a, ha⟩)]
    exact hnodes ⟨a, ha⟩
  · rintro ⟨⟨e, he, huniq⟩, hnodes⟩
    exact ⟨e, he, huniq, fun s => hnodes s.1 s.2 _ (e s).2 (he s)⟩

/-! ## What the function lists -/

omit [LinearOrder Text] in
/-- The ids of a table's shards are all different, and so are the shards. -/
theorem shardsOf_nodup (c : Catalogs Text) (table : ℕ) :
    ((shardsOf c table).map PgDistShard.shardid).Nodup ∧ (shardsOf c table).Nodup := by
  have hids : ((shardsOf c table).map PgDistShard.shardid).Nodup :=
    c.shardid_unique.sublist (List.filter_sublist.map _)
  exact ⟨hids, hids.of_map _⟩

/-- The joined shards are those of the two tables, joined. -/
theorem joinedShards_eq : joinedShards c table1 table2 =
    Rows.join sameRange (shardsOf c table1) (shardsOf c table2) :=
  Rows.filter_join (fun a : PgDistShard Text => decide (a.logicalrelid = table1))
    (fun b : PgDistShard Text => decide (b.logicalrelid = table2))

/-- The active placements of a shard. -/
def activePlacements (c : Catalogs Text) (s : PgDistShard Text) :
    List (PgDistShardPlacement Text) :=
  c.pgDistShardPlacement.filter fun sp =>
    decide (s.shardid = sp.shardid) && decide (sp.shardstate = 1)

/-- The row for a node of a pair. -/
def rowOf (a b : PgDistShard Text) (n : Text × ℤ) : ColocationPlacementType Text :=
  ⟨a.shardid, b.shardid, n.1, n.2⟩

/-- The nodes that a shard has active placements on, in order, as often as it has. -/
def nodesOf (c : Catalogs Text) (s : PgDistShard Text) : List (Text × ℤ) :=
  Rows.orderBy toLex ((activePlacements c s).map fun sp => (sp.nodename, sp.nodeport))

/-- The rows for the shards joined, with the nodes of one shard of each pair. -/
def rowsOf (c : Catalogs Text) (table1 table2 : ℕ)
    (side : PgDistShard Text × PgDistShard Text → PgDistShard Text) :
    List (ColocationPlacementType Text) :=
  (joinedShards c table1 table2).flatMap fun x =>
    (activePlacements c (side x)).map fun sp => rowOf x.1 x.2 (sp.nodename, sp.nodeport)

/-- Placements joined on the id of one shard of each pair are those of that shard. -/
theorem placements_eq {id : ℤ × ℤ → ℤ}
    {side : PgDistShard Text × PgDistShard Text → PgDistShard Text}
    (hid : ∀ x, id (x.1.shardid, x.2.shardid) = (side x).shardid) :
    ((Rows.join (fun cs sp => decide (id cs = sp.shardid)) (colocatedShards c table1 table2)
      c.pgDistShardPlacement).filter fun x => decide (x.2.shardstate = 1)).map
        (fun x => ⟨x.1.1, x.1.2, x.2.nodename, x.2.nodeport⟩) = rowsOf c table1 table2 side := by
  unfold colocatedShards rowsOf Rows.join activePlacements
  rw [List.flatMap_map, List.filter_flatMap, List.map_flatMap]
  refine congrArg (fun h => (joinedShards c table1 table2).flatMap h) (funext fun x => ?_)
  rw [List.filter_map, List.map_map, List.filter_filter]
  simp only [Function.comp_def, Bool.and_comm, hid]
  rfl

theorem leftShardPlacements_eq :
    leftShardPlacements c table1 table2 = rowsOf c table1 table2 Prod.fst :=
  placements_eq fun _ => rfl

theorem rightShardPlacements_eq :
    rightShardPlacements c table1 table2 = rowsOf c table1 table2 Prod.snd := by
  unfold rightShardPlacements
  rw [Rows.filterMap_leftJoin (fun sp => decide (sp.shardstate = 1))
    (fun (cs : ℤ × ℤ) (sp : PgDistShardPlacement Text) =>
      (⟨cs.1, cs.2, sp.nodename, sp.nodeport⟩ : ColocationPlacementType Text))]
  exact placements_eq fun _ => rfl

omit [LinearOrder Text] in
theorem mem_activeNodes {s : PgDistShard Text} {n : Text × ℤ} :
    n ∈ activeNodes c s ↔ ∃ sp ∈ activePlacements c s, (sp.nodename, sp.nodeport) = n := by
  unfold activeNodes activePlacements
  simp only [Set.mem_ofPred_eq, List.mem_filter, Bool.and_eq_true, decide_eq_true_eq]
  constructor
  · rintro ⟨sp, hsp, hid, hstate, hn⟩
    exact ⟨sp, ⟨hsp, hid.symm, hstate⟩, hn⟩
  · rintro ⟨sp, ⟨hsp, hid, hstate⟩, hn⟩
    exact ⟨sp, hsp, hid.symm, hstate, hn⟩

theorem mem_nodesOf {s : PgDistShard Text} {n : Text × ℤ} :
    n ∈ nodesOf c s ↔ n ∈ activeNodes c s := by
  unfold nodesOf
  rw [Rows.mem_orderBy, mem_activeNodes, List.mem_map]

/-! ## Counting shards -/

/-- A row is listed for each active node of each pair. -/
theorem mem_rowsOf {side : PgDistShard Text × PgDistShard Text → PgDistShard Text}
    {p : ColocationPlacementType Text} :
    p ∈ rowsOf c table1 table2 side ↔ ∃ a ∈ shardsOf c table1, ∃ b ∈ shardsOf c table2,
      sameRange a b = true ∧ ∃ n ∈ activeNodes c (side (a, b)), rowOf a b n = p := by
  unfold rowsOf
  rw [joinedShards_eq, List.mem_flatMap]
  constructor
  · rintro ⟨⟨a, b⟩, hab, hp⟩
    obtain ⟨ha, hb, hr⟩ := Rows.mem_join.mp hab
    obtain ⟨sp, hsp, rfl⟩ := List.mem_map.mp hp
    exact ⟨a, ha, b, hb, hr, _, mem_activeNodes.mpr ⟨sp, hsp, rfl⟩, rfl⟩
  · rintro ⟨a, ha, b, hb, hr, n, hn, rfl⟩
    obtain ⟨sp, hsp, rfl⟩ := mem_activeNodes.mp hn
    exact ⟨(a, b), Rows.mem_join.mpr ⟨ha, hb, hr⟩, List.mem_map_of_mem hsp⟩

/-- **The count of the shards listed**: each shard of the table is in a pair, and has an
active node. -/
theorem count_iff {side : PgDistShard Text × PgDistShard Text → PgDistShard Text} {table : ℕ}
    {id : ColocationPlacementType Text → ℤ}
    (hid : ∀ a b n, id (rowOf a b n) = (side (a, b)).shardid)
    (hside : ∀ a ∈ shardsOf c table1, ∀ b ∈ shardsOf c table2, side (a, b) ∈ shardsOf c table) :
    (shardsOf c table).length = Rows.countDistinct ((rowsOf c table1 table2 side).map id) ↔
      ∀ s ∈ shardsOf c table, (activeNodes c s).Nonempty ∧ ∃ a ∈ shardsOf c table1,
        ∃ b ∈ shardsOf c table2, sameRange a b = true ∧ side (a, b) = s := by
  rw [Rows.length_eq_countDistinct_iff (shardsOf_nodup c table).1]
  · refine forall₂_congr fun s hs => ?_
    constructor
    · intro h
      obtain ⟨p, hp, hps⟩ := List.mem_map.mp h
      obtain ⟨a, ha, b, hb, hr, n, hn, rfl⟩ := mem_rowsOf.mp hp
      -- the id tells the shard
      have hsame : side (a, b) = s := List.inj_on_of_nodup_map (shardsOf_nodup c table).1
        (hside a ha b hb) hs ((hid a b n).symm.trans hps)
      exact ⟨hsame ▸ ⟨n, hn⟩, a, ha, b, hb, hr, hsame⟩
    · rintro ⟨⟨n, hn⟩, a, ha, b, hb, hr, rfl⟩
      exact List.mem_map.mpr ⟨_, mem_rowsOf.mpr ⟨a, ha, b, hb, hr, n, hn, rfl⟩, hid a b n⟩
  · intro i hi
    obtain ⟨p, hp, rfl⟩ := List.mem_map.mp hi
    obtain ⟨a, ha, b, hb, hr, n, hn, rfl⟩ := mem_rowsOf.mp hp
    rw [hid]
    exact List.mem_map_of_mem (hside a ha b hb)

/-- **The left count**: each shard of the first table has a partner and an active node. -/
theorem left_count_iff :
    (shardsOf c table1).length =
        Rows.countDistinct ((leftShardPlacements c table1 table2).map (·.shardid1)) ↔
      ∀ a ∈ shardsOf c table1, (activeNodes c a).Nonempty ∧
        ∃ b ∈ shardsOf c table2, sameRange a b = true := by
  rw [leftShardPlacements_eq, count_iff (fun _ _ _ => rfl) fun a ha _ _ => ha]
  refine forall₂_congr fun a ha => and_congr_right' ?_
  constructor
  · rintro ⟨a, _, b, hb, hr, rfl⟩
    exact ⟨b, hb, hr⟩
  · rintro ⟨b, hb, hr⟩
    exact ⟨a, ha, b, hb, hr, rfl⟩

/-- **The right count**, likewise. -/
theorem right_count_iff :
    (shardsOf c table2).length =
        Rows.countDistinct ((rightShardPlacements c table1 table2).map (·.shardid2)) ↔
      ∀ b ∈ shardsOf c table2, (activeNodes c b).Nonempty ∧
        ∃ a ∈ shardsOf c table1, sameRange a b = true := by
  rw [rightShardPlacements_eq, count_iff (fun _ _ _ => rfl) fun _ _ b hb => hb]
  refine forall₂_congr fun b hb => and_congr_right' ?_
  constructor
  · rintro ⟨a, ha, b, _, hr, rfl⟩
    exact ⟨a, ha, hr⟩
  · rintro ⟨a, ha, hr⟩
    exact ⟨a, ha, b, hb, hr, rfl⟩

/-! ## The nodes in order -/

/-- The shards of a table, in the order of their ids. -/
def shardsInOrder (c : Catalogs Text) (table : ℕ) : List (PgDistShard Text) :=
  Rows.orderBy PgDistShard.shardid (shardsOf c table)

/-- The shards of the second table that hold the same range. -/
def partners (c : Catalogs Text) (table2 : ℕ) (a : PgDistShard Text) : List (PgDistShard Text) :=
  (shardsOf c table2).filter (sameRange a)

/-- **The nodes of the first table, one after another**: in the order of its shards. -/
def leftNodes (c : Catalogs Text) (table1 : ℕ) : List (Text × ℤ) :=
  (shardsInOrder c table1).flatMap (nodesOf c)

/-- **The nodes of the second table, one after another**: in the order of the first
table's shards that they are paired with. -/
def rightNodes (c : Catalogs Text) (table1 table2 : ℕ) : List (Text × ℤ) :=
  (shardsInOrder c table1).flatMap fun a => (partners c table2 a).flatMap (nodesOf c)

theorem partners_eq (h : Rows.PairsUp sameRange (shardsOf c table1) (shardsOf c table2))
    {a : PgDistShard Text} (ha : a ∈ shardsOf c table1) :
    ∃ b ∈ shardsOf c table2, sameRange a b = true ∧ partners c table2 a = [b] := by
  have hlen := (Rows.length_filter_eq_one_iff (shardsOf_nodup c table2).2 _).mpr (h.left a ha)
  obtain ⟨b, hb⟩ := List.length_eq_one_iff.mp hlen
  have hmem : b ∈ partners c table2 a := by
    rw [partners, hb]
    exact List.mem_singleton_self b
  exact ⟨b, (List.mem_filter.mp hmem).1, (List.mem_filter.mp hmem).2, hb⟩

omit [LinearOrder Text] in
/-- Rows are told apart by what they are ordered by. -/
theorem orderKey_injective [LinearOrder Text] :
    Function.Injective (orderKey : ColocationPlacementType Text → _) := by
  rintro ⟨i, j, n, m⟩ ⟨i', j', n', m'⟩ h
  simp only [orderKey, toLex_inj, Prod.mk.injEq] at h
  obtain ⟨rfl, rfl, rfl, rfl⟩ := h
  rfl

/-- **The rows in order** are those of one pair after another, each in the order of the
nodes. -/
theorem orderBy_rowsOf (h : Rows.PairsUp sameRange (shardsOf c table1) (shardsOf c table2))
    (side : PgDistShard Text × PgDistShard Text → PgDistShard Text) :
    Rows.orderBy orderKey (rowsOf c table1 table2 side) =
      (shardsInOrder c table1).flatMap fun a => (partners c table2 a).flatMap fun b =>
        (nodesOf c (side (a, b))).map (rowOf a b) := by
  refine Rows.orderBy_eq orderKey_injective ?_ ?_
  · -- the same rows
    unfold rowsOf
    rw [joinedShards_eq]
    unfold Rows.join
    rw [List.flatMap_assoc]
    refine List.Perm.flatMap (Rows.perm_orderBy _ _) fun a _ => ?_
    rw [List.flatMap_map]
    refine List.Perm.flatMap_left _ fun b _ => ?_
    have hmap := (Rows.perm_orderBy toLex
      ((activePlacements c (side (a, b))).map fun sp => (sp.nodename, sp.nodeport))).map (rowOf a b)
    rw [List.map_map] at hmap
    exact hmap
  · -- in order: by the ids between shards, by the nodes within one
    refine List.pairwise_flatMap.mpr ⟨fun a ha => ?_, ?_⟩
    · obtain ⟨b, hb, hr, hpart⟩ := partners_eq h (Rows.mem_orderBy.mp ha)
      rw [hpart, List.flatMap_singleton]
      refine (Rows.pairwise_orderBy toLex _).map (rowOf a b) fun m n hmn => ?_
      exact Prod.Lex.toLex_le_toLex.mpr
        (.inr ⟨rfl, Prod.Lex.toLex_le_toLex.mpr (.inr ⟨rfl, hmn⟩)⟩)
    · refine (Rows.pairwise_lt_orderBy (shardsOf_nodup c table1).1).imp
        fun {a a'} haa p hp q hq => ?_
      obtain ⟨b, _, hp⟩ := List.mem_flatMap.mp hp
      obtain ⟨n, _, rfl⟩ := List.mem_map.mp hp
      obtain ⟨b', _, hq⟩ := List.mem_flatMap.mp hq
      obtain ⟨n', _, rfl⟩ := List.mem_map.mp hq
      exact Prod.Lex.toLex_le_toLex.mpr (.inl haa)

/-- The node of a row. -/
def nodeOf (p : ColocationPlacementType Text) : Text × ℤ := (p.nodename, p.nodeport)

/-- **The nodes of the rows in order** are those of one pair after another. -/
theorem map_nodeOf (h : Rows.PairsUp sameRange (shardsOf c table1) (shardsOf c table2))
    (side : PgDistShard Text × PgDistShard Text → PgDistShard Text) :
    (Rows.orderBy orderKey (rowsOf c table1 table2 side)).map nodeOf =
      (shardsInOrder c table1).flatMap fun a => (partners c table2 a).flatMap fun b =>
        nodesOf c (side (a, b)) := by
  rw [orderBy_rowsOf h, List.map_flatMap]
  refine List.flatMap_congr fun a _ => ?_
  rw [List.map_flatMap]
  refine List.flatMap_congr fun b _ => ?_
  rw [List.map_map]
  exact List.map_id (nodesOf c (side (a, b)))

/-- **The rows of the first table**, without the ids. -/
theorem map_nodeOf_left (h : Rows.PairsUp sameRange (shardsOf c table1) (shardsOf c table2)) :
    (Rows.orderBy orderKey (rowsOf c table1 table2 Prod.fst)).map nodeOf = leftNodes c table1 := by
  rw [map_nodeOf h]
  refine List.flatMap_congr fun a ha => ?_
  obtain ⟨b, _, _, hpart⟩ := partners_eq h (Rows.mem_orderBy.mp ha)
  rw [hpart, List.flatMap_singleton]

/-- **The rows of the second table**, without the ids. -/
theorem map_nodeOf_right (h : Rows.PairsUp sameRange (shardsOf c table1) (shardsOf c table2)) :
    (Rows.orderBy orderKey (rowsOf c table1 table2 Prod.snd)).map nodeOf =
      rightNodes c table1 table2 := map_nodeOf h Prod.snd

/-! ## What the function decides -/

/-- **The loop compares the nodes**, and nothing else. -/
theorem nodes_eq_iff (p q : List (ColocationPlacementType Text)) :
    p.length = q.length ∧ (List.range p.length).any (nodesDiffer p q) = false ↔
      p.map nodeOf = q.map nodeOf := by
  have hat : ∀ {i} (hp : i < p.length) (hq : i < q.length),
      nodesDiffer p q i = false ↔ nodeOf p[i] = nodeOf q[i] := by
    intro i hp hq
    unfold nodesDiffer nodeOf
    rw [List.getElem?_eq_getElem hp, List.getElem?_eq_getElem hq]
    simp [Prod.ext_iff]
  constructor
  · rintro ⟨hlen, hno⟩
    refine List.ext_getElem (by rw [List.length_map, List.length_map, hlen]) fun i hi hi' => ?_
    rw [List.length_map] at hi hi'
    rw [List.getElem_map, List.getElem_map]
    refine (hat hi hi').mp (Bool.eq_false_iff.mpr fun hdiff => ?_)
    exact Bool.eq_false_iff.mp hno (List.any_eq_true.mpr ⟨i, List.mem_range.mpr hi, hdiff⟩)
  · intro h
    have hlen : p.length = q.length := by
      have := congrArg List.length h
      rwa [List.length_map, List.length_map] at this
    refine ⟨hlen, Bool.eq_false_iff.mpr fun hany => ?_⟩
    obtain ⟨i, hi, hdiff⟩ := List.any_eq_true.mp hany
    have hp := List.mem_range.mp hi
    have hq : i < q.length := hlen ▸ hp
    refine Bool.eq_false_iff.mp ((hat hp hq).mpr ?_) hdiff
    rw [← List.getElem_map nodeOf (h := by rw [List.length_map]; exact hp),
      ← List.getElem_map nodeOf (h := by rw [List.length_map]; exact hq)]
    exact List.getElem_of_eq h _

theorem comparePlacements_iff (p q : List (ColocationPlacementType Text)) :
    comparePlacements (some p) (some q) = .ok true ↔ p.map nodeOf = q.map nodeOf := by
  rw [← nodes_eq_iff]
  unfold comparePlacements
  by_cases hlen : p.length = q.length
  · rw [if_neg (by simpa [lengthsDiffer] using hlen), and_iff_right hlen, Except.ok.injEq,
      Bool.not_eq_true', Option.getD_some]
  · rw [if_pos (by simpa [lengthsDiffer] using hlen)]
    exact ⟨(fun h => nomatch h), fun h => absurd h.1 hlen⟩

/-- **The shards of two tables match**: they pair up, and all have active placements. -/
def Matched (c : Catalogs Text) (table1 table2 : ℕ) : Prop :=
  Rows.PairsUp sameRange (shardsOf c table1) (shardsOf c table2) ∧
    (∀ a ∈ shardsOf c table1, (activeNodes c a).Nonempty) ∧
    ∀ b ∈ shardsOf c table2, (activeNodes c b).Nonempty

/-- **The counts find out whether the shards match.** -/
theorem matched_iff : Matched c table1 table2 ↔
    (shardsOf c table1).length = (shardsOf c table2).length ∧
      (shardsOf c table1).length = (joinedShards c table1 table2).length ∧
      (shardsOf c table1).length =
        Rows.countDistinct ((leftShardPlacements c table1 table2).map (·.shardid1)) ∧
      (shardsOf c table2).length =
        Rows.countDistinct ((rightShardPlacements c table1 table2).map (·.shardid2)) := by
  unfold Matched
  rw [left_count_iff, right_count_iff, joinedShards_eq,
    Rows.pairsUp_iff_length (shardsOf_nodup c table1).2 (shardsOf_nodup c table2).2]
  constructor
  · rintro ⟨⟨hlen, hjoin, hleft, hright⟩, hact₁, hact₂⟩
    exact ⟨hlen, hjoin, fun a ha => ⟨hact₁ a ha, hleft a ha⟩, fun b hb => ⟨hact₂ b hb, hright b hb⟩⟩
  · rintro ⟨hlen, hjoin, hleft, hright⟩
    exact ⟨⟨hlen, hjoin, fun a ha => (hleft a ha).2, fun b hb => (hright b hb).2⟩,
      fun a ha => (hleft a ha).1, fun b hb => (hright b hb).1⟩

/-- Where there are ids to count, there are rows. -/
theorem arrayAgg_eq {rows : List (ColocationPlacementType Text)} {table : ℕ}
    {id : ColocationPlacementType Text → ℤ} (hne : shardsOf c table ≠ [])
    (hcount : (shardsOf c table).length = Rows.countDistinct (rows.map id)) :
    arrayAgg rows = some (Rows.orderBy orderKey rows) := by
  cases rows with
  | nil => exact absurd (List.length_eq_zero_iff.mp hcount) hne
  | cons p rows => rfl

/-- **When the function returns true**: the shards match, and the nodes of the two tables,
one after another, are the same. -/
theorem distributedTablesColocated_iff (hne₁ : shardsOf c table1 ≠ [])
    (hne₂ : shardsOf c table2 ≠ []) : distributedTablesColocated c table1 table2 = .ok true ↔
      Matched c table1 table2 ∧ leftNodes c table1 = rightNodes c table1 table2 := by
  by_cases hm : Matched c table1 table2
  · obtain ⟨hlen, hjoin, hleft, hright⟩ := matched_iff.mp hm
    have hcompare : distributedTablesColocated c table1 table2 =
        comparePlacements (arrayAgg (leftShardPlacements c table1 table2))
          (arrayAgg (rightShardPlacements c table1 table2)) :=
      (if_neg fun h => h.elim (· hlen) (· hjoin)).trans
        (if_neg fun h => h.elim (· hleft) (· (hleft.symm.trans (hlen.trans hright))))
    rw [hcompare, arrayAgg_eq hne₁ hleft, arrayAgg_eq hne₂ hright, comparePlacements_iff,
      leftShardPlacements_eq, rightShardPlacements_eq, map_nodeOf_left hm.1, map_nodeOf_right hm.1,
      and_iff_right hm]
  · refine ⟨fun h => absurd ?_ hm, fun h => absurd h.1 hm⟩
    unfold distributedTablesColocated at h
    simp only at h
    split at h
    · cases h
    · next h₁ =>
      split at h
      · cases h
      · next h₂ =>
        rw [not_or, not_not, not_not] at h₁ h₂
        exact matched_iff.mpr ⟨h₁.1, h₁.2, h₂.1, h₁.1.symm.trans (h₂.1.trans h₂.2)⟩

/-! ## Where it goes wrong -/

/-- **Nodes slip from one pair into another**: the shards match, and the nodes are the
same one after another, but not pair by pair. -/
def Slipped (c : Catalogs Text) (table1 table2 : ℕ) : Prop :=
  Matched c table1 table2 ∧ leftNodes c table1 = rightNodes c table1 table2 ∧
    ∃ a ∈ shardsOf c table1, ∃ b ∈ shardsOf c table2, sameRange a b = true ∧
      activeNodes c a ≠ activeNodes c b

/-- **A node counts more than once**: the shards match, and the nodes are the same pair by
pair, but not as often. -/
def Doubled (c : Catalogs Text) (table1 table2 : ℕ) : Prop :=
  Matched c table1 table2 ∧ leftNodes c table1 ≠ rightNodes c table1 table2 ∧
    ∀ a ∈ shardsOf c table1, ∀ b ∈ shardsOf c table2, sameRange a b = true →
      activeNodes c a = activeNodes c b

/-- **Nodes slip only where a pair has more placements on one side.** -/
theorem Slipped.length (h : Slipped c table1 table2) :
    ∃ a ∈ shardsOf c table1, ∃ b ∈ shardsOf c table2, sameRange a b = true ∧
      (nodesOf c a).length ≠ (nodesOf c b).length := by
  obtain ⟨hm, heq, a, ha, b, hb, hr, hne⟩ := h
  by_contra hno
  refine hne ?_
  have hpart : ∀ a ∈ shardsInOrder c table1, ∃ b ∈ shardsOf c table2, sameRange a b = true ∧
      (partners c table2 a).flatMap (nodesOf c) = nodesOf c b := by
    intro a ha
    obtain ⟨b, hb, hr, hb'⟩ := partners_eq hm.1 (Rows.mem_orderBy.mp ha)
    exact ⟨b, hb, hr, by rw [hb', List.flatMap_singleton]⟩
  have hall := Rows.eq_of_flatMap_eq (fun a ha => ?_) heq a (Rows.mem_orderBy.mpr ha)
  · obtain ⟨b', hb', hr', hnodes⟩ := hpart a (Rows.mem_orderBy.mpr ha)
    obtain ⟨b₀, _, _, huniq⟩ := hm.1.left a ha
    have hbb : b' = b := (huniq b' hb' hr').trans (huniq b hb hr).symm
    rw [hnodes, hbb] at hall
    ext n
    rw [← mem_nodesOf, hall, mem_nodesOf]
  · obtain ⟨b', hb', hr', hnodes⟩ := hpart a ha
    rw [hnodes]
    by_contra hlen
    exact hno ⟨a, Rows.mem_orderBy.mp ha, b', hb', hr', hlen⟩

/-- **A node counts more than once only where a shard has several active placements on
it.** -/
theorem Doubled.nodup (h : Doubled c table1 table2) :
    ∃ s, (s ∈ shardsOf c table1 ∨ s ∈ shardsOf c table2) ∧ ¬ (nodesOf c s).Nodup := by
  obtain ⟨hm, hne, hsame⟩ := h
  by_contra hno
  have hnodup : ∀ s, (s ∈ shardsOf c table1 ∨ s ∈ shardsOf c table2) → (nodesOf c s).Nodup :=
    fun s hs => by_contra fun hdup => hno ⟨s, hs, hdup⟩
  refine hne (List.flatMap_congr fun a ha => ?_)
  have ha' := Rows.mem_orderBy.mp ha
  obtain ⟨b, hb, hr, hpart⟩ := partners_eq hm.1 ha'
  rw [hpart, List.flatMap_singleton]
  have hmem : ∀ n, n ∈ nodesOf c a ↔ n ∈ nodesOf c b := by
    intro n
    rw [mem_nodesOf, mem_nodesOf, hsame a ha' b hb hr]
  have hperm := (List.perm_ext_iff_of_nodup (hnodup a (.inl ha')) (hnodup b (.inr hb))).mpr hmem
  have hanti : Std.Antisymm fun m n : Text × ℤ => toLex m ≤ toLex n :=
    ⟨fun m n h h' => toLex.injective (le_antisymm h h')⟩
  exact hperm.eq_of_pairwise' (Rows.pairwise_orderBy toLex _) (Rows.pairwise_orderBy toLex _)

/-- **Where it goes wrong.** It returns true exactly if the tables are co-located, unless nodes
slip from one pair into another or a node counts more than once. -/
theorem correct_iff_not_slipped (c : Catalogs Text) (table1 table2 : ℕ)
    (hne₁ : shardsOf c table1 ≠ []) (hne₂ : shardsOf c table2 ≠ []) (h₁ : HasRanges c table1) :
    (distributedTablesColocated c table1 table2 = .ok true ↔ Colocated c table1 table2) ↔
      ¬ Slipped c table1 table2 ∧ ¬ Doubled c table1 table2 := by
  have hcol : Colocated c table1 table2 ↔ Matched c table1 table2 ∧
      ∀ a ∈ shardsOf c table1, ∀ b ∈ shardsOf c table2, sameRange a b = true →
        activeNodes c a = activeNodes c b := by
    rw [colocated_iff h₁]
    constructor
    · rintro ⟨hpairs, hnodes⟩
      refine ⟨⟨hpairs, fun a ha => ?_, fun b hb => ?_⟩, fun a ha b hb hr => (hnodes a ha b hb hr).2⟩
      · obtain ⟨b, hb, hr, _⟩ := hpairs.left a ha
        exact (hnodes a ha b hb hr).1
      · obtain ⟨a, ha, hr, _⟩ := hpairs.right b hb
        exact (hnodes a ha b hb hr).2 ▸ (hnodes a ha b hb hr).1
    · rintro ⟨⟨hpairs, hact, _⟩, hnodes⟩
      exact ⟨hpairs, fun a ha b hb hr => ⟨hact a ha, hnodes a ha b hb hr⟩⟩
  rw [distributedTablesColocated_iff hne₁ hne₂, hcol]
  unfold Slipped Doubled
  by_cases hm : Matched c table1 table2
  · by_cases heq : leftNodes c table1 = rightNodes c table1 table2
    · simp [hm, heq]
    · simp [hm, heq]
  · simp [hm]

/-! ## When it is right

What the placements of the single shards tell. The function is right where the shards of every
pair have as many active placements as each other, and where some node has more of the one table
than of the other. By the numbers of the placements nothing less will do (`wrong_of_numbers`). -/

/-- The number of active placements of a shard. -/
def numberPlaced (c : Catalogs Text) (s : PgDistShard Text) : ℕ := (activePlacements c s).length

/-- The number of active placements of the shards of a table. -/
def totalPlaced (c : Catalogs Text) (table : ℕ) : ℕ :=
  ((shardsOf c table).map (numberPlaced c)).sum

/-- The number of active placements that the shards of a table have on a node. -/
def placedOn (c : Catalogs Text) (table : ℕ) (node : Text × ℤ) : ℕ :=
  ((shardsOf c table).map fun s =>
    ((activePlacements c s).map fun sp => (sp.nodename, sp.nodeport)).count node).sum

/-- The shards of a pair have as many active placements as each other. -/
def SameNumbers (c : Catalogs Text) (table1 table2 : ℕ) : Prop :=
  ∀ a ∈ shardsOf c table1, ∀ b ∈ shardsOf c table2, sameRange a b = true →
    numberPlaced c a = numberPlaced c b

/-- No shard has two active placements on one node. -/
def PlacedOnce (c : Catalogs Text) (table : ℕ) : Prop :=
  ∀ s ∈ shardsOf c table, ((activePlacements c s).map fun sp => (sp.nodename, sp.nodeport)).Nodup

theorem length_nodesOf (s : PgDistShard Text) : (nodesOf c s).length = numberPlaced c s := by
  rw [nodesOf, (Rows.perm_orderBy _ _).length_eq, List.length_map]
  rfl

/-- The partners of the first table's shards are the shards of the second table. -/
theorem flatMap_partners_perm
    (h : Rows.PairsUp sameRange (shardsOf c table1) (shardsOf c table2)) :
    ((shardsInOrder c table1).flatMap (partners c table2)).Perm (shardsOf c table2) := by
  have hperm : ((shardsInOrder c table1).flatMap (partners c table2)).Perm
      ((Rows.join sameRange (shardsOf c table1) (shardsOf c table2)).map Prod.snd) := by
    unfold Rows.join
    rw [List.map_flatMap]
    refine List.Perm.flatMap (Rows.perm_orderBy _ _) fun a _ => List.Perm.of_eq ?_
    rw [List.map_map]
    exact (List.map_id _).symm
  have hone := (Rows.length_filter_eq_one_iff (shardsOf_nodup c table1).2)
  have hswap := (Rows.join_perm_swap sameRange (shardsOf c table1) (shardsOf c table2)).map Prod.snd
  rw [List.map_map] at hswap
  refine (hperm.trans hswap).trans (List.Perm.of_eq ?_)
  exact Rows.map_fst_join fun b hb => (hone _).mpr (h.right b hb)

theorem count_leftNodes (node : Text × ℤ) :
    (leftNodes c table1).count node = placedOn c table1 node := by
  have hA : (shardsInOrder c table1).Perm (shardsOf c table1) := Rows.perm_orderBy _ _
  unfold leftNodes placedOn
  rw [List.count_flatMap, (hA.map _).sum_eq]
  exact congrArg _ (List.map_congr_left fun s _ => (Rows.perm_orderBy _ _).count_eq node)

theorem count_rightNodes
    (h : Rows.PairsUp sameRange (shardsOf c table1) (shardsOf c table2)) (node : Text × ℤ) :
    (rightNodes c table1 table2).count node = placedOn c table2 node := by
  unfold rightNodes placedOn
  rw [← List.flatMap_assoc, List.count_flatMap, ((flatMap_partners_perm h).map _).sum_eq]
  exact congrArg _ (List.map_congr_left fun s _ => (Rows.perm_orderBy _ _).count_eq node)

/-- **Where the placements show that the function is right.** -/
theorem colocated_of_placed (hne₁ : shardsOf c table1 ≠ []) (hne₂ : shardsOf c table2 ≠ [])
    (h₁ : HasRanges c table1)
    (h : Matched c table1 table2 → PlacedOnce c table1 ∧ PlacedOnce c table2 ∧
      (SameNumbers c table1 table2 ∨ ∃ node, placedOn c table1 node ≠ placedOn c table2 node)) :
    distributedTablesColocated c table1 table2 = .ok true ↔ Colocated c table1 table2 := by
  refine (correct_iff_not_slipped c table1 table2 hne₁ hne₂ h₁).mpr
    ⟨fun hslip => ?_, fun hdouble => ?_⟩
  · obtain ⟨-, -, hsame | ⟨node, hnode⟩⟩ := h hslip.1
    · obtain ⟨a, ha, b, hb, hr, hlen⟩ := hslip.length
      rw [length_nodesOf, length_nodesOf] at hlen
      exact hlen (hsame a ha b hb hr)
    · rw [← count_leftNodes, ← count_rightNodes hslip.1.1] at hnode
      exact hnode (congrArg (List.count node) hslip.2.1)
  · obtain ⟨honce₁, honce₂, -⟩ := h hdouble.1
    have hnodup : ∀ s, (s ∈ shardsOf c table1 ∨ s ∈ shardsOf c table2) → (nodesOf c s).Nodup :=
      fun s hs => (Rows.perm_orderBy _ _).nodup_iff.mpr (hs.elim (honce₁ s) (honce₂ s))
    obtain ⟨s, hs, hdup⟩ := hdouble.nodup
    exact hdup (hnodup s hs)

/-- **The placements numbered through**: those of one shard after another, on the ports of one
host. -/
def placedThrough (n : PgDistShard Text → ℕ) (nodename : Text) (A : List (PgDistShard Text)) :
    List (PgDistShardPlacement Text) :=
  (Rows.numbered n 0 A).map fun p => ⟨p.1.shardid, 1, nodename, p.2⟩

/-- The same shards, with the placements of two lists of them numbered through. -/
def Catalogs.placed (c : Catalogs Text) (n : PgDistShard Text → ℕ) (nodename : Text)
    (A B : List (PgDistShard Text)) : Catalogs Text :=
  { c with pgDistShardPlacement := placedThrough n nodename A ++ placedThrough n nodename B }

/-- The active placements of the listed shards are those numbered through. -/
def NumberedThrough (c : Catalogs Text) (n : PgDistShard Text → ℕ) (nodename : Text)
    (A : List (PgDistShard Text)) : Prop :=
  ∀ s ∈ A, activePlacements c s =
    ((Rows.numbered n 0 A).filter fun p => decide (s.shardid = p.1.shardid)).map
      fun p => ⟨p.1.shardid, 1, nodename, p.2⟩

section Placed

variable {n : PgDistShard Text → ℕ} {nodename : Text} {A B : List (PgDistShard Text)}

omit [LinearOrder Text] in
theorem filter_placedThrough (s : PgDistShard Text) :
    ((placedThrough n nodename A).filter fun sp =>
        decide (s.shardid = sp.shardid) && decide (sp.shardstate = 1)) =
      ((Rows.numbered n 0 A).filter fun p => decide (s.shardid = p.1.shardid)).map
        fun p => ⟨p.1.shardid, 1, nodename, p.2⟩ := by
  unfold placedThrough
  rw [List.filter_map]
  refine congrArg _ (List.filter_congr fun p _ => ?_)
  show (decide (s.shardid = p.1.shardid) && decide ((1 : ℤ) = 1)) = _
  rw [decide_eq_true rfl, Bool.and_true]

omit [LinearOrder Text] in
/-- A shard with another id has none of them. -/
theorem filter_placedThrough_eq_nil {s : PgDistShard Text}
    (hs : s.shardid ∉ A.map PgDistShard.shardid) :
    ((placedThrough n nodename A).filter fun sp =>
      decide (s.shardid = sp.shardid) && decide (sp.shardstate = 1)) = [] := by
  rw [filter_placedThrough, List.map_eq_nil_iff, List.filter_eq_nil_iff]
  intro p hp hid
  rw [of_decide_eq_true hid] at hs
  exact hs (List.mem_map_of_mem (Rows.fst_mem_of_mem_numbered hp))

omit [LinearOrder Text] in
theorem placed_numberedThrough (hAB : ((A ++ B).map PgDistShard.shardid).Nodup) :
    NumberedThrough (c.placed n nodename A B) n nodename A ∧
      NumberedThrough (c.placed n nodename A B) n nodename B := by
  rw [List.map_append] at hAB
  have hapart := List.disjoint_of_nodup_append hAB
  unfold NumberedThrough activePlacements Catalogs.placed
  simp only [List.filter_append]
  constructor
  · intro s hs
    rw [filter_placedThrough_eq_nil (A := B) (hapart (List.mem_map_of_mem hs)), List.append_nil,
      filter_placedThrough]
  · intro s hs
    rw [filter_placedThrough_eq_nil (A := A) fun h => hapart h (List.mem_map_of_mem hs),
      List.nil_append, filter_placedThrough]

/-- The nodes of a shard are in order already. -/
theorem NumberedThrough.nodesOf_eq (h : NumberedThrough c n nodename A) {s : PgDistShard Text}
    (hs : s ∈ A) :
    nodesOf c s = ((Rows.numbered n 0 A).filter fun p => decide (s.shardid = p.1.shardid)).map
      (fun p => (nodename, (p.2 : ℤ))) ∧ (nodesOf c s).Nodup := by
  have hlt : (((Rows.numbered n 0 A).filter fun p => decide (s.shardid = p.1.shardid)).map
      fun p => (nodename, (p.2 : ℤ))).Pairwise fun x y => toLex x < toLex y := by
    have hrange := (Rows.map_snd_numbered n 0 A) ▸ List.pairwise_lt_range'
    refine List.pairwise_map.mpr (((List.pairwise_map.mp hrange).filter _).imp fun hpq => ?_)
    exact Prod.Lex.toLex_lt_toLex.mpr (.inr ⟨rfl, Int.ofNat_lt.mpr hpq⟩)
  have hnodes : nodesOf c s =
      ((Rows.numbered n 0 A).filter fun p => decide (s.shardid = p.1.shardid)).map
        fun p => (nodename, (p.2 : ℤ)) := by
    unfold nodesOf
    rw [h s hs, List.map_map]
    exact Rows.orderBy_eq toLex.injective (List.Perm.refl _) (hlt.imp fun hxy => hxy.le)
  refine ⟨hnodes, hnodes ▸ hlt.imp fun hxy heq => ?_⟩
  rw [heq] at hxy
  exact lt_irrefl _ hxy

/-- The nodes of one shard after another are on the ports in their order. -/
theorem NumberedThrough.flatMap_nodesOf (h : NumberedThrough c n nodename A)
    (hA : (A.map PgDistShard.shardid).Nodup) :
    A.flatMap (nodesOf c) =
      (List.range' 0 (A.map n).sum).map fun port : ℕ => (nodename, (port : ℤ)) := by
  rw [List.flatMap_congr fun s hs => (h.nodesOf_eq hs).1, ← List.map_flatMap,
    Rows.flatMap_filter_numbered n 0 hA, ← Rows.map_snd_numbered, List.map_map]
  rfl

omit [LinearOrder Text] in
theorem NumberedThrough.numberPlaced_eq (h : NumberedThrough c n nodename A)
    (hA : (A.map PgDistShard.shardid).Nodup) {s : PgDistShard Text} (hs : s ∈ A) :
    numberPlaced c s = n s := by
  rw [numberPlaced, h s hs, List.length_map]
  exact Rows.length_filter_numbered n 0 hA hs

variable (h₁ : HasRanges c table1) (hne₁ : shardsOf c table1 ≠ [])
  (hpairs : Rows.PairsUp sameRange (shardsOf c table1) (shardsOf c table2))
  (hleft : NumberedThrough c n nodename (shardsInOrder c table1))
  (hright : NumberedThrough c n nodename ((shardsInOrder c table1).flatMap (partners c table2)))

include hpairs hleft hright

/-- The numbers are those given, and no node has two placements of a shard. -/
theorem numberPlaced_numbered {s : PgDistShard Text}
    (hs : s ∈ shardsOf c table1 ∨ s ∈ shardsOf c table2) :
    numberPlaced c s = n s ∧ (nodesOf c s).Nodup := by
  have hA : (shardsInOrder c table1).Perm (shardsOf c table1) := Rows.perm_orderBy _ _
  have hB := flatMap_partners_perm hpairs
  rcases hs with hs | hs
  · have hs' := hA.mem_iff.mpr hs
    exact ⟨hleft.numberPlaced_eq ((hA.map _).nodup_iff.mpr (shardsOf_nodup c table1).1) hs',
      (hleft.nodesOf_eq hs').2⟩
  · have hs' := hB.mem_iff.mpr hs
    exact ⟨hright.numberPlaced_eq ((hB.map _).nodup_iff.mpr (shardsOf_nodup c table2).1) hs',
      (hright.nodesOf_eq hs').2⟩

include h₁ hne₁

/-- **Numbered through, the placements of the two tables look the same**, although some pair has
different numbers of them. -/
theorem wrong_of_numbered (hpos : ∀ s, (s ∈ shardsOf c table1 ∨ s ∈ shardsOf c table2) → 0 < n s)
    (htotal : ((shardsOf c table1).map n).sum = ((shardsOf c table2).map n).sum)
    (hdiffer : ∃ a ∈ shardsOf c table1, ∃ b ∈ shardsOf c table2, sameRange a b = true ∧ n a ≠ n b) :
    distributedTablesColocated c table1 table2 = .ok true ∧ ¬ Colocated c table1 table2 := by
  have hnumber {s : PgDistShard Text} := numberPlaced_numbered (s := s) hpairs hleft hright
  have hact : ∀ s, (s ∈ shardsOf c table1 ∨ s ∈ shardsOf c table2) →
      (activeNodes c s).Nonempty := by
    intro s hs
    have hlen := hpos s hs
    rw [← (hnumber hs).1, ← length_nodesOf] at hlen
    obtain ⟨node, hnode⟩ := List.exists_mem_of_length_pos hlen
    exact ⟨node, mem_nodesOf.mp hnode⟩
  have hne₂ : shardsOf c table2 ≠ [] := by
    obtain ⟨s, hs⟩ := List.exists_mem_of_ne_nil _ hne₁
    obtain ⟨b, hb, -⟩ := hpairs.left s hs
    exact List.ne_nil_of_mem hb
  constructor
  · refine (distributedTablesColocated_iff hne₁ hne₂).mpr
      ⟨⟨hpairs, fun a ha => hact a (.inl ha), fun b hb => hact b (.inr hb)⟩, ?_⟩
    have hA : (shardsInOrder c table1).Perm (shardsOf c table1) := Rows.perm_orderBy _ _
    have hB := flatMap_partners_perm hpairs
    rw [rightNodes, ← List.flatMap_assoc, leftNodes,
      hleft.flatMap_nodesOf ((hA.map _).nodup_iff.mpr (shardsOf_nodup c table1).1),
      hright.flatMap_nodesOf ((hB.map _).nodup_iff.mpr (shardsOf_nodup c table2).1),
      (hA.map n).sum_eq, (hB.map n).sum_eq, htotal]
  · intro hcol
    obtain ⟨a, ha, b, hb, hr, hab⟩ := hdiffer
    have hsame := (((colocated_iff h₁).mp hcol).2 a ha b hb hr).2
    have hperm : (nodesOf c a).Perm (nodesOf c b) :=
      (List.perm_ext_iff_of_nodup (hnumber (.inl ha)).2 (hnumber (.inr hb)).2).mpr fun node => by
        rw [mem_nodesOf, mem_nodesOf, hsame]
    have hlen := hperm.length_eq
    rw [length_nodesOf, length_nodesOf, (hnumber (.inl ha)).1, (hnumber (.inr hb)).1] at hlen
    exact hab hlen

end Placed

omit [LinearOrder Text] in
/-- Two tables do not share shards. -/
theorem nodup_append_shardsOf (hne : table1 ≠ table2) :
    ((shardsOf c table1 ++ shardsOf c table2).map PgDistShard.shardid).Nodup := by
  rw [List.map_append]
  refine List.Nodup.append (shardsOf_nodup c table1).1 (shardsOf_nodup c table2).1 ?_
  intro id h₁ h₂
  obtain ⟨a, ha, rfl⟩ := List.mem_map.mp h₁
  obtain ⟨b, hb, hid⟩ := List.mem_map.mp h₂
  obtain ⟨ha, hrel⟩ := List.mem_filter.mp ha
  obtain ⟨hb, hrel'⟩ := List.mem_filter.mp hb
  obtain rfl := List.inj_on_of_nodup_map c.shardid_unique hb ha hid
  exact hne ((of_decide_eq_true hrel).symm.trans (of_decide_eq_true hrel'))

/-- A table pairs up with itself shard by shard. -/
theorem sameNumbers_self (h₁ : HasRanges c table1)
    (h : Rows.PairsUp sameRange (shardsOf c table1) (shardsOf c table1)) :
    SameNumbers c table1 table1 := by
  intro a ha b hb hr
  obtain ⟨_, _, _, huniq⟩ := h.left a ha
  have hself : sameRange a a = true :=
    (sameRange_iff (h₁ a ha).1 (h₁ a ha).2).mpr ⟨rfl, rfl⟩
  rw [huniq a ha hself, ← huniq b hb hr]

/-- **By the numbers nothing less will do**: if the shards of some pair have different numbers of
active placements, but the tables as many on the whole, there are placements of these numbers,
none twice on a node, for which the function is wrong. -/
theorem wrong_of_numbers (h₁ : HasRanges c table1) (hm : Matched c table1 table2)
    (hne₁ : shardsOf c table1 ≠ []) (hdiffer : ¬ SameNumbers c table1 table2)
    (htotal : totalPlaced c table1 = totalPlaced c table2) :
    ∃ c' : Catalogs Text, c'.pgDistShard = c.pgDistShard ∧
      (∀ s, (s ∈ shardsOf c table1 ∨ s ∈ shardsOf c table2) →
        numberPlaced c' s = numberPlaced c s) ∧
      PlacedOnce c' table1 ∧ PlacedOnce c' table2 ∧
      distributedTablesColocated c' table1 table2 = .ok true ∧ ¬ Colocated c' table1 table2 := by
  obtain ⟨s₀, hs₀⟩ := List.exists_mem_of_ne_nil _ hne₁
  obtain ⟨⟨nodename, _⟩, _⟩ := hm.2.1 s₀ hs₀
  obtain ⟨hpairs, hact₁, hact₂⟩ := hm
  have hne : table1 ≠ table2 := by
    rintro rfl
    exact hdiffer (sameNumbers_self h₁ hpairs)
  -- the placements of either table are numbered through, in the order of the function
  have hA : (shardsInOrder c table1).Perm (shardsOf c table1) := Rows.perm_orderBy _ _
  have hB := flatMap_partners_perm hpairs
  have hAB := ((hA.append hB).map PgDistShard.shardid).nodup_iff.mpr (nodup_append_shardsOf hne)
  let c' := c.placed (numberPlaced c) nodename (shardsInOrder c table1)
    ((shardsInOrder c table1).flatMap (partners c table2))
  obtain ⟨hleft, hright⟩ : NumberedThrough c' (numberPlaced c) nodename (shardsInOrder c table1) ∧
      NumberedThrough c' (numberPlaced c) nodename
        ((shardsInOrder c table1).flatMap (partners c table2)) := placed_numberedThrough hAB
  have hnumber {s : PgDistShard Text} :=
    numberPlaced_numbered (c := c') (s := s) hpairs hleft hright
  refine ⟨c', rfl, fun s hs => (hnumber hs).1, fun s hs => ?_, fun s hs => ?_, ?_⟩
  · exact (Rows.perm_orderBy _ _).nodup_iff.mp (hnumber (.inl hs)).2
  · exact (Rows.perm_orderBy _ _).nodup_iff.mp (hnumber (.inr hs)).2
  · refine wrong_of_numbered (c := c') h₁ hne₁ hpairs hleft hright ?_ htotal ?_
    · rintro s (hs | hs)
      · obtain ⟨node, hnode⟩ := hact₁ s hs
        exact length_nodesOf s ▸ List.length_pos_of_mem (mem_nodesOf.mpr hnode)
      · obtain ⟨node, hnode⟩ := hact₂ s hs
        exact length_nodesOf s ▸ List.length_pos_of_mem (mem_nodesOf.mpr hnode)
    · by_contra hno
      exact hdiffer fun a ha b hb hr => by_contra fun hab => hno ⟨a, ha, b, hb, hr, hab⟩

/-- **When the function is right.** Its answer is the one sought where shards that match have no
two active placements on one node, and either as many as their partners or, on some node, not as
many of the one table as of the other. Where the shards match and the numbers of a pair differ,
but not those of the tables, it depends on the nodes, and there are some for which it is wrong. -/
theorem colocated_correct (c : Catalogs Text) (table1 table2 : ℕ)
    (hne₁ : shardsOf c table1 ≠ []) (hne₂ : shardsOf c table2 ≠ []) (h₁ : HasRanges c table1) :
    ((Matched c table1 table2 → PlacedOnce c table1 ∧ PlacedOnce c table2 ∧
        (SameNumbers c table1 table2 ∨ ∃ node, placedOn c table1 node ≠ placedOn c table2 node)) →
      (distributedTablesColocated c table1 table2 = .ok true ↔ Colocated c table1 table2)) ∧
    (Matched c table1 table2 → ¬ SameNumbers c table1 table2 →
        totalPlaced c table1 = totalPlaced c table2 →
      ∃ c' : Catalogs Text, c'.pgDistShard = c.pgDistShard ∧
        (∀ s, (s ∈ shardsOf c table1 ∨ s ∈ shardsOf c table2) →
          numberPlaced c' s = numberPlaced c s) ∧
        PlacedOnce c' table1 ∧ PlacedOnce c' table2 ∧
        distributedTablesColocated c' table1 table2 = .ok true ∧ ¬ Colocated c' table1 table2) :=
  ⟨colocated_of_placed hne₁ hne₂ h₁, fun hm => wrong_of_numbers h₁ hm hne₁⟩

/-- Two tables of two shards each. A replica is at the first shard of table 1, and at the
second one of table 2. -/
def slippedCatalogs : Catalogs String where
  pgDistShard :=
    [⟨1, 101, some "-2147483648", some "-1"⟩, ⟨1, 102, some "0", some "2147483647"⟩,
      ⟨2, 201, some "-2147483648", some "-1"⟩, ⟨2, 202, some "0", some "2147483647"⟩]
  pgDistShardPlacement :=
    [⟨101, 1, "worker-1", 5432⟩, ⟨101, 1, "worker-2", 5432⟩, ⟨102, 1, "worker-3", 5432⟩,
      ⟨201, 1, "worker-1", 5432⟩, ⟨202, 1, "worker-2", 5432⟩, ⟨202, 1, "worker-3", 5432⟩]
  shardid_unique := by decide

theorem slippedCatalogs_ranges : HasRanges slippedCatalogs 1 := by
  unfold HasRanges
  decide

/-- The same shards, each on two of three workers. -/
def replicatedCatalogs : Catalogs String :=
  { slippedCatalogs with
    pgDistShardPlacement :=
      [⟨101, 1, "worker-1", 5432⟩, ⟨101, 1, "worker-2", 5432⟩, ⟨102, 1, "worker-2", 5432⟩,
        ⟨102, 1, "worker-3", 5432⟩, ⟨201, 1, "worker-2", 5432⟩, ⟨201, 1, "worker-1", 5432⟩,
        ⟨202, 1, "worker-3", 5432⟩, ⟨202, 1, "worker-2", 5432⟩] }

/-- The theorem speaks of these tables: of the replicated ones, and of the numbers of the
others. -/
theorem colocated_correct_two :
    (distributedTablesColocated replicatedCatalogs 1 2 = .ok true ↔
      Colocated replicatedCatalogs 1 2) ∧
    ∃ c' : Catalogs String, c'.pgDistShard = slippedCatalogs.pgDistShard ∧
      (∀ s, (s ∈ shardsOf slippedCatalogs 1 ∨ s ∈ shardsOf slippedCatalogs 2) →
        numberPlaced c' s = numberPlaced slippedCatalogs s) ∧
      PlacedOnce c' 1 ∧ PlacedOnce c' 2 ∧
      distributedTablesColocated c' 1 2 = .ok true ∧ ¬ Colocated c' 1 2 := by
  constructor
  · refine (colocated_correct replicatedCatalogs 1 2 (List.cons_ne_nil _ _) (List.cons_ne_nil _ _)
      slippedCatalogs_ranges).1 fun _ => ?_
    unfold PlacedOnce SameNumbers
    exact ⟨by decide +kernel, by decide +kernel, .inl (by decide +kernel)⟩
  · refine (colocated_correct slippedCatalogs 1 2 (List.cons_ne_nil _ _) (List.cons_ne_nil _ _)
      slippedCatalogs_ranges).2 (matched_iff.mpr (by decide +kernel)) ?_ (by decide)
    unfold SameNumbers
    decide +kernel

/-- **The function returns true for tables that are not co-located.** -/
theorem slippedCatalogs_returns_true :
    distributedTablesColocated slippedCatalogs 1 2 = .ok true ∧
      ¬ Colocated slippedCatalogs 1 2 := by
  refine ⟨by decide +kernel, fun h => ?_⟩
  obtain ⟨_, hnodes⟩ := (colocated_iff slippedCatalogs_ranges).mp h
  -- the first shards of the two tables
  have ha : ⟨1, 101, some "-2147483648", some "-1"⟩ ∈ shardsOf slippedCatalogs 1 :=
    List.mem_cons_self
  have hb : ⟨2, 201, some "-2147483648", some "-1"⟩ ∈ shardsOf slippedCatalogs 2 :=
    List.mem_cons_self
  have hsame := (hnodes _ ha _ hb (by decide)).2
  have hmem : ("worker-2", 5432) ∈ activeNodes slippedCatalogs
      ⟨1, 101, some "-2147483648", some "-1"⟩ := mem_nodesOf.mp (by decide +kernel)
  rw [hsame, ← mem_nodesOf] at hmem
  exact absurd hmem (by decide +kernel)

end TablesColocated
