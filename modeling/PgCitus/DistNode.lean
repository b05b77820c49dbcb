import PgCitus.Library.RowTrigger
import PgCitus.PgUpgrade

/-!
# Nodes and their groups

The table `pg_dist_node`, whose trigger sees to it that a group has one primary at most,
and the view `pg_dist_shard_placement`, which shows a placement with the primary of its
group.

The trigger compares a row with the primaries of the group that have another `nodeid`.
That leaves out the row as it was before an update, but it would leave out any row with
the `nodeid` that the new one is given: an update that changes ids could have two
primaries of one id. What keeps it from that is the primary key, which is checked before
the next row is looked at (`apply_keeps_primaries`).
-/

namespace DistNode

open RowTrigger
open PgUpgrade (Noderole PgDistNode PgDistPlacement)

/-! ## The table -/

/-- A row on its way into the table, where a column may still be NULL. -/
structure NewNode where
  nodeid : Option ℤ
  groupid : Option ℤ
  nodename : Option String
  nodeport : Option ℤ
  noderack : Option String
  hasmetadata : Option Bool
  isactive : Option Bool
  noderole : Option Noderole
  nodecluster : Option String
  metadatasynced : Option Bool
  shouldhaveshards : Option Bool

/-- What a statement may raise. -/
inductive Error
  | exception (message : String)
  | notNullViolation
  | checkViolation
  | uniqueViolation
  deriving DecidableEq

/-- `EXISTS (SELECT 1 FROM pg_dist_node WHERE groupid = NEW.groupid AND noderole = 'primary'
AND nodeid <> NEW.nodeid)`. A comparison with NULL is not met. -/
def anotherPrimary (new : NewNode) (table : List PgDistNode) : Bool :=
  table.any fun n => some n.groupid == new.groupid && n.noderole == .primary &&
    new.nodeid.any fun nodeid => n.nodeid != nodeid

/-- `pg_dist_node_trigger_func`. -/
def pgDistNodeTriggerFunc (op : TgOp PgDistNode) (new : NewNode) (table : List PgDistNode) :
    Except Error NewNode :=
  match op with
  | .insert =>
    if new.noderole = some .primary ∧ anotherPrimary new table = true then
      .error (.exception "there cannot be two primary nodes in a group")
    else .ok new
  | .update _ =>
    if new.noderole = some .primary ∧ anotherPrimary new table = true then
      .error (.exception "there cannot be two primary nodes in a group")
    else .ok new

/-- `primaries_are_only_allowed_in_the_default_cluster`. -/
def primariesAreOnlyAllowedInTheDefaultCluster (n : PgDistNode) : Bool :=
  !(n.nodecluster != "default" && n.noderole == .primary)

/-- The row that is stored: `metadatasynced` alone may be NULL. -/
def NewNode.store : NewNode → Except Error PgDistNode
  | ⟨some nodeid, some groupid, some nodename, some nodeport, some noderack, some hasmetadata,
      some isactive, some noderole, some nodecluster, metadatasynced, some shouldhaveshards⟩ =>
    let n : PgDistNode := ⟨nodeid, groupid, nodename, nodeport, noderack, hasmetadata, isactive,
      noderole, nodecluster, metadatasynced, shouldhaveshards⟩
    if primariesAreOnlyAllowedInTheDefaultCluster n = true then .ok n else .error .checkViolation
  | _ => .error .notNullViolation

/-- `pg_dist_node`. -/
def pgDistNode : TableDef NewNode PgDistNode Error where
  trigger := pgDistNodeTriggerFunc
  store := NewNode.store
  constraint := (Rows.unique PgDistNode.nodeid).and
    (Rows.unique fun n : PgDistNode => (n.nodename, n.nodeport))
  violation := .uniqueViolation

/-- **A statement on the table.** An update says for each row, by its position, what it
becomes. -/
inductive Statement
  | insert (rows : List NewNode)
  | update (changes : List (ℕ × NewNode))
  | delete (positions : List ℕ)

/-- What a statement does. -/
def Statement.command : Statement → Command Error PgDistNode
  | insert rows => pgDistNode.statement (rows.map .insert)
  | update changes => pgDistNode.statement (changes.map fun c => .update c.1 c.2)
  | delete positions => pgDistNode.statement (positions.map .delete)

/-! ## The view -/

/-- A row of `pg_dist_shard_placement`. -/
structure ShardPlacement where
  shardid : Option ℤ
  shardstate : Option ℤ
  shardlength : Option ℤ
  nodename : Option String
  nodeport : Option ℤ
  placementid : Option ℤ
  deriving DecidableEq

/-- The row for a placement and a node. -/
def ShardPlacement.of (placement : PgDistPlacement) (node : PgDistNode) : ShardPlacement where
  shardid := some placement.shardid
  shardstate := some placement.shardstate
  shardlength := some placement.shardlength
  nodename := some node.nodename
  nodeport := some node.nodeport
  placementid := some placement.placementid

/-- `placement.groupid = node.groupid AND node.noderole = 'primary'`. -/
def placedOn (placement : PgDistPlacement) (node : PgDistNode) : Bool :=
  placement.groupid == node.groupid && node.noderole == .primary

/-- The view `pg_dist_shard_placement`. -/
def pgDistShardPlacement (placements : List PgDistPlacement) (nodes : List PgDistNode) :
    List ShardPlacement :=
  (Rows.join placedOn placements nodes).map fun x => ShardPlacement.of x.1 x.2

/-! ## One primary a group -/

/-- The node is the primary of a group. -/
def primaryOf (groupid : ℤ) (n : PgDistNode) : Bool :=
  n.groupid == groupid && n.noderole == .primary

/-- Inserts and updates are treated alike. -/
theorem pgDistNodeTriggerFunc_eq (op : TgOp PgDistNode) (new : NewNode) (table : List PgDistNode) :
    pgDistNodeTriggerFunc op new table =
      if new.noderole = some .primary ∧ anotherPrimary new table = true then
        .error (.exception "there cannot be two primary nodes in a group")
      else .ok new := by
  cases op <;> rfl

/-- **What a row has passed that is stored**: if it is a primary, every other primary of its
group that the trigger saw has its id. -/
theorem row_eq_ok {op : TgOp PgDistNode} {new : NewNode} {table : List PgDistNode}
    {n : PgDistNode} (h : pgDistNode.row op new table = .ok n) (hn : n.noderole = .primary) :
    ∀ m ∈ table, primaryOf n.groupid m = true → m.nodeid = n.nodeid := by
  obtain ⟨new', htrigger, hstore⟩ := Rows.bind_eq_ok.mp h
  obtain ⟨hid, hgroup, hrole⟩ : new'.nodeid = some n.nodeid ∧ new'.groupid = some n.groupid ∧
      new'.noderole = some n.noderole := by
    simp only [pgDistNode, NewNode.store] at hstore
    split at hstore
    · split at hstore
      · obtain rfl := Except.ok.inj hstore
        exact ⟨rfl, rfl, rfl⟩
      · exact nomatch hstore
    · exact nomatch hstore
  have hpassed : ¬(new.noderole = some .primary ∧ anotherPrimary new table = true) ∧
      new = new' := by
    simp only [pgDistNode, pgDistNodeTriggerFunc_eq] at htrigger
    split at htrigger
    · exact nomatch htrigger
    · exact ⟨‹_›, Except.ok.inj htrigger⟩
  obtain ⟨hpassed, rfl⟩ := hpassed
  intro m hm hprimary
  by_contra hne
  refine hpassed ⟨hrole.trans (congrArg some hn), List.any_eq_true.mpr ⟨m, hm, ?_⟩⟩
  unfold primaryOf at hprimary
  rw [Bool.and_eq_true, beq_iff_eq, beq_iff_eq] at hprimary
  simp [hid, hgroup, hprimary.1, hprimary.2, hne]

/-- **One row operation keeps that a group has one primary at most.** A primary that the
trigger lets pass beside another one has its id, and then the primary key does not. -/
theorem apply_keeps_primaries {table table' : List PgDistNode} {op : RowOp NewNode} (groupid : ℤ)
    (htable : table.Pairwise (Rows.NotBoth (primaryOf groupid)))
    (h : pgDistNode.apply table op = .ok table') :
    table'.Pairwise (Rows.NotBoth (primaryOf groupid)) := by
  refine pairwise_of_apply Rows.NotBoth.symm htable ?_ h
  intro tg new n others hn hok hperm htg m hm hprimary
  by_contra hboth
  have hm' : primaryOf groupid m = true := Bool.eq_true_of_not_eq_false hboth
  obtain ⟨rfl, hrole⟩ : n.groupid = groupid ∧ n.noderole = .primary := by
    simpa [primaryOf] using hprimary
  have hmem : m ∈ table := by
    rcases htg with ⟨-, rfl⟩ | ⟨old, -, hold⟩
    · exact hm
    · exact hold.mem_iff.mpr (List.mem_cons_of_mem old hm)
  have hid : m.nodeid = n.nodeid := row_eq_ok hn hrole m hmem hm'
  have hkey : (table'.map PgDistNode.nodeid).Nodup :=
    of_decide_eq_true (Bool.and_eq_true_iff.mp hok).1
  have hnodup := ((hperm.map PgDistNode.nodeid).nodup_iff).mp hkey
  exact (List.nodup_cons.mp hnodup).1 (hid ▸ List.mem_map_of_mem hm)

/-- **What the table promises.** -/
structure Valid (table : List PgDistNode) : Prop where
  primaries : ∀ groupid, (table.filter (primaryOf groupid)).length ≤ 1
  nodeids : (table.map PgDistNode.nodeid).Nodup
  addresses : (table.map fun n => (n.nodename, n.nodeport)).Nodup

/-- **One row operation keeps what the table promises.** -/
theorem apply_keeps_valid (table : List PgDistNode) (op : RowOp NewNode)
    (table' : List PgDistNode) (hvalid : Valid table)
    (h : pgDistNode.apply table op = .ok table') : Valid table' where
  primaries groupid := (Rows.length_filter_le_one_iff _ table').mpr
    (apply_keeps_primaries groupid
      ((Rows.length_filter_le_one_iff _ table).mp (hvalid.primaries groupid)) h)
  nodeids := nodup_of_apply (fun _ hok => of_decide_eq_true (Bool.and_eq_true_iff.mp hok).1)
    hvalid.nodeids h
  addresses := nodup_of_apply (fun _ hok => of_decide_eq_true (Bool.and_eq_true_iff.mp hok).2)
    hvalid.addresses h

theorem commands_keep_valid (session : List Statement) :
    ∀ c ∈ session.map Statement.command, c.Keeps Valid := by
  intro c hc
  obtain ⟨s, -, rfl⟩ := List.mem_map.mp hc
  cases s <;> exact keeps_statement apply_keeps_valid _

theorem valid_nil : Valid [] := ⟨fun _ => Nat.zero_le 1, List.nodup_nil, List.nodup_nil⟩

/-- **The view shows no placement twice** if every group has one primary at most. -/
theorem nodup_pgDistShardPlacement {placements : List PgDistPlacement} {nodes : List PgDistNode}
    (hplacements : (placements.map PgDistPlacement.placementid).Nodup)
    (hnodes : ∀ groupid, (nodes.filter (primaryOf groupid)).length ≤ 1) :
    ((pgDistShardPlacement placements nodes).map ShardPlacement.placementid).Nodup := by
  unfold pgDistShardPlacement
  rw [List.map_map]
  have hone : ∀ p ∈ placements, (nodes.filter (placedOn p)).length ≤ 1 := by
    intro p _
    have heq : placedOn p = primaryOf p.groupid := by
      funext n
      exact congrArg (· && _) (BEq.comm)
    rw [heq]
    exact hnodes p.groupid
  have hids : (placements.map fun p => some p.placementid).Nodup := by
    rw [show (fun p : PgDistPlacement => some p.placementid) = some ∘ PgDistPlacement.placementid
      from rfl, ← List.map_map]
    exact hplacements.map (Option.some_injective ℤ)
  exact Rows.nodup_map_join hids hone

/-- **The table of nodes through any session.** From an empty table, at every point no group
has two primaries; and so the view shows no placement twice. -/
theorem dist_node_valid (session : List Statement) :
    ∀ nodes ∈ points (session.map Statement.command) [],
      (∀ groupid, (nodes.filter (primaryOf groupid)).length ≤ 1) ∧
      ∀ placements : Rows.Table (Rows.unique PgDistPlacement.placementid),
        ((pgDistShardPlacement placements.rows nodes).map ShardPlacement.placementid).Nodup := by
  intro nodes hnodes
  have hvalid := keeps_points (commands_keep_valid session) valid_nil nodes hnodes
  exact ⟨hvalid.primaries, fun placements =>
    nodup_pgDistShardPlacement (of_decide_eq_true placements.valid) hvalid.primaries⟩

/-- A node on its way into the table, in the first group and the default cluster. -/
def firstGroupNode (nodeid nodeport : ℤ) (noderole : Noderole) : NewNode :=
  ⟨some nodeid, some 1, some "localhost", some nodeport, some "default", some false, some true,
    some noderole, some "default", some false, some true⟩

/-- Two nodes that swap their roles in one statement, the primary first. -/
theorem dist_node_valid_swap :
    (List.filter (primaryOf 1) [
      ⟨1, 1, "localhost", 5432, "default", false, true, .secondary, "default", some false, true⟩,
      ⟨2, 1, "localhost", 5433, "default", false, true, .primary, "default", some false, true⟩]
      ).length ≤ 1 :=
  (dist_node_valid [
    .insert [firstGroupNode 1 5432 .primary, firstGroupNode 2 5433 .secondary],
    .update [(0, firstGroupNode 1 5432 .secondary), (1, firstGroupNode 2 5433 .primary)]] _
      (by decide +kernel)).1 1

end DistNode
