import PgCitus.DistNode
import PgCitus.Library.Run

/-!
# Writing through the view of placements

`pg_dist_shard_placement` was a table once, and an `INSTEAD OF` trigger is to make it look
like one still. A write names a node by its address; `find_groupid_for_node` finds the
group of that node, and the view shows the placement with the primary of that group.

So what is written is what is read if the address is that of a primary
(`shown_of_primary`). `find_groupid_for_node` does not ask for one: with the address of a
secondary, or of a node that is unavailable, the row that comes back has the address of
another node, or there is none (`not_mem_shown`). Deletes do not name a node, and rows that
are not written to are not touched in any case.
-/

namespace ShardPlacementView

open PgUpgrade (Noderole PgDistNode PgDistPlacement)
open DistNode

/-! ## The trigger -/

/-- The constraints of `pg_dist_node`, with what its trigger sees to. -/
def nodeConstraint : Rows.Constraint PgDistNode :=
  ((Rows.unique PgDistNode.nodeid).and
    (Rows.unique fun n : PgDistNode => (n.nodename, n.nodeport))).and
      ((Rows.unique PgDistNode.groupid).onlyFor fun n => decide (n.noderole = .primary))

/-- The constraints of `pg_dist_placement`. -/
def placementConstraint : Rows.Constraint PgDistPlacement :=
  (Rows.unique PgDistPlacement.placementid).and
    (Rows.unique fun p : PgDistPlacement => (p.shardid, p.groupid))

/-- What a write may raise. -/
inductive Error
  | noNode (nodename : Option String) (nodeport : Option ℤ)
  | notNullViolation
  | uniqueViolation
  deriving DecidableEq

/-- `nodename = $1 AND nodeport = $2`. A comparison with NULL is not met. -/
def hasAddress (nodename : Option String) (nodeport : Option ℤ) (n : PgDistNode) : Bool :=
  some n.nodename == nodename && some n.nodeport == nodeport

/-- `find_groupid_for_node`. The first node of the address is the only one. -/
def findGroupidForNode (nodes : List PgDistNode) (nodename : Option String)
    (nodeport : Option ℤ) : Except Error ℤ :=
  match nodes.find? (hasAddress nodename nodeport) with
  | some n => .ok n.groupid
  | none => .error (.noNode nodename nodeport)

/-- The placement that is stored: all columns are `NOT NULL`. -/
def storePlacement (new : ShardPlacement) (groupid : ℤ) : Except Error PgDistPlacement :=
  match new.placementid, new.shardid, new.shardstate, new.shardlength with
  | some placementid, some shardid, some shardstate, some shardlength =>
    .ok ⟨placementid, shardid, shardstate, shardlength, groupid⟩
  | _, _, _, _ => .error .notNullViolation

/-- The placement for a row of the view. -/
def placementFor (nodes : List PgDistNode) (new : ShardPlacement) : Except Error PgDistPlacement :=
  (findGroupidForNode nodes new.nodename new.nodeport).bind (storePlacement new)

/-- The table with what was written, if its constraints allow it. -/
def accept (placements : List PgDistPlacement) :
    Except Error (Rows.Table placementConstraint) :=
  if h : placementConstraint.ok placements = true then .ok ⟨placements, h⟩
  else .error .uniqueViolation

/-- A write to one row of the view: `TG_OP`, `NEW` and `OLD`. -/
inductive Write
  | insert (new : ShardPlacement)
  | update (old new : ShardPlacement)
  | delete (old : ShardPlacement)

/-- `placementid = OLD.placementid`. -/
def hasPlacementid (old : ShardPlacement) (p : PgDistPlacement) : Bool :=
  some p.placementid == old.placementid

/-- `pg_dist_shard_placement_trigger_func`. What an update sets is computed for a row that
it finds, if there is one. -/
def pgDistShardPlacementTriggerFunc (nodes : List PgDistNode)
    (placements : Rows.Table placementConstraint) :
    Write → Except Error (Rows.Table placementConstraint)
  | .delete old => accept (placements.rows.filter fun p => !hasPlacementid old p)
  | .update old new =>
    if placements.rows.any (hasPlacementid old) = true then
      (placementFor nodes new).bind fun placement =>
        accept (placements.rows.map fun p => if hasPlacementid old p = true then placement else p)
    else .ok placements
  | .insert new => (placementFor nodes new).bind fun placement =>
      accept (placements.rows ++ [placement])

/-! ## A table of the six columns -/

/-- **What the write does to a table** of the rows that the view shows. -/
def Write.onTable : Write → List ShardPlacement → List ShardPlacement
  | insert new, rows => rows ++ [new]
  | update old new, rows =>
    rows.map fun r => if r.placementid = old.placementid then new else r
  | delete old, rows => rows.filter fun r => r.placementid ≠ old.placementid

/-- The row a write is for is one that the view shows. -/
def Write.Targets (view : List ShardPlacement) : Write → Prop
  | insert _ => True
  | update old _ => old ∈ view
  | delete old => old ∈ view

/-- **The node that a write names is a primary**; a delete names none. -/
def Write.NamesPrimary (nodes : List PgDistNode) : Write → Prop
  | insert new | update _ new =>
    ∃ n ∈ nodes, hasAddress new.nodename new.nodeport n = true ∧ n.noderole = .primary
  | delete _ => True

/-! ## The rows of a placement -/

/-- What the view shows of one placement. -/
def shown (nodes : List PgDistNode) (p : PgDistPlacement) : List ShardPlacement :=
  (nodes.filter (placedOn p)).map (ShardPlacement.of p)

theorem pgDistShardPlacement_eq (placements : List PgDistPlacement) (nodes : List PgDistNode) :
    pgDistShardPlacement placements nodes = placements.flatMap (shown nodes) := by
  unfold pgDistShardPlacement Rows.join
  rw [List.map_flatMap]
  simp only [List.map_map, Function.comp_def]
  rfl

theorem mem_shown {nodes : List PgDistNode} {p : PgDistPlacement} {r : ShardPlacement} :
    r ∈ shown nodes p ↔ ∃ n ∈ nodes, placedOn p n = true ∧ ShardPlacement.of p n = r := by
  unfold shown
  rw [List.mem_map]
  simp only [List.mem_filter, and_assoc]

theorem placementid_of_mem_shown {nodes : List PgDistNode} {p : PgDistPlacement}
    {r : ShardPlacement} (h : r ∈ shown nodes p) : r.placementid = some p.placementid := by
  obtain ⟨n, -, -, rfl⟩ := mem_shown.mp h
  rfl

section Nodes

variable (nodes : Rows.Table nodeConstraint)

/-- Two nodes of one address are one node. -/
theorem eq_of_hasAddress {n m : PgDistNode} (hn : n ∈ nodes.rows) (hm : m ∈ nodes.rows)
    {nodename : Option String} {nodeport : Option ℤ} (hn' : hasAddress nodename nodeport n = true)
    (hm' : hasAddress nodename nodeport m = true) : n = m := by
  have hkey : (nodes.rows.map fun n => (n.nodename, n.nodeport)).Nodup :=
    of_decide_eq_true (Bool.and_eq_true_iff.mp (Bool.and_eq_true_iff.mp nodes.valid).1).2
  unfold hasAddress at hn' hm'
  rw [Bool.and_eq_true, beq_iff_eq, beq_iff_eq] at hn' hm'
  refine List.inj_on_of_nodup_map hkey hn hm (Prod.ext ?_ ?_)
  · exact Option.some.inj (hn'.1.trans hm'.1.symm)
  · exact Option.some.inj (hn'.2.trans hm'.2.symm)

/-- Two primaries of one group are one node. -/
theorem eq_of_placedOn {n m : PgDistNode} (hn : n ∈ nodes.rows) (hm : m ∈ nodes.rows)
    {p : PgDistPlacement} (hn' : placedOn p n = true) (hm' : placedOn p m = true) : n = m := by
  have hkey : ((nodes.rows.filter fun n => decide (n.noderole = .primary)).map
      PgDistNode.groupid).Nodup := of_decide_eq_true (Bool.and_eq_true_iff.mp nodes.valid).2
  unfold placedOn at hn' hm'
  rw [Bool.and_eq_true, beq_iff_eq, beq_iff_eq] at hn' hm'
  exact List.inj_on_of_nodup_map hkey (List.mem_filter.mpr ⟨hn, decide_eq_true hn'.2⟩)
    (List.mem_filter.mpr ⟨hm, decide_eq_true hm'.2⟩) (hn'.1.symm.trans hm'.1)

/-- **A placement in the group of a primary** is shown once, with that node. -/
theorem shown_of_placedOn {n : PgDistNode} (hn : n ∈ nodes.rows) {p : PgDistPlacement}
    (hp : placedOn p n = true) : shown nodes.rows p = [ShardPlacement.of p n] := by
  have hnodup : nodes.rows.Nodup := by
    have hkey : (nodes.rows.map PgDistNode.nodeid).Nodup :=
      of_decide_eq_true (Bool.and_eq_true_iff.mp (Bool.and_eq_true_iff.mp nodes.valid).1).1
    exact hkey.of_map
  obtain ⟨m, hm⟩ := List.length_eq_one_iff.mp ((Rows.length_filter_eq_one_iff hnodup _).mpr
    ⟨n, hn, hp, fun m hm hm' => eq_of_placedOn nodes hm hn hm' hp⟩)
  have hmem : n ∈ nodes.rows.filter (placedOn p) := List.mem_filter.mpr ⟨hn, hp⟩
  rw [hm, List.mem_singleton] at hmem
  unfold shown
  rw [hm, hmem]
  rfl

/-- A row that the view shows of a placement is all it shows of it. -/
theorem shown_of_mem {p : PgDistPlacement} {r : ShardPlacement} (h : r ∈ shown nodes.rows p) :
    shown nodes.rows p = [r] := by
  obtain ⟨n, hn, hp, rfl⟩ := mem_shown.mp h
  exact shown_of_placedOn nodes hn hp

/-- **What is stored for a row**: its columns, in the group of the node it names. -/
theorem placementFor_eq_ok {new : ShardPlacement} {p : PgDistPlacement}
    (h : placementFor nodes.rows new = .ok p) :
    ∃ n ∈ nodes.rows, hasAddress new.nodename new.nodeport n = true ∧ n.groupid = p.groupid ∧
      ShardPlacement.of p n = new := by
  obtain ⟨groupid, hfind, hstore⟩ := Rows.bind_eq_ok.mp h
  unfold findGroupidForNode at hfind
  split at hfind
  · rename_i n hn
    obtain rfl := Except.ok.inj hfind
    have haddress := List.find?_some hn
    refine ⟨n, List.mem_of_find?_eq_some hn, haddress, ?_⟩
    unfold storePlacement at hstore
    split at hstore
    · rename_i h₁ h₂ h₃ h₄
      obtain rfl := Except.ok.inj hstore
      unfold hasAddress at haddress
      rw [Bool.and_eq_true, beq_iff_eq, beq_iff_eq] at haddress
      refine ⟨rfl, ?_⟩
      unfold ShardPlacement.of
      rw [haddress.1, haddress.2, ← h₁, ← h₂, ← h₃, ← h₄]
    · exact nomatch hstore
  · exact nomatch hfind

/-- **What is written with the address of a primary is what is read.** -/
theorem shown_of_primary {new : ShardPlacement} {p : PgDistPlacement}
    (h : placementFor nodes.rows new = .ok p)
    (hprimary : ∃ n ∈ nodes.rows, hasAddress new.nodename new.nodeport n = true ∧
      n.noderole = .primary) : shown nodes.rows p = [new] := by
  obtain ⟨n, hn, haddress, hgroup, hnew⟩ := placementFor_eq_ok nodes h
  obtain ⟨m, hm, haddress', hrole⟩ := hprimary
  obtain rfl := eq_of_hasAddress nodes hm hn haddress' haddress
  have hplaced : placedOn p m = true := by
    unfold placedOn
    rw [hgroup, hrole]
    simp
  rw [shown_of_placedOn nodes hm hplaced, hnew]

/-- **With another address, it is not.** What the view shows, if anything, has the address
of the primary of the group. -/
theorem not_mem_shown {new : ShardPlacement} (p : PgDistPlacement)
    (hprimary : ¬∃ n ∈ nodes.rows, hasAddress new.nodename new.nodeport n = true ∧
      n.noderole = .primary) : new ∉ shown nodes.rows p := by
  intro hmem
  obtain ⟨n, hn, hplaced, hof⟩ := mem_shown.mp hmem
  refine hprimary ⟨n, hn, ?_, ?_⟩
  · rw [← hof]
    simp [hasAddress, ShardPlacement.of]
  · exact beq_iff_eq.mp (Bool.and_eq_true_iff.mp hplaced).2

/-- So the placement is shown as it was written exactly if the node is a primary. -/
theorem perm_shown_iff {new : ShardPlacement} {p : PgDistPlacement}
    (h : placementFor nodes.rows new = .ok p) :
    (shown nodes.rows p).Perm [new] ↔
      ∃ n ∈ nodes.rows, hasAddress new.nodename new.nodeport n = true ∧ n.noderole = .primary := by
  constructor
  · intro hperm
    by_contra hprimary
    exact not_mem_shown nodes p hprimary (hperm.mem_iff.mpr (List.mem_singleton.mpr rfl))
  · intro hprimary
    rw [shown_of_primary nodes h hprimary]

/-! ## The three writes -/

theorem accept_eq_ok {rows : List PgDistPlacement} {placements : Rows.Table placementConstraint}
    (h : accept rows = .ok placements) : placements.rows = rows := by
  unfold accept at h
  split at h
  · exact congrArg Rows.Table.rows (Except.ok.inj h).symm
  · exact nomatch h

variable {placements placements' : Rows.Table placementConstraint}

/-- The view of a table of placements. -/
def view (placements : Rows.Table placementConstraint) : List ShardPlacement :=
  pgDistShardPlacement placements.rows nodes.rows

theorem view_eq (placements : Rows.Table placementConstraint) :
    view nodes placements = placements.rows.flatMap (shown nodes.rows) :=
  pgDistShardPlacement_eq placements.rows nodes.rows

/-- An insert adds what the view shows of the new placement. -/
theorem view_insert {new : ShardPlacement}
    (h : pgDistShardPlacementTriggerFunc nodes.rows placements (.insert new) = .ok placements') :
    ∃ p, placementFor nodes.rows new = .ok p ∧
      view nodes placements' = view nodes placements ++ shown nodes.rows p := by
  obtain ⟨p, hp, haccept⟩ := Rows.bind_eq_ok.mp h
  refine ⟨p, hp, ?_⟩
  rw [view_eq, view_eq, accept_eq_ok haccept, List.flatMap_append, List.flatMap_singleton]

/-- **An update replaces the row it is for** by what the view shows of the placement, and a
table would replace it by the new row. -/
theorem view_update {old new : ShardPlacement} (hold : old ∈ view nodes placements)
    (h : pgDistShardPlacementTriggerFunc nodes.rows placements (.update old new) =
      .ok placements') :
    ∃ p before after, placementFor nodes.rows new = .ok p ∧
      view nodes placements' = before ++ shown nodes.rows p ++ after ∧
      (Write.update old new).onTable (view nodes placements) = before ++ [new] ++ after := by
  rw [view_eq] at hold
  obtain ⟨p₀, hp₀, hmem⟩ := List.mem_flatMap.mp hold
  have hid : ∀ q, hasPlacementid old q = true ↔ q.placementid = p₀.placementid := by
    intro q
    unfold hasPlacementid
    rw [placementid_of_mem_shown hmem, beq_iff_eq, Option.some_inj]
  have hany : placements.rows.any (hasPlacementid old) = true :=
    List.any_eq_true.mpr ⟨p₀, hp₀, (hid p₀).mpr rfl⟩
  simp only [pgDistShardPlacementTriggerFunc, if_pos hany] at h
  obtain ⟨p, hp, haccept⟩ := Rows.bind_eq_ok.mp h
  -- no placement but this one has its id
  obtain ⟨pre, post, hsplit⟩ := List.append_of_mem hp₀
  have hkey : (placements.rows.map PgDistPlacement.placementid).Nodup :=
    of_decide_eq_true (Bool.and_eq_true_iff.mp placements.valid).1
  have hothers : ∀ q ∈ pre ++ post, ¬hasPlacementid old q = true := by
    intro q hq hcon
    rw [hsplit] at hkey
    have hperm := (@List.perm_middle _ p₀ pre post).map PgDistPlacement.placementid
    refine (List.nodup_cons.mp (hperm.nodup_iff.mp hkey)).1 ?_
    rw [← (hid q).mp hcon]
    exact List.mem_map_of_mem hq
  have hrows : placements'.rows = pre ++ p :: post := by
    have hkeep : ∀ l : List PgDistPlacement, (∀ q ∈ l, ¬hasPlacementid old q = true) →
        l.map (fun q => if hasPlacementid old q = true then p else q) = l := fun l hl =>
      (List.map_congr_left fun q hq => if_neg (hl q hq)).trans (List.map_id l)
    rw [accept_eq_ok haccept, hsplit, List.map_append, List.map_cons, if_pos ((hid p₀).mpr rfl),
      hkeep pre fun q hq => hothers q (List.mem_append_left _ hq),
      hkeep post fun q hq => hothers q (List.mem_append_right _ hq)]
  have htable : ∀ l : List PgDistPlacement, (∀ q ∈ l, ¬hasPlacementid old q = true) →
      (l.flatMap (shown nodes.rows)).map
        (fun r => if r.placementid = old.placementid then new else r) =
      l.flatMap (shown nodes.rows) := by
    intro l hl
    refine (List.map_congr_left fun r hr => if_neg ?_).trans (List.map_id _)
    obtain ⟨q, hq, hr⟩ := List.mem_flatMap.mp hr
    rw [placementid_of_mem_shown hr]
    exact fun hcon => hl q hq (beq_iff_eq.mpr hcon)
  refine ⟨p, pre.flatMap (shown nodes.rows), post.flatMap (shown nodes.rows), hp, ?_, ?_⟩
  · rw [view_eq, hrows, List.flatMap_append, List.flatMap_cons, List.append_assoc]
  · show (view nodes placements).map _ = _
    rw [view_eq, hsplit, List.flatMap_append, List.flatMap_cons, List.map_append, List.map_append,
      htable pre fun q hq => hothers q (List.mem_append_left _ hq),
      htable post fun q hq => hothers q (List.mem_append_right _ hq),
      shown_of_mem nodes hmem, List.map_singleton, if_pos rfl, List.append_assoc]

/-- **A delete removes the row it is for**, and no other. -/
theorem view_delete {old : ShardPlacement}
    (h : pgDistShardPlacementTriggerFunc nodes.rows placements (.delete old) = .ok placements') :
    view nodes placements' = (Write.delete old).onTable (view nodes placements) := by
  rw [view_eq, view_eq, accept_eq_ok h]
  generalize placements.rows = ps
  induction ps with
  | nil => rfl
  | cons p ps ih =>
    simp only [Write.onTable] at ih ⊢
    rw [List.filter_cons, List.flatMap_cons, List.filter_append, ← ih]
    by_cases hp : hasPlacementid old p = true
    · have hnone : (shown nodes.rows p).filter
          (fun r => decide (r.placementid ≠ old.placementid)) = [] := by
        refine List.filter_eq_nil_iff.mpr fun r hr hne => of_decide_eq_true hne ?_
        rw [placementid_of_mem_shown hr]
        exact beq_iff_eq.mp hp
      rw [hnone, hp]
      rfl
    · have hall : (shown nodes.rows p).filter
          (fun r => decide (r.placementid ≠ old.placementid)) = shown nodes.rows p := by
        refine List.filter_eq_self.mpr fun r hr => decide_eq_true ?_
        rw [placementid_of_mem_shown hr]
        exact fun hcon => hp (beq_iff_eq.mpr hcon)
      rw [hall, Bool.eq_false_of_not_eq_true hp]
      rfl

/-- **The view is a table exactly for primaries.** A write that does not raise changes the
view as it would change a table, if and only if the node it names is a primary. -/
theorem perm_onTable_iff {w : Write} (htarget : w.Targets (view nodes placements))
    (h : pgDistShardPlacementTriggerFunc nodes.rows placements w = .ok placements') :
    (view nodes placements').Perm (w.onTable (view nodes placements)) ↔
      w.NamesPrimary nodes.rows := by
  cases w with
  | insert new =>
    obtain ⟨p, hp, hview⟩ := view_insert nodes h
    rw [hview]
    exact (List.perm_append_left_iff _).trans (perm_shown_iff nodes hp)
  | update old new =>
    obtain ⟨p, before, after, hp, hview, htable⟩ := view_update nodes htarget h
    rw [hview, htable, List.perm_append_right_iff, List.perm_append_left_iff]
    exact perm_shown_iff nodes hp
  | delete old =>
    rw [view_delete nodes h]
    exact iff_of_true (List.Perm.refl _) trivial

/-- Rows even keep their places then. -/
theorem view_eq_onTable {w : Write} (htarget : w.Targets (view nodes placements))
    (hprimary : w.NamesPrimary nodes.rows)
    (h : pgDistShardPlacementTriggerFunc nodes.rows placements w = .ok placements') :
    view nodes placements' = w.onTable (view nodes placements) := by
  cases w with
  | insert new =>
    obtain ⟨p, hp, hview⟩ := view_insert nodes h
    rw [hview, shown_of_primary nodes hp hprimary]
    rfl
  | update old new =>
    obtain ⟨p, before, after, hp, hview, htable⟩ := view_update nodes htarget h
    rw [hview, htable, shown_of_primary nodes hp hprimary]
  | delete old => exact view_delete nodes h

end Nodes

/-! ## Sequences of writes -/

instance (view : List ShardPlacement) (w : Write) : Decidable (w.Targets view) :=
  match w with
  | .insert _ => .isTrue trivial
  | .update old _ => inferInstanceAs (Decidable (old ∈ view))
  | .delete old => inferInstanceAs (Decidable (old ∈ view))

/-- A write to a row that the view shows, which does not raise. -/
def step (nodes : Rows.Table nodeConstraint) (placements : Rows.Table placementConstraint)
    (w : Write) : Option (Rows.Table placementConstraint) :=
  if w.Targets (view nodes placements) then
    (pgDistShardPlacementTriggerFunc nodes.rows placements w).toOption
  else none

theorem step_eq_some {nodes : Rows.Table nodeConstraint}
    {placements placements' : Rows.Table placementConstraint} {w : Write}
    (h : step nodes placements w = some placements') :
    w.Targets (view nodes placements) ∧
      pgDistShardPlacementTriggerFunc nodes.rows placements w = .ok placements' := by
  unfold step at h
  split at h
  · refine ⟨‹_›, ?_⟩
    cases hw : pgDistShardPlacementTriggerFunc nodes.rows placements w with
    | ok rows =>
      rw [hw] at h
      exact congrArg Except.ok (Option.some.inj h)
    | error e =>
      rw [hw] at h
      exact nomatch h
  · exact nomatch h

/-- **When the view is a table.** For any nodes, with one primary a group at most, and any
placements, a write through the view that does not raise is a write to a table of its six
columns exactly if it is a delete or names a primary. And any sequence of such writes is
one of writes to a table. -/
theorem view_is_table_iff (nodes : Rows.Table nodeConstraint)
    (placements : Rows.Table placementConstraint) :
    (∀ (w : Write) (placements' : Rows.Table placementConstraint),
      step nodes placements w = some placements' →
      ((view nodes placements').Perm (w.onTable (view nodes placements)) ↔
        w.NamesPrimary nodes.rows)) ∧
    (∀ (ws : List Write) (placements' : Rows.Table placementConstraint),
      Run.run (step nodes) placements ws = some placements' →
      (∀ w ∈ ws, w.NamesPrimary nodes.rows) →
      view nodes placements' = ws.foldl (fun rows w => w.onTable rows) (view nodes placements)) := by
  refine ⟨fun w placements' h => ?_, fun ws placements' h => ?_⟩
  · obtain ⟨htarget, hw⟩ := step_eq_some h
    exact perm_onTable_iff nodes htarget hw
  · refine Run.run_induction (P := fun ws placements' =>
      (∀ w ∈ ws, w.NamesPrimary nodes.rows) →
      view nodes placements' = ws.foldl (fun rows w => w.onTable rows) (view nodes placements))
      (fun _ => rfl) (fun ws placements₁ w placements₂ _ ih hstep hprimary => ?_) h
    obtain ⟨htarget, hw⟩ := step_eq_some hstep
    have hlast : w.NamesPrimary nodes.rows :=
      hprimary w (List.mem_append_right _ (List.mem_singleton.mpr rfl))
    rw [List.foldl_append, ← ih fun w hw => hprimary w (List.mem_append_left _ hw)]
    exact view_eq_onTable nodes htarget hlast hw

/-- A primary and a secondary of one group. -/
def primaryAndSecondary : Rows.Table nodeConstraint :=
  ⟨[⟨1, 1, "localhost", 5432, "default", false, true, .primary, "default", some false, true⟩,
    ⟨2, 1, "localhost", 5433, "default", false, true, .secondary, "default", some false, true⟩],
    by decide +kernel⟩

/-- A new placement on one of them. -/
def placementAt (nodeport : ℤ) : ShardPlacement :=
  ⟨some 102008, some 1, some 0, some "localhost", some nodeport, some 1⟩

/-- A primary of another group besides. -/
def twoGroups : Rows.Table nodeConstraint :=
  ⟨[⟨1, 1, "localhost", 5432, "default", false, true, .primary, "default", some false, true⟩,
    ⟨2, 1, "localhost", 5433, "default", false, true, .secondary, "default", some false, true⟩,
    ⟨3, 2, "localhost", 5434, "default", false, true, .primary, "default", some false, true⟩],
    by decide +kernel⟩

/-- The first of two placements is moved to the other group, and the second one stays. -/
theorem view_is_table_moved :
    (view twoGroups ⟨[⟨1, 102008, 1, 0, 2⟩, ⟨2, 102009, 1, 8192, 1⟩], by decide +kernel⟩).Perm
      [placementAt 5434,
        ⟨some 102009, some 1, some 8192, some "localhost", some 5432, some 2⟩] :=
  ((view_is_table_iff twoGroups
    ⟨[⟨1, 102008, 1, 0, 1⟩, ⟨2, 102009, 1, 8192, 1⟩], by decide +kernel⟩).1
    (.update (placementAt 5432) (placementAt 5434)) _ rfl).mpr
      ⟨_, List.mem_cons_of_mem _ (List.mem_cons_of_mem _ List.mem_cons_self), by decide +kernel,
        rfl⟩

/-- **Through the address of the secondary it is another row that comes back**, with no
error. -/
theorem secondary_comes_back_as_primary :
    ∃ placements, step primaryAndSecondary (.empty _) (.insert (placementAt 5433)) =
      some placements ∧
    view primaryAndSecondary placements = [placementAt 5432] ∧
    ¬(view primaryAndSecondary placements).Perm
      ((Write.insert (placementAt 5433)).onTable (view primaryAndSecondary (.empty _))) :=
  ⟨⟨[⟨1, 102008, 1, 0, 1⟩], by decide +kernel⟩, rfl, rfl, by decide +kernel⟩

end ShardPlacementView
