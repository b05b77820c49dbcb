import Mathlib
import PgCitus.Library.Decimal
import PgCitus.PgUpgrade

/-!
# The sizes of shards

The view `citus_shards` shows a row for every placement of a shard, with the size of the
shard. Sizes come from the workers, with the name of the shard, and the name ends in the id.
The view takes the id out of the name again, as a number, and joins on it.

Taking the digits after the last underscore is right, whatever the table is called
(`regexpMatches_of_nameOf`). But they are cast to `int`, and ids are `bigint`: a single
name with a greater id is an error for the whole view. This, and the sign, which the regular
expression does not know, is all that goes wrong with the sizes (`citus_shards_iff`).

A placement is shown if its shard, its node and its table are in the catalogs, as the joins
with these are inner ones, and `shard_name` has to give the shard a name, which it does not for
every id. The names of shards and the order of tables are parameters.
-/

namespace CitusShards

open PgUpgrade (Oid Catalogs PgDistShard PgDistPlacement PgDistNode PgDistPartition)

/-! ## Ids in names -/

/-- The text of a `bigint`. -/
def int8out (id : ℤ) : List Char :=
  if id < 0 then '-' :: Nat.toDigits 10 id.natAbs else Nat.toDigits 10 id.natAbs

/-- **The name of a shard** ends in an underscore and the id. -/
def NameOf (id : ℤ) (name : String) : Prop := '_' :: int8out id <:+ name.toList

instance (id : ℤ) (name : String) : Decidable (NameOf id name) :=
  inferInstanceAs (Decidable (_ <:+ _))

/-- What the view may raise. -/
inductive Error
  /-- `value "%" is out of range for type integer` -/
  | integerOutOfRange
  /-- By `shard_name`: `shard_id cannot be zero or negative value`, or `object_name does not
  reference a valid relation`. -/
  | invalidParameterValue
  deriving DecidableEq

/-- `regexp_matches(table_name,'_(\d+)$')`: what is after the first underscore that has only
digits after it. -/
def regexpMatches : List Char → Option (List Char)
  | [] => none
  | c :: cs =>
    if c = '_' ∧ cs ≠ [] ∧ ∀ d ∈ cs, d.isDigit = true then some cs else regexpMatches cs

/-- The cast of digits to `int`. -/
def int4in (digits : List Char) : Except Error ℤ :=
  if Nat.ofDigitChars 10 digits 0 ≤ 2147483647 then .ok (Nat.ofDigitChars 10 digits 0)
  else .error .integerOutOfRange

/-- A match is the end of the name, after an underscore. -/
theorem regexpMatches_eq_some_iff {name digits : List Char} :
    regexpMatches name = some digits ↔
      '_' :: digits <:+ name ∧ digits ≠ [] ∧ ∀ d ∈ digits, d.isDigit = true := by
  induction name with
  | nil =>
    refine iff_of_false (fun h => nomatch h) fun h => ?_
    exact absurd (List.suffix_nil.mp h.1) (List.cons_ne_nil _ _)
  | cons c cs ih =>
    unfold regexpMatches
    by_cases h : c = '_' ∧ cs ≠ [] ∧ ∀ d ∈ cs, d.isDigit = true
    · rw [if_pos h]
      obtain ⟨rfl, hne, hdigits⟩ := h
      constructor
      · intro heq
        obtain rfl := Option.some.inj heq
        exact ⟨List.suffix_refl _, hne, hdigits⟩
      · rintro ⟨hsuffix, -, -⟩
        rcases List.suffix_cons_iff.mp hsuffix with heq | htail
        · rw [List.cons.inj heq |>.2]
        · -- there would be another underscore among the digits
          have hmem : '_' ∈ cs := htail.mem List.mem_cons_self
          exact absurd (hdigits '_' hmem) (by decide)
    · rw [if_neg h, ih]
      refine ⟨fun hm => ⟨hm.1.trans (List.suffix_cons c cs), hm.2⟩, fun hm => ⟨?_, hm.2⟩⟩
      rcases List.suffix_cons_iff.mp hm.1 with heq | htail
      · obtain ⟨rfl, rfl⟩ := List.cons.inj heq
        exact absurd ⟨rfl, hm.2⟩ h
      · exact htail

theorem isDigit_of_mem_toDigits {n : ℕ} {d : Char} (h : d ∈ Nat.toDigits 10 n) :
    d.isDigit = true := Nat.isDigit_of_mem_toDigits (by decide) (by decide) h

/-- There is no underscore in the text of an id. -/
theorem underscore_not_mem_int8out (id : ℤ) : '_' ∉ int8out id := by
  intro h
  unfold int8out at h
  have hdigit : '_' ∉ Nat.toDigits 10 id.natAbs := fun hmem =>
    absurd (isDigit_of_mem_toDigits hmem) (by decide)
  split at h
  · rcases List.mem_cons.mp h with heq | hmem
    · exact absurd heq (by decide)
    · exact hdigit hmem
  · exact hdigit h

/-- **What is after the last underscore** of a name is known. -/
theorem eq_int8out {id : ℤ} {name : String} {cs : List Char} (hname : NameOf id name)
    (hcs : '_' ∉ cs) (hsuffix : '_' :: cs <:+ name.toList) : cs = int8out id := by
  obtain ⟨x, hx⟩ := hname
  obtain ⟨y, hy⟩ := hsuffix
  refine Decimal.eq_of_append_mark (x := y) (y := x) hcs (underscore_not_mem_int8out id) ?_
  rw [List.append_assoc, List.append_assoc]
  exact hy.trans hx.symm

theorem toDigits_inj {m n : ℕ} (h : Nat.toDigits 10 m = Nat.toDigits 10 n) : m = n :=
  calc m = Nat.ofDigitChars 10 (Nat.toDigits 10 m) 0 := Nat.ofDigitChars_ten_toDigits.symm
    _ = Nat.ofDigitChars 10 (Nat.toDigits 10 n) 0 := by rw [h]
    _ = n := Nat.ofDigitChars_ten_toDigits

/-- Digits do not begin with a sign. -/
theorem minus_cons_ne_toDigits (cs : List Char) (n : ℕ) : '-' :: cs ≠ Nat.toDigits 10 n := by
  intro h
  have hmem : '-' ∈ Nat.toDigits 10 n := h ▸ List.mem_cons_self
  exact absurd (isDigit_of_mem_toDigits hmem) (by decide)

/-- Different ids have different texts. -/
theorem int8out_inj {i j : ℤ} (h : int8out i = int8out j) : i = j := by
  unfold int8out at h
  by_cases hi : i < 0
  · rw [if_pos hi] at h
    by_cases hj : j < 0
    · rw [if_pos hj] at h
      have habs := toDigits_inj (List.cons.inj h).2
      omega
    · rw [if_neg hj] at h
      exact absurd h (minus_cons_ne_toDigits _ _)
  · rw [if_neg hi] at h
    by_cases hj : j < 0
    · rw [if_pos hj] at h
      exact absurd h.symm (minus_cons_ne_toDigits _ _)
    · rw [if_neg hj] at h
      have habs := toDigits_inj h
      omega

/-- A name is that of one shard. -/
theorem NameOf.unique {i j : ℤ} {name : String} (hi : NameOf i name) (hj : NameOf j name) :
    i = j :=
  int8out_inj (eq_int8out hj (underscore_not_mem_int8out i) hi)

/-- **The digits of the id are what is matched**, whatever is before them; an id with a sign
is not matched. -/
theorem regexpMatches_of_nameOf {id : ℤ} {name : String} (h : NameOf id name) :
    regexpMatches name.toList = if id < 0 then none else some (Nat.toDigits 10 id.natAbs) := by
  by_cases hid : id < 0
  · rw [if_pos hid]
    cases hm : regexpMatches name.toList with
    | none => rfl
    | some digits =>
      obtain ⟨hsuffix, -, hdigits⟩ := regexpMatches_eq_some_iff.mp hm
      have hmark : '_' ∉ digits := fun hmem => absurd (hdigits '_' hmem) (by decide)
      have heq := eq_int8out h hmark hsuffix
      unfold int8out at heq
      rw [if_pos hid] at heq
      have hminus : '-' ∈ digits := heq ▸ List.mem_cons_self
      exact absurd (hdigits '-' hminus) (by decide)
  · rw [if_neg hid, regexpMatches_eq_some_iff]
    unfold NameOf int8out at h
    rw [if_neg hid] at h
    exact ⟨h, Nat.toDigits_ne_nil, fun d => isDigit_of_mem_toDigits⟩

theorem int4in_toDigits (n : ℕ) : int4in (Nat.toDigits 10 n) =
    if n ≤ 2147483647 then .ok (n : ℤ) else .error .integerOutOfRange := by
  unfold int4in
  rw [Nat.ofDigitChars_ten_toDigits]

/-! ## The view -/

/-- A row of `citus_shard_sizes`. -/
structure ShardSize where
  tableName : String
  size : ℤ

/-- `citus_table_type`. -/
inductive CitusTableType
  | distributed | reference | localTable
  deriving DecidableEq

/-- A row of the view. -/
structure CitusShard where
  tableName : Oid
  shardid : ℤ
  shardName : String
  citusTableType : CitusTableType
  colocationId : ℤ
  nodename : String
  nodeport : ℤ
  shardSize : Option ℤ
  deriving DecidableEq

/-- The id in a name, with the size; a name without one gives no row. -/
def shardId (z : ShardSize) : Except Error (Option (ℤ × ℤ)) :=
  match regexpMatches z.tableName.toList with
  | none => .ok none
  | some digits => (int4in digits).map fun id => some (id, z.size)

/-- The ids in all names. -/
def shardIds (sizes : List ShardSize) : Except Error (List (ℤ × ℤ)) :=
  (sizes.mapM shardId).map List.reduceOption

/-- The subquery `shard_sizes`: the greatest size of each id. -/
def shardSizes (sizes : List ShardSize) : Except Error (List (ℤ × Option ℤ)) :=
  (shardIds sizes).map fun rows =>
    (Rows.groupBy Prod.fst rows).map fun g => (g.1, (g.2.map Prod.snd).max?)

section View

variable {Text : Type} [LinearOrder Text] (regclassText : Oid → Text)
  (shardName : Oid → ℤ → Except Error String) (c : Catalogs) (sizes : List ShardSize)

/-- `CASE WHEN partkey IS NOT NULL THEN 'distributed' WHEN repmodel = 't' THEN 'reference'
ELSE 'local' END`. -/
def citusTableType (t : PgDistPartition) : CitusTableType :=
  if t.partkey.isSome then .distributed else if t.repmodel = 't' then .reference else .localTable

/-- The row for a shard on a node. -/
def rowOf (s : PgDistShard) (n : PgDistNode) (t : PgDistPartition) (size : Option ℤ) :
    Except Error CitusShard := do
  let name ← shardName s.logicalrelid s.shardid
  return {
    tableName := s.logicalrelid
    shardid := s.shardid
    shardName := name
    citusTableType := citusTableType t
    colocationId := t.colocationid
    nodename := n.nodename
    nodeport := n.nodeport
    shardSize := size }

/-- The inner joins. -/
def joined : List (((PgDistShard × PgDistPlacement) × PgDistNode) × PgDistPartition) :=
  Rows.join (fun x t => t.logicalrelid = x.1.1.logicalrelid)
    (Rows.join (fun x n => x.2.groupid = n.groupid)
      (Rows.join (fun s p => s.shardid = p.shardid) c.pgDistShard.rows c.pgDistPlacement.rows)
      c.pgDistNode.rows)
    c.pgDistPartition.rows

/-- **The view `citus_shards`.** -/
def citusShards : Except Error (List CitusShard) := do
  let shardSizes ← shardSizes sizes
  (Rows.orderBy (fun x => toLex (regclassText x.1.1.1.1.logicalrelid, x.1.1.1.1.shardid))
    ((Rows.leftJoin (fun x z => x.1.1.1.shardid = z.1) (joined c) shardSizes).filter
      fun x => x.1.1.1.2.shardstate = 1)).mapM
    fun x => rowOf shardName x.1.1.1.1 x.1.1.2 x.1.2 (x.2.bind Prod.snd)

/-! ## What the view is for -/

/-- The sizes listed for a shard. -/
def listed (id : ℤ) : List ℤ := (sizes.filter fun z => NameOf id z.tableName).map ShardSize.size

/-- The placements that are to be shown. -/
def activePlacements : List PgDistPlacement :=
  c.pgDistPlacement.rows.filter fun p => p.shardstate = 1

/-- **The row of a placement**, with the largest size listed for its shard. -/
def RowFor (p : PgDistPlacement) (row : CitusShard) : Prop :=
  ∃ s ∈ c.pgDistShard.rows, s.shardid = p.shardid ∧ ∃ n ∈ c.pgDistNode.rows, n.groupid = p.groupid ∧
    ∃ t ∈ c.pgDistPartition.rows, t.logicalrelid = s.logicalrelid ∧
      rowOf shardName s n t (listed sizes s.shardid).max? = .ok row

/-- **The view shows every placement**, and no other row. -/
def ShowsPlacements : Prop :=
  ∃ rows, citusShards regclassText shardName c sizes = .ok rows ∧
    ∃ rows', List.Forall₂ (RowFor shardName c sizes) (activePlacements c) rows' ∧ rows'.Perm rows

/-- What the names of shards are: each is that of a shard. -/
def NamesShards : Prop :=
  ∀ z ∈ sizes, ∃ s ∈ c.pgDistShard.rows, NameOf s.shardid z.tableName

/-- **Ids that are listed fit.** They are in the range of `int`, and one with a sign is not
that of a shard which is shown. -/
def IdsFit : Prop :=
  ∀ s ∈ c.pgDistShard.rows, listed sizes s.shardid ≠ [] → s.shardid ≤ 2147483647 ∧
    (s.shardid < 0 → ∀ p ∈ activePlacements c, p.shardid ≠ s.shardid)

/-- Placements that are to be shown are in the catalogs with their shard, their node and
their table. -/
def PlacementsResolve : Prop :=
  ∀ p ∈ activePlacements c, ∃ s ∈ c.pgDistShard.rows, s.shardid = p.shardid ∧
    (∃ n ∈ c.pgDistNode.rows, n.groupid = p.groupid) ∧
    ∃ t ∈ c.pgDistPartition.rows, t.logicalrelid = s.logicalrelid

/-- **Shards that are to be shown have names.** -/
def ShardsNamed : Prop :=
  ∀ s ∈ c.pgDistShard.rows, (∃ p ∈ activePlacements c, p.shardid = s.shardid) →
    ∃ name, shardName s.logicalrelid s.shardid = .ok name

/-! ## The subquery -/

variable {shardName c sizes}

/-- What becomes of a name. -/
theorem shardId_of_nameOf {id : ℤ} {z : ShardSize} (h : NameOf id z.tableName) :
    shardId z = if id < 0 then .ok none else if id ≤ 2147483647 then .ok (some (id, z.size))
      else .error .integerOutOfRange := by
  unfold shardId
  rw [regexpMatches_of_nameOf h]
  by_cases hid : id < 0
  · rw [if_pos hid, if_pos hid]
  · rw [if_neg hid, if_neg hid]
    show (int4in (Nat.toDigits 10 id.natAbs)).map _ = _
    have habs : (id.natAbs : ℤ) = id := Int.natAbs_of_nonneg (not_lt.mp hid)
    rw [int4in_toDigits]
    by_cases hle : id ≤ 2147483647
    · rw [if_pos hle, if_pos (by omega), habs]
      rfl
    · rw [if_neg hle, if_neg (by omega)]
      rfl

/-- The rows that names with ids in range give. -/
theorem shardIds_cons {id : ℤ} {z : ShardSize} (h : NameOf id z.tableName)
    (hid : id ≤ 2147483647) (sizes : List ShardSize) :
    shardIds (z :: sizes) =
      (shardIds sizes).map fun rows => if id < 0 then rows else (id, z.size) :: rows := by
  unfold shardIds
  rw [List.mapM_cons, shardId_of_nameOf h]
  by_cases hneg : id < 0
  · rw [if_pos hneg]
    simp only [if_pos hneg]
    cases sizes.mapM shardId <;> rfl
  · rw [if_neg hneg, if_pos hid]
    simp only [if_neg hneg]
    cases sizes.mapM shardId <;> rfl

/-- **Ids in range are read**, and the rows of each are the sizes that are listed for it. -/
theorem shardIds_eq_ok {sizes : List ShardSize}
    (h : ∀ z ∈ sizes, ∃ id ≤ 2147483647, NameOf id z.tableName) :
    ∃ rows, shardIds sizes = .ok rows ∧ ∀ id,
      (rows.filter fun x => x.1 = id).map Prod.snd = if id < 0 then [] else listed sizes id := by
  induction sizes with
  | nil =>
    refine ⟨[], rfl, fun id => ?_⟩
    split <;> rfl
  | cons z sizes ih =>
    obtain ⟨rows, hrows, hlisted⟩ := ih fun z' hz' => h z' (List.mem_cons_of_mem z hz')
    obtain ⟨id, hid, hname⟩ := h z List.mem_cons_self
    refine ⟨if id < 0 then rows else (id, z.size) :: rows, ?_, fun id' => ?_⟩
    · rw [shardIds_cons hname hid, hrows]
      rfl
    have hcons : listed (z :: sizes) id' =
        if id = id' then z.size :: listed sizes id' else listed sizes id' := by
      unfold listed
      rw [List.filter_cons]
      by_cases heq : id = id'
      · rw [if_pos heq, if_pos (decide_eq_true (heq ▸ hname))]
        rfl
      · rw [if_neg heq, if_neg]
        intro hdec
        exact heq (hname.unique (of_decide_eq_true hdec))
    by_cases hneg : id < 0
    · rw [if_pos hneg, hlisted id', hcons]
      by_cases hneg' : id' < 0
      · rw [if_pos hneg', if_pos hneg']
      · rw [if_neg hneg', if_neg hneg', if_neg (by rintro rfl; exact hneg' hneg)]
    · rw [if_neg hneg, List.filter_cons, hcons]
      by_cases heq : id = id'
      · subst heq
        rw [if_pos (decide_eq_true rfl), if_pos rfl, List.map_cons, hlisted id, if_neg hneg,
          if_neg hneg]
      · rw [if_neg (by rwa [decide_eq_true_iff]), if_neg heq, hlisted id']

/-- **If no name raises an error, all ids are in range.** -/
theorem le_of_shardIds_eq_ok {sizes : List ShardSize} {rows : List (ℤ × ℤ)}
    (h : shardIds sizes = .ok rows) {z : ShardSize} (hz : z ∈ sizes) {id : ℤ}
    (hname : NameOf id z.tableName) : id ≤ 2147483647 := by
  by_contra hgt
  have hneg : ¬ id < 0 := by omega
  have herror := shardId_of_nameOf hname
  rw [if_neg hneg, if_neg hgt] at herror
  unfold shardIds at h
  cases hids : sizes.mapM shardId with
  | error e =>
    rw [hids] at h
    cases h
  | ok ids =>
    obtain ⟨x, hx⟩ := Rows.ok_of_mapM_eq_ok hids hz
    rw [herror] at hx
    cases hx

/-- **One size is found for a shard**, and it is the largest one. -/
theorem filter_shardSizes {sizes : List ShardSize} {groups : List (ℤ × Option ℤ)}
    (h : ∀ z ∈ sizes, ∃ id ≤ 2147483647, NameOf id z.tableName)
    (hgroups : shardSizes sizes = .ok groups) (id : ℤ) :
    (groups.filter fun z => id = z.1).length ≤ 1 ∧
    ((groups.filter fun z => id = z.1).head?).bind Prod.snd =
      if id < 0 then none else (listed sizes id).max? := by
  obtain ⟨rows, hrows, hlisted⟩ := shardIds_eq_ok h
  unfold shardSizes at hgroups
  rw [hrows] at hgroups
  obtain rfl := Except.ok.inj hgroups
  have hfilter : ((Rows.groupBy Prod.fst rows).map fun g => (g.1, (g.2.map Prod.snd).max?)).filter
      (fun z => id = z.1) = if id ∈ rows.map Prod.fst
        then [(id, (if id < 0 then [] else listed sizes id).max?)] else [] := by
    rw [← hlisted id, List.filter_map]
    have hcomm : (fun g : ℤ × List (ℤ × ℤ) => decide (id = g.1)) = fun g => decide (g.1 = id) :=
      funext fun g => decide_eq_decide.mpr eq_comm
    show ((Rows.groupBy Prod.fst rows).filter fun g => decide (id = g.1)).map _ = _
    rw [hcomm, Rows.filter_groupBy]
    split <;> rfl
  rw [hfilter]
  by_cases hmem : id ∈ rows.map Prod.fst
  · rw [if_pos hmem]
    refine ⟨Nat.le_refl 1, ?_⟩
    show (if id < 0 then [] else listed sizes id).max? = _
    split <;> rfl
  · rw [if_neg hmem]
    refine ⟨Nat.zero_le 1, ?_⟩
    -- there are no sizes where there is no id
    have hnil : rows.filter (fun x => x.1 = id) = [] := by
      rw [List.filter_eq_nil_iff]
      intro x hx heq
      exact hmem (of_decide_eq_true heq ▸ List.mem_map_of_mem hx)
    have hempty := hlisted id
    rw [hnil] at hempty
    by_cases hneg : id < 0
    · rw [if_pos hneg]
      rfl
    · rw [if_neg hneg] at hempty ⊢
      rw [← hempty]
      rfl

/-! ## The joins -/

/-- The joined rows that are to be shown. -/
def activeJoined (c : Catalogs) :
    List (((PgDistShard × PgDistPlacement) × PgDistNode) × PgDistPartition) :=
  (joined c).filter fun x => x.1.1.2.shardstate = 1

/-- What is joined. -/
theorem mem_joined {s : PgDistShard} {p : PgDistPlacement} {n : PgDistNode} {t : PgDistPartition} :
    (((s, p), n), t) ∈ joined c ↔
      ((s ∈ c.pgDistShard.rows ∧ p ∈ c.pgDistPlacement.rows ∧ s.shardid = p.shardid) ∧
        n ∈ c.pgDistNode.rows ∧ p.groupid = n.groupid) ∧
      t ∈ c.pgDistPartition.rows ∧ t.logicalrelid = s.logicalrelid := by
  unfold joined
  rw [Rows.mem_join, Rows.mem_join, Rows.mem_join]
  simp only [decide_eq_true_eq]

/-- The condition on placements may be taken to their table. -/
theorem activeJoined_eq : activeJoined c =
    Rows.join (fun x t => t.logicalrelid = x.1.1.logicalrelid)
      (Rows.join (fun x n => x.2.groupid = n.groupid)
        (Rows.join (fun s p => s.shardid = p.shardid) c.pgDistShard.rows (activePlacements c))
        c.pgDistNode.rows)
      c.pgDistPartition.rows := by
  unfold activeJoined joined activePlacements
  rw [Rows.filter_join_left fun x : (PgDistShard × PgDistPlacement) × PgDistNode =>
      decide (x.1.2.shardstate = 1),
    Rows.filter_join_left fun x : PgDistShard × PgDistPlacement => decide (x.2.shardstate = 1),
    Rows.filter_join_right fun p : PgDistPlacement => decide (p.shardstate = 1)]

/-- **Every placement is joined once**, if what it is joined with is there. -/
theorem map_activeJoined_perm (hnodes : ∀ n ∈ c.pgDistNode.rows, n.noderole = .primary)
    (hres : PlacementsResolve c) :
    ((activeJoined c).map fun x => x.1.1.2).Perm (activePlacements c) := by
  have hshards : (c.pgDistShard.rows.map PgDistShard.shardid).Nodup :=
    of_decide_eq_true c.pgDistShard.valid
  have hgroups : (c.pgDistNode.rows.map PgDistNode.groupid).Nodup := by
    have hvalid := of_decide_eq_true (Bool.and_eq_true_iff.mp c.pgDistNode.valid).2
    rwa [List.filter_eq_self.mpr fun n hn => decide_eq_true (hnodes n hn)] at hvalid
  have htables : (c.pgDistPartition.rows.map PgDistPartition.logicalrelid).Nodup :=
    of_decide_eq_true c.pgDistPartition.valid
  -- a placement has one shard
  have hplaced : ((Rows.join (fun s p => s.shardid = p.shardid) c.pgDistShard.rows
      (activePlacements c)).map Prod.snd).Perm (activePlacements c) := by
    refine ((Rows.join_perm_swap _ _ _).map Prod.snd).trans (List.Perm.of_eq ?_)
    rw [List.map_map]
    refine Rows.map_fst_join fun p hp => ?_
    obtain ⟨s, hs, hid, -⟩ := hres p hp
    rw [← hid, Rows.filter_key hshards hs]
    rfl
  -- the shard has one table, and the placement one node
  have honce : (activeJoined c).map (fun x => x.1.1) =
      Rows.join (fun s p => s.shardid = p.shardid) c.pgDistShard.rows (activePlacements c) := by
    have hcomp : (fun x : ((PgDistShard × PgDistPlacement) × PgDistNode) × PgDistPartition =>
        x.1.1) = Prod.fst ∘ Prod.fst := rfl
    rw [activeJoined_eq, hcomp, ← List.map_map, Rows.map_fst_join, Rows.map_fst_join]
    · rintro ⟨s, p⟩ hx
      obtain ⟨-, hp, -⟩ := Rows.mem_join.mp hx
      obtain ⟨s', -, -, ⟨n, hn, hgroup⟩, -⟩ := hres p hp
      have hcomm : (fun n' : PgDistNode => decide (p.groupid = n'.groupid)) =
          fun n' => decide (n'.groupid = n.groupid) :=
        funext fun n' => decide_eq_decide.mpr (hgroup ▸ eq_comm)
      show (c.pgDistNode.rows.filter fun n' => decide (p.groupid = n'.groupid)).length = 1
      rw [hcomm, Rows.filter_key hgroups hn]
      rfl
    · rintro ⟨⟨s, p⟩, n⟩ hx
      obtain ⟨hx, -, -⟩ := Rows.mem_join.mp hx
      obtain ⟨hs, hp, hsp⟩ := Rows.mem_join.mp hx
      obtain ⟨s', hs', hid, -, ⟨t, ht, hrel⟩⟩ := hres p hp
      obtain rfl : s' = s :=
        List.inj_on_of_nodup_map hshards hs' hs (hid.trans (of_decide_eq_true hsp).symm)
      show (c.pgDistPartition.rows.filter fun t' => t'.logicalrelid = s'.logicalrelid).length = 1
      rw [← hrel, Rows.filter_key htables ht]
      rfl
  have hcomp : (fun x : ((PgDistShard × PgDistPlacement) × PgDistNode) × PgDistPartition =>
      x.1.1.2) = Prod.snd ∘ fun x => x.1.1 := rfl
  rw [hcomp, ← List.map_map, honce]
  exact hplaced

/-! ## When the view is right -/

/-- The size that the view shows for a shard, if it shows anything. -/
def shownSize (sizes : List ShardSize) (id : ℤ) : Option ℤ :=
  if id < 0 then none else (listed sizes id).max?

theorem rowOf_eq_ok_iff {s : PgDistShard} {n : PgDistNode} {t : PgDistPartition}
    {size : Option ℤ} {row : CitusShard} :
    rowOf shardName s n t size = .ok row ↔
      shardName s.logicalrelid s.shardid = .ok row.shardName ∧
        row = ⟨s.logicalrelid, s.shardid, row.shardName, citusTableType t, t.colocationid,
          n.nodename, n.nodeport, size⟩ := by
  unfold rowOf
  cases shardName s.logicalrelid s.shardid with
  | error e => exact iff_of_false (fun h => nomatch h) fun h => nomatch h.1
  | ok name =>
    constructor
    · intro h
      rw [← Except.ok.inj h]
      exact ⟨rfl, rfl⟩
    · rintro ⟨hname, hrow⟩
      rw [hrow, Except.ok.inj hname]
      rfl

/-- **The view without an error of its sizes**: the rows for all that is joined. -/
theorem citusShards_eq_mapM (regclassText : Oid → Text) (shardName : Oid → ℤ → Except Error String)
    (c : Catalogs) (h : ∀ z ∈ sizes, ∃ id ≤ 2147483647, NameOf id z.tableName) :
    ∃ xs : List (((PgDistShard × PgDistPlacement) × PgDistNode) × PgDistPartition),
      xs.Perm (activeJoined c) ∧ citusShards regclassText shardName c sizes =
      xs.mapM fun x => rowOf shardName x.1.1.1 x.1.2 x.2 (shownSize sizes x.1.1.1.shardid) := by
  obtain ⟨ids, hids, -⟩ := shardIds_eq_ok h
  have hok : ∃ groups, shardSizes sizes = .ok groups := by
    unfold shardSizes
    rw [hids]
    exact ⟨_, rfl⟩
  obtain ⟨groups, hgroups⟩ := hok
  have hfilter := filter_shardSizes h hgroups
  have hleft := Rows.leftJoin_eq_map (A := joined c) (B := groups)
    (r := fun x z => x.1.1.1.shardid = z.1) fun x _ => (hfilter x.1.1.1.shardid).1
  have hsize {x : (((PgDistShard × PgDistPlacement) × PgDistNode) × PgDistPartition) ×
      Option (ℤ × Option ℤ)}
      (hx : x ∈ (Rows.leftJoin (fun x z => x.1.1.1.shardid = z.1) (joined c) groups).filter
        fun x => x.1.1.1.2.shardstate = 1) :
      x.2.bind Prod.snd = shownSize sizes x.1.1.1.1.shardid := by
    rw [hleft] at hx
    obtain ⟨y, -, rfl⟩ := List.mem_map.mp (List.mem_filter.mp hx).1
    exact (hfilter y.1.1.1.shardid).2
  refine ⟨(Rows.orderBy (fun x => toLex (regclassText x.1.1.1.1.logicalrelid,
    x.1.1.1.1.shardid)) ((Rows.leftJoin (fun x z => x.1.1.1.shardid = z.1) (joined c)
      groups).filter fun x => x.1.1.1.2.shardstate = 1)).map Prod.fst, ?_, ?_⟩
  · refine ((Rows.perm_orderBy _ _).map _).trans ?_
    rw [hleft, List.filter_map, List.map_map]
    exact List.Perm.of_eq (List.map_id _)
  · unfold citusShards
    rw [hgroups, List.mapM_map]
    refine Rows.mapM_congr_left fun x hx => ?_
    rw [hsize (Rows.mem_orderBy.mp hx)]
    rfl

/-- **The view is right if the ids fit** and the shards have names. -/
theorem showsPlacements_of_idsFit (regclassText : Oid → Text)
    (hnodes : ∀ n ∈ c.pgDistNode.rows, n.noderole = .primary)
    (hnames : NamesShards c sizes) (hfit : IdsFit c sizes) (hnamed : ShardsNamed shardName c)
    (hres : PlacementsResolve c) : ShowsPlacements regclassText shardName c sizes := by
  have hne : ∀ {z : ShardSize} {id : ℤ}, z ∈ sizes → NameOf id z.tableName →
      listed sizes id ≠ [] := fun hz hname =>
    List.ne_nil_of_mem (List.mem_map_of_mem (List.mem_filter.mpr ⟨hz, decide_eq_true hname⟩))
  have hle : ∀ z ∈ sizes, ∃ id ≤ 2147483647, NameOf id z.tableName := by
    intro z hz
    obtain ⟨s, hs, hname⟩ := hnames z hz
    exact ⟨s.shardid, (hfit s hs (hne hz hname)).1, hname⟩
  obtain ⟨xs, hxs, hview⟩ := citusShards_eq_mapM regclassText shardName c hle
  have hrow : ∀ x ∈ xs, ∃ row,
      rowOf shardName x.1.1.1 x.1.2 x.2 (shownSize sizes x.1.1.1.shardid) = .ok row := by
    rintro ⟨⟨⟨s, p⟩, n⟩, t⟩ hx
    obtain ⟨hx, hactive⟩ := List.mem_filter.mp (hxs.mem_iff.mp hx)
    obtain ⟨⟨⟨hs, hp, hsp⟩, -, -⟩, -, -⟩ := mem_joined.mp hx
    obtain ⟨name, hname⟩ := hnamed s hs ⟨p, List.mem_filter.mpr ⟨hp, hactive⟩, hsp.symm⟩
    exact ⟨⟨s.logicalrelid, s.shardid, name, citusTableType t, t.colocationid, n.nodename,
      n.nodeport, shownSize sizes s.shardid⟩, rowOf_eq_ok_iff.mpr ⟨hname, rfl⟩⟩
  obtain ⟨rows, hrows⟩ := Rows.exists_mapM_eq_ok.mpr hrow
  refine ⟨rows, hview.trans hrows, ?_⟩
  -- what is joined with a placement gives the row of the placement
  have hall : List.Forall₂ (RowFor shardName c sizes) (xs.map fun x => x.1.1.2) rows := by
    rw [List.forall₂_map_left_iff]
    obtain ⟨hlen, hzip⟩ := List.forall₂_iff_zip.mp (Rows.mapM_eq_ok_iff.mp hrows)
    refine List.forall₂_iff_zip.mpr ⟨hlen, ?_⟩
    rintro ⟨⟨⟨s, p⟩, n⟩, t⟩ row hmem
    have hrow := hzip hmem
    obtain ⟨hx, hactive⟩ := List.mem_filter.mp (hxs.mem_iff.mp (List.of_mem_zip hmem).1)
    obtain ⟨⟨⟨hs, hp, hsp⟩, hn, hpn⟩, ht, hts⟩ := mem_joined.mp hx
    refine ⟨s, hs, hsp, n, hn, hpn.symm, t, ht, hts, ?_⟩
    have hsize : shownSize sizes s.shardid = (listed sizes s.shardid).max? := by
      unfold shownSize
      split
      · rename_i hneg
        have hnil : listed sizes s.shardid = [] := by
          by_contra hlist
          exact (hfit s hs hlist).2 hneg p (List.mem_filter.mpr ⟨hp, hactive⟩) hsp.symm
        rw [hnil]
        rfl
      · rfl
    rw [← hsize]
    exact hrow
  have hperm := (hxs.map fun x => x.1.1.2).trans (map_activeJoined_perm hnodes hres)
  exact List.perm_comp_forall₂ hperm.symm hall

/-- **If the view is right, the ids fit**, and the shards have names. -/
theorem idsFit_of_showsPlacements {regclassText : Oid → Text} (hnames : NamesShards c sizes)
    (h : ShowsPlacements regclassText shardName c sizes) :
    IdsFit c sizes ∧ ShardsNamed shardName c ∧ PlacementsResolve c := by
  obtain ⟨rows, hrows, rows', hforall, hperm⟩ := h
  have hids : ∃ ids, shardIds sizes = .ok ids := by
    unfold citusShards shardSizes at hrows
    cases hids : shardIds sizes with
    | error e =>
      rw [hids] at hrows
      cases hrows
    | ok ids => exact ⟨ids, rfl⟩
  obtain ⟨ids, hids⟩ := hids
  have hle : ∀ z ∈ sizes, ∃ id ≤ 2147483647, NameOf id z.tableName := by
    intro z hz
    obtain ⟨s, -, hname⟩ := hnames z hz
    exact ⟨s.shardid, le_of_shardIds_eq_ok hids hz hname, hname⟩
  obtain ⟨xs, -, hview⟩ := citusShards_eq_mapM regclassText shardName c hle
  have hrow : ∀ p ∈ activePlacements c, ∃ row ∈ rows, RowFor shardName c sizes p row := by
    intro p hp
    obtain ⟨i, hi, rfl⟩ := List.getElem_of_mem hp
    obtain ⟨hlen, hget⟩ := List.forall₂_iff_get.mp hforall
    have hi' : i < rows'.length := hlen ▸ hi
    exact ⟨rows'[i], hperm.mem_iff.mp (List.getElem_mem hi'), hget i hi hi'⟩
  refine ⟨fun s hs hlist => ?_, fun s hs hplaced => ?_, fun p hp => ?_⟩
  · obtain ⟨z, hz, hname⟩ : ∃ z ∈ sizes, NameOf s.shardid z.tableName := by
      obtain ⟨size, hsize⟩ := List.exists_mem_of_ne_nil _ hlist
      obtain ⟨z, hz, -⟩ := List.mem_map.mp hsize
      exact ⟨z, (List.mem_filter.mp hz).1, of_decide_eq_true (List.mem_filter.mp hz).2⟩
    refine ⟨le_of_shardIds_eq_ok hids hz hname, fun hneg p hp hps => ?_⟩
    -- the row of the placement would have no size
    obtain ⟨row, hmem, s', hs', hsp, n, hn, hpn, t, ht, hts, hrow'⟩ := hrow p hp
    obtain ⟨x, -, hx⟩ := Rows.exists_of_mapM_eq_ok (hview.symm.trans hrows) hmem
    have hrowx := (rowOf_eq_ok_iff.mp hx).2
    have hrows' := (rowOf_eq_ok_iff.mp hrow').2
    have hid : x.1.1.1.shardid = s'.shardid :=
      (congrArg CitusShard.shardid hrowx).symm.trans (congrArg CitusShard.shardid hrows')
    have hsize : shownSize sizes x.1.1.1.shardid = (listed sizes s'.shardid).max? :=
      (congrArg CitusShard.shardSize hrowx).symm.trans (congrArg CitusShard.shardSize hrows')
    rw [hid, hsp, hps] at hsize
    unfold shownSize at hsize
    rw [if_pos hneg] at hsize
    exact hlist (List.max?_eq_none_iff.mp hsize.symm)
  · obtain ⟨p, hp, hps⟩ := hplaced
    obtain ⟨row, -, s', hs', hsp, n, -, -, t, -, -, hrow'⟩ := hrow p hp
    have hunique : (c.pgDistShard.rows.map PgDistShard.shardid).Nodup :=
      of_decide_eq_true c.pgDistShard.valid
    obtain rfl : s' = s := List.inj_on_of_nodup_map hunique hs' hs (hsp.trans hps)
    exact ⟨_, (rowOf_eq_ok_iff.mp hrow').1⟩
  · obtain ⟨row, -, s, hs, hsp, n, hn, hpn, t, ht, hts, -⟩ := hrow p hp
    exact ⟨s, hs, hsp, ⟨n, hn, hpn⟩, t, ht, hts⟩

/-- **The view shows every placement with its size exactly if the ids that are listed fit**,
the shards have names, and the placements are in the catalogs with what they are joined
with. -/
theorem citus_shards_iff (regclassText : Oid → Text) (shardName : Oid → ℤ → Except Error String)
    (c : Catalogs) (sizes : List ShardSize)
    (hnodes : ∀ n ∈ c.pgDistNode.rows, n.noderole = .primary) (hnames : NamesShards c sizes) :
    ShowsPlacements regclassText shardName c sizes ↔
      IdsFit c sizes ∧ ShardsNamed shardName c ∧ PlacementsResolve c :=
  ⟨idsFit_of_showsPlacements hnames, fun h =>
    showsPlacements_of_idsFit regclassText hnodes hnames h.1 h.2.1 h.2.2⟩

end View

/-- A cluster with one shard. -/
def oneShard (id : ℤ) : Catalogs :=
  { Catalogs.empty with
    pgDistPartition := ⟨[⟨7, 'h', some "a", 1, 's'⟩], rfl⟩
    pgDistShard := ⟨[⟨7, id, 't', none, none⟩], rfl⟩
    pgDistPlacement := ⟨[⟨1, id, 1, 0, 4⟩], rfl⟩
    pgDistNode := ⟨[⟨1, 4, "worker", 5432, "default", true, true, .primary, "default", none, true⟩],
      rfl⟩ }

/-- The names of the shards of a table `t_1`: there are none for ids that are not positive. -/
def shardNameOne (_ : Oid) (id : ℤ) : Except Error String :=
  if id ≤ 0 then .error .invalidParameterValue else .ok ("t_1_" ++ String.ofList (int8out id))

/-- Two sizes for a shard of a table whose name ends in digits. -/
theorem citus_shards_iff_one :
    ShowsPlacements (id : Oid → ℕ) shardNameOne (oneShard 102008)
        [⟨"t_1_102008", 5⟩, ⟨"t_1_102008", 8⟩] ↔
      IdsFit (oneShard 102008) [⟨"t_1_102008", 5⟩, ⟨"t_1_102008", 8⟩] ∧
        ShardsNamed shardNameOne (oneShard 102008) ∧ PlacementsResolve (oneShard 102008) :=
  citus_shards_iff id _ _ _ (by decide) (by unfold NamesShards; decide +kernel)

/-- **An id that is not an `int` is an error.** -/
theorem citus_shards_out_of_range :
    NamesShards (oneShard 2147483648) [⟨"t_1_2147483648", 5⟩] ∧
    citusShards (id : Oid → ℕ) shardNameOne (oneShard 2147483648)
      [⟨"t_1_2147483648", 5⟩] = .error .integerOutOfRange ∧
    ¬ ShowsPlacements (id : Oid → ℕ) shardNameOne (oneShard 2147483648)
      [⟨"t_1_2147483648", 5⟩] := by
  have hname : NameOf 2147483648 "t_1_2147483648" := by decide +kernel
  have hshard : shardId ⟨"t_1_2147483648", 5⟩ = .error .integerOutOfRange := by
    rw [shardId_of_nameOf hname]
    rfl
  have herror : citusShards (id : Oid → ℕ) shardNameOne (oneShard 2147483648)
      [⟨"t_1_2147483648", 5⟩] = .error .integerOutOfRange := by
    unfold citusShards shardSizes shardIds
    rw [List.mapM_cons, hshard]
    rfl
  refine ⟨fun z hz => ⟨⟨7, 2147483648, 't', none, none⟩, List.mem_singleton_self _, ?_⟩, herror,
    ?_⟩
  · rw [List.mem_singleton.mp hz]
    exact hname
  · rintro ⟨rows, hrows, -⟩
    rw [herror] at hrows
    cases hrows

end CitusShards
