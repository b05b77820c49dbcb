import PgCitus.Library.WordMemory
import PgCitus.Transam

/-!
# The oldest prunable transaction id of a page

A page has the field `pd_prune_xid` for the oldest of the transaction ids that may have left
something to prune on it, or zero if there are none. `PageSetPrunable` keeps the older one of
the id it is given and the one it finds – a minimum, if comparing ids were an order.
It is one on ids in a window (`Transam.InWindow`), and zero, which is no normal id, is not
compared. So the field is the minimum of all ids that were set, in whatever order that was
(`pruneXid_oldest`).

`TransactionIdPrecedes` is a function of another module, and a parameter here.
-/

namespace BufPage

open WordMemory Transam

/-- `offsetof(PageHeaderData, pd_prune_xid)`: the LSN in eight bytes, and six numbers in
two. -/
def pdPruneXidOffset : ℕ := 20

/-- `TransactionIdIsValid`. -/
def transactionIdIsValid (xid : TransactionId) : Bool := xid != invalidTransactionId

section Macros

variable (precedes : TransactionId → TransactionId → Bool) (order : ByteOrder) (page : ℕ) (m : Mem)

/-- The field `pd_prune_xid` of the page at `page`. -/
def pdPruneXid : TransactionId := load32 order m (page + pdPruneXidOffset)

/-- An assignment to `pd_prune_xid`. -/
def setPdPruneXid (xid : TransactionId) : Mem := store32 order m (page + pdPruneXidOffset) xid

/-- `PageClearPrunable`. -/
def pageClearPrunable : Mem := setPdPruneXid order page m invalidTransactionId

/-- `PageSetPrunable`, whose id is asserted to be normal. -/
def pageSetPrunable (xid : TransactionId) : Mem :=
  if !transactionIdIsValid (pdPruneXid order page m) || precedes xid (pdPruneXid order page m) then
    setPdPruneXid order page m xid
  else m

/-- **Calls of `PageSetPrunable`** one after another. -/
def pageSetPrunables (xids : List TransactionId) : Mem :=
  xids.foldl (fun m xid => pageSetPrunable precedes order page m xid) m

end Macros

/-! ## The value of the field -/

/-- The id that `PageSetPrunable` leaves in the field. -/
def older (precedes : TransactionId → TransactionId → Bool) (current xid : TransactionId) :
    TransactionId :=
  if !transactionIdIsValid current || precedes xid current then xid else current

variable {precedes : TransactionId → TransactionId → Bool} {order : ByteOrder} {page : ℕ} {m : Mem}

/-- A field that is set twice. -/
theorem setPdPruneXid_twice (xid xid' : TransactionId) :
    setPdPruneXid order page (setPdPruneXid order page m xid) xid' =
      setPdPruneXid order page m xid' := by
  unfold setPdPruneXid store32
  funext a
  split <;> rfl

/-- **What a call writes** is the field alone. -/
theorem pageSetPrunable_set (current xid : TransactionId) :
    pageSetPrunable precedes order page (setPdPruneXid order page m current) xid =
      setPdPruneXid order page m (older precedes current xid) := by
  have hfield : pdPruneXid order page (setPdPruneXid order page m current) = current :=
    load32_store32
  unfold pageSetPrunable older
  rw [hfield]
  split
  · exact setPdPruneXid_twice current xid
  · rfl

/-- The same of all calls. -/
theorem pageSetPrunables_set (xids : List TransactionId) (current : TransactionId) :
    pageSetPrunables precedes order page (setPdPruneXid order page m current) xids =
      setPdPruneXid order page m (xids.foldl (older precedes) current) := by
  unfold pageSetPrunables
  induction xids generalizing current with
  | nil => rfl
  | cons xid xids ih =>
    rw [List.foldl_cons, List.foldl_cons, pageSetPrunable_set]
    exact ih (older precedes current xid)

/-! ## The oldest id -/

/-- What is relied on of `TransactionIdPrecedes`: of normal ids, it is the comparison that
`NormalTransactionIdPrecedes` makes. -/
def ComparesNormal (precedes : TransactionId → TransactionId → Bool) : Prop :=
  ∀ id1 id2, transactionIdIsNormal id1 = true → transactionIdIsNormal id2 = true →
    normalTransactionIdPrecedes id1 id2 = some (precedes id1 id2)

theorem older_invalid (xid : TransactionId) : older precedes invalidTransactionId xid = xid := rfl

/-- **Of two ids in a window**, the one left is that of the smaller number. -/
theorem older_eq {S : Set FullTransactionId} (hprec : ComparesNormal precedes) (hS : InWindow S)
    {x y : FullTransactionId} (hx : x ∈ S) (hy : y ∈ S) :
    older precedes (xidFromFullTransactionId x) (xidFromFullTransactionId y) =
      xidFromFullTransactionId (min x y) := by
  have hvalid : transactionIdIsValid (xidFromFullTransactionId x) = true := by
    have hnormal := transactionIdIsNormal_iff.mp (hS.normal x hx)
    unfold transactionIdIsValid
    rw [bne_iff_ne]
    intro hzero
    rw [hzero] at hnormal
    exact absurd hnormal (by decide)
  have hcmp := hprec _ _ (hS.normal y hy) (hS.normal x hx)
  rw [hS.precedes_eq hy hx, Option.some.injEq] at hcmp
  unfold older
  rw [hvalid, ← hcmp]
  by_cases hlt : y < x
  · rw [fullTransactionIdPrecedes_iff.mpr hlt, min_eq_right hlt.le]
    rfl
  · rw [Bool.eq_false_iff.mpr (mt fullTransactionIdPrecedes_iff.mp hlt),
      min_eq_left (not_lt.mp hlt)]
    rfl

/-- The memory after `PageClearPrunable` and calls with the low halves of some ids. -/
def afterCalls (precedes : TransactionId → TransactionId → Bool) (order : ByteOrder) (page : ℕ)
    (m : Mem) (calls : List FullTransactionId) : Mem :=
  pageSetPrunables precedes order page (pageClearPrunable order page m)
    (calls.map xidFromFullTransactionId)

theorem afterCalls_eq (calls : List FullTransactionId) :
    afterCalls precedes order page m calls = setPdPruneXid order page m
      ((calls.map xidFromFullTransactionId).foldl (older precedes) invalidTransactionId) :=
  pageSetPrunables_set _ _

/-- **The first id is taken as it is**, and from then on the field is a minimum. -/
theorem foldl_older_eq (hprec : ComparesNormal precedes) {x : FullTransactionId}
    {l : List FullTransactionId} (hS : InWindow {y | y ∈ x :: l}) :
    ((x :: l).map xidFromFullTransactionId).foldl (older precedes) invalidTransactionId =
      xidFromFullTransactionId (l.foldl min x) := by
  have hmin := @Serial.foldlM_eq_min _ _ _ {y | y ∈ x :: l} xidFromFullTransactionId
    (fun a b => some (older precedes a b))
    (fun y hy z hz => congrArg some (older_eq hprec hS hy hz)) x l List.mem_cons_self
    (fun y hy => List.mem_cons_of_mem x hy)
  rw [List.map_cons, List.foldl_cons, older_invalid]
  exact Option.some.inj (List.foldlM_pure.symm.trans hmin)

/-- The least of the ids that were set, by their full numbers. -/
def IsOldest (calls : List FullTransactionId) (x : FullTransactionId) : Prop :=
  x ∈ calls ∧ ∀ y ∈ calls, x.value ≤ y.value

theorem isOldest_foldl_min (x : FullTransactionId) (l : List FullTransactionId) :
    IsOldest (x :: l) (l.foldl min x) := by
  obtain ⟨hmem, hle⟩ := List.min?_eq_some_iff.mp (rfl : (x :: l).min? = some (l.foldl min x))
  exact ⟨hmem, fun y hy => BitVec.le_def.mpr (hle y hy)⟩

theorem IsOldest.unique {calls calls' : List FullTransactionId} {x x' : FullTransactionId}
    (h : IsOldest calls x) (h' : IsOldest calls' x') (hperm : calls'.Perm calls) : x = x' :=
  FullTransactionId.ext (BitVec.le_antisymm (h.2 x' (hperm.mem_iff.mp h'.1))
    (h'.2 x (hperm.mem_iff.mpr h.1)))

/-- **The field after any calls** is the low half of the oldest of the ids, or zero if there
were none; no other byte has changed; and the order of the calls makes no difference. -/
theorem pruneXid_oldest (hprec : ComparesNormal precedes) (order : ByteOrder) (page : ℕ) (m : Mem)
    (calls : List FullTransactionId) (hwindow : InWindow {x | x ∈ calls}) :
    (calls = [] → pdPruneXid order page (afterCalls precedes order page m calls) = 0#32) ∧
    (calls ≠ [] → ∃ x, IsOldest calls x ∧
      pdPruneXid order page (afterCalls precedes order page m calls) =
        xidFromFullTransactionId x) ∧
    (∀ a, a < page + 20 ∨ page + 24 ≤ a → afterCalls precedes order page m calls a = m a) ∧
    ∀ calls', calls'.Perm calls →
      afterCalls precedes order page m calls' = afterCalls precedes order page m calls := by
  have hfield : ∀ xid, pdPruneXid order page (setPdPruneXid order page m xid) = xid :=
    fun _ => load32_store32
  refine ⟨?_, fun hne => ?_, fun a ha => ?_, fun calls' hperm => ?_⟩
  · rintro rfl
    exact hfield 0#32
  · obtain ⟨x, l, rfl⟩ := List.exists_cons_of_ne_nil hne
    refine ⟨l.foldl min x, isOldest_foldl_min x l, ?_⟩
    rw [afterCalls_eq, hfield, foldl_older_eq hprec hwindow]
  · rw [afterCalls_eq]
    exact store32_of_apart ha
  · cases calls with
    | nil =>
      obtain rfl := hperm.eq_nil
      rfl
    | cons x l =>
      cases calls' with
      | nil => exact absurd hperm.symm.eq_nil (List.cons_ne_nil x l)
      | cons x' l' =>
        have hset : {y | y ∈ x' :: l'} = {y | y ∈ x :: l} := Set.ext fun y => hperm.mem_iff
        have hmin := (isOldest_foldl_min x l).unique (isOldest_foldl_min x' l') hperm
        rw [afterCalls_eq, afterCalls_eq, foldl_older_eq hprec hwindow,
          foldl_older_eq hprec (hset ▸ hwindow), hmin]

/-- The comparison as `transam.c` has it for normal ids. -/
def modularPrecedes (id1 id2 : TransactionId) : Bool := (id1 - id2).toInt < 0

theorem comparesNormal_modularPrecedes : ComparesNormal modularPrecedes := by
  intro id1 id2 h₁ h₂
  unfold normalTransactionIdPrecedes modularPrecedes
  rw [h₁, h₂]
  rfl

/-- Three calls around the end of an epoch, two of them with the same id. -/
def wrapCalls : List FullTransactionId :=
  [⟨0x100000005#64⟩, ⟨0xFFFFFFFE#64⟩, ⟨0x100000005#64⟩]

theorem inWindow_wrapCalls : InWindow {x | x ∈ wrapCalls} where
  normal := (by decide : ∀ x ∈ wrapCalls,
    transactionIdIsNormal (xidFromFullTransactionId x) = true)
  window := ⟨0xFFFFFFFE, 8, by decide,
    (by decide : ∀ x ∈ wrapCalls, 0xFFFFFFFE ≤ x.num ∧ x.num < 0xFFFFFFFE + 8)⟩

theorem pruneXid_oldest_wrap :
    pdPruneXid .little 64 (afterCalls modularPrecedes .little 64 (fun _ => 7) wrapCalls) =
      0xFFFFFFFE#32 ∧
    ∃ x, IsOldest wrapCalls x ∧ xidFromFullTransactionId x = 0xFFFFFFFE#32 := by
  obtain ⟨-, holdest, -⟩ := pruneXid_oldest comparesNormal_modularPrecedes .little 64
    (fun _ => 7) wrapCalls inWindow_wrapCalls
  obtain ⟨x, hx, hfield⟩ := holdest (List.cons_ne_nil _ _)
  have hvalue : pdPruneXid .little 64
      (afterCalls modularPrecedes .little 64 (fun _ => 7) wrapCalls) = 0xFFFFFFFE#32 := by decide
  exact ⟨hvalue, x, hx, hfield.symm.trans hvalue⟩

end BufPage
