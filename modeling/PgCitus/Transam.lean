import Mathlib.Data.List.Chain
import Mathlib.Order.Cover
import PgCitus.Library.Loop
import PgCitus.Library.Serial

/-!
# Transaction ids

`access/transam.h`: a transaction id is a 32-bit number of which 0, 1 and 2 are
special. A full transaction id has an epoch above it, which makes it a 64-bit counter;
to agree with the 32-bit counter it steps over every number whose low half is special.

Seen from above there is one order, that of the **normal** full ids (`NormalXid`), and
`FullTransactionIdAdvance` and `FullTransactionIdRetreat` are the next and the previous
of them (`advance_covBy`, `retreat_covBy`): each loop keeps that there is no normal id
between where it started and where it is. That they undo each other is then a fact about
orders. What is left to compute is how far the next one is – one step, or four where
the low half wraps (`covBy_value`) – and that the 32-bit macros go the same way.

The second half is about comparing ids by their low halves alone, which is right within
a window (`Serial.Near`), and about backing up by an amount at once, which skips the
special ids where it ends and not where it passes them (`retreatedBy_backedUp`).
-/

namespace Transam

abbrev TransactionId := BitVec 32

/-- An epoch and a transaction id. -/
@[ext]
structure FullTransactionId where
  value : BitVec 64
  deriving DecidableEq

/-! ## The macros -/

/-- `InvalidTransactionId`. -/
def invalidTransactionId : TransactionId := 0#32

/-- `BootstrapTransactionId`. -/
def bootstrapTransactionId : TransactionId := 1#32

/-- `FrozenTransactionId`. -/
def frozenTransactionId : TransactionId := 2#32

/-- `FirstNormalTransactionId`. -/
def firstNormalTransactionId : TransactionId := 3#32

/-- `TransactionIdIsNormal`. -/
def transactionIdIsNormal (xid : TransactionId) : Bool := xid ≥ firstNormalTransactionId

/-- `XidFromFullTransactionId`. -/
def xidFromFullTransactionId (x : FullTransactionId) : TransactionId := x.value.setWidth 32

/-- `FullTransactionIdPrecedes`. -/
def fullTransactionIdPrecedes (a b : FullTransactionId) : Bool := a.value < b.value

/-- `FullTransactionIdFollows`. -/
def fullTransactionIdFollows (a b : FullTransactionId) : Bool := a.value > b.value

/-- `FullTransactionIdFollowsOrEquals`. -/
def fullTransactionIdFollowsOrEquals (a b : FullTransactionId) : Bool := a.value ≥ b.value

/-- `FullTransactionIdFromEpochAndXid`. -/
def fullTransactionIdFromEpochAndXid (epoch : BitVec 32) (xid : TransactionId) :
    FullTransactionId :=
  ⟨epoch.setWidth 64 <<< 32 ||| xid.setWidth 64⟩

/-- `FirstNormalFullTransactionId`. -/
def firstNormalFullTransactionId : FullTransactionId :=
  fullTransactionIdFromEpochAndXid 0 firstNormalTransactionId

/-- `FullTransactionIdIsNormal`. -/
def fullTransactionIdIsNormal (x : FullTransactionId) : Bool :=
  fullTransactionIdFollowsOrEquals x firstNormalFullTransactionId

/-- `TransactionIdAdvance`. -/
def transactionIdAdvance (dest : TransactionId) : TransactionId :=
  let dest := dest + 1
  if dest < firstNormalTransactionId then firstNormalTransactionId else dest

/-- `TransactionIdRetreat`: back up at least once, and on while the id is special. -/
def transactionIdRetreat (fuel : ℕ) (dest : TransactionId) : Option TransactionId :=
  Loop.run
    (fun dest =>
      let dest := dest - 1
      if dest < firstNormalTransactionId then .next dest else .done dest)
    fuel dest

/-! ## The counter -/

/-- `dest->value++`. -/
def increment (dest : FullTransactionId) : FullTransactionId := ⟨dest.value + 1⟩

/-- `dest->value--`. -/
def decrement (dest : FullTransactionId) : FullTransactionId := ⟨dest.value - 1⟩

/-- The condition of both loops: the low half would be taken for a special id. -/
def looksSpecial (dest : FullTransactionId) : Bool :=
  xidFromFullTransactionId dest < firstNormalTransactionId

/-- `FullTransactionIdRetreat`. -/
def fullTransactionIdRetreat (fuel : ℕ) (dest : FullTransactionId) :
    Option FullTransactionId :=
  let dest := decrement dest
  -- The special ids of epoch 0 are not stepped over: they cannot be reached by wrapping.
  if fullTransactionIdPrecedes dest firstNormalFullTransactionId then some dest
  else Loop.whileDo looksSpecial decrement fuel dest

/-- `FullTransactionIdAdvance`. -/
def fullTransactionIdAdvance (fuel : ℕ) (dest : FullTransactionId) :
    Option FullTransactionId :=
  let dest := increment dest
  if fullTransactionIdPrecedes dest firstNormalFullTransactionId then some dest
  else Loop.whileDo looksSpecial increment fuel dest

/-! ## The counter as a number -/

/-- The number an id is. -/
def FullTransactionId.num (x : FullTransactionId) : ℕ := x.value.toNat

theorem FullTransactionId.num_injective : Function.Injective FullTransactionId.num :=
  fun _ _ h => FullTransactionId.ext (BitVec.eq_of_toNat_eq h)

theorem FullTransactionId.num_lt (x : FullTransactionId) : x.num < 2 ^ 64 := x.value.isLt

/-- Full ids are in the order of their numbers. -/
instance : LinearOrder FullTransactionId :=
  LinearOrder.lift' FullTransactionId.num FullTransactionId.num_injective

theorem lt_iff_num {x y : FullTransactionId} : x < y ↔ x.num < y.num := Iff.rfl

theorem le_iff_num {x y : FullTransactionId} : x ≤ y ↔ x.num ≤ y.num := Iff.rfl

theorem toNat_xid (x : FullTransactionId) :
    (xidFromFullTransactionId x).toNat = x.num % 2 ^ 32 :=
  BitVec.toNat_setWidth 32 x.value

theorem num_firstNormal : firstNormalFullTransactionId.num = 3 := by decide

theorem num_increment (x : FullTransactionId) :
    (increment x).num = (x.num + 1) % 2 ^ 64 :=
  BitVec.toNat_add x.value 1#64

theorem num_decrement (x : FullTransactionId) :
    (decrement x).num = (2 ^ 64 - 1 + x.num) % 2 ^ 64 :=
  BitVec.toNat_sub x.value 1#64

@[simp] theorem fullTransactionIdPrecedes_iff {x y : FullTransactionId} :
    fullTransactionIdPrecedes x y = true ↔ x < y :=
  decide_eq_true_iff.trans BitVec.lt_def

@[simp] theorem fullTransactionIdFollows_iff {x y : FullTransactionId} :
    fullTransactionIdFollows x y = true ↔ y < x :=
  decide_eq_true_iff.trans BitVec.lt_def

theorem fullTransactionIdIsNormal_iff {x : FullTransactionId} :
    fullTransactionIdIsNormal x = true ↔ 3 ≤ x.num :=
  (decide_eq_true_iff.trans BitVec.le_def).trans
    (by show firstNormalFullTransactionId.num ≤ x.num ↔ _; rw [num_firstNormal])

theorem transactionIdIsNormal_iff {xid : TransactionId} :
    transactionIdIsNormal xid = true ↔ 3 ≤ xid.toNat :=
  decide_eq_true_iff.trans BitVec.le_def

/-- The ids that are not normal are the special ones. -/
theorem transactionIdIsNormal_iff_ne {xid : TransactionId} :
    transactionIdIsNormal xid = true ↔
      xid ≠ invalidTransactionId ∧ xid ≠ bootstrapTransactionId ∧ xid ≠ frozenTransactionId := by
  rw [transactionIdIsNormal_iff, ← BitVec.toNat_ne_iff_ne, ← BitVec.toNat_ne_iff_ne,
    ← BitVec.toNat_ne_iff_ne]
  show 3 ≤ xid.toNat ↔ xid.toNat ≠ 0 ∧ xid.toNat ≠ 1 ∧ xid.toNat ≠ 2
  omega

theorem looksSpecial_iff {x : FullTransactionId} :
    looksSpecial x = true ↔ x.num % 2 ^ 32 < 3 := by
  rw [← toNat_xid]
  exact decide_eq_true_iff.trans BitVec.lt_def

/-! ## The normal ids -/

/-- **Normal**, as a full id and as a 32-bit id. -/
structure IsNormal (x : FullTransactionId) : Prop where
  full : fullTransactionIdIsNormal x = true
  xid : transactionIdIsNormal (xidFromFullTransactionId x) = true

theorem isNormal_iff {x : FullTransactionId} :
    IsNormal x ↔ 3 ≤ x.num ∧ 3 ≤ x.num % 2 ^ 32 := by
  rw [← toNat_xid, ← fullTransactionIdIsNormal_iff, ← transactionIdIsNormal_iff]
  exact ⟨fun h => ⟨h.full, h.xid⟩, fun h => ⟨h.1, h.2⟩⟩

/-- Where a loop of the counter stops, the id is normal. -/
theorem isNormal_of_not_looksSpecial {x : FullTransactionId} (h3 : 3 ≤ x.num)
    (h : looksSpecial x = false) : IsNormal x := by
  refine isNormal_iff.mpr ⟨h3, not_lt.mp fun hlt => ?_⟩
  rw [looksSpecial_iff.mpr hlt] at h
  exact Bool.noConfusion h

/-- The ids the counter takes, in order. -/
abbrev NormalXid := {x : FullTransactionId // IsNormal x}

theorem NormalXid.le_num (x : NormalXid) : 3 ≤ x.1.num := (isNormal_iff.mp x.2).1

theorem NormalXid.le_mod (x : NormalXid) : 3 ≤ x.1.num % 2 ^ 32 := (isNormal_iff.mp x.2).2

/-- A number that is normal is the number of a normal id. -/
theorem exists_normalXid {n : ℕ} (hn : n < 2 ^ 64) (h3 : 3 ≤ n) (hmod : 3 ≤ n % 2 ^ 32) :
    ∃ z : NormalXid, z.1.num = n := by
  have hnum : (FullTransactionId.mk (BitVec.ofNat 64 n)).num = n := by
    rw [FullTransactionId.num, BitVec.toNat_ofNat, Nat.mod_eq_of_lt hn]
  exact ⟨⟨⟨BitVec.ofNat 64 n⟩, isNormal_iff.mpr (by rw [hnum]; exact ⟨h3, hmod⟩)⟩, hnum⟩

/-- **How far the next normal id is**: one step, or over the special ids of an epoch. -/
theorem num_of_covBy {x y : NormalXid} (h : x ⋖ y) :
    y.1.num = x.1.num + if x.1.num % 2 ^ 32 = 2 ^ 32 - 1 then 4 else 1 := by
  have hlt : x.1.num < y.1.num := h.lt
  have hnext : ∀ {n : ℕ}, x.1.num < n → n < y.1.num → ¬ 3 ≤ n % 2 ^ 32 := by
    intro n hxn hny hmod
    obtain ⟨z, rfl⟩ := exists_normalXid (hny.trans y.1.num_lt)
      (x.le_num.trans hxn.le) hmod
    exact h.2 hxn hny
  have hy := y.le_mod
  have hone := @hnext (x.1.num + 1) (by omega)
  have hfour := @hnext (x.1.num + 4) (by omega)
  have hx := x.le_mod
  split_ifs with hw <;> omega

/-! ## The loops -/

/-- Counting up over a special number does not leave its epoch. -/
theorem num_increment_of_looksSpecial {x : FullTransactionId} (h : looksSpecial x = true) :
    (increment x).num = x.num + 1 := by
  rw [looksSpecial_iff] at h
  have hlt := x.num_lt
  rw [num_increment]
  omega

/-- Counting down to the last number of an epoch never reaches the first one's. -/
theorem num_decrement_of_looksSpecial {x : FullTransactionId} (h : looksSpecial x = true)
    (h3 : 3 ≤ x.num) : (decrement x).num + 1 = x.num ∧ 3 ≤ (decrement x).num := by
  rw [looksSpecial_iff] at h
  have hlt := x.num_lt
  rw [num_decrement]
  omega

/-- How many passes are left when counting up. -/
def passesUp (x : FullTransactionId) : ℕ := 3 - x.num % 2 ^ 32

/-- How many passes are left when counting down. -/
def passesDown (x : FullTransactionId) : ℕ :=
  if x.num % 2 ^ 32 < 3 then x.num % 2 ^ 32 + 1 else 0

theorem passesUp_increment {x : FullTransactionId} (h : looksSpecial x = true) :
    passesUp (increment x) < passesUp x := by
  have hstep := num_increment_of_looksSpecial h
  rw [looksSpecial_iff] at h
  rw [passesUp, passesUp, hstep]
  omega

theorem passesDown_decrement {x : FullTransactionId} (h : looksSpecial x = true)
    (h3 : 3 ≤ x.num) : passesDown (decrement x) < passesDown x := by
  have hstep := (num_decrement_of_looksSpecial h h3).1
  rw [looksSpecial_iff] at h
  rw [passesDown, passesDown]
  split_ifs <;> omega

theorem passesUp_lt {fuel : ℕ} (hf : 3 < fuel) (x : FullTransactionId) :
    passesUp x < fuel :=
  Nat.lt_of_le_of_lt (Nat.sub_le 3 _) hf

theorem passesDown_lt {fuel : ℕ} (hf : 3 < fuel) (x : FullTransactionId) :
    passesDown x < fuel := by
  rw [passesDown]
  split_ifs <;> omega

/-- **`FullTransactionIdAdvance` always ends.** -/
theorem advance_ends {fuel : ℕ} (hf : 3 < fuel) (x : FullTransactionId) :
    ∃ y, fullTransactionIdAdvance fuel x = some y := by
  unfold fullTransactionIdAdvance
  by_cases hfirst : fullTransactionIdPrecedes (increment x) firstNormalFullTransactionId = true
  · exact ⟨increment x, if_pos hfirst⟩
  · obtain ⟨y, hy, -⟩ := Loop.whileDo_total (fun _ => True) passesUp
      (fun _ _ hc => ⟨trivial, passesUp_increment hc⟩) trivial (passesUp_lt hf (increment x))
    exact ⟨y, (if_neg hfirst).trans hy⟩

/-- **`FullTransactionIdRetreat` always ends.** -/
theorem retreat_ends {fuel : ℕ} (hf : 3 < fuel) (x : FullTransactionId) :
    ∃ y, fullTransactionIdRetreat fuel x = some y := by
  unfold fullTransactionIdRetreat
  by_cases hfirst : fullTransactionIdPrecedes (decrement x) firstNormalFullTransactionId = true
  · exact ⟨decrement x, if_pos hfirst⟩
  · have h3 : 3 ≤ (decrement x).num := by
      rw [fullTransactionIdPrecedes_iff, not_lt, le_iff_num, num_firstNormal] at hfirst
      exact hfirst
    obtain ⟨y, hy, -⟩ := Loop.whileDo_total (fun d => 3 ≤ d.num) passesDown
      (fun _ hd hc => ⟨(num_decrement_of_looksSpecial hc hd).2, passesDown_decrement hc hd⟩)
      h3 (passesDown_lt hf (decrement x))
    exact ⟨y, (if_neg hfirst).trans hy⟩

/-- **Advance is the next normal id.** The loop keeps that no normal id is left
behind. -/
theorem advance_covBy (x : NormalXid) (hmax : x.1.num ≠ 2 ^ 64 - 1) {fuel : ℕ}
    (hf : 3 < fuel) : ∃ y : NormalXid, fullTransactionIdAdvance fuel x.1 = some y.1 ∧ x ⋖ y := by
  have hlt := x.1.num_lt
  have hx3 := x.le_num
  have hinc : (increment x.1).num = x.1.num + 1 := by
    rw [num_increment]
    omega
  have hfirst : ¬ fullTransactionIdPrecedes (increment x.1) firstNormalFullTransactionId
      = true := by
    rw [fullTransactionIdPrecedes_iff, lt_iff_num, num_firstNormal, hinc]
    omega
  let I : FullTransactionId → Prop :=
    fun d => x.1.num < d.num ∧ ∀ z : NormalXid, x < z → d.num ≤ z.1.num
  have hbody : ∀ d, I d → looksSpecial d = true →
      I (increment d) ∧ passesUp (increment d) < passesUp d := by
    rintro d ⟨hxd, hbehind⟩ hc
    refine ⟨⟨?_, fun z hz => ?_⟩, passesUp_increment hc⟩
    · rw [num_increment_of_looksSpecial hc]
      omega
    · have hdz := hbehind z hz
      have hz := z.le_mod
      rw [num_increment_of_looksSpecial hc]
      rw [looksSpecial_iff] at hc
      rcases Nat.lt_or_eq_of_le hdz with h | h
      · exact h
      · rw [h] at hc
        omega
  have hstart : I (increment x.1) := by
    refine ⟨by rw [hinc]; omega, fun z hz => ?_⟩
    rw [hinc]
    exact hz
  obtain ⟨y, hy, ⟨hxy, hbehind⟩, hexit⟩ :=
    Loop.whileDo_total I passesUp hbody hstart (passesUp_lt hf (increment x.1))
  have hnormal : IsNormal y := isNormal_of_not_looksSpecial (by omega) hexit
  exact ⟨⟨y, hnormal⟩, (if_neg hfirst).trans hy, hxy, fun z hxz hzy =>
    absurd (hbehind z hxz) (not_le.mpr hzy)⟩

/-- **Retreat is the previous normal id.** -/
theorem retreat_covBy (y : NormalXid) (hfirst : 3 < y.1.num) {fuel : ℕ} (hf : 3 < fuel) :
    ∃ x : NormalXid, fullTransactionIdRetreat fuel y.1 = some x.1 ∧ x ⋖ y := by
  have hlt := y.1.num_lt
  have hdec : (decrement y.1).num + 1 = y.1.num := by
    rw [num_decrement]
    omega
  have hnot : ¬ fullTransactionIdPrecedes (decrement y.1) firstNormalFullTransactionId
      = true := by
    rw [fullTransactionIdPrecedes_iff, lt_iff_num, num_firstNormal]
    omega
  let I : FullTransactionId → Prop :=
    fun d => 3 ≤ d.num ∧ d.num < y.1.num ∧ ∀ z : NormalXid, z < y → z.1.num ≤ d.num
  have hbody : ∀ d, I d → looksSpecial d = true →
      I (decrement d) ∧ passesDown (decrement d) < passesDown d := by
    rintro d ⟨h3, hdy, hbehind⟩ hc
    obtain ⟨hstep, h3'⟩ := num_decrement_of_looksSpecial hc h3
    refine ⟨⟨h3', by omega, fun z hz => ?_⟩, passesDown_decrement hc h3⟩
    have hzd := hbehind z hz
    have hz := z.le_mod
    rw [looksSpecial_iff] at hc
    rcases Nat.lt_or_eq_of_le hzd with h | h
    · omega
    · rw [← h] at hc
      omega
  have hstart : I (decrement y.1) := by
    refine ⟨by omega, by omega, fun z hz => ?_⟩
    have hzy : z.1.num < y.1.num := hz
    omega
  obtain ⟨x, hx, ⟨h3, hxy, hbehind⟩, hexit⟩ :=
    Loop.whileDo_total I passesDown hbody hstart (passesDown_lt hf (decrement y.1))
  have hnormal : IsNormal x := isNormal_of_not_looksSpecial h3 hexit
  exact ⟨⟨x, hnormal⟩, (if_neg hnot).trans hx, hxy, fun z hxz hzy =>
    absurd (hbehind z hzy) (not_le.mpr hxz)⟩

/-! ## The 32-bit counter -/

/-- **The 32-bit macros go the same way.** -/
theorem xid_of_covBy {x y : NormalXid} (h : x ⋖ y) {fuel : ℕ} (hf : 3 < fuel) :
    xidFromFullTransactionId y.1 = transactionIdAdvance (xidFromFullTransactionId x.1) ∧
    transactionIdRetreat fuel (xidFromFullTransactionId y.1)
      = some (xidFromFullTransactionId x.1) := by
  have hstep := num_of_covBy h
  have hx := x.le_mod
  by_cases hw : x.1.num % 2 ^ 32 = 2 ^ 32 - 1
  · rw [if_pos hw] at hstep
    have hxid : xidFromFullTransactionId x.1 = 0xFFFFFFFF#32 :=
      BitVec.eq_of_toNat_eq ((toNat_xid x.1).trans hw)
    have hyid : xidFromFullTransactionId y.1 = 3#32 := by
      refine BitVec.eq_of_toNat_eq ((toNat_xid y.1).trans ?_)
      rw [hstep, BitVec.toNat_ofNat]
      omega
    rw [hxid, hyid]
    exact ⟨by decide, Loop.run_mono hf (by decide :
      transactionIdRetreat 4 3#32 = some 0xFFFFFFFF#32)⟩
  · rw [if_neg hw] at hstep
    have hyid : xidFromFullTransactionId y.1 = xidFromFullTransactionId x.1 + 1 := by
      refine BitVec.eq_of_toNat_eq ?_
      rw [BitVec.toNat_add, toNat_xid, toNat_xid, hstep]
      exact Nat.add_mod _ _ _
    have hynot : ¬ xidFromFullTransactionId x.1 + 1 < firstNormalTransactionId := by
      rw [← hyid, BitVec.lt_def, toNat_xid]
      exact not_lt.mpr y.le_mod
    have hxnot : ¬ xidFromFullTransactionId x.1 < firstNormalTransactionId := by
      rw [BitVec.lt_def, toNat_xid]
      exact not_lt.mpr hx
    obtain ⟨fuel, rfl⟩ := Nat.exists_eq_add_of_lt hf
    refine ⟨hyid.trans (if_neg hynot).symm, Loop.run_done ?_ _⟩
    show (if xidFromFullTransactionId y.1 - 1 < firstNormalTransactionId then _ else _) = _
    rw [hyid, BitVec.add_sub_cancel, if_neg hxnot]

/-! ## Runs -/

/-- **A run of the counter**, the newest id first: it starts at a normal id and is
advanced, until it cannot be. -/
inductive XidRun : List FullTransactionId → Prop
  | start {x : FullTransactionId} (hfull : fullTransactionIdIsNormal x = true)
      (hxid : transactionIdIsNormal (xidFromFullTransactionId x) = true) : XidRun [x]
  | advance {fuel : ℕ} {x y : FullTransactionId} {l : List FullTransactionId}
      (h : XidRun (x :: l)) (hmax : x.value ≠ 0xFFFFFFFFFFFFFFFF#64)
      (hy : fullTransactionIdAdvance fuel x = some y) : XidRun (y :: x :: l)

theorem num_ne_of_value_ne {x : FullTransactionId} (h : x.value ≠ 0xFFFFFFFFFFFFFFFF#64) :
    x.num ≠ 2 ^ 64 - 1 :=
  fun hnum => h (BitVec.eq_of_toNat_eq hnum)

/-- What advance returns does not depend on how long one is willing to wait. -/
theorem advance_mono {fuel fuel' : ℕ} (hle : fuel ≤ fuel') {x y : FullTransactionId}
    (h : fullTransactionIdAdvance fuel x = some y) :
    fullTransactionIdAdvance fuel' x = some y := by
  unfold fullTransactionIdAdvance at h ⊢
  by_cases hfirst : fullTransactionIdPrecedes (increment x) firstNormalFullTransactionId = true
  · exact (if_pos hfirst).trans ((if_pos hfirst).symm.trans h)
  · exact (if_neg hfirst).trans (Loop.run_mono hle ((if_neg hfirst).symm.trans h))

/-- **One step of a run** goes to the next normal id. -/
theorem covBy_of_advance {x : NormalXid} (hmax : x.1.value ≠ 0xFFFFFFFFFFFFFFFF#64) {fuel : ℕ}
    {y : FullTransactionId} (h : fullTransactionIdAdvance fuel x.1 = some y) :
    ∃ y' : NormalXid, y'.1 = y ∧ x ⋖ y' := by
  have hf : 3 < fuel + 4 := Nat.lt_add_left fuel (by decide)
  obtain ⟨y', hy', hcov⟩ := advance_covBy x (num_ne_of_value_ne hmax) hf
  rw [advance_mono (Nat.le_add_right fuel 4) h] at hy'
  exact ⟨y', (Option.some.inj hy').symm, hcov⟩

/-- **A run climbs the normal ids**, leaving none out. -/
theorem XidRun.isChain {l : List FullTransactionId} (h : XidRun l) :
    ∃ zs : List NormalXid, zs.map Subtype.val = l ∧ zs.IsChain (fun y x => x ⋖ y) := by
  induction h with
  | @start x hfull hxid => exact ⟨[⟨x, hfull, hxid⟩], rfl, .singleton _⟩
  | @advance fuel x y l _ hmax hy ih =>
    obtain ⟨zs, hzs, hchain⟩ := ih
    obtain ⟨z, zs, rfl, rfl, rfl⟩ := List.map_eq_cons_iff.mp hzs
    obtain ⟨y', rfl, hcov⟩ := covBy_of_advance hmax hy
    exact ⟨y' :: z :: zs, rfl, List.isChain_cons_cons.mpr ⟨hcov, hchain⟩⟩

/-- Retreat undoes a step. -/
theorem retreat_of_covBy {x y : NormalXid} (h : x ⋖ y) {fuel : ℕ} (hf : 3 < fuel) :
    fullTransactionIdRetreat fuel y.1 = some x.1 := by
  have hxy : x.1.num < y.1.num := h.lt
  obtain ⟨x', hx', hcov⟩ := retreat_covBy y (x.le_num.trans_lt hxy) hf
  rw [hx', h.unique_left hcov]

/-- Advance makes a step. -/
theorem advance_of_covBy {x y : NormalXid} (h : x ⋖ y) {fuel : ℕ} (hf : 3 < fuel) :
    fullTransactionIdAdvance fuel x.1 = some y.1 := by
  have hxy : x.1.num < y.1.num := h.lt
  have hy := y.1.num_lt
  obtain ⟨y', hy', hcov⟩ := advance_covBy x (by omega) hf
  rw [hy', h.unique_right hcov]

/-- **The full counter and the 32-bit counter.** In every run the number grows, the low
half is never special and moves as the 32-bit counter does, and retreat goes back;
conversely retreat from every normal id but the first goes where advance comes from. The
loops end on every input. -/
theorem xidRun_advances {fuel : ℕ} (hf : 3 < fuel) :
    (∀ l, XidRun l →
      l.Pairwise (fun y x => x.value < y.value) ∧
      (∀ x ∈ l, xidFromFullTransactionId x ≠ invalidTransactionId ∧
        xidFromFullTransactionId x ≠ bootstrapTransactionId ∧
        xidFromFullTransactionId x ≠ frozenTransactionId) ∧
      l.IsChain (fun y x =>
        xidFromFullTransactionId y = transactionIdAdvance (xidFromFullTransactionId x) ∧
        fullTransactionIdRetreat fuel y = some x)) ∧
    (∀ y, fullTransactionIdIsNormal y = true →
      transactionIdIsNormal (xidFromFullTransactionId y) = true →
      fullTransactionIdFollows y firstNormalFullTransactionId = true →
      ∃ x, fullTransactionIdRetreat fuel y = some x ∧
        fullTransactionIdIsNormal x = true ∧
        transactionIdIsNormal (xidFromFullTransactionId x) = true ∧
        transactionIdRetreat fuel (xidFromFullTransactionId y)
          = some (xidFromFullTransactionId x) ∧
        fullTransactionIdAdvance fuel x = some y) ∧
    (∀ x, (∃ y, fullTransactionIdAdvance fuel x = some y) ∧
      ∃ y, fullTransactionIdRetreat fuel x = some y) := by
  refine ⟨fun l hl => ?_, fun y hfull hxid hfirst => ?_, fun x =>
    ⟨advance_ends hf x, retreat_ends hf x⟩⟩
  · obtain ⟨zs, rfl, hchain⟩ := hl.isChain
    refine ⟨?_, fun x hx => ?_, ?_⟩
    · rw [List.pairwise_map]
      have hlt : zs.IsChain (fun y x => x < y) := hchain.imp fun _ _ h => h.lt
      exact hlt.pairwise.imp fun h => BitVec.lt_def.mpr h
    · obtain ⟨z, -, rfl⟩ := List.mem_map.mp hx
      exact transactionIdIsNormal_iff_ne.mp z.2.xid
    · rw [List.isChain_map]
      exact hchain.imp fun y x h => ⟨(xid_of_covBy h hf).1, retreat_of_covBy h hf⟩
  · rw [fullTransactionIdFollows_iff, lt_iff_num, num_firstNormal] at hfirst
    obtain ⟨x, hx, hcov⟩ := retreat_covBy ⟨y, hfull, hxid⟩ hfirst hf
    exact ⟨x.1, hx, x.2.full, x.2.xid, (xid_of_covBy hcov hf).2, advance_of_covBy hcov hf⟩

/-- Across the end of an epoch. -/
theorem xidRun_advances_wrap :
    XidRun [⟨0x100000003#64⟩, ⟨0xFFFFFFFF#64⟩] ∧
    fullTransactionIdRetreat 4 ⟨0x100000003#64⟩ = some ⟨0xFFFFFFFF#64⟩ ∧
    transactionIdRetreat 4 3#32 = some 0xFFFFFFFF#32 := by
  have hrun : XidRun [⟨0x100000003#64⟩, ⟨0xFFFFFFFF#64⟩] :=
    .advance (.start (by decide) (by decide)) (by decide)
      (by decide : fullTransactionIdAdvance 4 _ = some _)
  obtain ⟨hup, hdown, -⟩ := xidRun_advances (by decide : 3 < 4)
  have hchain := (hup _ hrun).2.2
  obtain ⟨x, hx, -, -, hxid, -⟩ :=
    hdown ⟨0x100000003#64⟩ (by decide) (by decide) (by decide)
  have hback := (List.isChain_cons_cons.mp hchain).1.2
  rw [hback, Option.some.injEq] at hx
  exact ⟨hrun, hback, by rw [← hx] at hxid; exact hxid⟩

/-! ## Comparing the low halves -/

/-- `NormalTransactionIdPrecedes`, which asserts that both ids are normal. -/
def normalTransactionIdPrecedes (id1 id2 : TransactionId) : Option Bool :=
  if transactionIdIsNormal id1 && transactionIdIsNormal id2 then some ((id1 - id2).toInt < 0)
  else none

/-- `NormalTransactionIdFollows`, which asserts the same. -/
def normalTransactionIdFollows (id1 id2 : TransactionId) : Option Bool :=
  if transactionIdIsNormal id1 && transactionIdIsNormal id2 then some ((id1 - id2).toInt > 0)
  else none

/-- `NormalTransactionIdOlder`: the older of two ids, which it asserts to be normal. -/
def normalTransactionIdOlder (a b : TransactionId) : Option TransactionId :=
  if transactionIdIsNormal a then
    if transactionIdIsNormal b then do
      let precedes ← normalTransactionIdPrecedes a b
      if precedes then return a else return b
    else none
  else none

/-- **Ids in a window**: normal, and among fewer than `2 ^ 31` consecutive numbers. -/
structure InWindow (S : Set FullTransactionId) : Prop where
  normal : ∀ x ∈ S, transactionIdIsNormal (xidFromFullTransactionId x) = true
  window : ∃ lo n : ℕ, n < 2 ^ 31 ∧ ∀ x ∈ S, lo ≤ x.num ∧ x.num < lo + n

/-- The low half is the serial number of the number. -/
theorem xid_eq_ofInt (x : FullTransactionId) :
    xidFromFullTransactionId x = BitVec.ofInt 32 x.num :=
  BitVec.eq_of_toNat_eq (by rw [toNat_xid, BitVec.toNat_ofInt]; omega)

namespace InWindow

variable {S : Set FullTransactionId} {x y : FullTransactionId}

theorem near (hS : InWindow S) : Serial.Near 32 ((fun x => (x.num : ℤ)) '' S) := by
  obtain ⟨lo, n, hn, hwindow⟩ := hS.window
  rintro _ ⟨x, hx, rfl⟩ _ ⟨y, hy, rfl⟩
  have hx := hwindow x hx
  have hy := hwindow y hy
  show 2 * ((x.num : ℤ) - y.num) < 2 ^ 32
  omega

theorem precedes_eq (hS : InWindow S) (hx : x ∈ S) (hy : y ∈ S) :
    normalTransactionIdPrecedes (xidFromFullTransactionId x) (xidFromFullTransactionId y)
      = some (fullTransactionIdPrecedes x y) := by
  have hiff := hS.near.before_iff (Set.mem_image_of_mem _ hx) (Set.mem_image_of_mem _ hy)
  rw [normalTransactionIdPrecedes, hS.normal x hx, hS.normal y hy, xid_eq_ofInt, xid_eq_ofInt]
  refine congrArg some (Bool.eq_iff_iff.mpr ?_)
  rw [decide_eq_true_iff, fullTransactionIdPrecedes_iff, lt_iff_num, ← Int.ofNat_lt]
  exact hiff

theorem follows_eq (hS : InWindow S) (hx : x ∈ S) (hy : y ∈ S) :
    normalTransactionIdFollows (xidFromFullTransactionId x) (xidFromFullTransactionId y)
      = some (fullTransactionIdFollows x y) := by
  have hiff := hS.near.after_iff (Set.mem_image_of_mem _ hx) (Set.mem_image_of_mem _ hy)
  rw [normalTransactionIdFollows, hS.normal x hx, hS.normal y hy, xid_eq_ofInt, xid_eq_ofInt]
  refine congrArg some (Bool.eq_iff_iff.mpr ?_)
  rw [decide_eq_true_iff, fullTransactionIdFollows_iff, lt_iff_num, ← Int.ofNat_lt]
  exact hiff

/-- The older of two ids is that of the smaller number. -/
theorem older_eq (hS : InWindow S) (hx : x ∈ S) (hy : y ∈ S) :
    normalTransactionIdOlder (xidFromFullTransactionId x) (xidFromFullTransactionId y)
      = some (xidFromFullTransactionId (min x y)) := by
  rw [normalTransactionIdOlder, if_pos (hS.normal x hx), if_pos (hS.normal y hy),
    hS.precedes_eq hx hy]
  by_cases hlt : x < y
  · rw [min_eq_left hlt.le, fullTransactionIdPrecedes_iff.mpr hlt]
    rfl
  · have hnot : fullTransactionIdPrecedes x y = false :=
      Bool.eq_false_iff.mpr (mt fullTransactionIdPrecedes_iff.mp hlt)
    rw [min_eq_right (not_lt.mp hlt), hnot]
    rfl

end InWindow

/-- **Within a window the low halves are enough.** Comparing them agrees with comparing the
full ids, on every pair; it is a strict total order of the low halves, which in general it
is not; and the oldest of several, taken one after the other in any order, is the low half
of the smallest full id. -/
theorem normalTransactionId_window {S : Set FullTransactionId} (hS : InWindow S) :
    (∀ x ∈ S, ∀ y ∈ S,
      normalTransactionIdPrecedes (xidFromFullTransactionId x) (xidFromFullTransactionId y)
        = some (fullTransactionIdPrecedes x y) ∧
      normalTransactionIdFollows (xidFromFullTransactionId x) (xidFromFullTransactionId y)
        = some (fullTransactionIdFollows x y)) ∧
    IsStrictTotalOrder (xidFromFullTransactionId '' S)
      (fun a b => normalTransactionIdPrecedes a b = some true) ∧
    IsStrictTotalOrder (xidFromFullTransactionId '' S)
      (fun a b => normalTransactionIdFollows a b = some true) ∧
    ∀ x l, (∀ y ∈ x :: l, y ∈ S) →
      ∃ m ∈ x :: l, (∀ y ∈ x :: l, m.value ≤ y.value) ∧
        (l.map xidFromFullTransactionId).foldlM normalTransactionIdOlder
          (xidFromFullTransactionId x) = some (xidFromFullTransactionId m) := by
  refine ⟨fun x hx y hy => ⟨hS.precedes_eq hx hy, hS.follows_eq hx hy⟩, ?_, ?_,
    fun x l hl => ?_⟩
  · have hiff : ∀ x ∈ S, ∀ y ∈ S, normalTransactionIdPrecedes (xidFromFullTransactionId x)
        (xidFromFullTransactionId y) = some true ↔ x < y := by
      intro x hx y hy
      rw [hS.precedes_eq hx hy, Option.some.injEq, fullTransactionIdPrecedes_iff]
    exact Serial.isStrictTotalOrder_image
      (r := fun a b => normalTransactionIdPrecedes a b = some true) hiff
  · have hiff : ∀ x ∈ S, ∀ y ∈ S, normalTransactionIdFollows (xidFromFullTransactionId x)
        (xidFromFullTransactionId y) = some true ↔ x > y := by
      intro x hx y hy
      rw [hS.follows_eq hx hy, Option.some.injEq, fullTransactionIdFollows_iff]
    exact Serial.isStrictTotalOrder_image
      (r := fun a b => normalTransactionIdFollows a b = some true) hiff
  · obtain ⟨hmem, hle⟩ := List.min?_eq_some_iff.mp (rfl : (x :: l).min? = some (l.foldl min x))
    have hleast : ∀ y ∈ x :: l, (l.foldl min x).value ≤ y.value := fun y hy =>
      BitVec.le_def.mpr (hle y hy)
    have hrest : ∀ y ∈ l, y ∈ S := fun y hy => hl y (List.mem_cons_of_mem x hy)
    have holder := Serial.foldlM_eq_min (fun x hx y hy => hS.older_eq hx hy)
      (hl x List.mem_cons_self) hrest
    exact ⟨l.foldl min x, hmem, hleast, holder⟩

/-- Three ids around the end of an epoch, the oldest in the middle. -/
theorem normalTransactionId_window_wrap :
    normalTransactionIdOlder 5#32 0xFFFFFFFE#32 = some 0xFFFFFFFE#32 ∧
    ∃ m ∈ [(⟨0x100000005#64⟩ : FullTransactionId), ⟨0xFFFFFFFE#64⟩, ⟨0x100000003#64⟩],
      ([0xFFFFFFFE#32, 3#32].foldlM normalTransactionIdOlder 5#32)
        = some (xidFromFullTransactionId m) := by
  have hS : InWindow {⟨0x100000005#64⟩, ⟨0xFFFFFFFE#64⟩, ⟨0x100000003#64⟩} := by
    refine ⟨?_, 0xFFFFFFFE, 8, by decide, ?_⟩
    · rintro x (rfl | rfl | rfl) <;> decide
    · rintro x (rfl | rfl | rfl) <;> decide
  obtain ⟨-, -, -, hfold⟩ := normalTransactionId_window hS
  obtain ⟨m, hm, -, hm'⟩ := hfold ⟨0x100000005#64⟩ [⟨0xFFFFFFFE#64⟩, ⟨0x100000003#64⟩]
    (by simp)
  exact ⟨by decide, m, hm, hm'⟩

/-! ## Backing up by an amount -/

/-- `TransactionIdRetreatedBy`. -/
def transactionIdRetreatedBy (fuel : ℕ) (xid : TransactionId) (amount : BitVec 32) :
    Option TransactionId :=
  Loop.whileDo (fun xid => xid < firstNormalTransactionId) (fun xid => xid - 1) fuel (xid - amount)

/-- The loop goes from a special id to the last one. -/
theorem retreatedBy_ends {fuel : ℕ} (hf : 3 < fuel) (xid : TransactionId) (amount : BitVec 32) :
    ∃ r, transactionIdRetreatedBy fuel xid amount = some r ∧
      r.toNat = if (xid - amount).toNat < 3 then 2 ^ 32 - 1 else (xid - amount).toNat := by
  unfold transactionIdRetreatedBy
  generalize xid - amount = x
  split_ifs with h
  · have hx : x = 0#32 ∨ x = 1#32 ∨ x = 2#32 := by
      rw [← BitVec.toNat_inj, ← BitVec.toNat_inj, ← BitVec.toNat_inj]
      show x.toNat = 0 ∨ x.toNat = 1 ∨ x.toNat = 2
      omega
    refine ⟨0xFFFFFFFF#32, Loop.run_mono hf ?_, rfl⟩
    rcases hx with rfl | rfl | rfl <;> decide
  · obtain ⟨fuel, rfl⟩ := Nat.exists_eq_add_of_lt hf
    refine ⟨x, Loop.run_done ?_ _, rfl⟩
    have hnot : ¬ x < firstNormalTransactionId := fun hlt => h (BitVec.lt_def.mp hlt)
    exact if_neg (by rwa [decide_eq_true_iff])

/-- One retreat, of a normal id. -/
theorem retreat_normal {fuel : ℕ} (hf : 3 < fuel) {xid : TransactionId} (h : 3 ≤ xid.toNat) :
    ∃ y, transactionIdRetreat fuel xid = some y ∧ 3 ≤ y.toNat ∧
      y.toNat = if xid.toNat = 3 then 2 ^ 32 - 1 else xid.toNat - 1 := by
  split_ifs with h₃
  · have hx : xid = 3#32 := BitVec.eq_of_toNat_eq h₃
    subst hx
    exact ⟨0xFFFFFFFF#32, Loop.run_mono hf (by decide :
      transactionIdRetreat 4 3#32 = some 0xFFFFFFFF#32), by decide, rfl⟩
  · have hlt := xid.isLt
    have hsub : (xid - 1).toNat = xid.toNat - 1 := by
      rw [BitVec.toNat_sub]
      show (2 ^ 32 - 1 + xid.toNat) % 2 ^ 32 = xid.toNat - 1
      omega
    obtain ⟨fuel, rfl⟩ := Nat.exists_eq_add_of_lt hf
    refine ⟨xid - 1, Loop.run_done ?_ _, by omega, hsub⟩
    have hnot : ¬ xid - 1 < firstNormalTransactionId := by
      rw [BitVec.lt_def, hsub]
      show ¬ xid.toNat - 1 < 3
      omega
    show (if xid - 1 < firstNormalTransactionId then _ else _) = _
    rw [if_neg hnot]

/-- **Retreating `n` times** skips the special ids once if it comes by them. -/
theorem retreat_iter {fuel : ℕ} (hf : 3 < fuel) {n : ℕ} (hn : n < 2 ^ 31) {xid : TransactionId}
    (h : 3 ≤ xid.toNat) :
    ∃ s, Loop.iter (transactionIdRetreat fuel) n xid = some s ∧
      s.toNat = if n + 3 ≤ xid.toNat then xid.toNat - n else xid.toNat + (2 ^ 32 - 3) - n := by
  induction n generalizing xid with
  | zero => exact ⟨xid, rfl, (if_pos (by omega)).symm⟩
  | succ n ih =>
    obtain ⟨y, hy, hy3, hynat⟩ := retreat_normal hf h
    obtain ⟨s, hs, hsnat⟩ := ih (by omega) hy3
    refine ⟨s, by rw [Loop.iter, hy]; exact hs, ?_⟩
    have hlt := xid.isLt
    rw [hsnat, hynat]
    split_ifs <;> omega

/-- **An id precedes** every normal id that is up to `2 ^ 31` ahead of it. -/
theorem precedes_of_behind {a b : TransactionId} (ha : 3 ≤ a.toNat) (hb : 3 ≤ b.toNat)
    (h : (b - a).toNat ≤ 2 ^ 31) : a = b ∨ normalTransactionIdPrecedes a b = some true := by
  refine or_iff_not_imp_left.mpr fun hne => ?_
  rw [normalTransactionIdPrecedes, transactionIdIsNormal_iff.mpr ha,
    transactionIdIsNormal_iff.mpr hb]
  refine congrArg some (decide_eq_true ?_)
  have hne : a.toNat ≠ b.toNat := mt BitVec.eq_of_toNat_eq hne
  have hal := a.isLt
  have hbl := b.isLt
  rw [BitVec.toNat_sub] at h
  rw [BitVec.toInt_neg_iff, BitVec.toNat_sub]
  omega

/-- What backing up leaves, as numbers: the id at the distance, or the last one. -/
structure BackedUp (xid : TransactionId) (amount : BitVec 32) (r : TransactionId) : Prop where
  normal : 3 ≤ r.toNat
  toNat_sub : (xid - r).toNat =
    amount.toNat + if (xid - amount).toNat < 3 then (xid - amount).toNat + 1 else 0

theorem retreatedBy_backedUp {fuel : ℕ} (hf : 3 < fuel) (xid : TransactionId)
    {amount : BitVec 32} (hamount : amount.toNat < 2 ^ 31 - 3) :
    ∃ r, transactionIdRetreatedBy fuel xid amount = some r ∧ BackedUp xid amount r := by
  obtain ⟨r, hr, hnat⟩ := retreatedBy_ends hf xid amount
  have hlt := xid.isLt
  have hsub : (xid - amount).toNat = (2 ^ 32 - amount.toNat + xid.toNat) % 2 ^ 32 :=
    BitVec.toNat_sub xid amount
  refine ⟨r, hr, by split_ifs at hnat <;> omega, ?_⟩
  rw [BitVec.toNat_sub xid r]
  split_ifs at hnat ⊢ <;> omega

/-- Two ids that one id has been backed up to, by a smaller and a larger amount. -/
theorem BackedUp.sub_le {xid r r' : TransactionId} {amount amount' : BitVec 32}
    (h : BackedUp xid amount r) (h' : BackedUp xid amount' r') (hle : amount ≤ amount')
    (hamount : amount'.toNat < 2 ^ 31 - 3) : (r - r').toNat ≤ 2 ^ 31 := by
  have hr := h.toNat_sub
  have hr' := h'.toNat_sub
  have hle : amount.toNat ≤ amount'.toNat := BitVec.le_def.mp hle
  rw [BitVec.toNat_sub] at hr hr' ⊢
  rw [BitVec.toNat_sub] at hr hr'
  have hrl := r.isLt
  have hrl' := r'.isLt
  have hxl := xid.isLt
  split_ifs at hr hr' <;> omega

/-- **Backing up by an amount at once**, of fewer than `2 ^ 31 - 3`. The id that comes out is
normal, at that distance or up to three further back, and precedes the id or is it; the
more is asked for, the further back it is; and retreating one by one as many times leads
to it or up to three further. Whatever the id and the amount, the loop ends with a normal
id. -/
theorem transactionIdRetreatedBy_spec {fuel : ℕ} (hf : 3 < fuel) :
    (∀ xid amount, transactionIdIsNormal xid = true → amount.toNat < 2 ^ 31 - 3 →
      ∃ r s, transactionIdRetreatedBy fuel xid amount = some r ∧
        Loop.iter (transactionIdRetreat fuel) amount.toNat xid = some s ∧
        transactionIdIsNormal r = true ∧
        amount.toNat ≤ (xid - r).toNat ∧ (xid - r).toNat ≤ amount.toNat + 3 ∧
        (r = xid ∨ normalTransactionIdPrecedes r xid = some true) ∧ (r - s).toNat ≤ 3) ∧
    (∀ xid amount amount', transactionIdIsNormal xid = true → amount ≤ amount' →
      amount'.toNat < 2 ^ 31 - 3 →
      ∃ r r', transactionIdRetreatedBy fuel xid amount = some r ∧
        transactionIdRetreatedBy fuel xid amount' = some r' ∧
        (r' = r ∨ normalTransactionIdPrecedes r' r = some true)) ∧
    (∀ xid amount, ∃ r, transactionIdRetreatedBy fuel xid amount = some r ∧
      transactionIdIsNormal r = true) := by
  refine ⟨fun xid amount hxid hamount => ?_, fun xid amount amount' hxid hle hamount => ?_,
    fun xid amount => ?_⟩
  · rw [transactionIdIsNormal_iff] at hxid
    obtain ⟨r, hr, hback⟩ := retreatedBy_backedUp hf xid hamount
    obtain ⟨s, hs, hsnat⟩ := retreat_iter hf (show amount.toNat < 2 ^ 31 by omega) hxid
    have hdist := hback.toNat_sub
    have hle : (xid - r).toNat ≤ amount.toNat + 3 := by
      rw [hdist]
      split_ifs <;> omega
    refine ⟨r, s, hr, hs, transactionIdIsNormal_iff.mpr hback.normal,
      hdist ▸ Nat.le_add_right _ _, hle, precedes_of_behind hback.normal hxid (by omega), ?_⟩
    rw [BitVec.toNat_sub] at hdist ⊢
    rw [BitVec.toNat_sub] at hdist
    have hrl := r.isLt
    have hxl := xid.isLt
    split_ifs at hdist hsnat <;> omega
  · rw [transactionIdIsNormal_iff] at hxid
    have hle' : amount.toNat ≤ amount'.toNat := BitVec.le_def.mp hle
    obtain ⟨r, hr, hback⟩ :=
      retreatedBy_backedUp hf xid (show amount.toNat < 2 ^ 31 - 3 by omega)
    obtain ⟨r', hr', hback'⟩ := retreatedBy_backedUp hf xid hamount
    exact ⟨r, r', hr, hr', precedes_of_behind hback'.normal hback.normal
      (hback.sub_le hback' hle hamount)⟩
  · obtain ⟨r, hr, hnat⟩ := retreatedBy_ends hf xid amount
    refine ⟨r, hr, transactionIdIsNormal_iff.mpr ?_⟩
    rw [hnat]
    split_ifs with h
    · decide
    · exact Nat.le_of_not_lt h

/-- Five back from the third normal id: past the special ids. -/
theorem transactionIdRetreatedBy_spec_wrap :
    transactionIdRetreatedBy 4 5#32 5#32 = some 0xFFFFFFFF#32 ∧
    ∃ s, Loop.iter (transactionIdRetreat 4) 5 5#32 = some s ∧ (0xFFFFFFFF#32 - s).toNat ≤ 3 := by
  have hr : transactionIdRetreatedBy 4 5#32 5#32 = some 0xFFFFFFFF#32 := by decide
  obtain ⟨r, s, hr', hs, -, -, -, -, hrs⟩ :=
    (transactionIdRetreatedBy_spec (by decide : 3 < 4)).1 5#32 5#32 (by decide) (by decide)
  rw [hr, Option.some.injEq] at hr'
  exact ⟨hr, s, hs, hr' ▸ hrs⟩

end Transam
