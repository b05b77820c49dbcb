import Mathlib.Data.BitVec
import PgCitus.Library.ThreeWay

/-!
# Sort support

The comparisons of `utils/sortsupport.h`: a comparator of an operator class, with
`NULL`s put first or last and the order of the other values reversed or not. A result
is a C `int`, of any size; negating the smallest one overflows, which
`INVERT_COMPARE_RESULT` avoids.

Reversing an order must not move the `NULL`s, so a descending order with `NULL`s first
is the ascending one with `NULL`s last read backwards. Abbreviated keys stand for
values in a first comparison that may be undecided; the flags then apply to each of
the two comparisons, once.

The comparators also get the `SortSupport` itself in the source. What of it they may
depend on – the collation, the operator class's own data – is the same throughout, so
it is part of the comparator here.
-/

namespace SortSupport

open Quicksort ThreeWay

/-- A comparison result, as a number. -/
abbrev CInt := BitVec 32

/-- `INVERT_COMPARE_RESULT`. -/
def invertCompareResult (var : CInt) : CInt := if var.toInt < 0 then 1 else -var

/-- The fields of `SortSupportData` that comparisons use. -/
structure SortSupportData (Datum : Type*) where
  ssupReverse : Bool
  ssupNullsFirst : Bool
  comparator : Datum → Datum → CInt
  abbrevConverter : Datum → Datum
  abbrevFullComparator : Datum → Datum → CInt

variable {Datum : Type*}

/-- `ApplySortComparator`. -/
def applySortComparator (datum1 : Datum) (isNull1 : Bool) (datum2 : Datum) (isNull2 : Bool)
    (ssup : SortSupportData Datum) : CInt :=
  if isNull1 then
    if isNull2 then 0 -- NULL "=" NULL
    else if ssup.ssupNullsFirst then -1 -- NULL "<" NOT_NULL
    else 1 -- NULL ">" NOT_NULL
  else if isNull2 then
    if ssup.ssupNullsFirst then 1 -- NOT_NULL ">" NULL
    else -1 -- NOT_NULL "<" NULL
  else
    let compare := ssup.comparator datum1 datum2
    if ssup.ssupReverse then invertCompareResult compare else compare

/-- `ApplySortAbbrevFullComparator`. -/
def applySortAbbrevFullComparator (datum1 : Datum) (isNull1 : Bool) (datum2 : Datum)
    (isNull2 : Bool) (ssup : SortSupportData Datum) : CInt :=
  if isNull1 then
    if isNull2 then 0 -- NULL "=" NULL
    else if ssup.ssupNullsFirst then -1 -- NULL "<" NOT_NULL
    else 1 -- NULL ">" NOT_NULL
  else if isNull2 then
    if ssup.ssupNullsFirst then 1 -- NOT_NULL ">" NULL
    else -1 -- NOT_NULL "<" NULL
  else
    let compare := ssup.abbrevFullComparator datum1 datum2
    if ssup.ssupReverse then invertCompareResult compare else compare

/-- A datum that may be `NULL`. -/
structure NullableDatum (Datum : Type*) where
  datum : Datum
  isnull : Bool
deriving DecidableEq

/-- The value of a datum, if it has one. -/
def NullableDatum.value (d : NullableDatum Datum) : Option Datum :=
  if d.isnull then none else some d.datum

/-! ## Both comparisons are one -/

/-- The sort support that compares by the full comparator. -/
def SortSupportData.full (ssup : SortSupportData Datum) : SortSupportData Datum :=
  { ssup with comparator := ssup.abbrevFullComparator }

/-- **The full comparison is the ordinary one**, by the other comparator. -/
theorem applySortAbbrevFullComparator_eq (x : Datum) (n : Bool) (y : Datum) (m : Bool)
    (ssup : SortSupportData Datum) :
    applySortAbbrevFullComparator x n y m ssup = applySortComparator x n y m ssup.full := rfl

/-- The result of `ApplySortComparator` on two nullable datums, as a number. -/
def compare (ssup : SortSupportData Datum) (a b : NullableDatum Datum) : ℤ :=
  (applySortComparator a.datum a.isnull b.datum b.isnull ssup).toInt

/-- The result of `ApplySortAbbrevFullComparator` on two nullable datums, as a number. -/
def compareFull (ssup : SortSupportData Datum) (a b : NullableDatum Datum) : ℤ :=
  (applySortAbbrevFullComparator a.datum a.isnull b.datum b.isnull ssup).toInt

/-- The operator class's comparator, reversed if the order is, as a number. -/
def directed (ssup : SortSupportData Datum) (x y : Datum) : ℤ :=
  (if ssup.ssupReverse then invertCompareResult (ssup.comparator x y)
    else ssup.comparator x y).toInt

/-- How a `NULL` compares with a value. -/
def nullCompare (ssup : SortSupportData Datum) : ℤ := if ssup.ssupNullsFirst then -1 else 1

/-- **A comparison puts the `NULL`s to the directed comparator.** -/
theorem compare_eq (ssup : SortSupportData Datum) (a b : NullableDatum Datum) :
    compare ssup a b = withNone (nullCompare ssup) (directed ssup) a.value b.value := by
  unfold compare applySortComparator NullableDatum.value nullCompare
  cases a.isnull <;> cases b.isnull <;> cases ssup.ssupNullsFirst <;> rfl

/-! ## Reversing -/

/-- **Inverting a result inverts its sign**, for every result, the smallest included. -/
theorem invertCompareResult_sign (var : CInt) :
    (invertCompareResult var).toInt.sign = -var.toInt.sign := by
  unfold invertCompareResult
  by_cases h : var.toInt < 0
  · rw [if_pos h, Int.sign_eq_neg_one_of_neg h]
    rfl
  · have hneg : (-var).toInt = -var.toInt := by
      have hlt := BitVec.toInt_lt (x := var)
      rw [BitVec.toInt_neg]
      refine Int.bmod_eq_of_le ?_ ?_ <;> omega
    rw [if_neg h, hneg, Int.sign_neg]

/-- The directed comparator has the comparator's sign, or the opposite one. -/
theorem directed_sign (ssup : SortSupportData Datum) (x y : Datum) :
    (directed ssup x y).sign =
      if ssup.ssupReverse then -(ssup.comparator x y).toInt.sign
      else (ssup.comparator x y).toInt.sign := by
  unfold directed
  cases ssup.ssupReverse with
  | true => exact invertCompareResult_sign _
  | false => rfl

/-- The two settings, flipped. -/
def SortSupportData.flip (ssup : SortSupportData Datum) : SortSupportData Datum :=
  { ssup with ssupReverse := !ssup.ssupReverse, ssupNullsFirst := !ssup.ssupNullsFirst }

/-- **Flipping both settings inverts every comparison.** -/
theorem compare_flip_sign (ssup : SortSupportData Datum) (a b : NullableDatum Datum) :
    (compare ssup.flip a b).sign = -(compare ssup a b).sign := by
  rw [compare_eq, compare_eq]
  cases a.value <;> cases b.value
  · rfl
  · show (nullCompare ssup.flip).sign = -(nullCompare ssup).sign
    unfold nullCompare SortSupportData.flip
    cases ssup.ssupNullsFirst <;> rfl
  · show (-nullCompare ssup.flip).sign = -(-nullCompare ssup).sign
    unfold nullCompare SortSupportData.flip
    cases ssup.ssupNullsFirst <;> rfl
  · show (directed ssup.flip _ _).sign = -(directed ssup _ _).sign
    rw [directed_sign, directed_sign]
    unfold SortSupportData.flip
    cases ssup.ssupReverse
    · rfl
    · exact (neg_neg _).symm

/-- The comparator of the operator class, as a number. -/
def opclass (cmp : Datum → Datum → CInt) (x y : Datum) : ℤ := (cmp x y).toInt

/-- **Every setting of the flags gives a total preorder** of values and `NULL`s. -/
theorem compare_totalPreorder (ssup : SortSupportData Datum)
    (h : TotalPreorder (opclass ssup.comparator)) : TotalPreorder (compare ssup) := by
  have hdir : TotalPreorder (directed ssup) := by
    cases hrev : ssup.ssupReverse with
    | false =>
      exact totalPreorder_congr h fun x y => by
        rw [directed_sign, hrev]
        rfl
    | true =>
      exact totalPreorder_reverse h fun x y => by
        rw [directed_sign, hrev]
        rfl
  have hnull : nullCompare ssup ≠ 0 := by
    unfold nullCompare
    cases ssup.ssupNullsFirst <;> decide
  have heq : compare ssup = fun a b =>
      withNone (nullCompare ssup) (directed ssup) a.value b.value :=
    funext fun a => funext fun b => compare_eq ssup a b
  rw [heq]
  exact totalPreorder_comap (totalPreorder_withNone hdir hnull) NullableDatum.value

/-! ## Abbreviated keys -/

/-- **An abbreviated comparator**: on converted values, it is undecided or agrees with
the full one. -/
def SortSupportData.Abbreviates (ssup : SortSupportData Datum) : Prop :=
  Refines (fun x y => opclass ssup.comparator (ssup.abbrevConverter x) (ssup.abbrevConverter y))
    (opclass ssup.abbrevFullComparator)

/-- `k` is the abbreviated key of `d`: both are `NULL`, or `k` is `d` converted. -/
def SortSupportData.IsKey (ssup : SortSupportData Datum) (d k : NullableDatum Datum) : Prop :=
  k.value = d.value.map ssup.abbrevConverter

/-- Comparing the abbreviated keys first, and the values where that is undecided. -/
def compareAbbrev (ssup : SortSupportData Datum) (k₁ k₂ d₁ d₂ : NullableDatum Datum) : ℤ :=
  if compare ssup k₁ k₂ ≠ 0 then compare ssup k₁ k₂ else compareFull ssup d₁ d₂

/-- Reversing both comparators keeps the one an abbreviation of the other. -/
theorem refines_directed {ssup : SortSupportData Datum} (h : ssup.Abbreviates) :
    Refines (fun x y => directed ssup (ssup.abbrevConverter x) (ssup.abbrevConverter y))
      (directed ssup.full) := by
  intro x y hne
  have hne' : opclass ssup.comparator (ssup.abbrevConverter x) (ssup.abbrevConverter y) ≠ 0 := by
    intro h0
    refine hne (Int.sign_eq_zero_iff_zero.mp ?_)
    unfold opclass at h0
    rw [directed_sign, h0]
    cases ssup.ssupReverse <;> rfl
  have hs : (opclass ssup.comparator (ssup.abbrevConverter x) (ssup.abbrevConverter y)).sign
      = (opclass ssup.abbrevFullComparator x y).sign := h x y hne'
  unfold opclass at hs
  rw [directed_sign, directed_sign, hs]
  rfl

/-- **Abbreviated keys change no comparison.** -/
theorem compareAbbrev_sign {ssup : SortSupportData Datum} (h : ssup.Abbreviates)
    {k₁ k₂ d₁ d₂ : NullableDatum Datum} (hk₁ : ssup.IsKey d₁ k₁) (hk₂ : ssup.IsKey d₂ k₂) :
    (compareAbbrev ssup k₁ k₂ d₁ d₂).sign = (compareFull ssup d₁ d₂).sign := by
  have hfull : compareFull ssup d₁ d₂
      = withNone (nullCompare ssup) (directed ssup.full) d₁.value d₂.value := by
    unfold compareFull
    rw [applySortAbbrevFullComparator_eq]
    exact compare_eq ssup.full d₁ d₂
  unfold SortSupportData.IsKey at hk₁ hk₂
  unfold compareAbbrev
  rw [compare_eq, hk₁, hk₂, hfull]
  exact ((refines_directed h).withNone (nullCompare ssup)).orElse_sign d₁.value d₂.value

/-- **Sort support orders values and `NULL`s.** For a comparator that is a total
preorder, every setting of the flags gives a total preorder of nullable datums, and
flipping both gives the reversed order. Where the comparator is one of abbreviated
keys, comparing these first and the values where that is undecided gives the order of
the full comparator. What is compared are the values, by the comparator or reversed, with the
`NULL`s where they are to be. -/
theorem sortSupport_order (ssup : SortSupportData Datum) :
    (TotalPreorder (opclass ssup.comparator) →
      TotalPreorder (compare ssup) ∧
      ∀ a b, (compare ssup.flip a b).sign = (compare ssup b a).sign) ∧
    (ssup.Abbreviates →
      ∀ k₁ k₂ d₁ d₂, ssup.IsKey d₁ k₁ → ssup.IsKey d₂ k₂ →
        (compareAbbrev ssup k₁ k₂ d₁ d₂).sign = (compareFull ssup d₁ d₂).sign) ∧
    (∀ a b, compare ssup a b = withNone (nullCompare ssup) (directed ssup) a.value b.value) ∧
    ∀ x y, (directed ssup x y).sign =
      if ssup.ssupReverse then -(opclass ssup.comparator x y).sign
      else (opclass ssup.comparator x y).sign := by
  refine ⟨fun h => ⟨compare_totalPreorder ssup h, fun a b => ?_⟩, fun h k₁ k₂ d₁ d₂ hk₁ hk₂ =>
    compareAbbrev_sign h hk₁ hk₂, compare_eq ssup, directed_sign ssup⟩
  have hpre := compare_totalPreorder ssup h
  rw [compare_flip_sign]
  rcases lt_trichotomy (compare ssup a b) 0 with hlt | heq | hgt
  · rw [Int.sign_eq_neg_one_of_neg hlt, Int.sign_eq_one_of_pos ((hpre.pos_iff b a).mpr hlt)]
    rfl
  · have hba : compare ssup b a = 0 :=
      le_antisymm ((hpre.nonneg_iff a b).mp heq.ge) ((hpre.nonneg_iff b a).mpr heq.le)
    rw [heq, hba]
    rfl
  · rw [Int.sign_eq_one_of_pos hgt, Int.sign_eq_neg_one_of_neg ((hpre.pos_iff a b).mp hgt)]

/-- A comparator of numbers whose results are of any size. -/
def numberCmp (x y : ℤ) : CInt := if x < y then BitVec.intMin 32 else if y < x then 5 else 0

theorem numberCmp_sign (x y : ℤ) : (opclass numberCmp x y).sign = (x - y).sign := by
  unfold opclass numberCmp
  split
  · next h =>
    rw [Int.sign_eq_neg_one_of_neg (sub_neg.mpr h)]
    rfl
  · next h =>
    split
    · next h' =>
      rw [Int.sign_eq_one_of_pos (sub_pos.mpr h')]
      rfl
    · next h' =>
      rw [le_antisymm (not_lt.mp h') (not_lt.mp h), sub_self]
      rfl

/-- Numbers, descending with `NULL`s first, and abbreviated to their tens. -/
def numberSupport : SortSupportData ℤ where
  ssupReverse := true
  ssupNullsFirst := true
  comparator := numberCmp
  abbrevConverter := (· / 10)
  abbrevFullComparator := numberCmp

/-- Numbers of the same ten, and a `NULL`. -/
theorem sortSupport_order_numbers :
    TotalPreorder (compare numberSupport) ∧
      (compareAbbrev numberSupport ⟨0, false⟩ ⟨0, false⟩ ⟨3, false⟩ ⟨8, false⟩).sign
        = (compareFull numberSupport ⟨3, false⟩ ⟨8, false⟩).sign ∧
      (compareAbbrev numberSupport ⟨0, false⟩ ⟨0, true⟩ ⟨3, false⟩ ⟨0, true⟩).sign
        = (compareFull numberSupport ⟨3, false⟩ ⟨0, true⟩).sign := by
  have hsub : TotalPreorder fun x y : ℤ => x - y := by
    refine ⟨fun x y => by rw [sub_pos, sub_neg], fun x y z hxy hyz => ?_⟩
    rw [sub_nonpos] at hxy hyz ⊢
    exact le_trans hxy hyz
  have hpre : TotalPreorder (opclass numberCmp) := totalPreorder_congr hsub numberCmp_sign
  have habbrev : numberSupport.Abbreviates := by
    intro x y hne
    show (opclass numberCmp (x / 10) (y / 10)).sign = (opclass numberCmp x y).sign
    have hne' : (opclass numberCmp (x / 10) (y / 10)).sign ≠ 0 :=
      fun h => hne (Int.sign_eq_zero_iff_zero.mp h)
    rw [numberCmp_sign] at hne'
    rw [numberCmp_sign, numberCmp_sign]
    rcases lt_trichotomy (x / 10) (y / 10) with h | h | h
    · rw [Int.sign_eq_neg_one_of_neg (by omega), Int.sign_eq_neg_one_of_neg (by omega)]
    · exact absurd (by rw [h, sub_self]; rfl) hne'
    · rw [Int.sign_eq_one_of_pos (by omega), Int.sign_eq_one_of_pos (by omega)]
  exact ⟨((sortSupport_order numberSupport).1 hpre).1,
    (sortSupport_order numberSupport).2.1 habbrev _ _ _ _ rfl rfl,
    (sortSupport_order numberSupport).2.1 habbrev _ _ _ _ rfl rfl⟩

end SortSupport
