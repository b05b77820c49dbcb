import PgCitus.SimpleHashInsert
import PgCitus.SimpleHashDelete
import Mathlib.Data.Set.Card

/-!
# Runs of simplehash operations

What a simplehash table is for: it is a finite map from keys to entries. This
module says so for whole runs. A run starts with `SH_CREATE` and goes on with
any operations whatever, each called as its comment asks (`ShOp.Legal`): a hash
given by the caller is that of the key, an element given by the caller is in
the table, and `SH_GROW` is asked for more buckets than there are. Between two
operations the caller may also write what it keeps with a key into an element.

`MapRun` is the abstract machine: the same operations on a map, with the same
results. `shAbs` reads a table as a map, and every run of the table is a run of
the map under it (`shRun_refines`). The element a new key gets is left open by
the map, but for its key: `SH_INSERT` does not initialise the rest.
-/

namespace SimpleHash

open Circ RobinHood

variable {κ ν : Type*} {T : ShTemplate κ ν} {tb : ShHash κ ν}

/-! ## Operations and runs -/

/-- A call of an operation. An element is given as the number of its bucket. -/
inductive ShOp (κ ν : Type*) where
  | insert (key : κ)
  | insertHash (key : κ) (hash : UInt32)
  | lookup (key : κ)
  | lookupHash (key : κ) (hash : UInt32)
  | delete (key : κ)
  | deleteItem (entry : ℕ)
  | reset
  | grow (newsize : ℕ)
  /-- The caller writes into an element. -/
  | write (entry : ℕ) (payload : ν)

/-- What a call gives back. Of an element returned, and of one given by the
caller, the contents are recorded. -/
inductive ShOut (κ ν : Type*) where
  | inserted (found : Bool) (entry : ShElement κ ν)
  | looked (entry : Option (ShElement κ ν))
  | deleted (present : Bool)
  | item (entry : ShElement κ ν)
  | done

/-- A caller writes what it keeps with a key into an element. -/
def shWrite (tb : ShHash κ ν) (entry : ℕ) (payload : ν) : ShHash κ ν :=
  { tb with
    data := Function.update tb.data entry
      { tb.data entry with payload := payload } }

/-- What an insertion gives back, once it has ended without an error. -/
def ShInserted.out (ins : ShInserted κ ν) : ShOut κ ν × ShHash κ ν :=
  (.inserted ins.found (ins.table.data ins.entry), ins.table)

/-- **One call**: `none` if it does not end. -/
def shStep (T : ShTemplate κ ν) (tb : ShHash κ ν) :
    ShOp κ ν → Option (Except ShError (ShOut κ ν × ShHash κ ν))
  | .insert key => (shInsert T tb key).map (·.map ShInserted.out)
  | .insertHash key hash => (shInsertHash T tb key hash).map (·.map ShInserted.out)
  | .lookup key =>
    (shLookup T tb key).map (fun r => .ok (.looked (r.map tb.data), tb))
  | .lookupHash key hash =>
    (shLookupHash T tb key hash).map (fun r => .ok (.looked (r.map tb.data), tb))
  | .delete key =>
    (shDelete T tb key).map (fun r => .ok (.deleted r.1, r.2))
  | .deleteItem entry =>
    (shDeleteItem T tb entry).map (fun tb' => .ok (.item (tb.data entry), tb'))
  | .reset => some (.ok (.done, shReset T tb))
  | .grow newsize => (shGrow T tb newsize).map (·.map (fun tb' => (.done, tb')))
  | .write entry payload =>
    some (.ok (.item (tb.data entry), shWrite tb entry payload))

/-- What a call may be given. -/
def ShOp.Legal (T : ShTemplate κ ν) (tb : ShHash κ ν) : ShOp κ ν → Prop
  | .insertHash key hash | .lookupHash key hash => hash = T.hashKey key
  | .deleteItem entry | .write entry _ =>
    entry < tb.size ∧ (tb.data entry).status = .inUse
  | .grow newsize => tb.size < newsize ∧ newsize ≤ shMaxSize
  | _ => True

/-- **A run without errors**, from `SH_CREATE` on. The last call comes first in
the history. -/
inductive ShRun (T : ShTemplate κ ν) :
    List (ShOp κ ν × ShOut κ ν) → ShHash κ ν → Prop
  | create (nelements : UInt32) (tb : ShHash κ ν) :
    shCreate T nelements = .ok tb → ShRun T [] tb
  | step {h : List (ShOp κ ν × ShOut κ ν)} {tb tb' : ShHash κ ν} {op : ShOp κ ν}
      {out : ShOut κ ν} :
    ShRun T h tb → op.Legal T tb → shStep T tb op = some (.ok (out, tb')) →
      ShRun T ((op, out) :: h) tb'

/-! ## The map -/

/-- A map from keys to entries. -/
abbrev ShMap (κ ν : Type*) := κ → Option (ShElement κ ν)

def ShMap.insert (T : ShTemplate κ ν) (m : ShMap κ ν) (key : κ)
    (e : ShElement κ ν) : ShMap κ ν :=
  fun k => if T.equal key k then some e else m k

def ShMap.erase (T : ShTemplate κ ν) (m : ShMap κ ν) (key : κ) : ShMap κ ν :=
  fun k => if T.equal key k then none else m k

/-- Inserting a key into a map: an entry that is there is found, and else an
entry with the key is added. -/
def ShMap.Inserts (T : ShTemplate κ ν) (m : ShMap κ ν) (key : κ)
    (out : ShOut κ ν) (m' : ShMap κ ν) : Prop :=
  (∃ e, m key = some e ∧ out = .inserted true e ∧ m' = m) ∨
  (∃ e, m key = none ∧ out = .inserted false e ∧ e.key = key ∧
    m' = m.insert T key e)

/-- **One call, on the map.** -/
def MapStep (T : ShTemplate κ ν) (m : ShMap κ ν) :
    ShOp κ ν → ShOut κ ν → ShMap κ ν → Prop
  | .insert key, out, m' | .insertHash key _, out, m' => m.Inserts T key out m'
  | .lookup key, out, m' | .lookupHash key _, out, m' =>
    out = .looked (m key) ∧ m' = m
  | .delete key, out, m' => out = .deleted (m key).isSome ∧ m' = m.erase T key
  | .deleteItem _, out, m' =>
    ∃ e, out = .item e ∧ m e.key = some e ∧ m' = m.erase T e.key
  | .reset, out, m' => out = .done ∧ m' = fun _ => none
  | .grow _, out, m' => out = .done ∧ m' = m
  | .write _ payload, out, m' => ∃ e, out = .item e ∧ m e.key = some e ∧
    m' = m.insert T e.key { e with payload := payload }

/-- **A run of the map**, from the empty one on. -/
inductive MapRun (T : ShTemplate κ ν) :
    List (ShOp κ ν × ShOut κ ν) → ShMap κ ν → Prop
  | create : MapRun T [] (fun _ => none)
  | step {h : List (ShOp κ ν × ShOut κ ν)} {m m' : ShMap κ ν} {op : ShOp κ ν}
      {out : ShOut κ ν} :
    MapRun T h m → MapStep T m op out m' → MapRun T ((op, out) :: h) m'

/-- **A key was inserted and not deleted** since the last create or reset. -/
def Present (T : ShTemplate κ ν) (key : κ) : List (ShOp κ ν × ShOut κ ν) → Prop
  | [] => False
  | (.insert k, _) :: h | (.insertHash k _, _) :: h =>
    T.equal k key = true ∨ Present T key h
  | (.delete k, _) :: h => T.equal k key = false ∧ Present T key h
  | (.deleteItem _, .item e) :: h => T.equal e.key key = false ∧ Present T key h
  | (.reset, _) :: _ => False
  | _ :: h => Present T key h

theorem ShMap.isSome_insert (m : ShMap κ ν) (k key : κ) (e : ShElement κ ν) :
    (m.insert T k e key).isSome ↔ T.equal k key = true ∨ (m key).isSome := by
  unfold ShMap.insert
  split_ifs with h <;> simp [h]

theorem ShMap.isSome_erase (m : ShMap κ ν) (k key : κ) :
    (m.erase T k key).isSome ↔ T.equal k key = false ∧ (m key).isSome := by
  unfold ShMap.erase
  split_ifs with h <;> simp [h]

/-- A map respects key equality. -/
def ShMap.Respects (T : ShTemplate κ ν) (m : ShMap κ ν) : Prop :=
  ∀ a b, T.equal a b = true → m a = m b

/-- Equal keys are equal to the same keys. -/
theorem ShTemplate.equal_congr (T : ShTemplate κ ν) (k : κ) {a b : κ}
    (h : T.equal a b = true) : T.equal k a = T.equal k b := by
  rw [Bool.eq_iff_iff]
  exact ⟨fun hk => T.equal_equivalence.trans hk h,
    fun hk => T.equal_equivalence.trans hk (T.equal_equivalence.symm h)⟩

theorem ShMap.Respects.insert {m : ShMap κ ν} (h : m.Respects T) (key : κ)
    (e : ShElement κ ν) : (m.insert T key e).Respects T := by
  intro a b hab
  rw [ShMap.insert, T.equal_congr key hab, h a b hab]
  rfl

theorem ShMap.Respects.erase {m : ShMap κ ν} (h : m.Respects T) (key : κ) :
    (m.erase T key).Respects T := by
  intro a b hab
  rw [ShMap.erase, T.equal_congr key hab, h a b hab]
  rfl

theorem MapStep.respects {m m' : ShMap κ ν} {op : ShOp κ ν} {out : ShOut κ ν}
    (h : MapStep T m op out m') (hm : m.Respects T) : m'.Respects T := by
  have hins : ∀ key, m.Inserts T key out m' → m'.Respects T := by
    rintro key (⟨e, -, -, rfl⟩ | ⟨e, -, -, -, rfl⟩)
    · exact hm
    · exact hm.insert key e
  cases op with
  | insert key => exact hins key h
  | insertHash key hash => exact hins key h
  | lookup key | lookupHash key hash =>
    obtain ⟨-, rfl⟩ := h
    exact hm
  | delete key =>
    obtain ⟨-, rfl⟩ := h
    exact hm.erase key
  | deleteItem entry =>
    obtain ⟨e, -, -, rfl⟩ := h
    exact hm.erase e.key
  | reset =>
    obtain ⟨-, rfl⟩ := h
    exact fun _ _ _ => rfl
  | grow newsize =>
    obtain ⟨-, rfl⟩ := h
    exact hm
  | write entry payload =>
    obtain ⟨e, -, -, rfl⟩ := h
    exact hm.insert e.key _

theorem MapRun.respects {h : List (ShOp κ ν × ShOut κ ν)} {m : ShMap κ ν}
    (hr : MapRun T h m) : m.Respects T := by
  induction hr with
  | create => exact fun _ _ _ => rfl
  | step _ hs ih => exact hs.respects ih

/-- **A key is in the map if and only if it was inserted and not deleted** since
the last create or reset. -/
theorem MapRun.isSome_iff {h : List (ShOp κ ν × ShOut κ ν)} {m : ShMap κ ν}
    (hr : MapRun T h m) (key : κ) : (m key).isSome ↔ Present T key h := by
  induction hr with
  | create => simp [Present]
  | @step h m m' op out hr hs ih =>
    -- an entry that is there is there under every equal key
    have hthere : ∀ {k e}, m k = some e → T.equal k key = true → (m key).isSome := by
      intro k e hk hkey
      rw [← hr.respects k key hkey, hk]
      rfl
    have hins : ∀ k, m.Inserts T k out m' →
        ((m' key).isSome ↔ T.equal k key = true ∨ Present T key h) := by
      rintro k (⟨e, hk, -, rfl⟩ | ⟨e, -, -, -, rfl⟩)
      · rw [← ih]
        exact ⟨Or.inr, fun hc => hc.elim (hthere hk) id⟩
      · rw [ShMap.isSome_insert, ih]
    cases op with
    | insert k => exact hins k hs
    | insertHash k hash => exact hins k hs
    | lookup k | lookupHash k hash =>
      obtain ⟨rfl, rfl⟩ := hs
      exact ih
    | delete k =>
      obtain ⟨rfl, rfl⟩ := hs
      rw [ShMap.isSome_erase, ih]
      rfl
    | deleteItem entry =>
      obtain ⟨e, rfl, -, rfl⟩ := hs
      rw [ShMap.isSome_erase, ih]
      rfl
    | reset =>
      obtain ⟨rfl, rfl⟩ := hs
      simp [Present]
    | grow newsize =>
      obtain ⟨rfl, rfl⟩ := hs
      exact ih
    | write entry payload =>
      obtain ⟨e, rfl, he, rfl⟩ := hs
      rw [ShMap.isSome_insert]
      show _ ↔ Present T key h
      rw [← ih]
      exact ⟨fun hc => hc.elim (hthere he) id, Or.inr⟩

/-! ## The map a table stands for -/

/-- **A table as a map**: the entry of a key. -/
def shAbs (T : ShTemplate κ ν) (tb : ShHash κ ν) : ShMap κ ν := fun key =>
  ((List.range tb.size).find? (fun i =>
    decide ((tb.data i).status = .inUse) && T.equal (tb.data i).key key)).map tb.data

theorem shAbs_eq_some (h : ShRep T tb) {key : κ} {e : ShElement κ ν} :
    shAbs T tb key = some e ↔ tb.Holds e ∧ T.equal e.key key = true := by
  unfold shAbs
  constructor
  · intro hs
    obtain ⟨i, hi, rfl⟩ := Option.map_eq_some_iff.mp hs
    have hp := List.find?_some hi
    have hmem := List.mem_of_find?_eq_some hi
    simp only [Bool.and_eq_true, decide_eq_true_eq] at hp
    exact ⟨ShHash.holds_data (List.mem_range.mp hmem) hp.1, hp.2⟩
  · rintro ⟨⟨i, hi, hs⟩, hkey⟩
    obtain ⟨hst, rfl⟩ := shSlot_eq_some.mp hs
    cases hf : (List.range tb.size).find? (fun i =>
        decide ((tb.data i).status = .inUse) && T.equal (tb.data i).key key) with
    | none =>
      have := List.find?_eq_none.mp hf i (List.mem_range.mpr hi)
      simp [hst, hkey] at this
    | some j =>
      have hp := List.find?_some hf
      have hmem := List.mem_range.mp (List.mem_of_find?_eq_some hf)
      simp only [Bool.and_eq_true, decide_eq_true_eq] at hp
      -- both buckets hold the key
      have hij : j = i := h.keys_distinct j hmem i hi hp.1 hst
        (T.equal_equivalence.trans hp.2 (T.equal_equivalence.symm hkey))
      rw [hij, Option.map_some]

theorem shAbs_eq_none (h : ShRep T tb) {key : κ} :
    shAbs T tb key = none ↔ ∀ e, tb.Holds e → T.equal e.key key = false := by
  rw [Option.eq_none_iff_forall_ne_some]
  refine forall_congr' (fun e => ?_)
  rw [ne_eq, shAbs_eq_some h, not_and, Bool.not_eq_true]

/-- The map has every entry of the table under its key. -/
theorem shAbs_data (h : ShRep T tb) {i : ℕ} (hi : i < tb.size)
    (hin : (tb.data i).status = .inUse) : shAbs T tb (tb.data i).key = some (tb.data i) :=
  (shAbs_eq_some h).mpr ⟨ShHash.holds_data hi hin, T.equal_equivalence.refl _⟩

theorem isSome_shAbs (h : ShRep T tb) (key : κ) :
    (shAbs T tb key).isSome ↔ ∃ e, tb.Holds e ∧ T.equal e.key key = true := by
  rw [Option.isSome_iff_exists]
  exact exists_congr (fun e => shAbs_eq_some h)

/-- A search finds the entry of the map. -/
theorem Finds.map_data (h : ShRep T tb) {key : κ} {r : Option ℕ}
    (hf : Finds T tb key r) : r.map tb.data = shAbs T tb key := by
  cases r with
  | none =>
    rw [Option.map_none, eq_comm, shAbs_eq_none h]
    exact fun e he => hf.not_holds he
  | some i =>
    rw [Option.map_some, eq_comm, shAbs_eq_some h]
    exact ⟨hf.holds, hf.2.2⟩

/-- Tables with the same elements are the same map. -/
theorem shAbs_congr {tb' : ShHash κ ν} (h : ShRep T tb) (h' : ShRep T tb')
    (heq : ∀ e, tb'.Holds e ↔ tb.Holds e) : shAbs T tb' = shAbs T tb := by
  funext key
  ext e
  rw [shAbs_eq_some h', shAbs_eq_some h, heq]

theorem shAbs_of_empty (h : ShRep T tb) (he : ∀ e, ¬ tb.Holds e) :
    shAbs T tb = fun _ => none := by
  funext key
  exact (shAbs_eq_none h).mpr (fun e hc => absurd hc (he e))

/-- An element added, in place of all with its key. -/
theorem shAbs_insert {tb' : ShHash κ ν} (h : ShRep T tb) (h' : ShRep T tb')
    {key : κ} {x : ShElement κ ν} (hx : T.equal x.key key = true)
    (heq : ∀ e, tb'.Holds e ↔
      (tb.Holds e ∧ T.equal e.key key = false) ∨ e = x) :
    shAbs T tb' = (shAbs T tb).insert T key x := by
  funext k
  ext e
  rw [shAbs_eq_some h', heq, ShMap.insert]
  by_cases hk : T.equal key k = true
  · rw [if_pos hk, Option.some.injEq, ← T.equal_congr _ hk]
    constructor
    · rintro ⟨⟨-, hne⟩ | rfl, he⟩
      · rw [hne] at he
        exact absurd he (by simp)
      · rfl
    · rintro rfl
      exact ⟨Or.inr rfl, hx⟩
  · rw [if_neg hk, shAbs_eq_some h]
    have hne : ∀ e : ShElement κ ν, T.equal e.key key = true →
        T.equal e.key k = true → False := fun e h₁ h₂ =>
      hk (T.equal_equivalence.trans (T.equal_equivalence.symm h₁) h₂)
    constructor
    · rintro ⟨⟨he, -⟩ | rfl, hek⟩
      · exact ⟨he, hek⟩
      · exact (hne _ hx hek).elim
    · rintro ⟨he, hek⟩
      refine ⟨Or.inl ⟨he, ?_⟩, hek⟩
      rw [← Bool.not_eq_true]
      exact fun hc => hne e hc hek

theorem shAbs_erase {tb' : ShHash κ ν} (h : ShRep T tb) (h' : ShRep T tb')
    {key : κ}
    (heq : ∀ e, tb'.Holds e ↔ tb.Holds e ∧ T.equal e.key key = false) :
    shAbs T tb' = (shAbs T tb).erase T key := by
  funext k
  ext e
  rw [shAbs_eq_some h', heq, ShMap.erase]
  by_cases hk : T.equal key k = true
  · rw [if_pos hk, ← T.equal_congr _ hk]
    constructor
    · rintro ⟨⟨-, hne⟩, he⟩
      rw [hne] at he
      exact absurd he (by simp)
    · intro hc
      exact absurd hc (by simp)
  · rw [if_neg hk, shAbs_eq_some h]
    refine ⟨fun hc => ⟨hc.1.1, hc.2⟩, fun hc => ⟨⟨hc.1, ?_⟩, hc.2⟩⟩
    rw [← Bool.not_eq_true]
    exact fun hek => hk (T.equal_equivalence.trans
      (T.equal_equivalence.symm hek) hc.2)

/-- **The map is finite**, of as many entries as the table has members. -/
theorem encard_shAbs (h : ShRep T tb) :
    {e | ∃ key, shAbs T tb key = some e}.encard = tb.members := by
  have himage : {e | ∃ key, shAbs T tb key = some e}
      = tb.data '' (Finset.range tb.size).filter
          (fun i => (tb.data i).status = .inUse) := by
    ext e
    rw [Set.mem_ofPred_eq, Set.mem_image]
    constructor
    · rintro ⟨key, hk⟩
      obtain ⟨⟨i, hi, hs⟩, -⟩ := (shAbs_eq_some h).mp hk
      obtain ⟨hst, rfl⟩ := shSlot_eq_some.mp hs
      exact ⟨i, by simp [hi, hst], rfl⟩
    · rintro ⟨i, hi, rfl⟩
      rw [Finset.mem_coe, Finset.mem_filter, Finset.mem_range] at hi
      exact ⟨(tb.data i).key, shAbs_data h hi.1 hi.2⟩
  have hinj : Set.InjOn tb.data ((Finset.range tb.size).filter
      (fun i => (tb.data i).status = .inUse)) := by
    intro i hi j hj hij
    rw [Finset.mem_coe, Finset.mem_filter, Finset.mem_range] at hi hj
    refine h.keys_distinct i hi.1 j hj.1 hi.2 hj.2 ?_
    rw [hij]
    exact T.equal_equivalence.refl _
  rw [himage, hinj.encard_image, Set.encard_coe_eq_coe_finsetCard, h.members_eq]

/-! ## The table refines the map -/

/-- What holds between two operations. -/
structure ShInv (T : ShTemplate κ ν) (tb : ShHash κ ν) : Prop where
  rep : ShRep T tb
  threshold : tb.growThreshold = shGrowThreshold tb.size

theorem Inserted.inserts (h : ShRep T tb) {key : κ} {ins : ShInserted κ ν}
    (hins : Inserted T tb key ins) :
    (shAbs T tb).Inserts T key ins.out.1 (shAbs T ins.table) := by
  have hkey := hins.finds.2.2
  cases hf : ins.found with
  | true =>
    refine Or.inl ⟨ins.table.data ins.entry, ?_, ?_, ?_⟩
    · rw [shAbs_eq_some h]
      refine ⟨?_, hkey⟩
      have := (hins.holds_iff _).mp hins.finds.holds
      rw [hf] at this
      exact this.resolve_right (by simp)
    · rw [ShInserted.out, hf]
    · refine shAbs_congr h hins.rep (fun e => ?_)
      rw [hins.holds_iff, hf]
      simp
  | false =>
    have hnone : ∀ e, tb.Holds e → T.equal e.key key = false := by
      intro e he
      rw [← Bool.not_eq_true]
      intro hc
      have := hins.found_iff.mpr ⟨e, he, hc⟩
      rw [hf] at this
      exact absurd this (by simp)
    refine Or.inr ⟨ins.table.data ins.entry, (shAbs_eq_none h).mpr hnone, ?_,
      hins.key_eq hf, ?_⟩
    · rw [ShInserted.out, hf]
    · refine shAbs_insert h hins.rep hkey (fun e => ?_)
      rw [hins.holds_iff, hf]
      exact ⟨fun hc => hc.imp (fun he => ⟨he, hnone e he⟩) (fun he => he.2),
        fun hc => hc.imp (fun he => he.1) (fun he => ⟨rfl, he⟩)⟩

theorem shWrite_self (tb : ShHash κ ν) (entry : ℕ) (payload : ν) :
    (shWrite tb entry payload).data entry
      = { tb.data entry with payload := payload } := by
  show Function.update tb.data entry _ entry = _
  rw [Function.update_self]

theorem shWrite_of_ne (tb : ShHash κ ν) {entry i : ℕ} (hi : i ≠ entry)
    (payload : ν) : (shWrite tb entry payload).data i = tb.data i := by
  show Function.update tb.data entry _ i = _
  rw [Function.update_of_ne hi]

/-- Writing into an element changes neither its key nor its place. -/
theorem shWrite_rep (h : ShRep T tb) (entry : ℕ) (payload : ν) :
    ShRep T (shWrite tb entry payload) := by
  have hsame : ∀ i, ((shWrite tb entry payload).data i).status = (tb.data i).status ∧
      ((shWrite tb entry payload).data i).key = (tb.data i).key ∧
      T.shEntryHash ((shWrite tb entry payload).data i)
        = T.shEntryHash (tb.data i) := by
    intro i
    by_cases hi : i = entry
    · rw [hi, shWrite_self]
      exact ⟨rfl, rfl, rfl⟩
    · rw [shWrite_of_ne tb hi]
      exact ⟨rfl, rfl, rfl⟩
  have hst := fun i => (hsame i).1
  have hkey := fun i => (hsame i).2.1
  have hhash := fun i => (hsame i).2.2
  refine ⟨⟨h.sized.size_eq, h.sized.sizemask_eq⟩, ?_, ?_, ?_, ?_, ?_, ?_, ?_⟩
  · simp only [hst]
    exact h.members_eq
  · simp only [hst]
    exact h.exists_empty
  · simp only [hst, hkey]
    exact h.keys_distinct
  · simp only [hst, hkey, hhash]
    exact h.hash_eq
  · simp only [hst, hhash]
    exact h.no_gap
  · simp only [hst, hhash]
    exact h.distance_step
  · simp only [hst, hhash]
    exact h.after_empty

/-- A written element stands in place of the one that was there. -/
theorem shWrite_holds (h : ShRep T tb) {entry : ℕ} (he : entry < tb.size)
    (hin : (tb.data entry).status = .inUse) (payload : ν) (e : ShElement κ ν) :
    (shWrite tb entry payload).Holds e ↔
      (tb.Holds e ∧ T.equal e.key (tb.data entry).key = false) ∨
        e = { tb.data entry with payload := payload } := by
  have hself : shSlot (shWrite tb entry payload).data entry
      = some { tb.data entry with payload := payload } := by
    rw [shSlot_eq_some, shWrite_self]
    exact ⟨hin, rfl⟩
  have hother : ∀ i, i ≠ entry →
      shSlot (shWrite tb entry payload).data i = shSlot tb.data i := by
    intro i hi
    rw [shSlot, shSlot, shWrite_of_ne tb hi]
  constructor
  · rintro ⟨i, hi, hs⟩
    by_cases hie : i = entry
    · rw [hie, hself, Option.some.injEq] at hs
      exact Or.inr hs.symm
    · rw [hother i hie] at hs
      obtain ⟨hst, rfl⟩ := shSlot_eq_some.mp hs
      refine Or.inl ⟨⟨i, hi, hs⟩, ?_⟩
      rw [← Bool.not_eq_true]
      exact fun hc => hie (h.keys_distinct i hi entry he hst hin hc)
  · rintro (⟨⟨i, hi, hs⟩, hne⟩ | rfl)
    · refine ⟨i, hi, ?_⟩
      rw [hother i (fun hie => ?_)]
      · exact hs
      · obtain ⟨-, rfl⟩ := shSlot_eq_some.mp hs
        rw [hie, T.equal_equivalence.refl] at hne
        exact absurd hne (by simp)
    · exact ⟨entry, he, hself⟩

/-- Inserting a key, as a call. -/
theorem shInsert_refines (h : ShInv T tb) (key : κ) :
    ∃ r, (shInsert T tb key).map (·.map ShInserted.out) = some r ∧
      ∀ out tb', r = .ok (out, tb') →
        ShInv T tb' ∧ (shAbs T tb).Inserts T key out (shAbs T tb') := by
  obtain ⟨r, hr, hi⟩ := shInsertHashInternal_inserted h.rep h.threshold key
  refine ⟨_, by rw [shInsert, hr, Option.map_some], fun out tb' ho => ?_⟩
  cases r with
  | error e => exact absurd ho (by simp [Except.map])
  | ok ins =>
    obtain ⟨rfl, rfl⟩ : ins.out.1 = out ∧ ins.table = tb' := by
      simpa [Except.map, ShInserted.out] using ho
    have := hi ins rfl
    exact ⟨⟨this.rep, this.threshold⟩, this.inserts h.rep⟩

/-- Looking a key up, as a call. -/
theorem shLookup_refines (h : ShRep T tb) (key : κ) :
    (shLookup T tb key).map
        (fun r => (Except.ok (ShOut.looked (r.map tb.data), tb) : Except ShError _))
      = some (.ok (.looked (shAbs T tb key), tb)) := by
  obtain ⟨r, hr, hf⟩ := shLookupHashInternal_finds h key
  rw [shLookup, hr, Option.map_some, hf.map_data h]

/-- **Each call ends, keeps what holds between calls, and does to the map what
it should.** -/
theorem shStep_refines (h : ShInv T tb) {op : ShOp κ ν} (hop : op.Legal T tb) :
    ∃ r, shStep T tb op = some r ∧ ∀ out tb', r = .ok (out, tb') →
      ShInv T tb' ∧ MapStep T (shAbs T tb) op out (shAbs T tb') := by
  cases op with
  | insert key => exact shInsert_refines h key
  | insertHash key hash =>
    obtain rfl : hash = T.hashKey key := hop
    exact shInsert_refines h key
  | lookup key =>
    refine ⟨_, shLookup_refines h.rep key, fun out tb' ho => ?_⟩
    cases ho
    exact ⟨h, rfl, rfl⟩
  | lookupHash key hash =>
    obtain rfl : hash = T.hashKey key := hop
    refine ⟨_, shLookup_refines h.rep key, fun out tb' ho => ?_⟩
    cases ho
    exact ⟨h, rfl, rfl⟩
  | delete key =>
    obtain ⟨found, tb₁, hd, hrep, hsize, hthr, hfound, hholds⟩ :=
      shDelete_removed h.rep key
    refine ⟨_, by rw [shStep, hd, Option.map_some], fun out tb' ho => ?_⟩
    cases ho
    refine ⟨⟨hrep, by rw [hthr, hsize, h.threshold]⟩, ?_,
      shAbs_erase h.rep hrep hholds⟩
    rw [← isSome_shAbs h.rep] at hfound
    rw [show found = (shAbs T tb key).isSome from Bool.eq_iff_iff.mpr hfound]
  | deleteItem entry =>
    obtain ⟨he, hin⟩ := hop
    obtain ⟨tb₁, hd, hrem⟩ := shRemove_removed h.rep he hin
    refine ⟨_, by rw [shStep, shDeleteItem, hd, Option.map_some], fun out tb' ho => ?_⟩
    cases ho
    refine ⟨⟨hrem.rep, by rw [hrem.threshold_eq, hrem.size_eq, h.threshold]⟩,
      tb.data entry, rfl, shAbs_data h.rep he hin,
      shAbs_erase h.rep hrem.rep (hrem.holds_iff_key h.rep he hin)⟩
  | reset =>
    refine ⟨_, rfl, fun out tb' ho => ?_⟩
    cases ho
    obtain ⟨hrep, hempty⟩ := shReset_rep h.rep
    exact ⟨⟨hrep, h.threshold⟩, rfl, shAbs_of_empty hrep hempty⟩
  | grow newsize =>
    obtain ⟨hlt, hmax⟩ := hop
    obtain ⟨r, hr, hgrow⟩ := shGrow_rep h.rep hlt hmax
    refine ⟨_, by rw [shStep, hr, Option.map_some], fun out tb' ho => ?_⟩
    cases r with
    | error e => exact absurd ho (by simp [Except.map])
    | ok tb₁ =>
      obtain ⟨rfl, rfl⟩ : ShOut.done = out ∧ tb₁ = tb' := by
        simpa [Except.map] using ho
      obtain ⟨hrep, hthr, -, -, hholds⟩ := hgrow tb₁ rfl
      exact ⟨⟨hrep, hthr⟩, rfl, shAbs_congr h.rep hrep hholds⟩
  | write entry payload =>
    obtain ⟨he, hin⟩ := hop
    refine ⟨_, rfl, fun out tb' ho => ?_⟩
    cases ho
    have hrep := shWrite_rep h.rep entry payload
    exact ⟨⟨hrep, h.threshold⟩, tb.data entry, rfl, shAbs_data h.rep he hin,
      shAbs_insert h.rep hrep (T.equal_equivalence.refl _) (shWrite_holds h.rep he hin payload)⟩

/-- What holds between two operations holds after every run. -/
theorem ShRun.inv {h : List (ShOp κ ν × ShOut κ ν)} (hr : ShRun T h tb) :
    ShInv T tb ∧ MapRun T h (shAbs T tb) := by
  induction hr with
  | create nelements tb hc =>
    obtain ⟨hrep, hthr, hempty⟩ := shCreate_rep hc
    refine ⟨⟨hrep, hthr⟩, ?_⟩
    rw [shAbs_of_empty hrep hempty]
    exact .create
  | step hr hop hs ih =>
    obtain ⟨r, hr', hstep⟩ := shStep_refines ih.1 hop
    rw [hs, Option.some.injEq] at hr'
    obtain ⟨hinv, hmap⟩ := hstep _ _ hr'.symm
    exact ⟨hinv, .step ih.2 hmap⟩

/-- **Every run of a simplehash table is a run of a finite map.** After any run
the representation invariant holds; the calls of the run have given back what
they give back on a map, the table standing for that map now; the map has the
entries of the members, a key being in it if and only if it was inserted and not
deleted since; and whatever may be called next ends, and does to the map what
it should. -/
theorem shRun_refines {h : List (ShOp κ ν × ShOut κ ν)} (hr : ShRun T h tb) :
    ShRep T tb ∧ MapRun T h (shAbs T tb) ∧
      {e | ∃ key, shAbs T tb key = some e}.encard = tb.members ∧
      (∀ key, (shAbs T tb key).isSome ↔ Present T key h) ∧
      ∀ op : ShOp κ ν, op.Legal T tb → ∃ r, shStep T tb op = some r ∧
        ∀ out tb', r = .ok (out, tb') →
          ShRep T tb' ∧ MapStep T (shAbs T tb) op out (shAbs T tb') := by
  obtain ⟨hinv, hmap⟩ := hr.inv
  refine ⟨hinv.rep, hmap, encard_shAbs hinv.rep, hmap.isSome_iff, fun op hop => ?_⟩
  obtain ⟨r, hs, hstep⟩ := shStep_refines hinv hop
  exact ⟨r, hs, fun out tb' ho => ⟨(hstep out tb' ho).1.rep, (hstep out tb' ho).2⟩⟩

/-! ## A run -/

/-- Numbers for keys, with a given hash function: the parameters of examples. -/
def numberTemplate (hashKey : ℕ → UInt32) : ShTemplate ℕ ℕ where
  hashKey := hashKey
  equal := fun a b => a == b
  storeHash := false
  growMaxDib := 25
  growMaxMove := 150
  elementSize := 16
  zeroElement := ⟨0, 0, .empty, 0⟩
  equal_equivalence := ⟨fun a => by simp, fun h => by simpa using Eq.symm (by simpa using h),
    fun h₁ h₂ => by simp at h₁ h₂ ⊢; exact h₁.trans h₂⟩
  hash_eq_of_equal := fun a b h => by rw [show a = b by simpa using h]
  zero_status := rfl

/-- A key hashes to its last octal digit. -/
def modEight : ShTemplate ℕ ℕ := numberTemplate fun key => UInt32.ofNat (key % 8)

/-- Three keys are inserted. In a table of four buckets they all have the last one for their
optimal bucket. -/
def threeInserted : List (ShOp ℕ ℕ × ShOut ℕ ℕ) :=
  [(.insert 11, .inserted false ⟨11, 0, .inUse, 0⟩),
    (.insert 7, .inserted false ⟨7, 0, .inUse, 0⟩),
    (.insert 3, .inserted false ⟨3, 0, .inUse, 0⟩)]

/-- The three keys wrap around the end of four buckets. A fourth one makes the table grow to
eight, where they hash to two buckets and the fourth wraps around; a key is deleted and the
fourth, which moves back for it, looked up. -/
theorem shRun_refines_grown :
    ∃ tb tb', ShRun modEight threeInserted tb ∧
      tb.size = 4 ∧ [3, 0, 1].map (fun i => (tb.data i).key) = [3, 7, 11] ∧
      ShRun modEight ((.lookup 15, .looked (some ⟨15, 0, .inUse, 0⟩)) ::
        (.delete 7, .deleted true) ::
        (.insert 15, .inserted false ⟨15, 0, .inUse, 0⟩) :: threeInserted) tb' ∧
      tb'.size = 8 ∧ [3, 4, 7].map (fun i => (tb'.data i).key) = [3, 11, 15] ∧
      ShRep modEight tb' ∧ (shAbs modEight tb' 15).isSome = true ∧
      (shAbs modEight tb' 7).isSome = false := by
  obtain ⟨tb, tb', hrun, hsize, hkeys, hrun', hsize', hkeys'⟩ : ∃ tb tb',
      ShRun modEight threeInserted tb ∧
      tb.size = 4 ∧ [3, 0, 1].map (fun i => (tb.data i).key) = [3, 7, 11] ∧
      ShRun modEight ((.lookup 15, .looked (some ⟨15, 0, .inUse, 0⟩)) ::
        (.delete 7, .deleted true) ::
        (.insert 15, .inserted false ⟨15, 0, .inUse, 0⟩) :: threeInserted) tb' ∧
      tb'.size = 8 ∧ [3, 4, 7].map (fun i => (tb'.data i).key) = [3, 11, 15] :=
    ⟨_, _, .step (.step (.step (.create 3 _ rfl) trivial rfl) trivial rfl) trivial rfl, rfl, rfl,
      .step (.step (.step (.step (.step (.step (.create 3 _ rfl) trivial rfl) trivial rfl) trivial
        rfl) trivial rfl) trivial rfl) trivial rfl, rfl, rfl⟩
  have h := shRun_refines hrun'
  refine ⟨tb, tb', hrun, hsize, hkeys, hrun', hsize', hkeys', h.1, ?_, ?_⟩
  · rw [h.2.2.2.1 15]
    simp [Present, modEight, numberTemplate]
  · rw [Bool.eq_false_iff, ne_eq, h.2.2.2.1 7]
    simp [Present, modEight, numberTemplate]

end SimpleHash
