import PgCitus.SimpleHashResize

/-!
# Room for the members a table is created for

`SH_CREATE` is to make a table with enough space for `nelements` members, and an insertion
grows the table once it is nine tenths full. So `nelements` is divided by nine tenths, and
the size is the next power of two. Both the quotient and the threshold are cut off to
integers. Where the quotient already is a power of two, what was cut off is missing from
the threshold: the last of the members finds the table full.

That happens for one number under each power of two (`le_growThreshold_iff`), and for all
numbers that not even the largest table has room for. For any other number no insertion of
the first `nelements` does, whatever the keys and their hashes are: a table that is grown
because of long runs only has more room (`neverFull_of_le`). Where no run is too long, the
table fills up one by one (`le_of_neverFull`).
-/

namespace SimpleHash

open PgBitutils

variable {κ ν : Type*} {T : ShTemplate κ ν} {tb : ShHash κ ν}

/-! ## The threshold of a new table -/

/-- The size that `SH_CREATE` chooses. -/
theorem shCreate_size {nelements : UInt32} (h : shCreate T nelements = .ok tb) :
    tb.size = 2 ^ Nat.clog 2 (max (min shMaxSize (nelements.toNat * 10 / 9)) 2) := by
  have hle := Nat.min_le_left shMaxSize (nelements.toNat * 10 / 9)
  unfold shMaxSize at hle
  have hpow : pgNextpower2_64 (max (min shMaxSize (nelements.toNat * 10 / 9)) 2) = _ :=
    pgNextpower2_64_eq (by omega) (by unfold shMaxSize; omega)
  unfold shCreate shComputeParameters at h
  simp only [hpow] at h
  split_ifs at h
  obtain rfl := Except.ok.inj h
  rfl

/-- A new table has no members. -/
theorem shCreate_members {nelements : UInt32} (h : shCreate T nelements = .ok tb) :
    tb.members = 0 := by
  obtain ⟨-, -, -, hmem, -⟩ := shComputeParameters_ok (Nat.min_le_left (2 ^ 32) _) h
  exact hmem

/-- The last digit of a power of two. -/
theorem two_pow_mod_ten (k : ℕ) : 2 ^ (k + 1) % 10 = 2 ∨ 2 ^ (k + 1) % 10 = 4 ∨
    2 ^ (k + 1) % 10 = 6 ∨ 2 ^ (k + 1) % 10 = 8 := by
  induction k with
  | zero => exact Or.inl rfl
  | succ k ih =>
    rw [Nat.pow_succ]
    omega

/-- **A number that is just over nine tenths of a power of two**, with the least power of
two that has room for it when it is divided. -/
theorem exceeds_iff {n c : ℕ} (hc : 1 ≤ c) (hc' : c ≤ 31) (hle : n * 10 / 9 ≤ 2 ^ c)
    (hlt : c = 1 ∨ 2 ^ (c - 1) < n * 10 / 9) :
    2 ^ c * 9 / 10 < n ↔ ∃ k, 1 ≤ k ∧ k ≤ 31 ∧ n = 2 ^ k * 9 / 10 + 1 := by
  constructor
  · intro h
    exact ⟨c, hc, hc', by omega⟩
  · rintro ⟨k, hk, -, rfl⟩
    obtain ⟨j, rfl⟩ := Nat.exists_eq_add_of_le' hk
    -- the quotient is that power of two
    have hquot : (2 ^ (j + 1) * 9 / 10 + 1) * 10 / 9 = 2 ^ (j + 1) := by
      have := two_pow_mod_ten j
      omega
    rw [hquot] at hle hlt
    have hjc : j + 1 ≤ c := (Nat.pow_le_pow_iff_right (by decide)).mp hle
    have hcj : c ≤ j + 1 := by
      rcases hlt with rfl | hlt
      · omega
      · have := (Nat.pow_lt_pow_iff_right (by decide)).mp hlt
        omega
    obtain rfl : c = j + 1 := le_antisymm hcj hjc
    exact Nat.lt_succ_self _

/-- The binary logarithm of the size of a new table, by what it is created for. -/
theorem shCreate_log {nelements : UInt32} (h : shCreate T nelements = .ok tb) :
    ∃ c, 1 ≤ c ∧ c ≤ 32 ∧ tb.size = 2 ^ c ∧
      min shMaxSize (nelements.toNat * 10 / 9) ≤ 2 ^ c ∧
      (c = 1 ∨ 2 ^ (c - 1) < nelements.toNat * 10 / 9) := by
  have hsize := shCreate_size h
  generalize hx : max (min shMaxSize (nelements.toNat * 10 / 9)) 2 = x at hsize
  have htwo : 2 ≤ x := by omega
  have hmax : x ≤ 2 ^ 32 := by
    have hle := Nat.min_le_left shMaxSize (nelements.toNat * 10 / 9)
    unfold shMaxSize at hle hx
    omega
  have hle : x ≤ 2 ^ Nat.clog 2 x := Nat.le_pow_clog (by decide) x
  refine ⟨Nat.clog 2 x, Nat.clog_pos (by decide) htwo, Nat.clog_le_of_le_pow hmax, hsize,
    by omega, ?_⟩
  by_cases hone : Nat.clog 2 x = 1
  · exact Or.inl hone
  · -- the power before is at least two, and less than what is rounded up
    have hlt : 2 ^ (Nat.clog 2 x - 1) < x := Nat.pow_pred_clog_lt_self (by decide) htwo
    have hpos := Nat.clog_pos (by decide : 1 < 2) htwo
    have hpow : 2 ^ 1 ≤ 2 ^ (Nat.clog 2 x - 1) := Nat.pow_le_pow_right (by decide) (by omega)
    exact Or.inr (by omega)

/-- **What a new table has room for**: all it is created for, but for one number under each
power of two, and numbers that are too large for any table. -/
theorem le_growThreshold_iff {nelements : UInt32} (h : shCreate T nelements = .ok tb) :
    nelements.toNat ≤ shGrowThreshold tb.size ↔ nelements.toNat ≤ 4209067950 ∧
      ∀ k, 1 ≤ k → k ≤ 31 → nelements.toNat ≠ 2 ^ k * 9 / 10 + 1 := by
  obtain ⟨c, hc, hc', hsize, hle, hlt⟩ := shCreate_log h
  generalize nelements.toNat = n at hle hlt
  rw [hsize]
  unfold shGrowThreshold
  unfold shMaxSize at hle ⊢
  by_cases hmax : c = 32
  · subst hmax
    rw [if_pos rfl]
    refine ⟨fun hn => ⟨hn, fun k _ hk' heq => ?_⟩, fun hn => hn.1⟩
    -- such a number would have a smaller table
    have hpow : 2 ^ k ≤ 2 ^ 31 := Nat.pow_le_pow_right (by decide) hk'
    omega
  · have hpow : 2 ^ c ≤ 2 ^ 31 := Nat.pow_le_pow_right (by decide) (by omega)
    have hquot : n * 10 / 9 ≤ 2 ^ c := by omega
    have hexceeds := exceeds_iff hc (by omega) hquot hlt
    rw [if_neg (by omega), ← not_lt, hexceeds]
    constructor
    · intro hno
      exact ⟨by omega, fun k hk hk' heq => hno ⟨k, hk, hk', heq⟩⟩
    · rintro ⟨-, hno⟩ ⟨k, hk, hk', heq⟩
      exact hno k hk hk' heq

/-! ## Inserting one member -/

/-- A pass of `SH_INSERT_HASH_INTERNAL`. -/
def insertPass (T : ShTemplate κ ν) (key : κ) (hash : UInt32) (tb : ShHash κ ν) :
    Loop.Step (ShHash κ ν) (Except ShError (ShInserted κ ν)) :=
  if tb.growThreshold ≤ tb.members then
    if tb.size = shMaxSize then .done (.error .sizeExceeded)
    else
      match shGrow T tb (tb.size * 2) with
      | none => .stuck
      | some (.error e) => .done (.error e)
      | some (.ok tb') => shInsertAttempt T tb' key hash
  else shInsertAttempt T tb key hash

/-- What an attempt makes of the table, if it ends with an element. -/
theorem shInsertAttempt_table {key : κ} {hash : UInt32} {ins : ShInserted κ ν}
    (h : shInsertAttempt T tb key hash = .done (.ok ins)) :
    ins.table.size = tb.size ∧ ins.table.growThreshold = tb.growThreshold ∧
      ins.table.members = if ins.found then tb.members else u32 (tb.members + 1) := by
  unfold shInsertAttempt at h
  cases hp : shInsertProbe T tb key hash with
  | none => rw [hp] at h; cases h
  | some p =>
    rw [hp] at h
    cases p with
    | found c => cases h; exact ⟨rfl, rfl, rfl⟩
    | unused c => cases h; exact ⟨rfl, rfl, rfl⟩
    | restart => cases h
    | displace c =>
      dsimp only at h
      rcases hf : shInsertFindEmpty T tb c with _ | _ | e
      · rw [hf] at h; cases h
      · rw [hf] at h; cases h
      · rw [hf] at h
        dsimp only at h
        cases hs : shShiftForward tb c e with
        | none => rw [hs] at h; cases h
        | some data => rw [hs] at h; cases h; exact ⟨rfl, rfl, rfl⟩

/-- **A pass is an attempt** in the table or in a larger one with the same members, unless
it raises an error. -/
theorem insertPass_cases (h : ShRep T tb) (key : κ) (hash : UInt32) :
    (∃ e, insertPass T key hash tb = .done (.error e)) ∨
    ∃ tb', ShRep T tb' ∧ tb.size ≤ tb'.size ∧ tb'.members = tb.members ∧
      insertPass T key hash tb = shInsertAttempt T tb' key hash := by
  unfold insertPass
  by_cases hfull : tb.growThreshold ≤ tb.members
  · rw [if_pos hfull]
    by_cases hmax : tb.size = shMaxSize
    · rw [if_pos hmax]
      exact Or.inl ⟨_, rfl⟩
    · rw [if_neg hmax]
      have htwo := h.sized.two_le
      obtain ⟨r, hr, hgrow⟩ := shGrow_rep h (by omega) (h.sized.double_le hmax)
      rw [hr]
      cases r with
      | error e => exact Or.inl ⟨e, rfl⟩
      | ok tb' =>
        obtain ⟨hrep, -, hmem, hsize, -⟩ := hgrow tb' rfl
        exact Or.inr ⟨tb', hrep, by omega, hmem, rfl⟩
  · rw [if_neg hfull]
    exact Or.inr ⟨tb, h, Nat.le_refl _, rfl, rfl⟩

/-- Every table an insertion comes to is as large, with the same members. -/
theorem size_le_of_reached (h : ShRep T tb) {key : κ} {hash : UInt32} {s : ShHash κ ν}
    (hr : Loop.Reached (insertPass T key hash) tb s) :
    ShRep T s ∧ tb.size ≤ s.size ∧ s.members = tb.members := by
  induction hr with
  | start => exact ⟨h, Nat.le_refl _, rfl⟩
  | pass _ hnext ih =>
    obtain ⟨hrep, hsize, hmem⟩ := ih
    rcases insertPass_cases hrep key hash with ⟨e, hdone⟩ | ⟨tb', hrep', hsize', hmem', hpass⟩
    · cases hnext.symm.trans hdone
    · rcases shInsertAttempt_cases T tb' key hash with ⟨ins, hins⟩ | hagain | hstuck
      · cases hnext.symm.trans (hpass.trans hins)
      · obtain rfl := Loop.Step.next.inj (hnext.symm.trans (hpass.trans hagain))
        exact ⟨hrep'.withThreshold 0, hsize.trans hsize', hmem'.trans hmem⟩
      · cases hnext.symm.trans (hpass.trans hstuck)

/-- **An insertion makes a table no smaller, and adds one member at most.** -/
theorem shInsert_size_le (h : ShRep T tb) {key : κ} {ins : ShInserted κ ν}
    (hins : shInsert T tb key = some (.ok ins)) :
    tb.size ≤ ins.table.size ∧ ins.table.members ≤ tb.members + 1 := by
  have hrun : Loop.run (insertPass T key (T.hashKey key)) 65 tb = some (.ok ins) := hins
  obtain ⟨s, hs, hdone⟩ := Loop.ends_iff_reached.mp (Loop.ends_iff.mpr ⟨65, hrun⟩)
  obtain ⟨hrep, hsize, hmem⟩ := size_le_of_reached h hs
  rcases insertPass_cases hrep key (T.hashKey key) with ⟨e, herror⟩ |
    ⟨tb', -, hsize', hmem', hpass⟩
  · cases hdone.symm.trans herror
  · obtain ⟨hsize'', -, hmem''⟩ := shInsertAttempt_table (hpass.symm.trans hdone)
    refine ⟨(hsize.trans hsize').trans hsize''.ge, ?_⟩
    have hle : u32 (tb'.members + 1) ≤ tb'.members + 1 := Nat.mod_le _ _
    rw [hmem'']
    split <;> omega

/-! ## Inserting many -/

/-- **No insertion finds the table full**: keys are inserted one after another, and the
fill-threshold test does not hold of the table that an insertion is called for. An error
ends the insertions. -/
def NeverFull (T : ShTemplate κ ν) : ShHash κ ν → List κ → Prop
  | _, [] => True
  | tb, key :: keys => ¬ tb.growThreshold ≤ tb.members ∧
      ∀ ins, shInsert T tb key = some (.ok ins) → NeverFull T ins.table keys

/-- **Enough space for `nelements` distinct members**, whatever they are. -/
def EnoughSpace (nelements : UInt32) : Prop :=
  ∀ (κ ν : Type) (T : ShTemplate κ ν) (tb : ShHash κ ν), shCreate T nelements = .ok tb →
    ∀ keys : List κ, keys.length = nelements.toNat →
      keys.Pairwise (fun a b => T.equal a b = false) → NeverFull T tb keys

/-- A larger table has a higher threshold. -/
theorem shGrowThreshold_mono {m n : ℕ} (hle : m ≤ n) (hmax : n ≤ shMaxSize) :
    shGrowThreshold m ≤ shGrowThreshold n := by
  unfold shGrowThreshold
  split_ifs <;> omega

/-- **Keys that the threshold has room for do not fill the table.** -/
theorem neverFull_of_le (h : ShInv T tb) {keys : List κ}
    (hle : tb.members + keys.length ≤ tb.growThreshold) : NeverFull T tb keys := by
  induction keys generalizing tb with
  | nil => trivial
  | cons key keys ih =>
    rw [List.length_cons] at hle
    refine ⟨by omega, fun ins hins => ?_⟩
    obtain ⟨hsize, hmem⟩ := shInsert_size_le h.rep hins
    obtain ⟨r, hr, hinserted⟩ := shInsertHashInternal_inserted h.rep h.threshold key
    obtain rfl := Option.some.inj (hr.symm.trans hins)
    have hins' := hinserted ins rfl
    have hthreshold : tb.growThreshold ≤ ins.table.growThreshold := by
      rw [h.threshold, hins'.threshold]
      exact shGrowThreshold_mono hsize hins'.rep.sized.le_max
    exact ih ⟨hins'.rep, hins'.threshold⟩ (by omega)

/-! ## A table that fills up -/

/-- **No run is too long**: `SH_GROW_MAX_DIB` is not less than any `uint32`, and
`SH_GROW_MAX_MOVE` not less than any `int32`. -/
structure Patient (T : ShTemplate κ ν) : Prop where
  dib : 2 ^ 32 ≤ T.growMaxDib
  move : 2 ^ 31 ≤ T.growMaxMove

theorem shInsertProbe_ne_restart (hT : Patient T) {key : κ} {hash : UInt32} {p : ShProbe}
    (h : shInsertProbe T tb key hash = some p) : p ≠ .restart := by
  refine Loop.Ends.result (Q := fun p => p ≠ .restart) ?_ (Loop.ends_iff.mpr ⟨_, h⟩)
  rintro ⟨cur, dist⟩ r hdone
  have hdist : u32 (dist + 1) < 2 ^ 32 := Nat.mod_lt _ (by decide)
  have hdib := hT.dib
  dsimp only at hdone
  split_ifs at hdone with h₁ h₂ h₃ h₄
  · cases hdone; exact nofun
  · cases hdone; exact nofun
  · cases hdone; exact nofun
  · omega

theorem shInsertFindEmpty_ne_none (hT : Patient T) {c : ℕ} {r : Option ℕ}
    (h : shInsertFindEmpty T tb c = some r) : r ≠ none := by
  refine Loop.Ends.result (Q := fun r => r ≠ none) ?_ (Loop.ends_iff.mpr ⟨_, h⟩)
  rintro ⟨cur, dist⟩ r hdone
  have hdist : (dist + 1).bmod (2 ^ 32) < 2 ^ 31 := by
    have := Int.bmod_lt (x := dist + 1) (m := 2 ^ 32) (by decide)
    omega
  have hmove := hT.move
  dsimp only at hdone
  split_ifs at hdone with h₁ h₂
  · cases hdone; exact nofun
  · omega

/-- An attempt does not start again. -/
theorem shInsertAttempt_ne_next (hT : Patient T) (key : κ) (hash : UInt32) (s : ShHash κ ν) :
    shInsertAttempt T tb key hash ≠ .next s := by
  intro h
  unfold shInsertAttempt at h
  cases hp : shInsertProbe T tb key hash with
  | none => rw [hp] at h; cases h
  | some p =>
    rw [hp] at h
    cases p with
    | found c => cases h
    | unused c => cases h
    | restart => exact shInsertProbe_ne_restart hT hp rfl
    | displace c =>
      dsimp only at h
      rcases hf : shInsertFindEmpty T tb c with _ | _ | e
      · rw [hf] at h; cases h
      · exact shInsertFindEmpty_ne_none hT hf rfl
      · rw [hf] at h
        dsimp only at h
        cases hs : shShiftForward tb c e with
        | none => rw [hs] at h; cases h
        | some data => rw [hs] at h; cases h

/-- **A new key is one member more**, where there is room and no run is too long. -/
theorem shInsert_adds (hT : Patient T) (h : ShInv T tb) (hroom : tb.members < tb.growThreshold)
    {key : κ} (hkey : ∀ e, tb.Holds e → T.equal e.key key = false) :
    ∃ ins, shInsert T tb key = some (.ok ins) ∧ Inserted T tb key ins ∧ ins.found = false ∧
      ins.table.growThreshold = tb.growThreshold ∧ ins.table.members = tb.members + 1 := by
  have hmeets := shInsertAttempt_meets h.rep h.threshold hroom key
  cases ha : shInsertAttempt T tb key (T.hashKey key) with
  | next s => exact absurd ha (shInsertAttempt_ne_next hT key _ s)
  | stuck =>
    rw [ha] at hmeets
    exact hmeets.elim
  | done r =>
    rw [ha] at hmeets
    obtain ⟨ins, rfl, hins⟩ := hmeets
    obtain ⟨-, hthreshold, hmem⟩ := shInsertAttempt_table ha
    have hfound : ins.found = false := by
      rw [Bool.eq_false_iff]
      intro hf
      obtain ⟨e, he, heq⟩ := hins.found_iff.mp hf
      exact Bool.false_ne_true ((hkey e he).symm.trans heq)
    have hpass : insertPass T key (T.hashKey key) tb = .done (.ok ins) :=
      (if_neg (not_le.mpr hroom)).trans ha
    refine ⟨ins, Loop.run_done hpass 64, hins, hfound, hthreshold, ?_⟩
    have hlt := h.rep.members_lt
    have hmax := h.rep.sized.le_max
    have hlast : shGrowThreshold tb.size < tb.size := shGrowThreshold_lt (by omega)
    have hthr := h.threshold
    rw [hmem, hfound]
    exact Nat.mod_eq_of_lt (by omega)

/-- **Where no run is too long, new keys fill the table** as far as there are any. -/
theorem le_of_neverFull (hT : Patient T) (h : ShInv T tb) (hle : tb.members ≤ tb.growThreshold)
    {keys : List κ} (hdistinct : keys.Pairwise fun a b => T.equal a b = false)
    (hnew : ∀ key ∈ keys, ∀ e, tb.Holds e → T.equal e.key key = false)
    (hnever : NeverFull T tb keys) : tb.members + keys.length ≤ tb.growThreshold := by
  induction keys generalizing tb with
  | nil => exact hle
  | cons key keys ih =>
    obtain ⟨hroom, hnever⟩ := hnever
    rw [List.pairwise_cons] at hdistinct
    obtain ⟨ins, hins, hinserted, hfound, hthreshold, hmem⟩ :=
      shInsert_adds hT h (not_le.mp hroom) (hnew key List.mem_cons_self)
    have hrest := ih ⟨hinserted.rep, hinserted.threshold⟩ (by omega) hdistinct.2 ?_
      (hnever ins hins)
    · rw [List.length_cons]
      omega
    · -- what is held now was held before, or has the key just inserted
      intro key' hkey' e he
      rcases (hinserted.holds_iff e).mp he with hold | ⟨-, rfl⟩
      · exact hnew key' (List.mem_cons_of_mem key hkey') e hold
      · rw [hinserted.key_eq hfound]
        exact hdistinct.1 key' hkey'

/-- Numbers for keys, and no run is too long. -/
def patientTemplate : ShTemplate ℕ ℕ :=
  { numberTemplate UInt32.ofNat with growMaxDib := 2 ^ 32, growMaxMove := 2 ^ 31 }

theorem patient_patientTemplate : Patient patientTemplate := ⟨Nat.le_refl _, Nat.le_refl _⟩

/-- A table of numbers can be created for any number of them. -/
theorem shCreate_patientTemplate (nelements : UInt32) :
    ∃ tb, shCreate patientTemplate nelements = .ok tb := by
  have hle := Nat.min_le_left shMaxSize (nelements.toNat * 10 / 9)
  unfold shMaxSize at hle
  have hpow : pgNextpower2_64 (max (min shMaxSize (nelements.toNat * 10 / 9)) 2) ≤ 2 ^ 32 := by
    rw [pgNextpower2_64_eq (by omega) (by unfold shMaxSize; omega)]
    exact Nat.pow_le_pow_right (by decide) (Nat.clog_le_of_le_pow (by unfold shMaxSize; omega))
  unfold shCreate shComputeParameters
  dsimp only
  rw [if_neg]
  · exact ⟨_, rfl⟩
  · show ¬ sizeMax / 2 ≤ 16 * _ % 2 ^ 64
    unfold sizeMax
    omega

/-- **When a new table has enough space**: for all but one number under each power of two,
up to what the largest table has room for. -/
theorem enoughSpace_iff (nelements : UInt32) :
    EnoughSpace nelements ↔ nelements.toNat ≤ 4209067950 ∧
      ∀ k, 1 ≤ k → k ≤ 31 → nelements.toNat ≠ 2 ^ k * 9 / 10 + 1 := by
  constructor
  · intro henough
    obtain ⟨tb, htb⟩ := shCreate_patientTemplate nelements
    obtain ⟨hrep, hthreshold, hempty⟩ := shCreate_rep htb
    have hdistinct : (List.range nelements.toNat).Pairwise
        fun a b => patientTemplate.equal a b = false :=
      (List.nodup_range).imp fun hne => beq_eq_false_iff_ne.mpr hne
    have hnever := henough ℕ ℕ patientTemplate tb htb (List.range nelements.toNat)
      List.length_range hdistinct
    have hmem := shCreate_members htb
    have hle := le_of_neverFull patient_patientTemplate ⟨hrep, hthreshold⟩
      (hmem ▸ Nat.zero_le _) hdistinct (fun _ _ e he => absurd he (hempty e)) hnever
    rw [List.length_range, hthreshold, hmem, Nat.zero_add] at hle
    exact (le_growThreshold_iff htb).mp hle
  · intro h κ ν T tb htb keys hlen _
    obtain ⟨hrep, hthreshold, -⟩ := shCreate_rep htb
    have hle := (le_growThreshold_iff htb).mpr h
    refine neverFull_of_le ⟨hrep, hthreshold⟩ ?_
    rwa [shCreate_members htb, hlen, hthreshold, Nat.zero_add]

/-- **A table created for two members is full with one.** -/
theorem not_enoughSpace_two :
    (∃ tb ins, shCreate patientTemplate 2 = .ok tb ∧
      shInsert patientTemplate tb 7 = some (.ok ins) ∧
      ins.table.growThreshold ≤ ins.table.members) ∧
    ¬ EnoughSpace 2 := by
  have hfull : ∃ tb ins, shCreate patientTemplate 2 = .ok tb ∧
      shInsert patientTemplate tb 7 = some (.ok ins) ∧
      ins.table.growThreshold ≤ ins.table.members := ⟨_, _, rfl, rfl, by decide⟩
  refine ⟨hfull, fun henough => ?_⟩
  obtain ⟨tb, ins, htb, hins, hle⟩ := hfull
  obtain ⟨-, hnever⟩ := henough ℕ ℕ patientTemplate tb htb [7, 8] rfl (by decide)
  exact (hnever ins hins).1 hle

end SimpleHash
