import Mathlib.Data.BitVec
import PgCitus.Library.BitField
import PgCitus.Library.Checkpoint

/-!
# The entries of a jsonb container

The `JEntry` of `utils/jsonb.h`: a word for each child of a container, with its type
in three bits, and in the lowest 28 either how long the child is or where it ends; the
highest bit says which. A writer puts an end now and then, so that a reader can start
there; where is the writer's choice, and the header asks readers to depend on the bit
only.

An entry is read as a `Checkpoint.Mark` (`mark_jentry`), and `JBE_ADVANCE_OFFSET` is
the walk over them (`foldl_jbeAdvanceOffset`). Offsets are words, so all this is true
modulo their size; that the container has at most `JENTRY_OFFLENMASK` bytes is what
makes every stored number fit its field.
-/

namespace Jsonb

open BitField Checkpoint

/-- `JEntry`. -/
abbrev JEntry := BitVec 32

/-- `JENTRY_OFFLENMASK`. -/
def jentryOfflenmask : JEntry := 0x0FFFFFFF
/-- `JENTRY_TYPEMASK`. -/
def jentryTypemask : JEntry := 0x70000000
/-- `JENTRY_HAS_OFF`. -/
def jentryHasOff : JEntry := 0x80000000

/-- `JENTRY_ISSTRING`. -/
def jentryIsstring : JEntry := 0x00000000
/-- `JENTRY_ISNUMERIC`. -/
def jentryIsnumeric : JEntry := 0x10000000
/-- `JENTRY_ISBOOL_FALSE`. -/
def jentryIsboolFalse : JEntry := 0x20000000
/-- `JENTRY_ISBOOL_TRUE`. -/
def jentryIsboolTrue : JEntry := 0x30000000
/-- `JENTRY_ISNULL`. -/
def jentryIsnull : JEntry := 0x40000000
/-- `JENTRY_ISCONTAINER`. -/
def jentryIscontainer : JEntry := 0x50000000

/-- `JBE_OFFLENFLD`. -/
def jbeOfflenfld (je : JEntry) : JEntry := je &&& jentryOfflenmask
/-- `JBE_HAS_OFF`. -/
def jbeHasOff (je : JEntry) : Bool := je &&& jentryHasOff != 0
/-- `JBE_ISSTRING`. -/
def jbeIsstring (je : JEntry) : Bool := je &&& jentryTypemask == jentryIsstring
/-- `JBE_ISNUMERIC`. -/
def jbeIsnumeric (je : JEntry) : Bool := je &&& jentryTypemask == jentryIsnumeric
/-- `JBE_ISCONTAINER`. -/
def jbeIscontainer (je : JEntry) : Bool := je &&& jentryTypemask == jentryIscontainer
/-- `JBE_ISNULL`. -/
def jbeIsnull (je : JEntry) : Bool := je &&& jentryTypemask == jentryIsnull
/-- `JBE_ISBOOL_TRUE`. -/
def jbeIsboolTrue (je : JEntry) : Bool := je &&& jentryTypemask == jentryIsboolTrue
/-- `JBE_ISBOOL_FALSE`. -/
def jbeIsboolFalse (je : JEntry) : Bool := je &&& jentryTypemask == jentryIsboolFalse
/-- `JBE_ISBOOL`. -/
def jbeIsbool (je : JEntry) : Bool := jbeIsboolTrue je || jbeIsboolFalse je

/-- `JBE_ADVANCE_OFFSET`. -/
def jbeAdvanceOffset (offset : BitVec 32) (je : JEntry) : BitVec 32 :=
  if jbeHasOff je then jbeOfflenfld je else offset + jbeOfflenfld je

/-! ## The entries of given children -/

/-- The types of children. -/
inductive JEntryType where
  | string
  | numeric
  | boolFalse
  | boolTrue
  | null
  | container
deriving DecidableEq, Repr

/-- The value of the type bits. -/
def JEntryType.bits : JEntryType → JEntry
  | .string => jentryIsstring
  | .numeric => jentryIsnumeric
  | .boolFalse => jentryIsboolFalse
  | .boolTrue => jentryIsboolTrue
  | .null => jentryIsnull
  | .container => jentryIscontainer

/-- A child of a container: its type and the length of its data. -/
structure Child where
  type : JEntryType
  len : ℕ
deriving DecidableEq, Repr

/-- Where the data of child `k` starts. -/
def startOffset (children : List Child) (k : ℕ) : ℕ := ((children.take k).map Child.len).sum

/-- The entry of a child of type `type`: `offlen` is the child's end or its length, as
`hasOff` says. -/
def jentry (type : JEntryType) (hasOff : Bool) (offlen : BitVec 32) : JEntry :=
  offlen ||| (type.bits ||| if hasOff then jentryHasOff else 0)

/-- **The entries of a container**, with an end offset in the children that `hasOff`
chooses. -/
def jentries (hasOff : ℕ → Bool) (children : List Child) : List JEntry :=
  children.mapIdx fun k c =>
    jentry c.type (hasOff k)
      (if hasOff k then BitVec.ofNat 32 (startOffset children (k + 1)) else BitVec.ofNat 32 c.len)

/-! ## Reading an entry -/

/-- What an entry stores. -/
def mark (je : JEntry) : Mark (BitVec 32) :=
  if jbeHasOff je then .absolute (jbeOfflenfld je) else .relative (jbeOfflenfld je)

/-- The type bits and the flag, with nothing in the field of lengths and offsets. -/
theorem within_type_flag (type : JEntryType) (hasOff : Bool) :
    Within (jentryTypemask ||| jentryHasOff)
      (type.bits ||| if hasOff then jentryHasOff else 0) := by
  cases type <;> cases hasOff <;> decide

variable {type : JEntryType} {hasOff : Bool} {offlen : BitVec 32}

/-- **The field reads back**, whatever the type and the flag. -/
theorem jbeOfflenfld_jentry (h : Within jentryOfflenmask offlen) :
    jbeOfflenfld (jentry type hasOff offlen) = offlen :=
  read_left h (within_type_flag type hasOff) (by decide)

/-- **The flag reads back**, whatever the type and the field. -/
theorem jbeHasOff_jentry (h : Within jentryOfflenmask offlen) :
    jbeHasOff (jentry type hasOff offlen) = hasOff := by
  unfold jbeHasOff jentry
  rw [BitVec.and_or_distrib_right, h.and_eq_zero (by decide), BitVec.zero_or]
  cases type <;> cases hasOff <;> rfl

/-- **The type reads back**, whatever the flag and the field. -/
theorem typemask_jentry (h : Within jentryOfflenmask offlen) :
    jentry type hasOff offlen &&& jentryTypemask = type.bits := by
  unfold jentry
  rw [BitVec.and_or_distrib_right, h.and_eq_zero (by decide), BitVec.zero_or]
  cases type <;> cases hasOff <;> rfl

/-- Types with the same bits are the same. -/
theorem bits_beq (a b : JEntryType) : (a.bits == b.bits) = (a == b) := by
  cases a <;> cases b <;> rfl

theorem mark_jentry (h : Within jentryOfflenmask offlen) :
    mark (jentry type hasOff offlen) = if hasOff then .absolute offlen else .relative offlen := by
  unfold mark
  rw [jbeHasOff_jentry h, jbeOfflenfld_jentry h]

/-- **Advancing is a step of the walk.** -/
theorem jbeAdvanceOffset_eq (offset : BitVec 32) (je : JEntry) :
    jbeAdvanceOffset offset je = (mark je).advance offset := by
  unfold jbeAdvanceOffset mark
  by_cases h : jbeHasOff je = true
  · rw [if_pos h, if_pos h]
    rfl
  · rw [if_neg h, if_neg h]
    rfl

theorem foldl_jbeAdvanceOffset (offset : BitVec 32) (jes : List JEntry) :
    jes.foldl jbeAdvanceOffset offset = walk offset (jes.map mark) := by
  unfold walk
  rw [List.foldl_map]
  exact congrArg (fun f => jes.foldl f offset)
    (funext fun o => funext fun je => jbeAdvanceOffset_eq o je)

/-! ## The walk over a container -/

variable {children : List Child}

/-- The lengths of the children, as words. -/
def lens (children : List Child) : List (BitVec 32) :=
  children.map fun c => BitVec.ofNat 32 c.len

/-- Offsets as words are the sums of the lengths as words. -/
theorem start_lens (children : List Child) (k : ℕ) :
    start (lens children) k = BitVec.ofNat 32 (startOffset children k) := by
  unfold start lens startOffset
  rw [← List.map_take]
  induction children.take k with
  | nil => rfl
  | cons c cs ih =>
    rw [List.map_cons, List.map_cons, List.sum_cons, List.sum_cons, ih, BitVec.ofNat_add]

/-- No child starts later than where the last one ends. -/
theorem startOffset_le (children : List Child) (k : ℕ) :
    startOffset children k ≤ startOffset children children.length := by
  unfold startOffset
  rw [List.take_length]
  conv_rhs => rw [← List.take_append_drop k children]
  rw [List.map_append, List.sum_append]
  exact Nat.le_add_right _ _

/-- No child is longer than all of them. -/
theorem len_le {k : ℕ} {c : Child} (h : children[k]? = some c) :
    c.len ≤ startOffset children children.length := by
  refine le_trans ?_ (startOffset_le children (k + 1))
  unfold startOffset
  rw [List.take_add_one, h, Option.toList_some, List.map_append, List.sum_append]
  exact Nat.le_add_left _ _

/-- Every number up to `JENTRY_OFFLENMASK` fits the field. -/
theorem within_offlen {n : ℕ} (h : n ≤ jentryOfflenmask.toNat) :
    Within jentryOfflenmask (BitVec.ofNat 32 n) := by
  have hn : n < 2 ^ 28 := Nat.lt_succ_of_le h
  refine (within_low_iff (show jentryOfflenmask.toNat = 2 ^ 28 - 1 from rfl)).mpr ?_
  rw [BitVec.toNat_ofNat, Nat.mod_eq_of_lt (Nat.lt_trans hn (by decide))]
  exact hn

theorem getElem?_jentries (hasOff : ℕ → Bool) (children : List Child) (k : ℕ) :
    (jentries hasOff children)[k]? = children[k]?.map fun c =>
      jentry c.type (hasOff k)
        (if hasOff k then BitVec.ofNat 32 (startOffset children (k + 1))
          else BitVec.ofNat 32 c.len) := List.getElem?_mapIdx

/-- Every entry of a container that is not too long stores a number that fits. -/
theorem within_jentries (hlen : startOffset children children.length ≤ jentryOfflenmask.toNat)
    (hasOff : ℕ → Bool) {k : ℕ} {c : Child} (h : children[k]? = some c) :
    Within jentryOfflenmask (if hasOff k then BitVec.ofNat 32 (startOffset children (k + 1))
      else BitVec.ofNat 32 c.len) := by
  cases hasOff k with
  | true => exact within_offlen (le_trans (startOffset_le children (k + 1)) hlen)
  | false => exact within_offlen (le_trans (len_le h) hlen)

/-- **The entries are the mixed index of the lengths.** -/
theorem map_mark_jentries
    (hlen : startOffset children children.length ≤ jentryOfflenmask.toNat) (hasOff : ℕ → Bool) :
    (jentries hasOff children).map mark = marks hasOff (lens children) := by
  refine List.ext_getElem? fun k => ?_
  rw [List.getElem?_map, getElem?_jentries, getElem?_marks, start_lens]
  unfold lens
  rw [List.getElem?_map]
  cases h : children[k]? with
  | none => rfl
  | some c =>
    show some (mark _) = some _
    rw [mark_jentry (within_jentries hlen hasOff h)]
    cases hasOff k <;> rfl

/-- **What a reader sees of a container does not depend on where the ends are.** For
children of at most `JENTRY_OFFLENMASK` bytes, and ends stored in any of the entries:
advancing over the first `k` entries leads to the start of child `k`; advancing over
them from any earlier entry with an end does as well; and every entry is recognised as
the type of its child. -/
theorem jentries_read (children : List Child)
    (hlen : startOffset children children.length ≤ jentryOfflenmask.toNat) (hasOff : ℕ → Bool) :
    (∀ k ≤ children.length,
      (((jentries hasOff children).take k).foldl jbeAdvanceOffset 0).toNat
        = startOffset children k) ∧
    (∀ j k, j < k → k ≤ children.length → hasOff j = true →
      (((jentries hasOff children).take k).drop j).foldl jbeAdvanceOffset 0
        = ((jentries hasOff children).take k).foldl jbeAdvanceOffset 0) ∧
    (∀ k c, children[k]? = some c → ∃ je, (jentries hasOff children)[k]? = some je ∧
      jbeHasOff je = hasOff k ∧
      jbeIsstring je = (c.type == .string) ∧ jbeIsnumeric je = (c.type == .numeric) ∧
      jbeIscontainer je = (c.type == .container) ∧ jbeIsnull je = (c.type == .null) ∧
      jbeIsboolTrue je = (c.type == .boolTrue) ∧ jbeIsboolFalse je = (c.type == .boolFalse) ∧
      jbeIsbool je = (c.type == .boolTrue || c.type == .boolFalse)) := by
  have hwalk : ∀ k ≤ children.length,
      ((jentries hasOff children).take k).foldl jbeAdvanceOffset 0
        = BitVec.ofNat 32 (startOffset children k) := by
    intro k hk
    rw [foldl_jbeAdvanceOffset, List.map_take, map_mark_jentries hlen, ← start_lens]
    refine walk_take hasOff ?_
    unfold lens
    rw [List.length_map]
    exact hk
  refine ⟨fun k hk => ?_, fun j k hjk hk hj => ?_, fun k c hc => ?_⟩
  · have hlt : startOffset children k < 2 ^ 32 :=
      Nat.lt_of_le_of_lt (le_trans (startOffset_le children k) hlen) (by decide)
    rw [hwalk k hk, BitVec.toNat_ofNat, Nat.mod_eq_of_lt hlt]
  · have hk' : k ≤ (lens children).length := by
      unfold lens
      rw [List.length_map]
      exact hk
    rw [foldl_jbeAdvanceOffset, foldl_jbeAdvanceOffset, List.map_drop, List.map_take,
      map_mark_jentries hlen, walk_from hasOff hjk hk' hj, walk_take hasOff hk']
  · have hin := within_jentries hlen hasOff hc
    refine ⟨_, by rw [getElem?_jentries, hc]; rfl, jbeHasOff_jentry hin, ?_⟩
    have htype : ∀ ty : JEntryType,
        (jentry c.type (hasOff k) (if hasOff k then BitVec.ofNat 32 (startOffset children (k + 1))
          else BitVec.ofNat 32 c.len) &&& jentryTypemask == ty.bits) = (c.type == ty) := by
      intro ty
      rw [typemask_jentry hin, bits_beq]
    exact ⟨htype .string, htype .numeric, htype .container, htype .null, htype .boolTrue,
      htype .boolFalse, congrArg₂ (· || ·) (htype .boolTrue) (htype .boolFalse)⟩

/-- The third of three children starts where the second one's stored end says. -/
theorem jentries_read_three :
    (((jentries (fun k => k == 1) [⟨.string, 3⟩, ⟨.numeric, 8⟩, ⟨.null, 0⟩]).take 2).foldl
      jbeAdvanceOffset 0).toNat = 11 :=
  (jentries_read [⟨.string, 3⟩, ⟨.numeric, 8⟩, ⟨.null, 0⟩] (by decide) (fun k => k == 1)).1 2
    (by decide)

end Jsonb
