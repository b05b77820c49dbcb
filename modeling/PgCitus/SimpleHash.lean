import PgCitus.Library.Loop
import PgCitus.PgBitutils
import Mathlib.Logic.Function.Basic

/-!
# The simplehash open-addressing table

`lib/simplehash.h` is a template: a file that includes it defines the element
type and the macros it is parameterised by, and gets a hash table for them.
`ShTemplate` collects those macros, and `ShHash` is `SH_TYPE`, the table.

The bucket array is a function from bucket numbers: the code reaches a bucket
only through a number masked with `sizemask`, or, where an array is gone
through from its start, through a number below `size`. A pointer to an element
is the number of its bucket. Fields and locals of type `uint32` are natural
numbers, and `u32` is the truncation C makes when it stores into one.

Every loop of the header is a `Loop.run`, so a result `none` means that a loop
does not end within as many passes as there are buckets. An operation that may
raise an error returns an `Except` inside. Assertions, which a release does not
contain, are left out.
-/

namespace SimpleHash

open PgBitutils

/-- `SH_STATUS`. -/
inductive ShStatus where
  | empty
  | inUse
  deriving DecidableEq, Repr

/-- `SH_ELEMENT_TYPE`: its key, the field `SH_GET_HASH` names where the hash is
stored, its status, and what the user of the table keeps with the key. -/
structure ShElement (κ ν : Type*) where
  key : κ
  hash : UInt32
  status : ShStatus
  payload : ν

/-- The errors `sh_error` raises. -/
inductive ShError where
  | tooLarge
  | sizeExceeded
  deriving DecidableEq, Repr

/-- The text of an error. -/
def ShError.message : ShError → String
  | .tooLarge => "hash table too large"
  | .sizeExceeded => "hash table size exceeded"

/-- **What the template is parameterised by.** Key equality is an equivalence
and equal keys have equal hashes; nothing else is known of either. -/
structure ShTemplate (κ ν : Type*) where
  /-- `SH_HASH_KEY`. -/
  hashKey : κ → UInt32
  /-- `SH_EQUAL`. -/
  equal : κ → κ → Bool
  /-- Whether `SH_STORE_HASH` is defined. -/
  storeHash : Bool
  /-- `SH_GROW_MAX_DIB`. -/
  growMaxDib : ℕ
  /-- `SH_GROW_MAX_MOVE`. -/
  growMaxMove : ℕ
  /-- `sizeof(SH_ELEMENT_TYPE)`. -/
  elementSize : ℕ
  /-- An element whose bytes are zero. -/
  zeroElement : ShElement κ ν
  equal_equivalence : Equivalence (fun a b => equal a b = true)
  hash_eq_of_equal : ∀ a b, equal a b = true → hashKey a = hashKey b
  zero_status : zeroElement.status = .empty

/-- `SH_TYPE`. The memory context and the private data are left out: no
function below reads them. -/
structure ShHash (κ ν : Type*) where
  size : ℕ
  members : ℕ
  sizemask : ℕ
  growThreshold : ℕ
  data : ℕ → ShElement κ ν

variable {κ ν : Type*}

/-- Storing into a `uint32`. -/
def u32 (x : ℕ) : ℕ := x % 2 ^ 32

/-- `SH_MAX_SIZE`. -/
def shMaxSize : ℕ := 2 ^ 32

/-- `SIZE_MAX` where `size_t` has eight bytes. -/
def sizeMax : ℕ := 2 ^ 64 - 1

/-- The threshold for a size, `SH_FILLFACTOR` of it being nine tenths and
`SH_MAX_FILLFACTOR` ninety-eight hundredths. -/
def shGrowThreshold (size : ℕ) : ℕ :=
  if size = shMaxSize then size * 98 / 100 else size * 9 / 10

/-- `SH_COMPUTE_PARAMETERS`: sizing parameters for at least `newsize`
buckets. -/
def shComputeParameters (T : ShTemplate κ ν) (tb : ShHash κ ν) (newsize : ℕ) :
    Except ShError (ShHash κ ν) :=
  -- supporting zero sized hashes would complicate matters
  let size := pgNextpower2_64 (max newsize 2)
  if sizeMax / 2 ≤ T.elementSize * size % 2 ^ 64 then .error .tooLarge
  else .ok { tb with
    size := size
    sizemask := u32 (size - 1)
    growThreshold := shGrowThreshold size }

/-- `SH_INITIAL_BUCKET`: the optimal bucket for a hash. -/
def shInitialBucket (tb : ShHash κ ν) (hash : UInt32) : ℕ :=
  hash.toNat &&& tb.sizemask

/-- `SH_NEXT`: the bucket after the current one, handling wraparound. -/
def shNext (tb : ShHash κ ν) (curelem : ℕ) : ℕ :=
  u32 (curelem + 1) &&& tb.sizemask

/-- `SH_PREV`: the bucket before the current one, handling wraparound. -/
def shPrev (tb : ShHash κ ν) (curelem : ℕ) : ℕ :=
  u32 (curelem + (2 ^ 32 - 1)) &&& tb.sizemask

/-- `SH_DISTANCE_FROM_OPTIMAL`. -/
def shDistanceFromOptimal (tb : ShHash κ ν) (optimal bucket : ℕ) : ℕ :=
  if optimal ≤ bucket then bucket - optimal
  else u32 (tb.size + bucket - optimal)

/-- `SH_ENTRY_HASH`. -/
def ShTemplate.shEntryHash (T : ShTemplate κ ν) (entry : ShElement κ ν) : UInt32 :=
  if T.storeHash then entry.hash else T.hashKey entry.key

/-- `SH_COMPARE_KEYS`. -/
def ShTemplate.shCompareKeys (T : ShTemplate κ ν) (ahash : UInt32) (akey : κ)
    (b : ShElement κ ν) : Bool :=
  if T.storeHash then ahash == b.hash && T.equal b.key akey
  else T.equal b.key akey

/-! ## Creating, resetting and growing -/

/-- `SH_CREATE`. -/
def shCreate (T : ShTemplate κ ν) (nelements : UInt32) :
    Except ShError (ShHash κ ν) :=
  -- increase nelements by fillfactor, want to store nelements elements
  let size := min shMaxSize (nelements.toNat * 10 / 9)
  shComputeParameters T
    { size := 0, members := 0, sizemask := 0, growThreshold := 0,
      data := fun _ => T.zeroElement } size

/-- `SH_RESET`. -/
def shReset (T : ShTemplate κ ν) (tb : ShHash κ ν) : ShHash κ ν :=
  { tb with
    data := fun i => if i < tb.size then T.zeroElement else tb.data i
    members := 0 }

/-- The search of `SH_GROW` for the first bucket of the old array that is
empty or occupied by an entry at its optimal position. -/
def shGrowStart (T : ShTemplate κ ν) (tb : ShHash κ ν)
    (olddata : ℕ → ShElement κ ν) (oldsize : ℕ) : Option ℕ :=
  Loop.run (fun i =>
    if i < oldsize then
      let oldentry := olddata i
      if oldentry.status ≠ .inUse then .done i
      else if shInitialBucket tb (T.shEntryHash oldentry) = i then .done i
      else .next (u32 (i + 1))
    else .done 0) (oldsize + 1) 0

/-- The search of `SH_GROW` for an empty bucket of the new array. -/
def shGrowFindEmpty (tb : ShHash κ ν) (newdata : ℕ → ShElement κ ν)
    (startelem : ℕ) : Option ℕ :=
  Loop.run (fun curelem =>
    if (newdata curelem).status = .empty then .done curelem
    else .next (shNext tb curelem)) tb.size startelem

/-- The copying loop of `SH_GROW`. -/
def shGrowCopy (T : ShTemplate κ ν) (tb : ShHash κ ν)
    (olddata : ℕ → ShElement κ ν) (oldsize startelem : ℕ)
    (newdata : ℕ → ShElement κ ν) : Option (ℕ → ShElement κ ν) :=
  Loop.run (fun ((i, copyelem, newdata) : ℕ × ℕ × (ℕ → ShElement κ ν)) =>
    if i < oldsize then
      let oldentry := olddata copyelem
      -- can't use SH_NEXT here, would use new size
      let copyelem' :=
        if oldsize ≤ u32 (copyelem + 1) then 0 else u32 (copyelem + 1)
      if oldentry.status = .inUse then
        match shGrowFindEmpty tb newdata
            (shInitialBucket tb (T.shEntryHash oldentry)) with
        | some newelem =>
          .next (u32 (i + 1), copyelem',
            Function.update newdata newelem oldentry)
        | none => .stuck
      else .next (u32 (i + 1), copyelem', newdata)
    else .done newdata) (oldsize + 1) (0, startelem, newdata)

/-- `SH_GROW`: grow a table to at least `newsize` buckets. -/
def shGrow (T : ShTemplate κ ν) (tb : ShHash κ ν) (newsize : ℕ) :
    Option (Except ShError (ShHash κ ν)) :=
  match shComputeParameters T tb newsize with
  | .error e => some (.error e)
  | .ok tb' =>
    match shGrowStart T tb' tb.data tb.size with
    | none => none
    | some startelem =>
      match shGrowCopy T tb' tb.data tb.size startelem
          (fun _ => T.zeroElement) with
      | none => none
      | some newdata => some (.ok { tb' with data := newdata })

/-! ## Inserting -/

/-- Whether the table is full enough to be grown because of long runs: the
test `((double) tb->members / tb->size) >= SH_GROW_MIN_FILLFACTOR`. -/
def shFillsMin (tb : ShHash κ ν) : Bool := tb.size ≤ tb.members * 10

/-- How the probing of `SH_INSERT_HASH_INTERNAL` ends. -/
inductive ShProbe where
  /-- An empty bucket, which can directly be used. -/
  | unused (curelem : ℕ)
  /-- A bucket that holds the key. -/
  | found (curelem : ℕ)
  /-- A bucket whose entry is to be moved out of the way. -/
  | displace (curelem : ℕ)
  /-- The run is too long: grow the table and start again. -/
  | restart

/-- The probing of `SH_INSERT_HASH_INTERNAL`. -/
def shInsertProbe (T : ShTemplate κ ν) (tb : ShHash κ ν) (key : κ)
    (hash : UInt32) : Option ShProbe :=
  Loop.run (fun ((curelem, insertdist) : ℕ × ℕ) =>
    let entry := tb.data curelem
    if entry.status = .empty then .done (.unused curelem)
    else if T.shCompareKeys hash key entry then .done (.found curelem)
    else
      let curoptimal := shInitialBucket tb (T.shEntryHash entry)
      let curdist := shDistanceFromOptimal tb curoptimal curelem
      if curdist < insertdist then .done (.displace curelem)
      else
        let insertdist' := u32 (insertdist + 1)
        if T.growMaxDib < insertdist' ∧ shFillsMin tb then .done .restart
        else .next (shNext tb curelem, insertdist'))
    tb.size (shInitialBucket tb hash, 0)

/-- The search for the next empty bucket after `curelem`; `none` inside says
that too many entries would have to be moved. `emptydist` is an `int32`. -/
def shInsertFindEmpty (T : ShTemplate κ ν) (tb : ShHash κ ν) (curelem : ℕ) :
    Option (Option ℕ) :=
  Loop.run (fun ((emptyelem, emptydist) : ℕ × ℤ) =>
    let emptyelem' := shNext tb emptyelem
    if (tb.data emptyelem').status = .empty then .done (some emptyelem')
    else
      let emptydist' := (emptydist + 1).bmod (2 ^ 32)
      if T.growMaxMove < emptydist' ∧ shFillsMin tb then .done none
      else .next (emptyelem', emptydist'))
    tb.size (curelem, 0)

/-- The shift forward, starting at the last occupied element. -/
def shShiftForward (tb : ShHash κ ν) (curelem emptyelem : ℕ) :
    Option (ℕ → ShElement κ ν) :=
  Loop.run (fun ((moveelem, lastentry, data) : ℕ × ℕ × (ℕ → ShElement κ ν)) =>
    if moveelem = curelem then .done data
    else
      let moveelem' := shPrev tb moveelem
      .next (moveelem', moveelem',
        Function.update data lastentry (data moveelem')))
    tb.size (emptyelem, emptyelem, tb.data)

/-- What filling a bucket with a key leaves in it: the key, the hash where it
is stored, and the status; the rest of the element is not touched. -/
def ShTemplate.shFill (T : ShTemplate κ ν) (entry : ShElement κ ν) (key : κ)
    (hash : UInt32) : ShElement κ ν :=
  { entry with
    key := key
    hash := if T.storeHash then hash else entry.hash
    status := .inUse }

/-- Fill bucket `curelem` of `data` with a key, as a new member. -/
def shAddMember (T : ShTemplate κ ν) (tb : ShHash κ ν)
    (data : ℕ → ShElement κ ν) (curelem : ℕ) (key : κ) (hash : UInt32) :
    ShHash κ ν :=
  { tb with
    members := u32 (tb.members + 1)
    data := Function.update data curelem (T.shFill (data curelem) key hash) }

/-- What `SH_INSERT` gives back: whether the key was found, the element, and
the table. -/
structure ShInserted (κ ν : Type*) where
  found : Bool
  entry : ℕ
  table : ShHash κ ν

/-- One attempt of `SH_INSERT_HASH_INTERNAL`, after the grow check: `.next`
restarts with a threshold that makes the next attempt grow the table. -/
def shInsertAttempt (T : ShTemplate κ ν) (tb : ShHash κ ν) (key : κ)
    (hash : UInt32) :
    Loop.Step (ShHash κ ν) (Except ShError (ShInserted κ ν)) :=
  match shInsertProbe T tb key hash with
  | none => .stuck
  | some (.found curelem) => .done (.ok ⟨true, curelem, tb⟩)
  | some (.unused curelem) =>
    .done (.ok ⟨false, curelem, shAddMember T tb tb.data curelem key hash⟩)
  | some .restart => .next { tb with growThreshold := 0 }
  | some (.displace curelem) =>
    match shInsertFindEmpty T tb curelem with
    | none => .stuck
    | some none => .next { tb with growThreshold := 0 }
    | some (some emptyelem) =>
      match shShiftForward tb curelem emptyelem with
      | none => .stuck
      | some data =>
        .done (.ok ⟨false, curelem, shAddMember T tb data curelem key hash⟩)

/-- `SH_INSERT_HASH_INTERNAL`: a pass is what runs from the label `restart` to
the next `goto restart`. -/
def shInsertHashInternal (T : ShTemplate κ ν) (tb : ShHash κ ν) (key : κ)
    (hash : UInt32) : Option (Except ShError (ShInserted κ ν)) :=
  Loop.run (fun tb =>
    if tb.growThreshold ≤ tb.members then
      if tb.size = shMaxSize then .done (.error .sizeExceeded)
      else
        match shGrow T tb (tb.size * 2) with
        | none => .stuck
        | some (.error e) => .done (.error e)
        | some (.ok tb') => shInsertAttempt T tb' key hash
    else shInsertAttempt T tb key hash) 65 tb

/-- `SH_INSERT`. -/
def shInsert (T : ShTemplate κ ν) (tb : ShHash κ ν) (key : κ) :
    Option (Except ShError (ShInserted κ ν)) :=
  shInsertHashInternal T tb key (T.hashKey key)

/-- `SH_INSERT_HASH`. -/
def shInsertHash (T : ShTemplate κ ν) (tb : ShHash κ ν) (key : κ)
    (hash : UInt32) : Option (Except ShError (ShInserted κ ν)) :=
  shInsertHashInternal T tb key hash

/-! ## Looking up and deleting -/

/-- `SH_LOOKUP_HASH_INTERNAL`: the element with the key, or `NULL`. -/
def shLookupHashInternal (T : ShTemplate κ ν) (tb : ShHash κ ν) (key : κ)
    (hash : UInt32) : Option (Option ℕ) :=
  Loop.run (fun curelem =>
    let entry := tb.data curelem
    if entry.status = .empty then .done none
    else if T.shCompareKeys hash key entry then .done (some curelem)
    else .next (shNext tb curelem)) tb.size (shInitialBucket tb hash)

/-- `SH_LOOKUP`. -/
def shLookup (T : ShTemplate κ ν) (tb : ShHash κ ν) (key : κ) :
    Option (Option ℕ) :=
  shLookupHashInternal T tb key (T.hashKey key)

/-- `SH_LOOKUP_HASH`. -/
def shLookupHash (T : ShTemplate κ ν) (tb : ShHash κ ν) (key : κ)
    (hash : UInt32) : Option (Option ℕ) :=
  shLookupHashInternal T tb key hash

/-- The backward shift of `SH_DELETE` and `SH_DELETE_ITEM`: following elements
move back till either an empty element or an element at its optimal position
is encountered. -/
def shShiftBackward (T : ShTemplate κ ν) (tb : ShHash κ ν) (curelem : ℕ) :
    Option (ℕ → ShElement κ ν) :=
  Loop.run (fun ((curelem, lastentry, data) : ℕ × ℕ × (ℕ → ShElement κ ν)) =>
    let curelem' := shNext tb curelem
    let curentry := data curelem'
    let emptied :=
      Function.update data lastentry { data lastentry with status := .empty }
    if curentry.status ≠ .inUse then .done emptied
    else if shInitialBucket tb (T.shEntryHash curentry) = curelem' then
      .done emptied
    else .next (curelem', curelem', Function.update data lastentry curentry))
    tb.size (curelem, curelem, tb.data)

/-- Remove the element in bucket `curelem`: what `SH_DELETE` does once it has
found the element, and `SH_DELETE_ITEM` with the element it is given. -/
def shRemove (T : ShTemplate κ ν) (tb : ShHash κ ν) (curelem : ℕ) :
    Option (ShHash κ ν) :=
  match shShiftBackward T tb curelem with
  | none => none
  | some data =>
    some { tb with members := u32 (tb.members + (2 ^ 32 - 1)), data := data }

/-- The search of `SH_DELETE`. -/
def shDeleteFind (T : ShTemplate κ ν) (tb : ShHash κ ν) (key : κ)
    (hash : UInt32) : Option (Option ℕ) :=
  Loop.run (fun curelem =>
    let entry := tb.data curelem
    if entry.status = .empty then .done none
    else if entry.status = .inUse ∧ T.shCompareKeys hash key entry then
      .done (some curelem)
    else .next (shNext tb curelem)) tb.size (shInitialBucket tb hash)

/-- `SH_DELETE`: whether the key was present, and the table. -/
def shDelete (T : ShTemplate κ ν) (tb : ShHash κ ν) (key : κ) :
    Option (Bool × ShHash κ ν) :=
  match shDeleteFind T tb key (T.hashKey key) with
  | none => none
  | some none => some (false, tb)
  | some (some curelem) =>
    match shRemove T tb curelem with
    | none => none
    | some tb' => some (true, tb')

/-- `SH_DELETE_ITEM`. -/
def shDeleteItem (T : ShTemplate κ ν) (tb : ShHash κ ν) (entry : ℕ) :
    Option (ShHash κ ν) :=
  shRemove T tb entry

/-! ## Iterating -/

/-- `SH_ITERATOR`. -/
structure ShIterator where
  cur : ℕ
  finish : ℕ
  done : Bool
  deriving DecidableEq, Repr

/-- The search of `SH_START_ITERATE` for the first empty element. Its counter
`i` is an `int`, which wraps around at `2 ^ 31`; in the comparison with
`tb->size` it is converted to `uint64`. `startelem` is `PG_UINT64_MAX` when
nothing is found. -/
def shStartElem (tb : ShHash κ ν) : Option ℕ :=
  Loop.run (fun (i : ℤ) =>
    if (i % 2 ^ 64).toNat < tb.size then
      if (tb.data i.toNat).status ≠ .inUse then .done (i % 2 ^ 64).toNat
      else .next ((i + 1).bmod (2 ^ 32))
    else .done (2 ^ 64 - 1)) (tb.size + 1) 0

/-- `SH_START_ITERATE`. -/
def shStartIterate (tb : ShHash κ ν) : Option ShIterator :=
  match shStartElem tb with
  | none => none
  | some startelem => some ⟨u32 startelem, u32 startelem, false⟩

/-- `SH_START_ITERATE_AT`. -/
def shStartIterateAt (tb : ShHash κ ν) (start : ℕ) : ShIterator :=
  ⟨start &&& tb.sizemask, start &&& tb.sizemask, false⟩

/-- `SH_ITERATE`: the next occupied element, or `NULL` if done, and the
iterator. -/
def shIterate (tb : ShHash κ ν) (iter : ShIterator) :
    Option (Option ℕ × ShIterator) :=
  Loop.run (fun iter =>
    if iter.done then .done (none, iter)
    else
      let elem := iter.cur
      -- next element in backward direction
      let cur := u32 (iter.cur + (2 ^ 32 - 1)) &&& tb.sizemask
      let iter' : ShIterator :=
        { iter with
          cur := cur
          done := if cur &&& tb.sizemask = iter.finish &&& tb.sizemask then true
            else iter.done }
      if (tb.data elem).status = .inUse then .done (some elem, iter')
      else .next iter') (tb.size + 1) iter

end SimpleHash
