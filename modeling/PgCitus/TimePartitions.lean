import Mathlib.Data.Int.Order.Basic
import PgCitus.Library.Loop

/-!
# Time partitions

The two functions of the extension's SQL scripts that keep a time-partitioned table
supplied with partitions. `get_missing_time_partition_ranges` lays a grid of ranges
over the time asked for, each one `partition_interval` long, and returns those for
which there is no partition; `create_time_partitions` creates them.

The grid is anchored where there are partitions already: at the first one, from where
it is stepped forward or backward to the start of the time asked for. Only when there
is none it starts at a rounded time. Partitions made by hand may not fit the grid, and
the function has to find that out and refuse.

What these functions get from the server – adding an interval to a time, rounding and
printing a time, executing `CREATE TABLE` – is a parameter. Loops are given fuel. The
lock taken on the table, and arguments that are `NULL`, are left out.
-/

namespace TimePartitions

/-! ## What the server provides -/

/-- `timestamptz`: microseconds, with the two infinities at the ends of the range. -/
abbrev Timestamptz := ℤ

/-- `Interval`. -/
structure Interval where
  time : ℤ
  day : ℤ
  month : ℤ
deriving DecidableEq, Repr

/-- `USECS_PER_MINUTE`. -/
def usecsPerMinute : ℤ := 60000000
/-- `USECS_PER_HOUR`. -/
def usecsPerHour : ℤ := 3600000000
/-- `USECS_PER_DAY`. -/
def usecsPerDay : ℤ := 86400000000
/-- `DAYS_PER_MONTH`. -/
def daysPerMonth : ℤ := 30

/-- What intervals are compared by: months of thirty days, days of twenty-four hours. -/
def Interval.cmpValue (iv : Interval) : ℤ :=
  iv.time + (iv.month * daysPerMonth + iv.day) * usecsPerDay

/-- `date_trunc('day', interval)`. -/
def Interval.truncDay (iv : Interval) : Interval := { iv with time := 0 }

/-- `INTERVAL '1 minute'`. -/
def minute : Interval := ⟨usecsPerMinute, 0, 0⟩
/-- `INTERVAL '1 hour'`. -/
def hour : Interval := ⟨usecsPerHour, 0, 0⟩
/-- `INTERVAL '1 day'`. -/
def day : Interval := ⟨0, 1, 0⟩
/-- `INTERVAL '1 week'`. -/
def week : Interval := ⟨0, 7, 0⟩
/-- `INTERVAL '1 month'`. -/
def month : Interval := ⟨0, 0, 1⟩
/-- `INTERVAL '3 months'`. -/
def quarter : Interval := ⟨0, 0, 3⟩
/-- `INTERVAL '1 year'`. -/
def year : Interval := ⟨0, 0, 12⟩

/-- The units times are rounded to. -/
inductive TruncUnit where
  | minute
  | hour
  | day
  | week
  | month
  | quarter
  | year
deriving DecidableEq, Repr

/-- The types of columns. -/
inductive Regtype where
  | date
  | timestamp
  | timestamptz
  | other
deriving DecidableEq, Repr

/-- A row of `time_partitions`: a partition and its bounds, as times. The bounds of a
default partition are shown as `''`, which is `none` here. -/
structure TimePartition where
  partition : String
  bounds : Option (Timestamptz × Timestamptz)
deriving DecidableEq, Repr

/-- What the catalogs say of a partitioned table, and the rows of `time_partitions`
with it as `parent_table`. -/
structure PartitionedTable where
  relname : String
  nspname : String
  partnatts : ℕ
  atttypid : Regtype
  partitions : List TimePartition
deriving DecidableEq, Repr

/-- A row that `get_missing_time_partition_ranges` returns. Besides the texts, the
times that they are the texts of. -/
structure MissingRange where
  partitionName : String
  rangeFromValue : String
  rangeToValue : String
  rangeFrom : Timestamptz
  rangeTo : Timestamptz
deriving DecidableEq, Repr

/-- **The server's part**: what the functions call. Operations that may fail give
`none`. -/
structure Server where
  /-- `timestamptz + interval`. -/
  plus : Timestamptz → Interval → Option Timestamptz
  /-- `timestamptz - interval`. -/
  minus : Timestamptz → Interval → Option Timestamptz
  /-- `date_trunc`. -/
  dateTrunc : TruncUnit → Timestamptz → Option Timestamptz
  /-- `to_char`. -/
  toChar : Timestamptz → String → String
  /-- The text of a time, as a value of a column type. -/
  text : Regtype → Timestamptz → String
  /-- `current_setting('max_identifier_length')`. -/
  maxIdentifierLength : ℕ
  /-- `CREATE TABLE … PARTITION OF … FOR VALUES FROM … TO …`. -/
  createTable : PartitionedTable → MissingRange → Option PartitionedTable

/-- What is raised. -/
inductive Error where
  /-- `% is not partitioned` -/
  | notPartitioned
  /-- `partitioned tables with multiple partition columns are not supported` -/
  | multipleColumns
  /-- `type of the partition column of the table % must be date, timestamp or
  timestamptz` -/
  | unsupportedType
  /-- `partition interval of date partitioned table must be day or multiple days` -/
  | notDayMultiple
  /-- `partition % with the range from % to % does not align with the initial partition
  given the partition interval` -/
  | notAligned (manualPartition : TimePartition)
  /-- `start_from (%) must be older than end_at (%)` -/
  | startNotOlder
  /-- The server's `timestamp out of range`. -/
  | timestampOutOfRange
  /-- The server's `invalid input syntax for type timestamp with time zone`. -/
  | invalidSyntax
  /-- Any error of `CREATE TABLE`. -/
  | createFailed
deriving DecidableEq, Repr

/-- What a function does: it returns, it raises, or its fuel runs out. -/
abbrev Exec (α : Type) := Option (Except Error α)

variable (srv : Server)

/-! ## The start of the grid -/

/-- The checks on the table and its partition column. -/
def checkTable (table : Option PartitionedTable) (partitionInterval : Interval) :
    Except Error PartitionedTable :=
  match table with
  | none => .error .notPartitioned
  | some table =>
    if table.partnatts ≠ 1 then .error .multipleColumns
    else if table.atttypid = .other then .error .unsupportedType
    else if table.atttypid = .date ∧
        partitionInterval.truncDay.cmpValue ≠ partitionInterval.cmpValue then
      .error .notDayMultiple
    else .ok table

/-- The unit that the first partition of a table starts at. -/
def truncUnit (partitionInterval : Interval) : TruncUnit :=
  if partitionInterval.cmpValue < hour.cmpValue then .minute
  else if partitionInterval.cmpValue < day.cmpValue then .hour
  else if partitionInterval.cmpValue < week.cmpValue then .day
  else if partitionInterval.cmpValue < month.cmpValue then .week
  else if partitionInterval.cmpValue = quarter.cmpValue then .quarter
  else if partitionInterval.cmpValue < year.cmpValue then .month
  else .year

/-- The ranges of the partitions that have one. -/
def ranges (partitions : List TimePartition) : List (Timestamptz × Timestamptz) :=
  partitions.filterMap TimePartition.bounds

/-- `ORDER BY tp.from_value::timestamptz ASC LIMIT 1`. -/
def firstRange : List (Timestamptz × Timestamptz) → Option (Timestamptz × Timestamptz)
  | [] => none
  | r :: rs =>
    match firstRange rs with
    | none => some r
    | some q => if r.1 ≤ q.1 then some r else some q

/-- `WHILE current_range_from_value < from_value`. -/
def forwardBody (partitionInterval : Interval) (fromValue currentRangeFromValue : Timestamptz) :
    Loop.Step Timestamptz (Except Error Timestamptz) :=
  if currentRangeFromValue < fromValue then
    match srv.plus currentRangeFromValue partitionInterval with
    | some current => .next current
    | none => .done (.error .timestampOutOfRange)
  else .done (.ok currentRangeFromValue)

/-- `WHILE current_range_from_value > from_value`. -/
def backwardBody (partitionInterval : Interval) (fromValue currentRangeFromValue : Timestamptz) :
    Loop.Step Timestamptz (Except Error Timestamptz) :=
  if currentRangeFromValue > fromValue then
    match srv.minus currentRangeFromValue partitionInterval with
    | some current => .next current
    | none => .done (.error .timestampOutOfRange)
  else .done (.ok currentRangeFromValue)

/-- **Where the grid starts.** -/
def gridStart (fuel : ℕ) (partitions : List TimePartition) (partitionInterval : Interval)
    (fromValue : Timestamptz) : Exec Timestamptz :=
  match firstRange (ranges partitions) with
  | none =>
    match srv.dateTrunc (truncUnit partitionInterval) fromValue with
    | some current => some (.ok current)
    | none => some (.error .timestampOutOfRange)
  | some (currentRangeFromValue, _) =>
    -- if from_value is newer than pivot's from value, go forward, else go backward
    if fromValue ≥ currentRangeFromValue then
      Loop.run (forwardBody srv partitionInterval fromValue) fuel currentRangeFromValue
    else
      Loop.run (backwardBody srv partitionInterval fromValue) fuel currentRangeFromValue

/-! ## The ranges of the grid -/

/-- The format of partition names. -/
def partitionNameFormat (partitionInterval : Interval) : String :=
  if partitionInterval.cmpValue = quarter.cmpValue then "YYYY\"q\"Q"
  else if partitionInterval.cmpValue = week.cmpValue then "IYYY\"w\"IW"
  else
    "YYYY" ++ (if partitionInterval.cmpValue < year.cmpValue then "_MM" else "")
      ++ (if partitionInterval.cmpValue < month.cmpValue then "_DD" else "")
      ++ (if partitionInterval.cmpValue < day.cmpValue then "_HH24MI" else "")
      ++ (if partitionInterval.cmpValue < minute.cmpValue then "SS" else "")

/-- `substring(string, start, count)`: positions are counted from one. -/
def substring (string : String) (start count : ℤ) : String :=
  String.ofList ((string.toList.take (start + count - 1).toNat).drop (start - 1).toNat)

/-- The name of the partition for the range that starts at `current`. What `to_char`
makes of the formats is always shorter than an identifier. -/
def partitionName (table : PartitionedTable) (partitionInterval : Interval)
    (current : Timestamptz) : String :=
  let suffix := srv.toChar current (partitionNameFormat partitionInterval)
  substring table.relname 0 (srv.maxIdentifierLength - suffix.length - 1) ++ "_p" ++ suffix

/-- The row returned for a range. -/
def missingRange (table : PartitionedTable) (partitionInterval : Interval)
    (rangeFrom rangeTo : Timestamptz) : MissingRange where
  partitionName := partitionName srv table partitionInterval rangeFrom
  rangeFromValue := srv.text table.atttypid rangeFrom
  rangeToValue := srv.text table.atttypid rangeTo
  rangeFrom := rangeFrom
  rangeTo := rangeTo

/-- The bounds of a partition overlap a range, as the alignment check tests it: one of
the range's ends lies inside of the partition. -/
def overlapTest (rangeFrom rangeTo : Timestamptz) (tp : TimePartition) : Bool :=
  match tp.bounds with
  | some (fromValue, toValue) =>
    (rangeFrom ≥ fromValue && rangeFrom < toValue) || (rangeTo > fromValue && rangeTo < toValue)
  | none => false

/-- The variables of the main loop: the current range, and the rows returned so far. -/
structure Cursor where
  currentRangeFromValue : Timestamptz
  currentRangeToValue : Timestamptz
  returned : List MissingRange

/-- The end of a pass: on to the next range. -/
def nextRange (partitionInterval : Interval) (c : Cursor) (returned : List MissingRange) :
    Loop.Step Cursor (Except Error (List MissingRange)) :=
  match srv.plus c.currentRangeToValue partitionInterval with
  | some current => .next ⟨c.currentRangeToValue, current, returned⟩
  | none => .done (.error .timestampOutOfRange)

/-- `WHILE current_range_from_value < to_value`. -/
def mainBody (table : PartitionedTable) (partitionInterval : Interval) (toValue : Timestamptz)
    (c : Cursor) : Loop.Step Cursor (Except Error (List MissingRange)) :=
  if c.currentRangeFromValue < toValue then
    -- the bounds of every partition are cast to timestamptz
    if table.partitions.any fun tp => tp.bounds.isNone then .done (.error .invalidSyntax)
    else if table.partitions.any fun tp =>
        tp.bounds == some (c.currentRangeFromValue, c.currentRangeToValue) then
      nextRange srv partitionInterval c c.returned
    else
      match table.partitions.find? (overlapTest c.currentRangeFromValue c.currentRangeToValue) with
      | some manualPartition => .done (.error (.notAligned manualPartition))
      | none =>
        if table.atttypid = .other then .done (.error .unsupportedType)
        else
          nextRange srv partitionInterval c (c.returned ++
            [missingRange srv table partitionInterval c.currentRangeFromValue
              c.currentRangeToValue])
  else .done (.ok c.returned)

/-- `get_missing_time_partition_ranges`. -/
def getMissingTimePartitionRanges (fuel : ℕ) (table : Option PartitionedTable)
    (partitionInterval : Interval) (toValue fromValue : Timestamptz) :
    Exec (List MissingRange) :=
  match checkTable table partitionInterval with
  | .error e => some (.error e)
  | .ok table =>
    match gridStart srv fuel table.partitions partitionInterval fromValue with
    | none => none
    | some (.error e) => some (.error e)
    | some (.ok current) =>
      match srv.plus current partitionInterval with
      | none => some (.error .timestampOutOfRange)
      | some currentTo =>
        Loop.run (mainBody srv table partitionInterval toValue) fuel ⟨current, currentTo, []⟩

/-! ## Creating the partitions -/

/-- `EXECUTE format('CREATE TABLE …')` for each missing range. -/
def createAll : List MissingRange → PartitionedTable → Except Error PartitionedTable
  | [], table => .ok table
  | r :: rs, table =>
    match srv.createTable table r with
    | some table => createAll rs table
    | none => .error .createFailed

/-- `create_time_partitions`: whether any partitions were created, and the table as it
is left. -/
def createTimePartitions (fuel : ℕ) (table : Option PartitionedTable)
    (partitionInterval : Interval) (endAt startFrom : Timestamptz) :
    Exec (Bool × Option PartitionedTable) :=
  if startFrom ≥ endAt then some (.error .startNotOlder)
  else
    match getMissingTimePartitionRanges srv fuel table partitionInterval endAt startFrom with
    | none => none
    | some (.error e) => some (.error e)
    | some (.ok missing) =>
      match table with
      | none => some (.ok (!missing.isEmpty, none))
      | some table =>
        match createAll srv missing table with
        | .error e => some (.error e)
        | .ok table => some (.ok (!missing.isEmpty, some table))

/-! ## A server

One that the functions can be run on: its time zone is UTC, and it has no months. -/

/-- `j2date`, from days since 2000-01-01: the year, the month and the day. -/
def j2date (days : ℤ) : ℕ × ℕ × ℕ :=
  let julian := (days + 2451545 + 32044).toNat
  let quad := julian / 146097
  let extra := (julian - quad * 146097) * 4 + 3
  let julian := julian + 60 + quad * 3 + extra / 146097
  let quad := julian / 1461
  let julian := julian - quad * 1461
  let y := julian * 4 / 1461
  let julian := (if y ≠ 0 then (julian + 305) % 365 else (julian + 306) % 366) + 123
  let y := y + quad * 4
  let quad := julian * 2141 / 65536
  (y - 4800, (quad + 10) % 12 + 1, julian - 7834 * quad / 256)

/-- A number of at most two digits. -/
def twoDigits (n : ℕ) : List Char := [Nat.digitChar (n / 10 % 10), Nat.digitChar (n % 10)]

/-- `to_char`, of the patterns for dates and times of day. -/
def formatUtc (t : Timestamptz) : List Char → List Char
  | 'Y' :: 'Y' :: 'Y' :: 'Y' :: cs =>
    let y := (j2date (t / usecsPerDay)).1
    twoDigits (y / 100) ++ twoDigits (y % 100) ++ formatUtc t cs
  | 'M' :: 'M' :: cs => twoDigits (j2date (t / usecsPerDay)).2.1 ++ formatUtc t cs
  | 'D' :: 'D' :: cs => twoDigits (j2date (t / usecsPerDay)).2.2 ++ formatUtc t cs
  | 'H' :: 'H' :: '2' :: '4' :: cs => twoDigits (t / usecsPerHour % 24).toNat ++ formatUtc t cs
  | 'M' :: 'I' :: cs => twoDigits (t / usecsPerMinute % 60).toNat ++ formatUtc t cs
  | 'S' :: 'S' :: cs => twoDigits (t / 1000000 % 60).toNat ++ formatUtc t cs
  | c :: cs => c :: formatUtc t cs
  | [] => []

/-- Infinite times stay, and a finite one may not leave the range of times. -/
def plusUtc (t d : ℤ) : Option Timestamptz :=
  if t = -9223372036854775808 ∨ t = 9223372036854775807 then some t
  else if -211813488000000000 ≤ t + d ∧ t + d < 9223371331200000000 then some (t + d)
  else none

/-- The last time of a grid of `unit` through `base` that is not after `t`. -/
def floorUtc (unit base t : ℤ) : Timestamptz := t - (t - base) % unit

/-- **A server in UTC.** -/
def utcServer : Server where
  plus t iv :=
    if iv.month ≠ 0 then none
    else (plusUtc t (iv.day * usecsPerDay)).bind fun t => plusUtc t iv.time
  minus t iv :=
    if iv.month ≠ 0 then none
    else (plusUtc t (-(iv.day * usecsPerDay))).bind fun t => plusUtc t (-iv.time)
  dateTrunc
    | .minute, t => some (floorUtc usecsPerMinute 0 t)
    | .hour, t => some (floorUtc usecsPerHour 0 t)
    | .day, t => some (floorUtc usecsPerDay 0 t)
    -- 2000-01-03 is a Monday
    | .week, t => some (floorUtc (7 * usecsPerDay) (2 * usecsPerDay) t)
    | _, _ => none
  toChar t format := String.ofList (formatUtc t format.toList)
  text
    | .date, t => String.ofList (formatUtc t "YYYY-MM-DD".toList)
    | .timestamp, t => String.ofList (formatUtc t "YYYY-MM-DD HH24:MI:SS".toList)
    | _, t => String.ofList (formatUtc t "YYYY-MM-DD HH24:MI:SS+00".toList)
  maxIdentifierLength := 63
  createTable table r :=
    if table.partitions.any fun tp => tp.partition == r.partitionName then none
    else if (ranges table.partitions).any fun p =>
        decide (p.1 < r.rangeTo) && decide (r.rangeFrom < p.2) then none
    else if r.rangeTo ≤ r.rangeFrom then none
    else some { table with
      partitions := table.partitions ++ [⟨r.partitionName, some (r.rangeFrom, r.rangeTo)⟩] }

/-- Hours, from the first one of the year 2000. -/
def hours (n : ℤ) : Timestamptz := n * usecsPerHour

/-- `INTERVAL '2 hours'`. -/
def twoHours : Interval := ⟨2 * usecsPerHour, 0, 0⟩

/-- A table of events, partitioned by time. -/
def eventsTable (partitions : List TimePartition) : PartitionedTable where
  relname := "events"
  nspname := "public"
  partnatts := 1
  atttypid := .timestamptz
  partitions := partitions

/-- That table, with a partition of hours zero to two. -/
def eventsUntilTwo : PartitionedTable := eventsTable [⟨"p", some (hours 0, hours 2)⟩]

end TimePartitions
