import PgCitus.Library.Loop
import PgCitus.Library.Circ
import PgCitus.Library.RobinHood
import PgCitus.Library.Rehash
import PgCitus.Library.Rearrange
import PgCitus.Library.Quicksort
import PgCitus.Library.LinkRing
import PgCitus.Library.Layout
import PgCitus.Library.Numeral
import PgCitus.Library.Serial
import PgCitus.PgBitutils
import PgCitus.SimpleHash
import PgCitus.SimpleHashInvariant
import PgCitus.SimpleHashSearch
import PgCitus.SimpleHashGrow
import PgCitus.SimpleHashInsert
import PgCitus.SimpleHashDelete
import PgCitus.SimpleHashRun
import PgCitus.SimpleHashIterate
import PgCitus.SimpleHashIterateAt
import PgCitus.SimpleHashResize
import PgCitus.SortTemplate
import PgCitus.SortTemplateArray
import PgCitus.SortTemplateLog
import PgCitus.SortTemplateScan
import PgCitus.SortTemplateSort
import PgCitus.SortTemplateBounds
import PgCitus.Int128
import PgCitus.Ilist
import PgCitus.IlistRun
import PgCitus.Proclist
import PgCitus.ProclistRun
import PgCitus.Tupmacs
import PgCitus.XlogInternal
import PgCitus.Transam
import PgCitus.Library.BitField
import PgCitus.Nbtree
import PgCitus.Jsonb
import PgCitus.Library.ThreeWay
import PgCitus.SortSupport
import PgCitus.ChecksumImpl
import PgCitus.BackendStatus
import PgCitus.TimePartitions
import PgCitus.TimePartitionsGrid
import PgCitus.TimePartitionsMissing
import PgCitus.TimePartitionsCreate
import PgCitus.Library.Rows
import PgCitus.TablesColocated
import PgCitus.PgUpgrade
import PgCitus.PgUpgradeCycle
import PgCitus.Library.RowTrigger
import PgCitus.RebalanceStrategy
import PgCitus.DistNode
import PgCitus.ShardPlacement
import PgCitus.AtomicsGeneric
import PgCitus.Lock
import PgCitus.Relptr
import PgCitus.Library.CasLoop
import PgCitus.CommonInt
import PgCitus.Library.LinkChain
import PgCitus.Slist
import PgCitus.Varatt
import PgCitus.Library.Orbit
import PgCitus.TimePartitionsDefault
import PgCitus.TimePartitionsEnds
import PgCitus.PgList
import PgCitus.Library.LoopRel
import PgCitus.SortTemplateAlike
import PgCitus.Library.Periods
import PgCitus.Library.Gregorian
import PgCitus.Library.Decimal
import PgCitus.TimePartitionsPeriods
import PgCitus.TimePartitionsNames
import PgCitus.JsonCatAgg
import PgCitus.Columnar
import PgCitus.CitusShards
import PgCitus.SimpleHashFill
import PgCitus.BufPage
import PgCitus.XlogFileNames
import PgCitus.Qunique
import PgCitus.MemSet
import PgCitus.ArrayAccess
import PgCitus.HashFn
import PgCitus.PgBitutilsPortable
import PgCitus.PqFormat
import PgCitus.GinPrivate
import PgCitus.TsType
import PgCitus.Library.Simulation
import PgCitus.Elog
import PgCitus.ElogRun
import PgCitus.Library.CriticalSection
import PgCitus.SpinLock
import PgCitus.Library.LoadLinked
import PgCitus.AtomicsPpc
import PgCitus.RunCommand
import PgCitus.Library.Crc
import PgCitus.PgCrc
import PgCitus.HtupDetails
import PgCitus.SlistRun
import PgCitus.Library.Pack
import PgCitus.TsVector
import PgCitus.GinBlock
import PgCitus.CommonIntWidths
