import PgRedis.Lib.Run
import PgRedis.Lib.LastWrite
import PgRedis.Lib.Cyclic
import PgRedis.Lib.Probe
import PgRedis.Lib.Htab
import PgRedis.Lib.Chain
import PgRedis.Lib.DoublyLinked
import PgRedis.Lib.Deltas
import PgRedis.Lib.Ledger
import PgRedis.Lib.SelfDelimiting
import PgRedis.Lib.Columns
import PgRedis.Durable
import PgRedis.Durable.Batch
import PgRedis.HashValue
import PgRedis.ListValue
import PgRedis.Tlv
import PgRedis.Session
import PgRedis.Session.Command
import PgRedis.Session.Cells
import PgRedis.Session.Flush
import PgRedis.Session.Exact
import PgRedis.Session.Deltas
import PgRedis.Session.Encode
import PgRedis.Session.Load
import PgRedis.Session.Resync
import PgRedis.Session.Alike
import PgRedis.Session.Isolation
import PgRedis.Session.ReadOnly
import PgRedis.Session.Restore
import PgRedis.Session.Generations
import PgRedis.Session.DirtySet
import PgRedis.SharedHash
import PgRedis.SharedHash.Map
import PgRedis.Ring
import PgRedis.Ring.Drain
import PgRedis.Ring.Fifo
import PgRedis.Ring.Publish
import PgRedis.Ring.Reclaim
import PgRedis.Ring.Codec
import PgRedis.Ring.Commit
import PgRedis.Ring.Shutdown
import PgRedis.Ring.Calm
import PgRedis.Ring.Spill
import PgRedis.ColdStart
import PgRedis.SharedList
import PgRedis.SharedStore
import PgRedis.SharedStore.Memory
import PgRedis.Cell
import PgRedis.LinkedList
import PgRedis.SharedStore.Load
import PgRedis.SharedStore.Command
import PgRedis.SharedStore.Exec
import PgRedis.SharedStore.Cells
import PgRedis.SharedStore.Sound
import PgRedis.SharedStore.Writeback
import PgRedis.SharedList.Memory
import PgRedis.SharedList.Operations
import PgRedis.SharedList.Deque
import PgRedis.SharedStore.Backpressure
import PgRedis.SharedStore.Refused
import PgRedis.SharedStore.Async
import PgRedis.Modes
import PgRedis.SharedStore.Sections
import PgRedis.SharedStore.Interleaving
import PgRedis.SharedStore.Publishing
import PgRedis.SharedStore.Publishing.Step
import PgRedis.SharedStore.Publishing.Runs
import PgRedis.Durable.Cells
import PgRedis.Durable.Rows
import PgRedis.SharedStore.Ordinals
import PgRedis.SharedStore.Converge
import PgRedis.SharedStore.Pipeline
import PgRedis.SharedStore.SameRows
import PgRedis.Precommit
import PgRedis.Session.Memory
import PgRedis.Keyspace
import PgRedis.Expiry
import PgRedis.Counter
import PgRedis.Snapshot
import PgRedis.Scan
import PgRedis.Locks
import PgRedis.Jobs
import PgRedis.Jobs.Tick
import PgRedis.Jobs.Flush
import PgRedis.Worker
import PgRedis.Area
import PgRedis.Vectors
import PgRedis.Vectors.Plans
