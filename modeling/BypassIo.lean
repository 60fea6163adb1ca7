import BypassIo.Library.Bytes
import BypassIo.Library.Columns
import BypassIo.Library.Outcome
import BypassIo.Library.Disk
import BypassIo.Library.Program
import BypassIo.Library.Cursor
import BypassIo.Library.CursorFaults
import BypassIo.Library.Crc
import BypassIo.Library.Machine
import BypassIo.Library.Counter
import BypassIo.Library.Window
import BypassIo.Db.Schema
import BypassIo.Db.Batch
import BypassIo.Db.Rows
import BypassIo.Db.Error
import BypassIo.Db.Wal
import BypassIo.Db.Codec
import BypassIo.Db.Decoded
import BypassIo.Db.Segment
import BypassIo.Db.Sealed
import BypassIo.Db.Scan
import BypassIo.Db.Flatten
import BypassIo.Db.ScanBatch
import BypassIo.Db.Table
import BypassIo.Db.Directory
import BypassIo.Db.Compact
import BypassIo.Db.Flush
import BypassIo.Db.Contents
import BypassIo.Db.Handle
import BypassIo.Db.Append
import BypassIo.Db.Open
import BypassIo.Db.ScanTable
import BypassIo.Db.Lossless
import BypassIo.Db.Runs
import BypassIo.Db.Refinement
import BypassIo.Db.Reopen
import BypassIo.Db.Json
import BypassIo.Db.Load
import BypassIo.Db.Faults
import BypassIo.Db.AllOrNothing
import BypassIo.Db.TornTail
import BypassIo.Db.Survival
import BypassIo.Db.Framing
import BypassIo.Db.Numbering
import BypassIo.Db.Corruption
import BypassIo.Db.Order
import BypassIo.Db.Project
import BypassIo.Db.ReadPaths
import BypassIo.Db.OtherSchema
import BypassIo.Ring.Spsc
import BypassIo.Ring.SpscSafety
import BypassIo.Ring.Mpsc
import BypassIo.Ring.MpscSafety
import BypassIo.Backend.Device
import BypassIo.Backend.Uring
import BypassIo.Backend.UringSafety
import BypassIo.Backend.Spdk
import BypassIo.Backend.SpdkSafety
import BypassIo.Library.PowerLoss
import BypassIo.Db.Syncs
import BypassIo.Db.PowerLoss
import BypassIo.Db.Narrow
import BypassIo.Backend.SpdkGate
import BypassIo.Buf.Pool
import BypassIo.Backend.Dpdk
import BypassIo.Db.Flushable
import BypassIo.Library.Debug
import BypassIo.Library.Toml
import BypassIo.Library.Serde
import BypassIo.Library.TomlReader
import BypassIo.Config.Config
import BypassIo.Library.DebugToml
import BypassIo.Config.RoundTrip
import BypassIo.Db.Gather
import BypassIo.Db.Kernels
import BypassIo.Library.Binary64
import BypassIo.Db.IntPredicate
import BypassIo.Backend.SpdkVectored
import BypassIo.Backend.SpdkLifecycle
import BypassIo.Backend.DpdkReads
import BypassIo.Library.Sample
import BypassIo.Ring.Length
import BypassIo.Backend.Packet
import BypassIo.Backend.Frame
import BypassIo.Db.Builder
import BypassIo.Config.TableSchema
import BypassIo.Db.Overflow
import BypassIo.Db.Panics
import BypassIo.Buf.Hugepage
import BypassIo.Backend.DpdkBackend
import BypassIo.Backend.SpdkStore
import BypassIo.Backend.DpdkPooled
import BypassIo.Reactor.Poll
import BypassIo.Backend.UringFaults
import BypassIo.Db.Containment
import BypassIo.Db.History
import BypassIo.Db.Paging
import BypassIo.Library.JsonLines
import BypassIo.Cli.BenchDb
import BypassIo.Cli.BenchHistory
