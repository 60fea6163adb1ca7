import BypassIo.Library.Debug
import BypassIo.Library.Serde

/-!
# The runtime configuration

The configuration of `bypass-io.toml`: its text, its readers and its validation. A `usize` has
64 bits. A TOML reader and the messages of refused values are parameters.

## Main definitions

* `BypassConfig`: the configuration.
* `BypassConfig.validate`: its validation.
* `BypassConfig.toTomlString`, `fromTomlStr`: writing and reading it.
-/

namespace BypassIo.Config

/-! ## The configuration -/

structure ReactorConfig where
  pollCores : List UInt32
deriving DecidableEq

structure BufPoolConfig where
  count : UInt64
  bufSizeMib : UInt64
deriving DecidableEq

structure UringConfig where
  sqDepth : UInt32
  cqDepth : UInt32
  sqpollIdleMs : UInt32
deriving DecidableEq

structure SpdkRuntimeConfig where
  devices : List String
  queueDepth : UInt32
  ioSizeMib : UInt64
deriving DecidableEq

structure DpdkRuntimeConfig where
  pciAddr : String
  rxQueues : UInt16
  txQueues : UInt16
  rssKey : String
deriving DecidableEq

inductive DbColumnDType where
  | f64
  | i64
  | timestamp
  | fixedStr (width : UInt64)
deriving DecidableEq

structure DbColumnConfig where
  name : String
  dtype : DbColumnDType
deriving DecidableEq

structure DbSchemaConfig where
  name : String
  columns : List DbColumnConfig
deriving DecidableEq

structure DbConfig where
  path : String
  walSizeMib : UInt64
  segmentRows : UInt64
  compactionThreads : UInt64
  schema : DbSchemaConfig
deriving DecidableEq

structure BypassConfig where
  reactor : ReactorConfig
  bufpool : BufPoolConfig
  uring : UringConfig
  spdk : SpdkRuntimeConfig
  dpdk : DpdkRuntimeConfig
  db : DbConfig
deriving DecidableEq

def DbSchemaConfig.default : DbSchemaConfig where
  name := "trades"
  columns := [⟨"timestamp", .timestamp⟩, ⟨"symbol", .fixedStr 8⟩, ⟨"price", .f64⟩, ⟨"volume", .f64⟩]

def BypassConfig.default : BypassConfig where
  reactor := ⟨[0, 1]⟩
  bufpool := ⟨512, 2⟩
  uring := ⟨4096, 8192, 2⟩
  spdk := ⟨["0000:01:00.0"], 256, 128⟩
  dpdk := ⟨"0000:02:00.0", 1, 1, "6d5a56da"⟩
  db := ⟨"/data/bypass-db", 256, 1000000, 1, .default⟩

inductive ConfigError where
  | io (path message : String)
  | deserialize (message : String)
  | serialize (message : String)
  | validation (message : String)
deriving DecidableEq

/-! ## Validation -/

def validation {α : Type} (message : String) : Except ConfigError α := .error (.validation message)

@[simp] theorem ite_validation_eq_ok {α : Type} {p : Prop} [Decidable p] {message : String}
    {rest : Except ConfigError α} {a : α} :
    (if p then validation message else rest) = .ok a ↔ ¬ p ∧ rest = .ok a := by
  split_ifs with h <;> simp [h, validation]

/-- The loop of `validate` over the columns: those before, and the timestamps among them. -/
def DbSchemaConfig.validateColumns (before : List DbColumnConfig) (timestampCount : Nat) :
    List DbColumnConfig → Except ConfigError Nat
  | [] => .ok timestampCount
  | column :: columns =>
    if column.name = "" then validation "db.schema.columns.name must not be empty"
    else if before.any fun seen => seen.name = column.name then
      validation "db.schema column names must be unique"
    else if column.dtype = .fixedStr 0 then
      validation "db.schema FixedStr width must be greater than zero"
    else
      validateColumns (before ++ [column])
        (if column.dtype = .timestamp then timestampCount + 1 else timestampCount) columns

def DbSchemaConfig.validate (s : DbSchemaConfig) : Except ConfigError Unit :=
  if s.name = "" then validation "db.schema.name must not be empty"
  else if s.columns = [] then validation "db.schema.columns must not be empty"
  else do
    let timestampCount ← validateColumns [] 0 s.columns
    if timestampCount ≠ 1 then validation "db.schema must contain exactly one Timestamp column"
    else return ()

def BypassConfig.validate (c : BypassConfig) : Except ConfigError Unit :=
  if c.reactor.pollCores = [] then validation "reactor.poll_cores must not be empty"
  else if c.bufpool.count = 0 then validation "bufpool.count must be greater than zero"
  else if c.bufpool.bufSizeMib = 0 then validation "bufpool.buf_size_mib must be greater than zero"
  else if c.uring.sqDepth = 0 ∨ c.uring.cqDepth = 0 then
    validation "uring queue depths must be greater than zero"
  else if c.spdk.queueDepth = 0 then validation "spdk.queue_depth must be greater than zero"
  else if c.spdk.ioSizeMib = 0 then validation "spdk.io_size_mib must be greater than zero"
  else if c.dpdk.pciAddr = "" then validation "dpdk.pci_addr must not be empty"
  else if c.dpdk.rxQueues = 0 ∨ c.dpdk.txQueues = 0 then
    validation "dpdk queue counts must be greater than zero"
  else if c.db.path = "" then validation "db.path must not be empty"
  else if c.db.walSizeMib = 0 then validation "db.wal_size_mib must be greater than zero"
  else if c.db.segmentRows = 0 then validation "db.segment_rows must be greater than zero"
  else if c.db.compactionThreads = 0 then
    validation "db.compaction_threads must be greater than zero"
  else c.db.schema.validate

example : BypassConfig.default.validate = .ok () := by decide

/-! ## Writing -/

variable (wide : Char → Bool)

def joinNumbers (values : List UInt32) : String :=
  ", ".intercalate (values.map fun n => toString n.toNat)

def joinStrings (values : List String) : String := ", ".intercalate (values.map (Rust.debug wide))

def DbColumnDType.toTomlValue : DbColumnDType → String
  | .f64 => Rust.debug wide "F64"
  | .i64 => Rust.debug wide "I64"
  | .timestamp => Rust.debug wide "Timestamp"
  | .fixedStr width => "\x7b FixedStr = " ++ toString width.toNat ++ " \x7d"

def BypassConfig.toTomlString (c : BypassConfig) : String :=
  ("[reactor]\n" ++
    "poll_cores = [" ++ joinNumbers c.reactor.pollCores ++ "]\n\n") ++
  ("[bufpool]\n" ++
    "count = " ++ toString c.bufpool.count.toNat ++ "\n" ++
    "buf_size_mib = " ++ toString c.bufpool.bufSizeMib.toNat ++ "\n\n") ++
  ("[uring]\n" ++
    "sq_depth = " ++ toString c.uring.sqDepth.toNat ++ "\n" ++
    "cq_depth = " ++ toString c.uring.cqDepth.toNat ++ "\n" ++
    "sqpoll_idle_ms = " ++ toString c.uring.sqpollIdleMs.toNat ++ "\n\n") ++
  ("[spdk]\n" ++
    "devices = [" ++ joinStrings wide c.spdk.devices ++ "]\n" ++
    "queue_depth = " ++ toString c.spdk.queueDepth.toNat ++ "\n" ++
    "io_size_mib = " ++ toString c.spdk.ioSizeMib.toNat ++ "\n\n") ++
  ("[dpdk]\n" ++
    "pci_addr = " ++ Rust.debug wide c.dpdk.pciAddr ++ "\n" ++
    "rx_queues = " ++ toString c.dpdk.rxQueues.toNat ++ "\n" ++
    "tx_queues = " ++ toString c.dpdk.txQueues.toNat ++ "\n" ++
    "rss_key = " ++ Rust.debug wide c.dpdk.rssKey ++ "\n\n") ++
  ("[db]\n" ++
    "path = " ++ Rust.debug wide c.db.path ++ "\n" ++
    "wal_size_mib = " ++ toString c.db.walSizeMib.toNat ++ "\n" ++
    "segment_rows = " ++ toString c.db.segmentRows.toNat ++ "\n" ++
    "compaction_threads = " ++ toString c.db.compactionThreads.toNat ++ "\n\n") ++
  ("[db.schema]\n" ++
    "name = " ++ Rust.debug wide c.db.schema.name ++ "\n") ++
  .join (c.db.schema.columns.map fun column =>
    "\n[[db.schema.columns]]\n" ++
    "name = " ++ Rust.debug wide column.name ++ "\n" ++
    "dtype = " ++ column.dtype.toTomlValue wide ++ "\n")

/-! ## Reading -/

open Serde (De field fields)

/-- The two shapes of a column type. -/
inductive DbColumnDType.Repr where
  | name (name : String)
  | fixedStr (fixedStr : UInt64)

/-- The shapes are tried in their order. The map may have other entries. -/
def deRepr : De DbColumnDType.Repr := fun v =>
  match Serde.string v with
  | .ok name => .ok (.name name)
  | .error _ =>
    match Serde.entries v >>= field "FixedStr" Serde.usize with
    | .ok fixedStr => .ok (.fixedStr fixedStr)
    | .error _ => .error .noVariant

def deDbColumnDType : De DbColumnDType := fun v => do
  match ← deRepr v with
  | .name name =>
    if name = "F64" then return .f64
    else if name = "I64" then return .i64
    else if name = "Timestamp" then return .timestamp
    else .error (.unknownVariant name)
  | .fixedStr fixedStr => return .fixedStr fixedStr

def deDbColumnConfig : De DbColumnConfig := fun v => do
  let t ← fields ["name", "dtype"] v
  return {
    name := ← field "name" Serde.string t
    dtype := ← field "dtype" deDbColumnDType t }

def deDbSchemaConfig : De DbSchemaConfig := fun v => do
  let t ← fields ["name", "columns"] v
  return {
    name := ← field "name" Serde.string t
    columns := ← field "columns" (Serde.vec deDbColumnConfig) t }

def deDbConfig : De DbConfig := fun v => do
  let t ← fields ["path", "wal_size_mib", "segment_rows", "compaction_threads", "schema"] v
  return {
    path := ← field "path" Serde.string t
    walSizeMib := ← field "wal_size_mib" Serde.usize t
    segmentRows := ← field "segment_rows" Serde.usize t
    compactionThreads := ← field "compaction_threads" Serde.usize t
    schema := ← field "schema" deDbSchemaConfig t }

def deDpdkRuntimeConfig : De DpdkRuntimeConfig := fun v => do
  let t ← fields ["pci_addr", "rx_queues", "tx_queues", "rss_key"] v
  return {
    pciAddr := ← field "pci_addr" Serde.string t
    rxQueues := ← field "rx_queues" Serde.u16 t
    txQueues := ← field "tx_queues" Serde.u16 t
    rssKey := ← field "rss_key" Serde.string t }

def deSpdkRuntimeConfig : De SpdkRuntimeConfig := fun v => do
  let t ← fields ["devices", "queue_depth", "io_size_mib"] v
  return {
    devices := ← field "devices" (Serde.vec Serde.string) t
    queueDepth := ← field "queue_depth" Serde.u32 t
    ioSizeMib := ← field "io_size_mib" Serde.usize t }

def deUringConfig : De UringConfig := fun v => do
  let t ← fields ["sq_depth", "cq_depth", "sqpoll_idle_ms"] v
  return {
    sqDepth := ← field "sq_depth" Serde.u32 t
    cqDepth := ← field "cq_depth" Serde.u32 t
    sqpollIdleMs := ← field "sqpoll_idle_ms" Serde.u32 t }

def deBufPoolConfig : De BufPoolConfig := fun v => do
  let t ← fields ["count", "buf_size_mib"] v
  return {
    count := ← field "count" Serde.usize t
    bufSizeMib := ← field "buf_size_mib" Serde.usize t }

def deReactorConfig : De ReactorConfig := fun v => do
  let t ← fields ["poll_cores"] v
  return { pollCores := ← field "poll_cores" (Serde.vec Serde.u32) t }

def deBypassConfig : De BypassConfig := fun v => do
  let t ← fields ["reactor", "bufpool", "uring", "spdk", "dpdk", "db"] v
  return {
    reactor := ← field "reactor" deReactorConfig t
    bufpool := ← field "bufpool" deBufPoolConfig t
    uring := ← field "uring" deUringConfig t
    spdk := ← field "spdk" deSpdkRuntimeConfig t
    dpdk := ← field "dpdk" deDpdkRuntimeConfig t
    db := ← field "db" deDbConfig t }

/-- `describe` is the message of a refused value. -/
def BypassConfig.fromTomlStr (toml : Toml.Reader) (describe : Serde.Error → String)
    (input : String) : Except ConfigError BypassConfig := do
  let table ← (toml.parse input).mapError .deserialize
  let config ← (deBypassConfig (.table true table)).mapError fun e => .deserialize (describe e)
  config.validate
  return config

end BypassIo.Config
