import BypassIo.Config.Config
import BypassIo.Library.DebugToml
import BypassIo.Library.TomlReader

/-!
# Reading a written configuration

`to_toml_string` borrows Rust's `{:?}` for strings and prints a `usize` of any size, so a
configuration is read back exactly when TOML has both.

## Main definitions

* `BypassConfig.document`: the lines of the written configuration.
* `BypassConfig.Representable`: its strings and sizes are those that TOML has.

## Main results

* `toTomlString_text`: the text written is that of the document.
* `fromTomlStr_toTomlString_iff`: when a valid configuration is read back.
-/

namespace BypassIo.Config
open Toml Serde

variable (wide : Char → Bool)

/-! ## The document -/

def quoted (s : String) : Expr := .atom (.string (debugString wide s))

def number (n : Nat) : Expr := .atom (.integer n)

def ReactorConfig.entries (c : ReactorConfig) : List (Key × Expr) :=
  [(⟨"poll_cores", rfl⟩, .array (c.pollCores.map fun n => .integer n.toNat))]

def BufPoolConfig.entries (c : BufPoolConfig) : List (Key × Expr) :=
  [(⟨"count", rfl⟩, number c.count.toNat),
    (⟨"buf_size_mib", rfl⟩, number c.bufSizeMib.toNat)]

def UringConfig.entries (c : UringConfig) : List (Key × Expr) :=
  [(⟨"sq_depth", rfl⟩, number c.sqDepth.toNat),
    (⟨"cq_depth", rfl⟩, number c.cqDepth.toNat),
    (⟨"sqpoll_idle_ms", rfl⟩, number c.sqpollIdleMs.toNat)]

def SpdkRuntimeConfig.entries (c : SpdkRuntimeConfig) : List (Key × Expr) :=
  [(⟨"devices", rfl⟩, .array (c.devices.map fun s => .string (debugString wide s))),
    (⟨"queue_depth", rfl⟩, number c.queueDepth.toNat),
    (⟨"io_size_mib", rfl⟩, number c.ioSizeMib.toNat)]

def DpdkRuntimeConfig.entries (c : DpdkRuntimeConfig) : List (Key × Expr) :=
  [(⟨"pci_addr", rfl⟩, quoted wide c.pciAddr),
    (⟨"rx_queues", rfl⟩, number c.rxQueues.toNat),
    (⟨"tx_queues", rfl⟩, number c.txQueues.toNat),
    (⟨"rss_key", rfl⟩, quoted wide c.rssKey)]

/-- The entries before the schema. -/
def DbConfig.entries (c : DbConfig) : List (Key × Expr) :=
  [(⟨"path", rfl⟩, quoted wide c.path),
    (⟨"wal_size_mib", rfl⟩, number c.walSizeMib.toNat),
    (⟨"segment_rows", rfl⟩, number c.segmentRows.toNat),
    (⟨"compaction_threads", rfl⟩, number c.compactionThreads.toNat)]

/-- The entries before the columns. -/
def DbSchemaConfig.entries (c : DbSchemaConfig) : List (Key × Expr) :=
  [(⟨"name", rfl⟩, quoted wide c.name)]

def DbColumnDType.expr : DbColumnDType → Expr
  | .f64 => quoted wide "F64"
  | .i64 => quoted wide "I64"
  | .timestamp => quoted wide "Timestamp"
  | .fixedStr width => .inlineTable [(⟨"FixedStr", rfl⟩, .integer width.toNat)]

def DbColumnConfig.entries (c : DbColumnConfig) : List (Key × Expr) :=
  [(⟨"name", rfl⟩, quoted wide c.name), (⟨"dtype", rfl⟩, c.dtype.expr wide)]

/-- A table and the empty line after it. -/
def table (path : List Key) (key : Key) (entries : List (Key × Expr)) : List Line :=
  (.header path key :: entryLines entries) ++ [.blank]

def BypassConfig.document (c : BypassConfig) : List Line :=
  table [] ⟨"reactor", rfl⟩ c.reactor.entries ++
  table [] ⟨"bufpool", rfl⟩ c.bufpool.entries ++
  table [] ⟨"uring", rfl⟩ c.uring.entries ++
  table [] ⟨"spdk", rfl⟩ (c.spdk.entries wide) ++
  table [] ⟨"dpdk", rfl⟩ (c.dpdk.entries wide) ++
  table [] ⟨"db", rfl⟩ (c.db.entries wide) ++
  (.header [⟨"db", rfl⟩] ⟨"schema", rfl⟩ ::
    entryLines (c.db.schema.entries wide)) ++
  (c.db.schema.columns.map (DbColumnConfig.entries wide)).flatMap fun entries =>
    .blank :: .arrayHeader [⟨"db", rfl⟩, ⟨"schema", rfl⟩] ⟨"columns", rfl⟩ ::
      entryLines entries

variable {wide}

/-! ## Its text -/

@[simp] theorem quoted_text (s : String) : (quoted wide s).text = (Rust.debug wide s).toList :=
  (debug_text s).symm

@[simp] theorem number_text (n : Nat) : (number n).text = (toString n).toList := by
  simp [number, Expr.text, Atom.text]

@[simp] theorem joinNumbers_text (values : List UInt32) :
    (Expr.array (values.map fun n => .integer n.toNat)).text =
      ("[" ++ joinNumbers values ++ "]").toList := by
  simp [joinNumbers, Expr.text, commas, Atom.text, Function.comp_def]

@[simp] theorem joinStrings_text (values : List String) :
    (Expr.array (values.map fun s => .string (debugString wide s))).text =
      ("[" ++ joinStrings wide values ++ "]").toList := by
  simp [joinStrings, Expr.text, commas, Function.comp_def, debug_text]

@[simp] theorem toTomlValue_text (dtype : DbColumnDType) :
    (dtype.expr wide).text = (dtype.toTomlValue wide).toList := by
  cases dtype with
  | fixedStr width =>
    simp [DbColumnDType.toTomlValue, DbColumnDType.expr, Expr.text, commas, equals, Atom.text]
  | _ => exact quoted_text _

@[simp] theorem text_append (doc doc' : List Line) :
    text (doc ++ doc') = text doc ++ text doc' := by
  simp [text]

@[simp] theorem table_text (path : List Key) (key : Key) (entries : List (Key × Expr)) :
    text (table path key entries) = '[' :: (Toml.path path key ++ ([']', '\n'] ++
      (entries.flatMap (fun e => equals e.1 e.2.text ++ ['\n']) ++ ['\n']))) := by
  simp [table, text, entryLines, List.flatMap_map, Line.text]

theorem reactor_text (c : ReactorConfig) :
    text (table [] ⟨"reactor", rfl⟩ c.entries) =
      ("[reactor]\n" ++
        "poll_cores = [" ++ joinNumbers c.pollCores ++ "]\n\n").toList := by
  simp [ReactorConfig.entries, equals, Toml.path]

theorem bufpool_text (c : BufPoolConfig) :
    text (table [] ⟨"bufpool", rfl⟩ c.entries) =
      ("[bufpool]\n" ++
        "count = " ++ toString c.count.toNat ++ "\n" ++
        "buf_size_mib = " ++ toString c.bufSizeMib.toNat ++ "\n\n").toList := by
  simp [BufPoolConfig.entries, equals, Toml.path]

theorem uring_text (c : UringConfig) :
    text (table [] ⟨"uring", rfl⟩ c.entries) =
      ("[uring]\n" ++
        "sq_depth = " ++ toString c.sqDepth.toNat ++ "\n" ++
        "cq_depth = " ++ toString c.cqDepth.toNat ++ "\n" ++
        "sqpoll_idle_ms = " ++ toString c.sqpollIdleMs.toNat ++ "\n\n").toList := by
  simp [UringConfig.entries, equals, Toml.path]

theorem spdk_text (c : SpdkRuntimeConfig) :
    text (table [] ⟨"spdk", rfl⟩ (c.entries wide)) =
      ("[spdk]\n" ++
        "devices = [" ++ joinStrings wide c.devices ++ "]\n" ++
        "queue_depth = " ++ toString c.queueDepth.toNat ++ "\n" ++
        "io_size_mib = " ++ toString c.ioSizeMib.toNat ++ "\n\n").toList := by
  simp [SpdkRuntimeConfig.entries, equals, Toml.path]

theorem dpdk_text (c : DpdkRuntimeConfig) :
    text (table [] ⟨"dpdk", rfl⟩ (c.entries wide)) =
      ("[dpdk]\n" ++
        "pci_addr = " ++ Rust.debug wide c.pciAddr ++ "\n" ++
        "rx_queues = " ++ toString c.rxQueues.toNat ++ "\n" ++
        "tx_queues = " ++ toString c.txQueues.toNat ++ "\n" ++
        "rss_key = " ++ Rust.debug wide c.rssKey ++ "\n\n").toList := by
  simp [DpdkRuntimeConfig.entries, equals, Toml.path]

theorem db_text (c : DbConfig) :
    text (table [] ⟨"db", rfl⟩ (c.entries wide)) =
      ("[db]\n" ++
        "path = " ++ Rust.debug wide c.path ++ "\n" ++
        "wal_size_mib = " ++ toString c.walSizeMib.toNat ++ "\n" ++
        "segment_rows = " ++ toString c.segmentRows.toNat ++ "\n" ++
        "compaction_threads = " ++ toString c.compactionThreads.toNat ++ "\n\n").toList := by
  simp [DbConfig.entries, equals, Toml.path]

theorem schema_text (c : DbSchemaConfig) :
    text (.header [⟨"db", rfl⟩] ⟨"schema", rfl⟩ :: entryLines (c.entries wide)) =
      ("[db.schema]\n" ++ "name = " ++ Rust.debug wide c.name ++ "\n").toList := by
  simp [text, entryLines, Line.text, DbSchemaConfig.entries, equals, Toml.path]

theorem columns_text (columns : List DbColumnConfig) :
    text ((columns.map (DbColumnConfig.entries wide)).flatMap fun entries =>
      .blank :: .arrayHeader [⟨"db", rfl⟩, ⟨"schema", rfl⟩] ⟨"columns", rfl⟩ ::
        entryLines entries) =
    (String.join (columns.map fun column =>
      "\n[[db.schema.columns]]\n" ++
      "name = " ++ Rust.debug wide column.name ++ "\n" ++
      "dtype = " ++ column.dtype.toTomlValue wide ++ "\n")).toList := by
  induction columns with
  | nil => simp [text]
  | cons column columns ih =>
    simp only [String.toList_join] at ih ⊢
    rw [List.map_cons, List.flatMap_cons, text_append, ih]
    simp [text, Line.text, equals, entryLines, DbColumnConfig.entries, Toml.path]

theorem toTomlString_text (c : BypassConfig) :
    (c.toTomlString wide).toList = text (c.document wide) := by
  unfold BypassConfig.document BypassConfig.toTomlString
  rw [text_append, String.toList_append, columns_text, text_append, String.toList_append,
    schema_text, text_append, String.toList_append, db_text, text_append, String.toList_append,
    dpdk_text, text_append, String.toList_append, spdk_text, text_append, String.toList_append,
    uring_text, text_append, String.toList_append, bufpool_text, reactor_text]

/-! ## Its values -/

def BypassConfig.strings (c : BypassConfig) : List String :=
  c.spdk.devices ++ [c.dpdk.pciAddr, c.dpdk.rssKey, c.db.path, c.db.schema.name] ++
    c.db.schema.columns.map DbColumnConfig.name

def DbColumnDType.width? : DbColumnDType → Option UInt64
  | .fixedStr width => some width
  | _ => none

def BypassConfig.sizes (c : BypassConfig) : List UInt64 :=
  [c.bufpool.count, c.bufpool.bufSizeMib, c.spdk.ioSizeMib, c.db.walSizeMib, c.db.segmentRows,
    c.db.compactionThreads] ++ c.db.schema.columns.filterMap fun column => column.dtype.width?

/-- The strings and sizes are those that TOML has. -/
def BypassConfig.Representable (wide : Char → Bool) (c : BypassConfig) : Prop :=
  (∀ s ∈ c.strings, s.toList.all (kept wide) = true) ∧ ∀ n ∈ c.sizes, n.toNat ≤ i64Max

instance (c : BypassConfig) : Decidable (c.Representable wide) :=
  @instDecidableAnd _ _ (List.decidableBAll _ _) (List.decidableBAll _ _)

/-- A table of the entries is read as `a`. -/
def Reads {α : Type} (entries : List (Key × Expr)) (de : De α) (a : α) : Prop :=
  (entries.map (·.1.name)).Nodup ∧
    ∃ new, values entries = some new ∧ de (.table true new) = .ok a

theorem value_number {n : Nat} (fits : n ≤ i64Max) :
    (number n).value = some (.scalar (.integer n)) := by
  simp [number, Expr.value, Atom.value, fits]

theorem value_quoted {s : String} (kept : s.toList.all (kept wide) = true) :
    (quoted wide s).value = some (.scalar (.string s)) := by
  rw [quoted, Expr.value, value_debug, if_pos kept]
  rfl

theorem le_of_u16 (n : UInt16) : n.toNat ≤ i64Max := by
  have := n.toNat_lt
  simp only [i64Max]
  omega

theorem le_of_u32 (n : UInt32) : n.toNat ≤ i64Max := by
  have := n.toNat_lt
  simp only [i64Max]
  omega

theorem reactor_reads (c : ReactorConfig) : Reads c.entries deReactorConfig c := by
  have cores : (Expr.array (c.pollCores.map fun n => .integer n.toNat)).value =
      some (.array (c.pollCores.map fun n => .integer n.toNat)) :=
    value_array fun n _ => by simp [Atom.value, le_of_u32]
  have read : vec u32 (.array (c.pollCores.map fun n => .integer n.toNat)) = .ok c.pollCores :=
    vec_array fun n _ => u32_toNat n
  refine ⟨by simp [ReactorConfig.entries], _,
    by simp [values, ReactorConfig.entries, cores]; rfl, ?_⟩
  simp [deReactorConfig, Rust.bind_eq_ok, fields_table, read]

theorem bufpool_reads (c : BufPoolConfig) (count : c.count.toNat ≤ i64Max)
    (size : c.bufSizeMib.toNat ≤ i64Max) : Reads c.entries deBufPoolConfig c := by
  refine ⟨by simp [BufPoolConfig.entries], _,
    by simp [values, BufPoolConfig.entries, value_number, count, size]; rfl, ?_⟩
  simp [deBufPoolConfig, Rust.bind_eq_ok, fields_table]

theorem uring_reads (c : UringConfig) : Reads c.entries deUringConfig c := by
  refine ⟨by simp [UringConfig.entries], _,
    by simp [values, UringConfig.entries, value_number, le_of_u32]; rfl, ?_⟩
  simp [deUringConfig, Rust.bind_eq_ok, fields_table]

theorem spdk_reads (c : SpdkRuntimeConfig)
    (devices : ∀ s ∈ c.devices, s.toList.all (kept wide) = true) (size : c.ioSizeMib.toNat ≤ i64Max) :
    Reads (c.entries wide) deSpdkRuntimeConfig c := by
  have written : (Expr.array (c.devices.map fun s => .string (debugString wide s))).value =
      some (.array (c.devices.map .string)) :=
    value_array fun s mem => by rw [value_debug, if_pos (devices s mem)]
  have read : vec Serde.string (.array (c.devices.map .string)) = .ok c.devices :=
    vec_array fun s _ => rfl
  refine ⟨by simp [SpdkRuntimeConfig.entries], _,
    by simp [values, SpdkRuntimeConfig.entries, value_number, le_of_u32, written, size]; rfl, ?_⟩
  simp [deSpdkRuntimeConfig, Rust.bind_eq_ok, fields_table, read]

theorem dpdk_reads (c : DpdkRuntimeConfig) (addr : c.pciAddr.toList.all (kept wide) = true)
    (key : c.rssKey.toList.all (kept wide) = true) :
    Reads (c.entries wide) deDpdkRuntimeConfig c := by
  refine ⟨by simp [DpdkRuntimeConfig.entries], _,
    by simp [values, DpdkRuntimeConfig.entries, value_number, value_quoted addr, value_quoted key,
      le_of_u16]; rfl, ?_⟩
  simp [deDpdkRuntimeConfig, Rust.bind_eq_ok, fields_table]

theorem dtype_reads (dtype : DbColumnDType)
    (width : ∀ w, dtype.width? = some w → w.toNat ≤ i64Max) :
    ∃ v, (dtype.expr wide).value = some v ∧ deDbColumnDType v = .ok dtype := by
  cases dtype with
  | fixedStr w =>
    have fits : (Atom.integer w.toNat).value = some (.integer w.toNat) := by
      simp [Atom.value, width w rfl]
    have read : (Serde.entries (.inlineTable [("FixedStr", .integer w.toNat)]) >>=
        field "FixedStr" usize) = .ok w := by simp [Rust.bind_eq_ok, Serde.entries]
    have shape : deRepr (.inlineTable [("FixedStr", .integer w.toNat)]) = .ok (.fixedStr w) := by
      rw [deRepr, read]
      rfl
    refine ⟨_, by simp [DbColumnDType.expr, Expr.value, fits]; rfl, ?_⟩
    rw [deDbColumnDType, shape]
    rfl
  | f64 => exact ⟨_, value_quoted (by simp [kept, Rust.printable]), rfl⟩
  | i64 => exact ⟨_, value_quoted (by simp [kept, Rust.printable]), rfl⟩
  | timestamp => exact ⟨_, value_quoted (by simp [kept, Rust.printable]), rfl⟩

theorem column_reads (c : DbColumnConfig) (name : c.name.toList.all (kept wide) = true)
    (width : ∀ w, c.dtype.width? = some w → w.toNat ≤ i64Max) :
    Reads (c.entries wide) deDbColumnConfig c := by
  obtain ⟨dtype, written, read⟩ := @dtype_reads wide c.dtype width
  refine ⟨by simp [DbColumnConfig.entries], _,
    by simp [values, DbColumnConfig.entries, value_quoted name, written]; rfl, ?_⟩
  simp [deDbColumnConfig, Rust.bind_eq_ok, fields_table, read]

theorem schema_reads (c : DbSchemaConfig) (name : c.name.toList.all (kept wide) = true) :
    ∃ new, values (c.entries wide) = some new ∧ new.lookup "columns" = none ∧
      ∀ tables, vec deDbColumnConfig (.tables tables) = .ok c.columns →
        deDbSchemaConfig (.table true (new ++ [("columns", .tables tables)])) = .ok c := by
  refine ⟨[("name", .scalar (.string c.name))],
    by simp [values, DbSchemaConfig.entries, value_quoted name], rfl, fun tables read => ?_⟩
  simp [deDbSchemaConfig, Rust.bind_eq_ok, fields_table, read]

theorem db_reads (c : DbConfig) (path : c.path.toList.all (kept wide) = true)
    (wal : c.walSizeMib.toNat ≤ i64Max) (rows : c.segmentRows.toNat ≤ i64Max)
    (threads : c.compactionThreads.toNat ≤ i64Max) :
    ∃ new, values (c.entries wide) = some new ∧ new.lookup "schema" = none ∧
      ∀ schema, deDbSchemaConfig (.table true schema) = .ok c.schema →
        deDbConfig (.table true (new ++ [("schema", .table true schema)])) = .ok c := by
  refine ⟨[("path", .scalar (.string c.path)),
      ("wal_size_mib", .scalar (.integer c.walSizeMib.toNat)),
      ("segment_rows", .scalar (.integer c.segmentRows.toNat)),
      ("compaction_threads", .scalar (.integer c.compactionThreads.toNat))],
    by simp [values, DbConfig.entries, value_quoted path, value_number, wal, rows, threads], rfl,
    fun schema read => ?_⟩
  simp [deDbConfig, Rust.bind_eq_ok, fields_table, read]

theorem columns_read (columns : List DbColumnConfig)
    (names : ∀ column ∈ columns, column.name.toList.all (kept wide) = true)
    (widths : ∀ column ∈ columns, ∀ w, column.dtype.width? = some w → w.toNat ≤ i64Max) :
    ∃ news, List.Forall₂ (fun entries new => (entries.map (·.1.name)).Nodup ∧
        values entries = some new) (columns.map (DbColumnConfig.entries wide)) news ∧
      List.Forall₂ (fun new column => deDbColumnConfig (.table true new) = .ok column)
        news columns := by
  induction columns with
  | nil => exact ⟨[], .nil, .nil⟩
  | cons column columns ih =>
    obtain ⟨name, names⟩ := List.forall_mem_cons.mp names
    obtain ⟨width, widths⟩ := List.forall_mem_cons.mp widths
    obtain ⟨distinct, new, written, read⟩ := column_reads column name width
    obtain ⟨news, allWritten, allRead⟩ := ih names widths
    exact ⟨new :: news, .cons ⟨distinct, written⟩ allWritten, .cons read allRead⟩

theorem foldlM_table (key : Key) {t new : Table} (absent : t.lookup key.name = none)
    {entries : List (Key × Expr)} (distinct : (entries.map (·.1.name)).Nodup)
    (written : values entries = some new) (current : List String) :
    (table [] key entries).foldlM step ⟨t, current⟩ =
      some ⟨t ++ [(key.name, .table true new)], [key.name]⟩ :=
  foldlM_append (foldlM_section leads_nil [] key rfl absent distinct written current) rfl

theorem columns_ne_nil_of_validate {c : BypassConfig} (valid : c.validate = .ok ()) :
    c.db.schema.columns ≠ [] := by
  simp only [BypassConfig.validate, DbSchemaConfig.validate, ite_validation_eq_ok] at valid
  grind

/-- A representable configuration is written as a document that is read as it. -/
theorem document_reads {c : BypassConfig} (nonempty : c.db.schema.columns ≠ [])
    (representable : c.Representable wide) :
    ∃ t, meaning (c.document wide) = some t ∧ deBypassConfig (.table true t) = .ok c := by
  obtain ⟨kept, fit⟩ := representable
  obtain ⟨d₁, reactor, w₁, r₁⟩ := reactor_reads c.reactor
  obtain ⟨d₂, bufpool, w₂, r₂⟩ := bufpool_reads c.bufpool (fit _ (by simp [BypassConfig.sizes]))
    (fit _ (by simp [BypassConfig.sizes]))
  obtain ⟨d₃, uring, w₃, r₃⟩ := uring_reads c.uring
  obtain ⟨d₄, spdk, w₄, r₄⟩ := spdk_reads c.spdk
    (fun s mem => kept s (by simp [BypassConfig.strings, mem]))
    (fit _ (by simp [BypassConfig.sizes]))
  obtain ⟨d₅, dpdk, w₅, r₅⟩ := dpdk_reads c.dpdk (kept _ (by simp [BypassConfig.strings]))
    (kept _ (by simp [BypassConfig.strings]))
  obtain ⟨db, w₆, absent₆, r₆⟩ := db_reads c.db (kept _ (by simp [BypassConfig.strings]))
    (fit _ (by simp [BypassConfig.sizes])) (fit _ (by simp [BypassConfig.sizes]))
    (fit _ (by simp [BypassConfig.sizes]))
  obtain ⟨schema, w₇, absent₇, r₇⟩ := schema_reads c.db.schema
    (kept _ (by simp [BypassConfig.strings]))
  obtain ⟨columns, w₈, r₈⟩ := columns_read c.db.schema.columns
    (fun column mem => kept _ (List.mem_append_right _ (List.mem_map_of_mem mem)))
    (fun column mem w width => fit _ (List.mem_append_right _
      (List.mem_filterMap.mpr ⟨column, mem, width⟩)))
  have some_columns : columns ≠ [] := by
    rintro rfl
    exact nonempty (List.forall₂_nil_left_iff.mp r₈)
  -- The sections in their order, each with the table so far.
  let t₁ : Table := [("reactor", .table true reactor)]
  let t₂ : Table := t₁ ++ [("bufpool", .table true bufpool)]
  let t₃ : Table := t₂ ++ [("uring", .table true uring)]
  let t₄ : Table := t₃ ++ [("spdk", .table true spdk)]
  let t₅ : Table := t₄ ++ [("dpdk", .table true dpdk)]
  have toDb : Leads ["db"] fun inner => t₅ ++ [("db", .table true inner)] :=
    leads_nil.table rfl true
  have toSchema := toDb.table absent₆ true
  have first := foldlM_table ⟨"reactor", rfl⟩ (t := []) rfl d₁ w₁ []
  have second := foldlM_table ⟨"bufpool", rfl⟩ (t := t₁) rfl d₂ w₂ ["reactor"]
  have third := foldlM_table ⟨"uring", rfl⟩ (t := t₂) rfl d₃ w₃ ["bufpool"]
  have fourth := foldlM_table ⟨"spdk", rfl⟩ (t := t₃) rfl d₄ w₄ ["uring"]
  have fifth := foldlM_table ⟨"dpdk", rfl⟩ (t := t₄) rfl d₅ w₅ ["spdk"]
  have sixth := foldlM_table ⟨"db", rfl⟩ (t := t₅) rfl (by simp [DbConfig.entries]) w₆
    ["dpdk"]
  have seventh := foldlM_section toDb [⟨"db", rfl⟩] ⟨"schema", rfl⟩ rfl absent₆
    (by simp [DbSchemaConfig.entries]) w₇ ["db"]
  obtain ⟨current, eighth⟩ := foldlM_array toSchema [⟨"db", rfl⟩, ⟨"schema", rfl⟩]
    ⟨"columns", rfl⟩ rfl absent₇ w₈ [] ["db", "schema"]
  have run := foldlM_append (foldlM_append (foldlM_append (foldlM_append (foldlM_append
    (foldlM_append (foldlM_append first second) third) fourth) fifth) sixth) seventh) eighth
  rw [List.nil_append, if_neg some_columns] at run
  have dbRead := r₆ _ (r₇ columns (vec_tables r₈))
  refine ⟨_, congrArg (Option.map State.table) run, ?_⟩
  simp [deBypassConfig, Rust.bind_eq_ok, fields_table, t₁, t₂, t₃, t₄, t₅, r₁, r₂, r₃, r₄, r₅,
    dbRead]

/-! ## What a valid document needs -/

theorem kept_of_string {s : String} (valid : (Atom.string (debugString wide s)).value ≠ none) :
    s.toList.all (kept wide) = true := by
  by_contra lost
  rw [value_debug, if_neg lost] at valid
  exact valid rfl

theorem kept_of_quoted {s : String} (valid : (quoted wide s).value ≠ none) :
    s.toList.all (kept wide) = true := by
  refine kept_of_string fun none => valid ?_
  rw [quoted, Expr.value, none]
  rfl

theorem fits_of_number {n : Nat} (valid : (number n).value ≠ none) : n ≤ i64Max := by
  by_contra large
  simp [number, Expr.value, Atom.value, large] at valid

theorem fits_of_dtype {dtype : DbColumnDType} {w : UInt64} (width : dtype.width? = some w)
    (valid : (dtype.expr wide).value ≠ none) : w.toNat ≤ i64Max := by
  cases dtype with
  | fixedStr w' =>
    obtain rfl := Option.some.inj width
    by_contra large
    simp [DbColumnDType.expr, Expr.value, Atom.value, large] at valid
  | _ => cases width

theorem representable_of_meaning {c : BypassConfig} (valid : meaning (c.document wide) ≠ none) :
    c.Representable wide := by
  have all : ∀ e ∈ c.bufpool.entries ++ c.spdk.entries wide ++ c.dpdk.entries wide ++
      c.db.entries wide ++ c.db.schema.entries wide ++
      c.db.schema.columns.flatMap (DbColumnConfig.entries wide), e.2.value ≠ none := by
    intro e mem
    have lines : ∀ entries, e ∈ entries → Line.entry e.1 e.2 ∈ entryLines entries :=
      fun entries mem => List.mem_map_of_mem mem
    have line : Line.entry e.1 e.2 ∈ c.document wide := by
      simp only [BypassConfig.document, table, List.mem_append, List.mem_cons, List.mem_flatMap,
        List.mem_map] at mem ⊢
      grind
    exact value_of_meaning valid line
  simp only [List.forall_mem_append, List.forall_mem_flatMap, BufPoolConfig.entries,
    SpdkRuntimeConfig.entries, DpdkRuntimeConfig.entries, DbConfig.entries, DbSchemaConfig.entries,
    DbColumnConfig.entries, List.forall_mem_cons] at all
  obtain ⟨⟨⟨⟨⟨⟨count, size, -⟩, devices, -, ioSize, -⟩, addr, -, -, key, -⟩,
    path, wal, rows, threads, -⟩, name, -⟩, columns⟩ := all
  constructor
  · intro s mem
    simp only [BypassConfig.strings, List.mem_append, List.mem_cons, List.mem_map,
      List.not_mem_nil, or_false] at mem
    rcases mem with (device | rfl | rfl | rfl | rfl) | ⟨column, mem, rfl⟩
    · exact kept_of_string (value_of_array devices s device)
    · exact kept_of_quoted addr
    · exact kept_of_quoted key
    · exact kept_of_quoted path
    · exact kept_of_quoted name
    · exact kept_of_quoted (columns column mem).1
  · intro n mem
    simp only [BypassConfig.sizes, List.mem_append, List.mem_cons, List.mem_filterMap,
      List.not_mem_nil, or_false] at mem
    rcases mem with (rfl | rfl | rfl | rfl | rfl | rfl) | ⟨column, mem, width⟩
    · exact fits_of_number count
    · exact fits_of_number size
    · exact fits_of_number ioSize
    · exact fits_of_number wal
    · exact fits_of_number rows
    · exact fits_of_number threads
    · exact fits_of_dtype width (columns column mem).2.1

/-! ## Round trips -/

section RoundTrip
variable (toml : Toml.Reader) (describe : Serde.Error → String)

theorem parse_written {c : BypassConfig} {t : Table} :
    toml.parse (c.toTomlString wide) = .ok t ↔ meaning (c.document wide) = some t := by
  rw [← toml.parses, ← toTomlString_text, String.ofList_toList]

/-- What cannot be represented is written as a text that is not TOML. -/
theorem representable_of_read {c c' : BypassConfig}
    (read : BypassConfig.fromTomlStr toml describe (c.toTomlString wide) = .ok c') :
    c.Representable wide := by
  refine representable_of_meaning fun none => ?_
  cases parsed : toml.parse (c.toTomlString wide) with
  | error message =>
    rw [BypassConfig.fromTomlStr, parsed] at read
    cases read
  | ok t =>
    rw [(parse_written toml).mp parsed] at none
    cases none

/-- A valid configuration is read back exactly when TOML has its strings and sizes. -/
theorem fromTomlStr_toTomlString_iff {c : BypassConfig} (valid : c.validate = .ok ()) :
    BypassConfig.fromTomlStr toml describe (c.toTomlString wide) = .ok c ↔
      c.Representable wide := by
  refine ⟨representable_of_read toml describe, fun representable => ?_⟩
  obtain ⟨t, written, read⟩ := document_reads (columns_ne_nil_of_validate valid) representable
  rw [BypassConfig.fromTomlStr, (parse_written toml).mpr written]
  change ((deBypassConfig (.table true t)).mapError _ >>= _) = _
  rw [read]
  change (c.validate >>= _) = _
  rw [valid]
  rfl

end RoundTrip

theorem default_round_trips :
    BypassConfig.fromTomlStr Toml.reader (fun _ => "")
      (BypassConfig.default.toTomlString fun _ => false) = .ok BypassConfig.default :=
  (fromTomlStr_toTomlString_iff Toml.reader (fun _ => "") (by decide)).mpr (by decide)

/-- A key with a control character. -/
def BypassConfig.controlKey : BypassConfig :=
  { BypassConfig.default with dpdk := ⟨"0000:02:00.0", 1, 1, "\x01"⟩ }

/-- A pool of `2 ^ 63` buffers. -/
def BypassConfig.largePool : BypassConfig :=
  { BypassConfig.default with bufpool := ⟨9223372036854775808, 2⟩ }

theorem written_but_refused :
    BypassConfig.controlKey.validate = .ok () ∧
    BypassConfig.fromTomlStr Toml.reader (fun _ => "")
      (BypassConfig.controlKey.toTomlString fun _ => false) ≠ .ok BypassConfig.controlKey ∧
    BypassConfig.largePool.validate = .ok () ∧
    BypassConfig.fromTomlStr Toml.reader (fun _ => "")
      (BypassConfig.largePool.toTomlString fun _ => false) ≠ .ok BypassConfig.largePool :=
  ⟨by decide, fun read => absurd (representable_of_read _ _ read) (by decide), by decide,
    fun read => absurd (representable_of_read _ _ read) (by decide)⟩

end BypassIo.Config
