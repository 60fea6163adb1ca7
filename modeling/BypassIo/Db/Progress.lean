import BypassIo.Db.Open

/-!
# When operations succeed

Without failing calls an append succeeds when its record fits the log, and a seal when every
column name makes a file name. `flush_reaches_store` follows a flush up to the store of its
manifest, so that a run can be continued from there with or without a fault.
-/

namespace BypassIo.Db
open Octet Rust FileSystem Columns

variable {serde : Serde} {root : Path} {schema : Schema} {d d' : Disk} {log : List RowBatch}
  {t t' : Table} {k : Nat} {segs : Segments} {b : RowBatch}

/-! ## Appending -/

theorem validate_of_wellFormed (ok : b.WellFormed schema) :
    validateBatchMatchesSchema schema b = .ok () := by
  refine validate_eq_ok.mpr ⟨ok.length_columns.symm, fun column hc => ?_⟩
  obtain ⟨data, found, shape⟩ := ok.column hc
  exact ⟨data, found, shape.dtype⟩

/-- A valid batch whose record fits the log is written; what is left is the active batch. -/
theorem Table.append_writes {bytes payload : Bytes} (held : d.files t.wal.path = some bytes)
    (valid : validateBatchMatchesSchema t.schema b = .ok ()) (encoded : encodeBatch b = .ok payload)
    (fits : payload.length ≤ u32Max) (seq : t.wal.nextSeqNo.toNat + 1 < 2 ^ 64)
    (size : bytes.length + headerLen + payload.length + trailerLen ≤ maxFileLen) :
    ∃ next d', Table.Admitted b t payload next ∧ Table.Written t d payload d' ∧
      ((∃ active, t.active.append b = (.ok (), active) ∧ (Table.append b).exec t d =
          ((.ok b.rowCount, { t.withSeqNo next with active }), d')) ∨
        ∃ e active, t.active.append b = (.error e, active) ∧ (Table.append b).exec t d =
          ((.error (.error (.batch e)), { t.withSeqNo next with active }), d')) := by
  have next : checkedAdd64 t.wal.nextSeqNo 1 ≠ none := by
    simp only [checkedAdd64, UInt64.toNat_one, seq, if_true]
    exact Option.some_ne_none _
  have writable : Table.Written t d payload (d.setFile t.wal.path
      (some (bytes ++ WalRecord.frame ⟨t.wal.nextSeqNo, payload⟩))) := by
    refine ⟨bytes, held, fits, ?_, rfl⟩
    rw [WalRecord.length_frame]
    dsimp only
    omega
  have ended := Table.append_exec b t d
  generalize (Table.append b).exec t d = outcome at ended ⊢
  obtain ⟨⟨r, t'⟩, d'⟩ := outcome
  have same : ∀ {payload' next}, Table.Admitted b t payload' next → payload' = payload :=
    fun admitted => Except.ok.inj (admitted.encoded.symm.trans encoded)
  cases ended with
  | rejected _ why =>
    rcases why with invalid | ⟨-, unencoded | ⟨-, overflow, -⟩⟩
    · cases valid.symm.trans invalid
    · cases encoded.symm.trans unencoded
    · exact absurd overflow next
  | tooLarge admitted large =>
    obtain rfl := same admitted
    omega
  | unwritten admitted _ never =>
    obtain rfl := same admitted
    exact absurd writable (never _)
  | refused admitted write step =>
    obtain rfl := same admitted
    exact ⟨_, _, admitted, write, .inr ⟨_, _, step, rfl⟩⟩
  | done admitted write step =>
    obtain rfl := same admitted
    exact ⟨_, _, admitted, write, .inl ⟨_, step, rfl⟩⟩

/-- `append_writes` on a handle. -/
theorem Handle.append_writes (h : Handle serde root schema d t log k segs) {payload : Bytes}
    (valid : validateBatchMatchesSchema schema b = .ok ()) (encoded : encodeBatch b = .ok payload)
    (fits : payload.length ≤ u32Max) (seq : log.length + 1 < 2 ^ 64)
    (size : (walBytes root d).length + headerLen + payload.length + trailerLen ≤ maxFileLen) :
    ∃ next d', Table.Admitted b t payload next ∧ Table.Written t d payload d' ∧
      ((∃ active, t.active.append b = (.ok (), active) ∧ (Table.append b).exec t d =
          ((.ok b.rowCount, { t.withSeqNo next with active }), d')) ∨
        ∃ e active, t.active.append b = (.error e, active) ∧ (Table.append b).exec t d =
          ((.error (.error (.batch e)), { t.withSeqNo next with active }), d')) := by
  obtain ⟨bytes, held⟩ := Option.isSome_iff_exists.mp h.walFile
  have walAt : t.wal.path = walPath root := congrArg WalWriter.path h.wal
  have here : t.wal.nextSeqNo.toNat = log.length := by
    rw [h.wal]
    exact UInt64.toNat_ofNat_of_lt' (by simp [UInt64.size]; omega)
  rw [walBytes, held, Option.getD_some] at size
  rw [← h.schema_eq] at valid
  exact Table.append_writes (walAt ▸ held) valid encoded fits (by omega) size

/-- The active batch takes the rows of a record that is in the log. -/
theorem Handle.active_accepts (h : Handle serde root schema d t log k segs)
    (ok : b.WellFormed schema) (holdsLog : HoldsLog root schema d' (log ++ [b])) :
    ∃ active, t.active.append b = (.ok (), active) := by
  have room : t.active.rowCount + b.rowCount ≤ usizeMax := by
    refine le_trans ?_ holdsLog.fits.usize
    rw [List.map_append, List.sum_append, ← h.holdsLog.length_rows, ← h.rows.length_eq,
      List.length_append, h.activeOk.1.length_rows]
    simp
  obtain ⟨active, fine, -⟩ := h.activeOk.1.append ok room
  exact ⟨active, fine⟩

/-- A record that fits the log is appended, and its rows are active. -/
theorem Handle.append_succeeds (h : Handle serde root schema d t log k segs) {payload : Bytes}
    (ok : b.WellFormed schema) (encoded : encodeBatch b = .ok payload)
    (fits : payload.length ≤ u32Max) (seq : log.length + 1 < 2 ^ 64)
    (size : (walBytes root d).length + headerLen + payload.length + trailerLen ≤ maxFileLen) :
    ∃ t' d', (Table.append b).exec t d = ((.ok b.rowCount, t'), d') := by
  obtain ⟨next, d', admitted, write, ⟨active, -, run⟩ | ⟨e, active, step, -⟩⟩ :=
    h.append_writes (validate_of_wellFormed ok) encoded fits seq size
  · exact ⟨_, d', run⟩
  · obtain ⟨active', fine⟩ := h.active_accepts ok (h.written ok encoded write)
    cases (Prod.mk.inj (step.symm.trans fine)).1

/-! ## Sealing -/

/-- Every column has a file name, and no name holds a NUL. -/
def Schema.Nameable (schema : Schema) : Prop :=
  ∀ column ∈ schema.columns, '\x00' ∉ column.name.toList ∧
    ∃ file, columnFileName column.name = .ok file

theorem hasNul_columnFile {dir : Path} {name file : String} (named : columnFileName name = .ok file) :
    (dir.join file).hasNul = true ↔ '\x00' ∈ name.toList := by
  obtain ⟨rfl, isName⟩ := columnFileName_eq_ok named
  rw [Path.join_of_isName dir isName, Path.hasNul_append_singleton]
  simp [String.toList_append]

theorem columnBytes_of_shape {dtype : DType} {n : Nat} {data : ColumnData} (path : Path)
    (shape : data.HasShape dtype n) (fits : n * dtype.width ≤ maxFileLen) :
    columnBytes path data = .ok (valueBytes data) := by
  have capacity : ∀ {width : Nat}, n * width ≤ maxFileLen →
      (withCapacity 1 (wrappingMul n width) : Outcome TableError Unit) = .ok () := by
    intro width le
    rw [wrappingMul_of_le (le.trans maxFileLen_le)]
    exact withCapacity_of_le (by simpa [isizeMax, maxFileLen] using le)
  have room : (valueBytes data).length ≤ isizeMax := by
    rw [length_valueBytes shape]
    exact fits
  cases shape using ColumnData.HasShape.elim with
  | f64 values | i64 values | timestamp values =>
    exact bind_eq_ok.mpr ⟨(), capacity fits, extended_eq_ok.mpr ⟨room, rfl⟩⟩
  | fixedStr width values _ widths =>
    refine bind_eq_ok.mpr ⟨(), capacity fits, ?_⟩
    rw [if_neg]
    · exact extended_eq_ok.mpr ⟨room, rfl⟩
    · simpa [ColumnData.WidthsOk] using widths

theorem sealColumn_succeeds {dir : Path} {column : ColumnDef} (exists_dir : d.dirs dir = true)
    (names : schema.Nameable) (ok : b.WellFormed schema) (fits : Fits schema b.rowCount)
    (hc : column ∈ schema.columns) :
    ∃ cm d', (sealColumn dir b column).exec d = (.ok cm, d') ∧ d'.dirs = d.dirs := by
  obtain ⟨nul, file, named⟩ := names column hc
  obtain ⟨data, found, shape⟩ := ok.column hc
  have column_found : columnOf b column.name = .ok data := by rw [columnOf, found]
  have bytes := columnBytes_of_shape (dir.join file) shape (fits column hc)
  have writable : (dir.join file).hasNul = false ∧ d.dirs (dir.join file).dropLast = true := by
    refine ⟨by rwa [← Bool.not_eq_true, hasNul_columnFile named], ?_⟩
    rwa [Path.join_of_isName dir (columnFileName_eq_ok named).2, List.dropLast_concat]
  refine ⟨⟨column.name, (dtypeMeta column.dtype).1, (dtypeMeta column.dtype).2, file⟩,
    d.setFile (dir.join file) (some (valueBytes data)), ?_, rfl⟩
  refine Query.exec_pureStep_bind_eq_ok.mpr ⟨file, by rw [named]; rfl, ?_⟩
  refine Query.exec_pureStep_bind_eq_ok.mpr ⟨data, column_found, ?_⟩
  refine Query.exec_bind_eq_ok.mpr ⟨(), _, ?_, rfl⟩
  exact Query.exec_pureStep_bind_eq_ok.mpr ⟨_, bytes, Query.exec_write_eq_ok.mpr ⟨writable, rfl⟩⟩

theorem sealColumns_succeeds {dir : Path} {defs : List ColumnDef} (exists_dir : d.dirs dir = true)
    (names : schema.Nameable) (ok : b.WellFormed schema) (fits : Fits schema b.rowCount)
    (hdefs : ∀ column ∈ defs, column ∈ schema.columns) :
    ∃ cms d', (defs.mapM (sealColumn dir b)).exec d = (.ok cms, d') ∧ d'.dirs = d.dirs := by
  induction defs generalizing d with
  | nil => exact ⟨[], d, rfl, rfl⟩
  | cons column defs ih =>
    obtain ⟨here, later⟩ := List.forall_mem_cons.mp hdefs
    obtain ⟨cm, d₁, first, dirs₁⟩ := sealColumn_succeeds exists_dir names ok fits here
    obtain ⟨cms, d₂, rest, dirs₂⟩ := ih (by rwa [dirs₁]) later
    refine ⟨cm :: cms, d₂, ?_, dirs₂.trans dirs₁⟩
    rw [List.mapM_cons, Query.exec_bind_ok first, Query.exec_bind_ok rest]
    rfl

/-- Sealing succeeds on a well-formed batch. -/
theorem sealBatch_succeeds (serde : Serde) (root : Path) (names : schema.Nameable)
    (ok : b.WellFormed schema) (fits : Fits schema b.rowCount) (id : UInt64) (d : Disk) :
    ∃ segment d', (sealBatch serde root schema id b).exec d = (.ok segment, d') := by
  obtain ⟨timestamps, -, times, -⟩ := timestamps_of_wellFormed ok
  rw [sealBatch, join_segments]
  have dir : (d.makeDirs (segmentDir root id)).dirs (segmentDir root id) = true := by simp
  obtain ⟨cms, d₁, columns, dirs₁⟩ := sealColumns_succeeds dir names ok fits fun _ h => h
  obtain ⟨text, printed, -⟩ := serde.segmentMeta.roundTrip
    ⟨id, b.rowCount, timestamps.min?, timestamps.max?, cms⟩
  have writable : ((segmentDir root id).join "meta.json").hasNul = false ∧
      d₁.dirs ((segmentDir root id).join "meta.json").dropLast = true := by
    rw [join_meta, List.dropLast_concat, dirs₁, Path.hasNul_append_singleton]
    exact ⟨by decide, dir⟩
  refine ⟨⟨segmentDir root id, ⟨id, b.rowCount, timestamps.min?, timestamps.max?, cms⟩⟩,
    d₁.setFile ((segmentDir root id).join "meta.json") (some (asBytes text)), ?_⟩
  have made : (Query.io TableError.ofIo (.createDirAll (segmentDir root id))).exec d =
      (.ok (), d.makeDirs (segmentDir root id)) := Query.exec_io_eq_ok.mpr rfl
  rw [Query.exec_bind_ok made]
  refine Query.exec_pureStep_bind_eq_ok.mpr ⟨timestamps, times, ?_⟩
  refine Query.exec_bind_eq_ok.mpr ⟨cms, d₁, columns, ?_⟩
  refine Query.exec_bind_eq_ok.mpr ⟨(), _, ?_, rfl⟩
  refine Query.exec_pureStep_bind_eq_ok.mpr ⟨text, by rw [printed]; rfl, ?_⟩
  exact Query.exec_write_eq_ok.mpr ⟨writable, rfl⟩

/-- The next segment id is taken. -/
theorem Table.bumpSegmentId_exec (room : t.manifest.nextSegmentId.toNat + 1 < 2 ^ 64) (d : Disk) :
    Table.bumpSegmentId.exec t d = ((.ok (), { t with manifest :=
      { t.manifest with nextSegmentId := t.manifest.nextSegmentId + 1 } }), d) := by
  unfold Table.bumpSegmentId
  rw [Method.exec_get_bind, checkedAdd64_eq_some.mpr ⟨room, rfl⟩]
  rfl

/-! ## Flushing -/

namespace Handle

/-- A flush with rows gets to its last step, the store of the manifest. -/
theorem flush_reaches_store (h : Handle serde root schema d t log k segs) (names : schema.Nameable)
    (some_row : t.active.rowCount ≠ 0) (room : t.manifest.nextSegmentId.toNat + 1 < 2 ^ 64) :
    ∃ segment d₁, Table.NewSegment serde root schema t.manifest t.active d₁ segment ∧
      d.EqOff (InSegment root t.manifest.nextSegmentId) d₁ ∧
      ∀ may r t' d', (do
          Table.storeManifest serde
          modify fun t => { t with sealed := t.sealed ++ [segment], active := .empty t.schema } :
            Method Table TableError Unit).Runs may
          { t with manifest := t.manifest.advance segment log.length } d₁ r t' d' →
        (Table.flush serde).Runs may t d r t' d' := by
  have activeOk := h.activeOk.1
  have fits := h.fits.mono (Nat.le_add_left t.active.rowCount _)
  obtain ⟨segment, d₁, sealed⟩ := sealBatch_succeeds serde root names activeOk fits
    t.manifest.nextSegmentId d
  obtain ⟨stored, named, dir, columns⟩ := sealBatch_exec activeOk some_row sealed
  have confined : (sealBatch serde root schema t.manifest.nextSegmentId t.active).Confined _ :=
    sealBatch_confined _ _
  have off := confined.exec d
  rw [sealed] at off
  refine ⟨segment, d₁, ⟨stored, named, room, dir, columns⟩, off, fun may r t' d' rest => ?_⟩
  have walAt : t.wal.path = walPath root := congrArg WalWriter.path h.wal
  obtain ⟨records, read, logged⟩ := h.holdsLog.readLog
  obtain ⟨bytes, held⟩ := Option.isSome_iff_exists.mp h.walFile
  have held₁ : d₁.files (walPath root) = some bytes :=
    (off.files _ (walPath_not_inSegment _)).trans held
  have synced : (t.wal.sync.mapErr TableError.wal).exec d = (.ok (), d) := rfl
  have opened : ((WalReader.openReader (walPath root)).mapErr TableError.wal).exec d₁ =
      (.ok (walPath root), d₁) := by
    refine Query.exec_mapErr_eq_ok.mpr (Query.exec_bind_eq_ok.mpr ⟨(), d₁, ?_, rfl⟩)
    rw [Query.exec_io_eq_ok, Call.effect, held₁]
  have again : (readRecords t.wal.path).exec d₁ = (.ok records, d₁) := by
    rw [walAt, readRecords, Query.exec_bind_ok opened]
    rw [walBytes, held, Option.getD_some] at read
    exact Query.exec_mapErr_eq_ok.mpr (records_exec_eq_ok.mpr ⟨rfl, bytes, [], held₁, read⟩)
  unfold Table.flush
  refine Method.runs_get_bind.mpr (Method.runs_query_bind synced ?_)
  rw [if_neg some_row, h.path, h.schema_eq]
  refine Method.runs_query_bind sealed (Method.runs_bind_ok (Method.runs_of_exec (Table.bumpSegmentId_exec room d₁)) ?_)
  refine Method.runs_modify_bind.mpr (Method.runs_query_bind again ?_)
  refine Method.runs_modify_bind.mpr ?_
  rw [logged.length_eq] at rest
  exact rest

/-- A flush succeeds when no call fails. -/
theorem flush_succeeds (h : Handle serde root schema d t log k segs) (names : schema.Nameable)
    (room : t.manifest.nextSegmentId.toNat + 1 < 2 ^ 64) :
    ∃ t' d', (Table.flush serde).exec t d = ((.ok (), t'), d') := by
  by_cases some_row : t.active.rowCount = 0
  · refine ⟨t, d, ?_⟩
    unfold Table.flush
    rw [Method.exec_get_bind, Method.exec_bind_ok (Method.exec_query _ _ _), if_pos some_row]
    rfl
  obtain ⟨segment, d₁, -, off, continues⟩ := h.flush_reaches_store names some_row room
  have rootDir := off.dirs _ (root_not_inSegment _) h.rootDir
  obtain ⟨text, -, stored⟩ :=
    store_exec (t.manifest.advance segment log.length) rootDir
  have manifest : (Table.storeManifest serde).exec
      { t with manifest := t.manifest.advance segment log.length } d₁ =
        ((.ok (), { t with manifest := t.manifest.advance segment log.length }),
          storedDisk root d₁ text) := by
    unfold Table.storeManifest
    rw [Method.exec_get_bind, Method.exec_query, h.path, stored]
  have run := continues (fun _ => False) (.ok ())
    { t with
      manifest := t.manifest.advance segment log.length
      sealed := t.sealed ++ [segment]
      active := .empty t.schema } (storedDisk root d₁ text)
    (Method.runs_bind_ok (Method.runs_of_exec manifest) (Method.runs_of_exec rfl))
  exact ⟨_, _, Method.exec_of_runs run⟩

/-- A flush whose manifest cannot be written: the segment is listed and the boundary has moved,
in memory alone. -/
theorem flush_fails (h : Handle serde root schema d t log k segs) (names : schema.Nameable)
    (some_row : t.active.rowCount ≠ 0) (room : t.manifest.nextSegmentId.toNat + 1 < 2 ^ 64) :
    ∃ segment d₁, Table.NewSegment serde root schema t.manifest t.active d₁ segment ∧
      d.EqOff (InSegment root t.manifest.nextSegmentId) d₁ ∧
      (Table.flush serde).Runs (fun c => ∃ b, c = .write (manifestTmp root) b) t d
        (.error (.error (.ofIo .device)))
        { t with manifest := t.manifest.advance segment log.length } d₁ := by
  obtain ⟨segment, d₁, new, off, continues⟩ := h.flush_reaches_store names some_row room
  refine ⟨segment, d₁, new, off, continues _ _ _ _ (Method.runs_bind_error ?_)⟩
  refine Method.runs_get_bind.mpr (Method.runs_query ?_)
  obtain ⟨text, printed, -⟩ := serde.manifest.roundTrip (t.manifest.advance segment log.length)
  rw [h.path, store_eq _ text printed]
  exact Query.runs_bind_error (Query.runs_io_failed ⟨_, rfl⟩ (Call.torn_refl _ _) .device)

end Handle

/-! ## Compacting -/

namespace Table

variable {requested : List UInt64}

/-- What stands at each path is a directory, or nothing. -/
def Removable (d : Disk) (oldPaths : List Path) : Prop :=
  ∀ p ∈ oldPaths, d.dirs p = true ∨ d.dirs p = false ∧ d.files p = none

/-- Removing one tree leaves the other paths removable. -/
theorem Removable.removeTree {oldPaths : List Path} (h : Removable d oldPaths) (p : Path) :
    Removable (d.removeTree p) oldPaths := by
  intro q hq
  by_cases below : p <+: q
  · simp [Disk.removeTree, below]
  · simpa [Disk.removeTree, below] using h q hq

theorem removeOld_succeeds {oldPaths : List Path} (h : Removable d oldPaths) :
    ∃ d', (removeOld oldPaths).exec d = (.ok (), d') := by
  induction oldPaths generalizing d with
  | nil => exact ⟨d, rfl⟩
  | cons oldPath oldPaths ih =>
    obtain ⟨here, later⟩ := List.forall_mem_cons.mp h
    have look : (pathExists oldPath).exec d =
        (.ok (d.dirs oldPath || (d.files oldPath).isSome), d) := rfl
    rw [removeOld, Query.exec_bind_ok look]
    rcases here with dir | ⟨noDir, noFile⟩
    · have removed : (Query.io TableError.ofIo (.removeDirAll oldPath)).exec d =
          (.ok (), d.removeTree oldPath) := by
        rw [Query.exec_io_eq_ok, Call.effect, if_pos dir]
      obtain ⟨d', rest⟩ := ih (Removable.removeTree later oldPath)
      refine ⟨d', ?_⟩
      rw [dir, Bool.true_or, if_pos rfl, Query.exec_bind_ok removed]
      exact rest
    · obtain ⟨d', rest⟩ := ih later
      refine ⟨d', ?_⟩
      simpa [noDir, noFile] using rest

/-- A compaction of known segments succeeds when their directories can be removed. -/
theorem compact_succeeds (path : t.path = root) (sch : t.schema = schema)
    (sealed : t.sealed = segs.map Prod.fst) (reads : AllRead root schema d requested segs)
    (fits : Fits schema segs.rowCount) (names : schema.Nameable) (rootDir : d.dirs root = true)
    (room : t.manifest.nextSegmentId.toNat + 1 < 2 ^ 64)
    (below : ∀ s ∈ segs, s.1.id < t.manifest.nextSegmentId)
    (present : ∀ id ∈ requested, ∃ s ∈ segs.map Prod.fst, s.id = id)
    (removable : ∀ s ∈ segs, d.dirs (segmentDir root s.1.id) = true) :
    ∃ t' d', (compact serde requested).exec t d = ((.ok (), t'), d') := by
  subst path sch
  by_cases idle : requested = []
  · refine ⟨t, d, ?_⟩
    unfold compact
    rw [Method.exec_get_bind, if_pos idle]
    rfl
  obtain ⟨some_row, -, at', found⟩ := selected_nonempty reads idle present
  obtain ⟨b, run, ok, rows⟩ := combine_exec requested reads
    (RowBatch.empty_wellFormed t.schema) (by simpa [RowBatch.empty] using fits.usize)
  rw [RowBatch.rows_empty, List.nil_append] at rows
  have nonempty : b.rowCount ≠ 0 := fun zero => some_row (rows ▸ ok.rows_eq_nil.mpr zero)
  have few : b.rowCount ≤ segs.rowCount := by
    rw [← ok.length_rows, rows]
    exact reads.length_selected_le
  obtain ⟨segment, d₁, wrote⟩ := sealBatch_succeeds serde t.path names ok (fits.mono few)
    t.manifest.nextSegmentId d
  have confined : (sealBatch serde t.path t.schema t.manifest.nextSegmentId b).Confined _ :=
    sealBatch_confined _ _
  have off := confined.exec d
  rw [wrote] at off
  -- The manifest is stored, and the directories are still there.
  let relisted := t.manifest.relist
    (replaceSelected requested segment at' (segs.map Prod.fst) 0)
  obtain ⟨text, -, stored⟩ : ∃ text, serde.manifest.fromStr text = .ok relisted ∧
      (relisted.store serde t.path).exec d₁ = (.ok (), storedDisk t.path d₁ text) :=
    store_exec relisted (off.dirs _ (Handle.root_not_inSegment _) rootDir)
  have dirs : Removable (storedDisk t.path d₁ text)
      (((segs.map Prod.fst).filter fun s => s.id ∈ requested).map ImmutableSegment.path) := by
    intro p hp
    obtain ⟨old, mem, rfl⟩ := List.mem_map.mp hp
    obtain ⟨s, hs, rfl⟩ := List.mem_map.mp (List.mem_filter.mp mem).1
    rw [(reads s hs).1]
    refine .inl (off.dirs _ (fun inside => ?_) (removable s hs))
    have lt := below s hs
    rw [inSegment_unique (List.prefix_refl _) inside] at lt
    exact UInt64.lt_irrefl _ lt
  obtain ⟨d', removed⟩ := removeOld_succeeds dirs
  have manifest : (storeManifest serde).exec { t with manifest := relisted } d₁ =
      ((.ok (), { t with manifest := relisted }), storedDisk t.path d₁ text) := by
    unfold storeManifest
    rw [Method.exec_get_bind, Method.exec_query, stored]
  have done : (compact serde requested).Runs (fun _ => False) t d (.ok ())
      { t with
        manifest := relisted
        sealed := replaceSelected requested segment at' (segs.map Prod.fst) 0 } d' := by
    unfold compact
    refine Method.runs_get_bind.mpr ?_
    have known : missingIds requested (segs.map Prod.fst) = [] := missingIds_eq_nil.mpr present
    rw [if_neg idle, sealed, if_neg (not_not.mpr known)]
    refine Method.runs_query_bind run ?_
    rw [if_neg nonempty]
    refine Method.runs_query_bind wrote
      (Method.runs_bind_ok (Method.runs_of_exec (bumpSegmentId_exec room d₁)) ?_)
    rw [found]
    refine Method.runs_modify_bind.mpr (Method.runs_bind_ok (Method.runs_of_exec manifest) ?_)
    refine Method.runs_modify_bind.mpr (Method.runs_of_exec ?_)
    rw [Method.exec_query, removed]
  exact ⟨_, d', Method.exec_of_runs done⟩

end Table

end BypassIo.Db
