import BypassIo.Db.Open

/-!
# When a disk opens

`openTable_exec` is the specification of `open` on an arbitrary disk: it succeeds exactly
when the manifest and its segments load, the log reads, and the records behind the boundary
decode and replay. No invariant of earlier runs is asked for.
-/

namespace BypassIo.Db
open Octet Rust FileSystem Columns

variable {serde : Serde} {root : Path} {schema : Schema} {d d' : Disk} {t : Table}

/-- The disk once `open` has made the directories. -/
def prepared (root : Path) (d : Disk) : Disk :=
  (d.makeDirs (root ++ ["WAL"])).makeDirs (root ++ ["segments"])

@[simp] theorem prepared_files : (prepared root d).files = d.files := rfl

theorem prepared_root : (prepared root d).dirs root = true := by simp [prepared]

theorem prepared_wal : (prepared root d).dirs (walPath root).dropLast = true := by
  simp [prepared, walPath]

theorem prepared_manifest :
    (prepared root d).dirs (manifestPath root) = d.dirs (manifestPath root) := by
  rw [prepared, makeDirs_dirs_of_not (manifestPath_not_above (by decide)),
    makeDirs_dirs_of_not (manifestPath_not_above (by decide))]

/-- The metadata of the segment stands in its directory. -/
structure LoadedFrom (serde : Serde) (root : Path) (d : Disk) (segment : SegmentRef)
    (loaded : ImmutableSegment) : Prop where
  path : loaded.path = root.join segment.path
  info : ∃ text, d.files (loaded.path ++ ["meta.json"]) = some (asBytes text) ∧
    serde.segmentMeta.fromStr text = .ok loaded.info

theorem LoadedFrom.frame {segment : SegmentRef} {loaded : ImmutableSegment}
    (h : LoadedFrom serde root d segment loaded)
    (same : d'.files (loaded.path ++ ["meta.json"]) = d.files (loaded.path ++ ["meta.json"])) :
    LoadedFrom serde root d' segment loaded := by
  obtain ⟨text, held, parsed⟩ := h.info
  exact ⟨h.path, text, same.trans held, parsed⟩

theorem load_segment_exec_eq_ok {segment : SegmentRef} {loaded : ImmutableSegment} :
    (ImmutableSegment.load serde root segment).exec d = (.ok loaded, d') ↔
      d' = d ∧ LoadedFrom serde root d segment loaded := by
  unfold ImmutableSegment.load readMeta
  constructor
  · intro h
    obtain ⟨info, d₁, read, h⟩ := Query.exec_bind_eq_ok.mp h
    obtain ⟨rfl, rfl⟩ := Query.exec_pure_eq_ok.mp h
    obtain ⟨text, d₂, found, parse⟩ := Query.exec_bind_eq_ok.mp read
    obtain ⟨held, rfl⟩ := readToString_exec_eq_ok.mp found
    obtain ⟨parsed, rfl⟩ := Prod.mk.inj parse
    rw [join_meta] at held
    exact ⟨rfl, rfl, text, held, ofResult_eq_ok.mp (mapErr_eq_ok.mp parsed)⟩
  · rintro ⟨rfl, path, text, held, parsed⟩
    rw [path, ← join_meta] at held
    have info : (readMeta serde (root.join segment.path)).exec d' = (.ok loaded.info, d') := by
      rw [readMeta, Query.exec_bind_ok (readToString_exec held), parsed]
      rfl
    obtain ⟨place, info'⟩ := loaded
    obtain rfl : place = _ := path
    exact Query.exec_bind_eq_ok.mpr ⟨info', d', info, rfl⟩

/-- What `open` reads: the text it stores again, the records of the log, and the batches it
replays. -/
structure Loads (serde : Serde) (root : Path) (schema : Schema) (d : Disk) (t : Table)
    (text : String) (records : List WalRecord) (batches : List RowBatch) : Prop where
  path : t.path = root
  schema_eq : t.schema = schema
  found : FoundManifest serde root d t.manifest
  sealed : List.Forall₂ (LoadedFrom serde root d) t.manifest.sealedSegments t.sealed
  printed : serde.manifest.toStringPretty t.manifest = .ok text
  log : ∃ tail, readLog (walBytes root d) = .ok (records, tail)
  decoded : ((records.drop t.manifest.walRecordsApplied).mapM fun record =>
    decodeBatch schema record.payload) = .ok batches
  replayed : (RowBatch.empty schema).appendAll batches = (.ok (), t.active)
  wal : t.wal = ⟨walPath root, UInt64.ofNat records.length⟩

/-- The disk that `open` leaves. -/
def openedDisk (root : Path) (d : Disk) (text : String) : Disk :=
  touch (storedDisk root (prepared root d) text) (walPath root)

theorem storedDisk_files_of_ne {q : Path} {text : String} (h : ¬ ManifestFile root q) :
    (storedDisk root d text).files q = d.files q := by
  have tmp : q ≠ manifestTmp root := fun same => h (.inl same)
  have file : q ≠ manifestPath root := fun same => h (.inr same)
  simp [storedDisk, tmp, file]

@[simp] theorem storedDisk_dirs (text : String) : (storedDisk root d text).dirs = d.dirs := rfl

theorem walBytes_openedDisk (text : String) : walBytes root (openedDisk root d text) = walBytes root d := by
  rw [openedDisk, walBytes, touch_getD, storedDisk_files_of_ne wal_not_manifest]
  rfl

theorem openedDisk_files_of_ne {q : Path} {text : String} (h : ¬ ManifestFile root q)
    (ne : q ≠ walPath root) : (openedDisk root d text).files q = d.files q := by
  rw [openedDisk, touch_files_of_ne ne, storedDisk_files_of_ne h]
  rfl

theorem SavedManifest.openedDisk {m : Manifest} {text : String}
    (printed : serde.manifest.toStringPretty m = .ok text) :
    SavedManifest serde root (openedDisk root d text) m := by
  obtain ⟨text', printed', parsed⟩ := serde.manifest.roundTrip m
  obtain rfl := Except.ok.inj (printed.symm.trans printed')
  refine ⟨text, ?_, parsed⟩
  rw [BypassIo.Db.openedDisk, touch_files_of_ne walPath_ne_manifest.symm, storedDisk,
    Disk.setFile_files_self]

/-! ## The steps -/

theorem openWriter_exec {p : Path} {records : List WalRecord} {tail : Bytes}
    (dir : d.dirs p.dropLast = true) (log : readLog ((d.files p).getD []) = .ok (records, tail)) :
    (WalWriter.openWriter p).exec d = (.ok ⟨p, UInt64.ofNat records.length⟩, touch d p) := by
  obtain ⟨done, left⟩ := Query.wp_exec (openWriter_wp dir log)
  exact Prod.ext done left

/-- Reading the log again changes nothing once the file is there. -/
theorem recoverBatchesAfter_exec {p : Path} {k : Nat} {records : List WalRecord} {tail : Bytes}
    (dir : d.dirs p.dropLast = true) (log : readLog ((d.files p).getD []) = .ok (records, tail)) :
    (recoverBatchesAfter schema p k).exec d =
      ((records.drop k).mapM fun record => decodeBatch schema record.payload, touch d p) := by
  obtain ⟨done, left⟩ := Query.wp_exec (readRecords_wp_touch dir log)
  rw [recoverBatchesAfter, Query.exec_bind_ok (Prod.ext done left)]
  rfl

theorem found_prepared {m : Manifest} :
    FoundManifest serde root (prepared root d) m ↔ FoundManifest serde root d m :=
  ⟨fun h => h.frame rfl prepared_manifest.symm, fun h => h.frame rfl prepared_manifest⟩

/-- The segments of a manifest load when each of them does. -/
theorem loadSegments_exec_eq_ok {segments : List SegmentRef} {loaded : List ImmutableSegment} :
    (segments.mapM (ImmutableSegment.load serde root)).exec d = (.ok loaded, d') ↔
      d' = d ∧ List.Forall₂ (LoadedFrom serde root d) segments loaded := by
  rw [Query.ReadOnly.exec_mapM_eq_ok load_segment_readOnly]
  simp only [load_segment_exec_eq_ok, true_and]

/-- `open` after the directories have been made. -/
theorem openTable_exec_prepared (serde : Serde) (root : Path) (schema : Schema) (d : Disk) :
    (Table.openTable serde root schema).exec d =
      (Table.loadTable serde root schema).exec (prepared root d) := by
  have made : ∀ p d, (Query.io TableError.ofIo (.createDirAll p)).exec d =
      (.ok (), d.makeDirs p) := fun p d => Query.exec_io_eq_ok.mpr rfl
  rw [openTable_eq, Query.exec_bind_ok (made _ d), Query.exec_bind_ok (made _ _)]
  rfl

/-- The log file is not there, or it has been read once already. -/
theorem readLog_of_openWriter {p : Path} {w : WalWriter} (dir : d.dirs p.dropLast = true)
    (h : (WalWriter.openWriter p).exec d = (.ok w, d')) :
    ∃ records tail, readLog ((d.files p).getD []) = .ok (records, tail) := by
  unfold WalWriter.openWriter at h
  have opened : (Query.io WalError.ofIo (.openAppend p)).exec d = (.ok (), touch d p) :=
    Query.exec_io_eq_ok.mpr (openAppend_effect dir)
  have again := openReader_exec (d := touch d p) (p := p) (by rwa [touch_dirs])
  rw [Query.exec_bind_ok opened, Query.exec_bind_ok again, touch_touch] at h
  obtain ⟨records, d₁, read, -⟩ := Query.exec_bind_eq_ok.mp h
  obtain ⟨rfl, bytes, tail, held, log⟩ := records_exec_eq_ok.mp read
  refine ⟨records, tail, ?_⟩
  have same := touch_getD (d := d) p p
  rw [held, Option.getD_some] at same
  rwa [← same]

/-! ## The whole operation -/

/-- `open` succeeds exactly on the disks that load. -/
theorem openTable_exec_eq_ok :
    (Table.openTable serde root schema).exec d = (.ok t, d') ↔
      ∃ text records batches, Loads serde root schema d t text records batches ∧
        d' = openedDisk root d text := by
  rw [openTable_exec_prepared, Table.loadTable]
  constructor
  · intro h
    obtain ⟨m, d₁, load, h⟩ := Query.exec_bind_eq_ok.mp h
    obtain ⟨found, rfl⟩ := load_exec_eq_ok.mp load
    obtain ⟨sealed, d₂, segments, h⟩ := Query.exec_bind_eq_ok.mp h
    obtain ⟨rfl, loaded⟩ := loadSegments_exec_eq_ok.mp segments
    obtain ⟨text, printed, -⟩ := serde.manifest.roundTrip m
    rw [Query.exec_bind_ok (store_exec_printed prepared_root printed)] at h
    obtain ⟨w, d₃, writer, h⟩ := Query.exec_bind_eq_ok.mp h
    have dir : (storedDisk root (prepared root d) text).dirs (walPath root).dropLast = true := by
      rw [storedDisk_dirs, prepared_wal]
    obtain ⟨records, tail, log⟩ := readLog_of_openWriter dir (Query.exec_mapErr_eq_ok.mp writer)
    have opened := openWriter_exec dir log
    rw [Query.exec_mapErr_eq_ok.mp writer] at opened
    obtain ⟨rfl, rfl⟩ : w = _ ∧ d₃ = _ := by simpa using opened
    have again : readLog (((touch (storedDisk root (prepared root d) text)
        (walPath root)).files (walPath root)).getD []) = .ok (records, tail) := by
      rwa [touch_getD]
    obtain ⟨batches, d₄, recovered, h⟩ := Query.exec_bind_eq_ok.mp h
    rw [recoverBatchesAfter_exec (by rwa [touch_dirs]) again, touch_touch] at recovered
    obtain ⟨decoded, rfl⟩ := Prod.mk.inj recovered
    rcases replayed : (RowBatch.empty schema).appendAll batches with ⟨e | ⟨⟨⟩⟩, active⟩
    · rw [replayed] at h
      cases h
    · rw [replayed] at h
      obtain ⟨rfl, rfl⟩ := Query.exec_pure_eq_ok.mp h
      refine ⟨text, records, batches, ?_, rfl⟩
      refine ⟨rfl, rfl, found_prepared.mp found,
        loaded.imp fun _ _ h => h.frame rfl, printed, ⟨tail, ?_⟩, decoded, replayed,
        rfl⟩
      rwa [storedDisk_files_of_ne wal_not_manifest] at log
  · rintro ⟨text, records, batches, loads, rfl⟩
    obtain ⟨tail, log⟩ := loads.log
    have dir : (storedDisk root (prepared root d) text).dirs (walPath root).dropLast = true := by
      rw [storedDisk_dirs, prepared_wal]
    have read : readLog (((storedDisk root (prepared root d) text).files
        (walPath root)).getD []) = .ok (records, tail) := by
      rwa [storedDisk_files_of_ne wal_not_manifest]
    have again : readLog (((touch (storedDisk root (prepared root d) text)
        (walPath root)).files (walPath root)).getD []) = .ok (records, tail) := by
      rwa [touch_getD]
    have recovered : (recoverBatchesAfter schema (walPath root)
        t.manifest.walRecordsApplied).exec _ = _ :=
      recoverBatchesAfter_exec (by rwa [touch_dirs]) again
    rw [loads.decoded, touch_touch] at recovered
    have sealed : List.Forall₂ (LoadedFrom serde root (prepared root d))
        t.manifest.sealedSegments t.sealed := loads.sealed.imp fun _ _ h => h.frame rfl
    rw [Query.exec_bind_ok (load_exec_eq_ok.mpr ⟨found_prepared.mpr loads.found, rfl⟩),
      Query.exec_bind_ok (loadSegments_exec_eq_ok.mpr ⟨rfl, sealed⟩),
      Query.exec_bind_ok (store_exec_printed prepared_root loads.printed),
      Query.exec_bind_ok (Query.exec_mapErr_eq_ok.mpr (openWriter_exec dir read)),
      Query.exec_bind_ok recovered, loads.replayed]
    obtain ⟨path, schema_eq, -, -, -, -, -, -, wal⟩ := loads
    cases t
    simp_all [openedDisk]

/-- A disk that holds the log opens when the segments of its manifest load. -/
theorem opens_loaded {log : List RowBatch} {m : Manifest} {sealed : List ImmutableSegment}
    (holdsLog : HoldsLog root schema d log) (found : FoundManifest serde root d m)
    (loaded : List.Forall₂ (LoadedFrom serde root d) m.sealedSegments sealed) :
    ∃ t text, (Table.openTable serde root schema).exec d = (.ok t, openedDisk root d text) ∧
      t.schema = schema ∧ t.sealed = sealed ∧ t.active.WellFormed schema ∧
      t.active.rows = logRows (log.drop m.walRecordsApplied) := by
  obtain ⟨text, printed, -⟩ := serde.manifest.roundTrip m
  obtain ⟨records, read, logged⟩ := holdsLog.readLog
  obtain ⟨active, replayed, ok, rows⟩ := holdsLog.replay m.walRecordsApplied
  have decoded := decode_of_logged (fun b hb => holdsLog.wellFormed b (List.mem_of_mem_drop hb))
    (List.forall₂_drop m.walRecordsApplied logged)
  refine ⟨⟨root, schema, active, sealed, m, ⟨walPath root, UInt64.ofNat records.length⟩⟩, text,
    openTable_exec_eq_ok.mpr ⟨text, records, log.drop m.walRecordsApplied, ?_, rfl⟩, rfl, rfl, ok,
    rows⟩
  exact ⟨rfl, rfl, found, loaded, printed, ⟨[], read⟩, decoded, replayed, rfl⟩

/-- A stored segment loads. -/
theorem Stored.loadedFrom {segment : ImmutableSegment} {b : RowBatch}
    (h : Stored serde root schema d segment b) :
    LoadedFrom serde root d (segmentRef segment) segment :=
  (load_segment_exec_eq_ok.mp (load_exec h)).2

theorem AllStored.loadedFrom {segs : Segments} (stored : AllStored serde root schema d segs) :
    List.Forall₂ (LoadedFrom serde root d) (segs.map fun s => segmentRef s.1)
      (segs.map Prod.fst) := by
  rw [List.forall₂_map_left_iff, List.forall₂_map_right_iff, List.forall₂_same]
  exact fun s hs => (stored s hs).loadedFrom

/-- Opening leaves a stored segment alone. -/
theorem Stored.opened {segment : ImmutableSegment} {b : RowBatch}
    (h : Stored serde root schema d segment b) (text : String) :
    Stored serde root schema (openedDisk root d text) segment b :=
  h.frame fun _ hq => openedDisk_files_of_ne (segment_not_manifest hq) (segment_ne_wal hq)

/-- A disk whose manifest lists stored segments opens with them, whatever rows they hold. -/
theorem opens_listed {log : List RowBatch} {m : Manifest} {segs : Segments}
    (holdsLog : HoldsLog root schema d log) (found : FoundManifest serde root d m)
    (refs : m.sealedSegments = segs.map fun s => segmentRef s.1)
    (stored : AllStored serde root schema d segs) :
    ∃ t d', (Table.openTable serde root schema).exec d = (.ok t, d') ∧ t.schema = schema ∧
      t.sealed = segs.map Prod.fst ∧ AllStored serde root schema d' segs ∧
      t.active.WellFormed schema ∧ t.active.rows = logRows (log.drop m.walRecordsApplied) := by
  have loaded := stored.loadedFrom
  rw [← refs] at loaded
  obtain ⟨t, text, run, schema_eq, sealed, active⟩ := opens_loaded holdsLog found loaded
  exact ⟨t, _, run, schema_eq, sealed, fun s hs => (stored s hs).opened text, active⟩

end BypassIo.Db
