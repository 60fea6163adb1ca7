import BypassIo.Db.Append

/-!
# Opening a table

A disk that keeps the log opens: `openTable_wp` gives the handle, and a kill at any call of
`open` leaves a disk that keeps it.
-/

namespace BypassIo.Db
open Octet Rust FileSystem Columns

/-- No call fails. -/
def NoFaults : Call → Prop := fun _ => False

variable {serde : Serde} {root : Path} {schema : Schema} {d d' : Disk} {log : List RowBatch}

/-! ## The log file is created when it is not there -/

/-- The disk after a file is opened for appending. -/
def touch (d : Disk) (p : Path) : Disk :=
  match d.files p with
  | some _ => d
  | none => d.setFile p (some [])

theorem touch_getD (p q : Path) : ((touch d p).files q).getD [] = (d.files q).getD [] := by
  unfold touch
  cases held : d.files p with
  | some x => rfl
  | none =>
    by_cases same : q = p
    · subst same
      simp [held]
    · simp [same]

theorem touch_files_of_ne {p q : Path} (ne : q ≠ p) : (touch d p).files q = d.files q := by
  unfold touch
  cases d.files p <;> simp [ne]

@[simp] theorem touch_dirs (p : Path) : (touch d p).dirs = d.dirs := by
  unfold touch
  cases d.files p <;> rfl

theorem touch_isSome (p : Path) : ((touch d p).files p).isSome = true := by
  unfold touch
  cases held : d.files p <;> simp [held]

theorem touch_of_isSome {p : Path} (h : (d.files p).isSome = true) : touch d p = d := by
  unfold touch
  obtain ⟨x, held⟩ := Option.isSome_iff_exists.mp h
  rw [held]

theorem openAppend_effect {p : Path} (dir : d.dirs p.dropLast = true) :
    (Call.openAppend p).effect d = (.ok (), touch d p) := by
  simp only [Call.effect, touch]
  cases d.files p <;> simp [dir]

theorem openAppend_wp {p : Path} (dir : d.dirs p.dropLast = true) :
    (Query.io WalError.ofIo (.openAppend p)).wp NoFaults
      (fun r d' => r = .ok () ∧ d' = touch d p) (fun d' => d' = d ∨ d' = touch d p) d := by
  have regular := openAppend_effect dir
  refine Query.wp_io ?_ ?_ fun _ _ m => m.elim
  · rintro d' (rfl | rfl)
    · exact .inl rfl
    · rw [regular]
      exact .inr rfl
  · rw [Query.exec_io, regular]
    exact ⟨rfl, rfl⟩

theorem openReader_exec {p : Path} (dir : d.dirs p.dropLast = true) :
    (WalReader.openReader p).exec d = (.ok p, touch d p) := by
  unfold WalReader.openReader
  rw [Query.exec_bind_ok (Query.exec_io_eq_ok.mpr (openAppend_effect dir))]
  rfl

theorem openReader_wp_touch {p : Path} (dir : d.dirs p.dropLast = true) :
    (WalReader.openReader p).wp NoFaults (fun r d' => r = .ok p ∧ d' = touch d p)
      (fun d' => d' = d ∨ d' = touch d p) d :=
  Query.wp_ok_seq (openAppend_wp dir) ⟨rfl, rfl⟩ fun _ h => h

theorem touch_touch (p : Path) : touch (touch d p) p = touch d p := touch_of_isSome (touch_isSome p)

/-- The records of the log, found after the file has been opened for appending. -/
theorem records_exec_touch {p : Path} {records : List WalRecord} {tail : Bytes}
    (log : readLog ((d.files p).getD []) = .ok (records, tail)) :
    (WalReader.records p).exec (touch d p) = (.ok records, touch d p) := by
  obtain ⟨bytes, held⟩ := Option.isSome_iff_exists.mp (touch_isSome (d := d) p)
  have same := touch_getD (d := d) p p
  rw [held, Option.getD_some] at same
  exact records_exec_eq_ok.mpr ⟨rfl, bytes, tail, held, by rw [same, log]⟩

/-- Opening the writer creates the log file and counts its records. -/
theorem openWriter_wp {p : Path} {records : List WalRecord} {tail : Bytes}
    (dir : d.dirs p.dropLast = true) (log : readLog ((d.files p).getD []) = .ok (records, tail)) :
    (WalWriter.openWriter p).wp NoFaults
      (fun r d' => r = .ok ⟨p, UInt64.ofNat records.length⟩ ∧ d' = touch d p)
      (fun d' => d' = d ∨ d' = touch d p) d := by
  refine Query.wp_ok_seq (openAppend_wp dir) ?_ fun _ h => h
  have dir' : (touch d p).dirs p.dropLast = true := by rwa [touch_dirs]
  refine Query.wp_ok_seq (openReader_wp_touch dir') ?_ ?_ <;> rw [touch_touch]
  · refine Query.wp_ok_seq ((records_readOnly p).wp_ok (records_exec_touch log)) ⟨rfl, rfl⟩ ?_
    rintro d' rfl
    exact .inr rfl
  · rintro d' (rfl | rfl) <;> exact .inr rfl

/-- Reading the records of a log that may have to be created. -/
theorem readRecords_wp_touch {p : Path} {records : List WalRecord} {tail : Bytes}
    (dir : d.dirs p.dropLast = true) (log : readLog ((d.files p).getD []) = .ok (records, tail)) :
    (readRecords p).wp NoFaults (fun r d' => r = .ok records ∧ d' = touch d p)
      (fun d' => d' = d ∨ d' = touch d p) d := by
  have opened : ((WalReader.openReader p).mapErr TableError.wal).wp NoFaults
      (fun r d' => r = .ok p ∧ d' = touch d p) (fun d' => d' = d ∨ d' = touch d p) d := by
    refine Query.wp_mapErr.mpr (Query.wp_mono (openReader_wp_touch dir) ?_ fun _ h => h)
    rintro r d' ⟨rfl, rfl⟩
    exact ⟨rfl, rfl⟩
  refine Query.wp_ok_seq opened ?_ fun _ h => h
  have exec : ((WalReader.records p).mapErr TableError.wal).exec (touch d p) = _ :=
    Query.exec_mapErr_eq_ok.mpr (records_exec_touch log)
  refine Query.wp_mono ((records_readOnly p).mapErr.wp_ok exec) (fun _ _ h => h) ?_
  rintro d' rfl
  exact .inr rfl

/-- The batches behind the boundary. -/
theorem recoverBatchesAfter_wp (holdsLog : HoldsLog root schema d log)
    (dir : d.dirs (walPath root).dropLast = true) (k : Nat) :
    (recoverBatchesAfter schema (walPath root) k).wp NoFaults
      (fun r d' => r = .ok (log.drop k) ∧ d' = touch d (walPath root))
      (fun d' => d' = d ∨ d' = touch d (walPath root)) d := by
  obtain ⟨records, read, logged⟩ := holdsLog.readLog
  refine Query.wp_ok_seq (readRecords_wp_touch dir read) ?_ fun _ h => h
  refine ⟨decode_of_logged (fun b hb => holdsLog.wellFormed b (List.mem_of_mem_drop hb)) ?_, rfl⟩
  exact List.forall₂_drop k logged

/-! ## Opening -/

theorem createDirAll_wp (p : Path) (d : Disk) :
    (Query.io TableError.ofIo (.createDirAll p)).wp NoFaults
      (fun r d' => r = .ok () ∧ d' = d.makeDirs p)
      (fun d' => d'.files = d.files ∧ ∀ q, ¬ q <+: p → d'.dirs q = d.dirs q) d := by
  refine Query.wp_io ?_ ⟨rfl, rfl⟩ fun _ _ m => m.elim
  rintro d' ⟨files, dirs⟩
  refine ⟨files, fun q hq => ?_⟩
  rcases dirs q with same | ⟨-, below⟩
  · exact same
  · exact absurd below hq

theorem makeDirs_dirs_of_not {p q : Path} (h : ¬ q <+: p) : (d.makeDirs p).dirs q = d.dirs q := by
  simp [h]

theorem manifestPath_not_above {name : String} (ne : name ≠ "manifest.json") :
    ¬ manifestPath root <+: root ++ [name] := by
  rw [manifestPath, List.prefix_append_right_inj, List.cons_prefix_cons]
  exact fun h => ne h.1.symm

/-- `Table::open` once the directories are there. -/
def Table.loadTable (serde : Serde) (root : Path) (schema : Schema) : Query TableError Table := do
  let manifest ← Manifest.load serde root
  let sealed ← manifest.sealedSegments.mapM (ImmutableSegment.load serde root)
  manifest.store serde root
  let wal ← (WalWriter.openWriter (walPath root)).mapErr .wal
  let batches ← recoverBatchesAfter schema (walPath root) manifest.walRecordsApplied
  match (RowBatch.empty schema).appendAll batches with
  | (.error e, _) => throw (.error (.batch e))
  | (.ok (), active) => return { path := root, schema, active, sealed, manifest, wal }

theorem openTable_eq (serde : Serde) (root : Path) (schema : Schema) :
    Table.openTable serde root schema = (do
      Query.io .ofIo (.createDirAll (root ++ ["WAL"]))
      Query.io .ofIo (.createDirAll (root ++ ["segments"]))
      Table.loadTable serde root schema) := by
  have wal : root.join "WAL" = root ++ ["WAL"] := Path.join_of_isName root (by decide)
  have segments : root.join "segments" = root ++ ["segments"] :=
    Path.join_of_isName root (by decide)
  rw [← wal, ← segments, Table.loadTable, ← join_wal]
  rfl

theorem Keeps.congr {m : Manifest} {segs : Segments} (h : Keeps serde root schema d log m segs)
    (files : d'.files = d.files) (dirs : d'.dirs (manifestPath root) = d.dirs (manifestPath root)) :
    Keeps serde root schema d' log m segs :=
  ⟨h.holdsLog.frame (congrFun files _), h.found.frame (congrFun files _) dirs,
    h.lists.frame fun _ q _ => congrFun files q⟩

theorem segment_ne_wal {id : UInt64} {q : Path} (h : InSegment root id q) : q ≠ walPath root :=
  fun same => walPath_not_inSegment id (same ▸ h)

theorem segment_not_manifest {id : UInt64} {q : Path} (h : InSegment root id q) :
    ¬ ManifestFile root q := by
  rintro (rfl | rfl)
  · exact manifestTmp_not_inSegment _ h
  · exact manifestPath_not_inSegment _ h

theorem wal_not_manifest : ¬ ManifestFile root (walPath root) := by
  rintro (tmp | manifest)
  · exact walPath_ne_tmp tmp
  · exact walPath_ne_manifest manifest

theorem HoldsLog.touch (h : HoldsLog root schema d log) :
    HoldsLog root schema (touch d (walPath root)) log := by
  have bytes : walBytes root (BypassIo.Db.touch d (walPath root)) = walBytes root d :=
    touch_getD _ _
  refine ⟨h.wellFormed, ?_, ?_⟩ <;> rw [bytes]
  · exact h.records
  · exact h.size

theorem Keeps.touch {m : Manifest} {segs : Segments} (h : Keeps serde root schema d log m segs) :
    Keeps serde root schema (touch d (walPath root)) log m segs where
  holdsLog := h.holdsLog.touch
  found := h.found.frame (touch_files_of_ne walPath_ne_manifest.symm) (by rw [touch_dirs])
  lists := h.lists.frame fun _ _ hq => touch_files_of_ne (segment_ne_wal hq)

/-- An attempt to store the manifest that is there keeps the disk. -/
theorem Keeps.storing {m : Manifest} {segs : Segments} (h : Keeps serde root schema d log m segs)
    (s : Storing serde root m d d') : Keeps serde root schema d' log m segs where
  holdsLog := h.holdsLog.frame (s.off.files _ wal_not_manifest)
  found := by
    rcases s.file with same | saved
    · exact h.found.frame same (congrFun s.dirs _)
    · exact .inl saved
  lists := h.lists.frame fun _ q hq => s.off.files q (segment_not_manifest hq)

theorem load_segment_readOnly (segment : SegmentRef) :
    (ImmutableSegment.load serde root segment).ReadOnly :=
  Query.ReadOnly.bind ((readToString_readOnly _).bind fun _ => Query.readOnly_pureStep _)
    fun _ => Query.readOnly_pure _

/-- The segments of a manifest load. -/
theorem Lists.load {m : Manifest} {segs : Segments} (h : Lists serde root schema d log m segs) :
    (m.sealedSegments.mapM (ImmutableSegment.load serde root)).exec d =
      (.ok (segs.map Prod.fst), d) := by
  refine Query.exec_mapM_ok ?_
  rw [h.refs, List.forall₂_map_left_iff, List.forall₂_map_right_iff, List.forall₂_same]
  exact fun s hs => load_exec (h.holds.stored s hs)

/-- What an open table is after `open` found the manifest `m` with the segments `segs`. -/
structure Opened (serde : Serde) (root : Path) (schema : Schema) (log : List RowBatch)
    (m : Manifest) (segs : Segments) (t : Table) (d : Disk) : Prop where
  manifest : t.manifest = m
  saved : SavedManifest serde root d m
  lists : Lists serde root schema d log m segs
  handle : Handle serde root schema d t log m.walRecordsApplied segs

theorem loadTable_wp {m : Manifest} {segs : Segments} (keeps : Keeps serde root schema d log m segs)
    (rootDir : d.dirs root = true) (walDir : d.dirs (walPath root).dropLast = true) :
    (Table.loadTable serde root schema).wp NoFaults
      (fun r d' => ∃ t, r = .ok t ∧ Opened serde root schema log m segs t d')
      (fun d' => Keeps serde root schema d' log m segs) d := by
  -- The manifest and its segments are read.
  refine Query.wp_ok_seq (load_readOnly.wp_ok (load_exec_eq_ok.mpr ⟨keeps.found, rfl⟩)) ?_ ?_
  swap
  · rintro d' rfl
    exact keeps
  refine Query.wp_ok_seq ((Query.readOnly_mapM load_segment_readOnly _).wp_ok keeps.lists.load) ?_ ?_
  swap
  · rintro d' rfl
    exact keeps
  -- The manifest is stored again.
  obtain ⟨text, -, ok⟩ := store_exec m rootDir
  refine Query.wp_seq (Query.wp_exact (store_wp m d : Query.wp NoFaults _ _ _ d)) ?_ ?_ fun d' s =>
    keeps.storing s
  swap
  · rintro e d' ⟨exec, -⟩
    rw [ok] at exec
    cases (Prod.mk.inj exec).1
  rintro ⟨⟩ d₁ ⟨-, storing, saved⟩
  have saved₁ := saved rfl
  have keeps₁ := keeps.storing storing
  have walDir₁ : d₁.dirs (walPath root).dropLast = true := by rwa [storing.dirs]
  obtain ⟨records, read, logged⟩ := keeps₁.holdsLog.readLog
  -- The log is opened and replayed.
  have writer : ((WalWriter.openWriter (walPath root)).mapErr TableError.wal).wp NoFaults
      (fun r d' => r = .ok ⟨walPath root, UInt64.ofNat records.length⟩ ∧
        d' = touch d₁ (walPath root))
      (fun d' => d' = d₁ ∨ d' = touch d₁ (walPath root)) d₁ := by
    refine Query.wp_mapErr.mpr (Query.wp_mono (openWriter_wp walDir₁ read) ?_ fun _ h => h)
    rintro r d' ⟨rfl, rfl⟩
    exact ⟨rfl, rfl⟩
  refine Query.wp_ok_seq writer ?_ ?_
  swap
  · rintro d' (rfl | rfl)
    · exact keeps₁
    · exact keeps₁.touch
  obtain ⟨holdsLog₂, -, lists₂⟩ := keeps₁.touch
  refine Query.wp_ok_seq (recoverBatchesAfter_wp holdsLog₂ (by rwa [touch_dirs]) _) ?_ ?_ <;>
    rw [touch_touch]
  swap
  · rintro d' (rfl | rfl) <;> exact keeps₁.touch
  obtain ⟨active, replayed, -, -⟩ := holdsLog₂.replay m.walRecordsApplied
  rw [replayed]
  have saved₂ : SavedManifest serde root (touch d₁ (walPath root)) m :=
    saved₁.frame (touch_files_of_ne walPath_ne_manifest.symm)
  refine ⟨_, rfl, rfl, saved₂, lists₂, ?_⟩
  exact
    { path := rfl
      schema_eq := rfl
      rootDir := by rwa [touch_dirs, storing.dirs]
      walFile := touch_isSome _
      holdsLog := holdsLog₂
      saved := ⟨m, segs, saved₂, lists₂, UInt64.le_refl _⟩
      wal := by rw [logged.length_eq]
      sealed := rfl
      holds := lists₂.holds
      active := replayed }

/-- A disk that keeps the log opens, and every kill on the way leaves one that keeps it. -/
theorem openTable_wp {m : Manifest} {segs : Segments} (keeps : Keeps serde root schema d log m segs) :
    (Table.openTable serde root schema).wp NoFaults
      (fun r d' => ∃ t, r = .ok t ∧ Opened serde root schema log m segs t d')
      (fun d' => Keeps serde root schema d' log m segs) d := by
  have manifestDir : (d.makeDirs (root ++ ["WAL"])).dirs (manifestPath root) =
      d.dirs (manifestPath root) := makeDirs_dirs_of_not (manifestPath_not_above (by decide))
  rw [openTable_eq]
  refine Query.wp_ok_seq (createDirAll_wp _ d) ?_ fun d' h =>
    keeps.congr h.1 (h.2 _ (manifestPath_not_above (by decide)))
  refine Query.wp_ok_seq (createDirAll_wp _ _) ?_ fun d' h =>
    keeps.congr h.1 ((h.2 _ (manifestPath_not_above (by decide))).trans manifestDir)
  refine loadTable_wp (keeps.congr rfl ?_) ?_ ?_
  · exact (makeDirs_dirs_of_not (manifestPath_not_above (by decide))).trans manifestDir
  · simp
  · simp [walPath, List.dropLast_append_of_ne_nil]

end BypassIo.Db
