import BypassIo.Cli.BenchBatch
import BypassIo.Cli.BenchHistory
import BypassIo.Db.Containment
import BypassIo.Db.Flushable

/-!
# The benchmark of the database

`bench_db` opens a table, appends numbered batches, flushes, scans the times of its own rows a
number of times without and with a predicate on the price, and compacts all segments if it is
asked to. Runs on one directory add up: a scan finds the rows of the earlier runs as well, but only
those with times that the run has itself.

## Main definitions

* `benchDb`.
* `Benched`: directories after some runs.
* `figures`: what the last of some runs prints.

## Main results

* `benchDb_exact`: a run returns `Ok` and prints these figures.
-/

namespace BypassIo.Cli
open Db FileSystem Octet Rust Columns JsonLines

/-! ## The function -/

/-- `BenchCommand::Db`. -/
structure DbBench where
  rowsPerBatch : Nat
  batches : Nat
  scanIterations : Nat
  compact : Bool
  deriving DecidableEq

/-- What the clock gives a record: milliseconds, a rate, and the time of day. -/
structure Timing where
  elapsedMs : UInt64
  ratePerSec : UInt64
  timestampMs : UInt64

/-- `BenchRecord::new` followed by calls of `with_context`. -/
def BenchRecord.new (timing : Timing) (benchmark unit : String) (units : Nat)
    (context : List (String × Nat)) : BenchRecord where
  benchmark := benchmark
  unit := unit
  units := UInt64.ofNat units
  bytes := none
  elapsedMs := timing.elapsedMs
  ratePerSec := timing.ratePerSec
  mibPerSec := none
  context := context.map fun c => ⟨c.1, UInt64.ofNat c.2⟩
  timestampMs := timing.timestampMs

/-- The counts that are printed. -/
structure DbFigures where
  rows : Nat
  scanned : Nat
  predicateRows : Nat
  segments : Option Nat
  deriving DecidableEq

/-- `usize::saturating_add`. -/
def saturatingAdd (a b : Nat) : Nat := min usizeMax (a + b)

/-- A method call on the local table. -/
def onTable {α : Type} (p : Method Table TableError α) (t : Table) : Query CliError (α × Table) :=
  Query.mapErr .table (ExceptT.mk (p.start t >>= fun out =>
    Prog.ret (out.1.map fun a => (a, out.2))))

/-- The loop over the batches. -/
def appendBatches (schema : Schema) (rowsPerBatch : Nat) :
    List Nat → Table → Nat → Query CliError (Table × Nat)
  | [], table, totalRows => return (table, totalRows)
  | batchNo :: batchNos, table, totalRows => do
    let batch ← Query.pureStep (mapErr .batch (ofResult (makeBatch schema rowsPerBatch batchNo)))
    let appended ← onTable (Table.append batch) table
    appendBatches schema rowsPerBatch batchNos appended.2 (saturatingAdd totalRows appended.1)

/-- The loop over the scans. -/
def scanLoop (scan : Query TableError ScanResult) : Nat → Nat → Query CliError Nat
  | 0, scannedRows => return scannedRows
  | iterations + 1, scannedRows => do
    let result ← scan.mapErr .table
    scanLoop scan iterations (saturatingAdd scannedRows result.rowCount)

/-- `timing` is the clock of each record. -/
def benchDb (serde : Serde) (json : JsonLine) (features : Features) (timing : Nat → Timing)
    (path : Path) (args : DbBench) (history : Option Path) : Query CliError DbFigures := do
  let schema ← Query.pureStep (mapErr .schema (ofResult benchSchema))
  let table ← (Table.openTable serde path schema).mapErr .table
  let appended ← appendBatches schema args.rowsPerBatch (List.range args.batches) table 0
  let totalRows := appended.2
  let flushed ← onTable (Table.flush serde) appended.1
  let table := flushed.2
  let _ ← recordBenchmark json history (.new (timing 0) "db_append" "rows" totalRows
    [("rows_per_batch", args.rowsPerBatch), ("batches", args.batches)])
  let last := Int64.ofNat totalRows
  let scanned ← scanLoop (table.scanTimeRange features 0 last) args.scanIterations 0
  let _ ← recordBenchmark json history (.new (timing 1) "db_scan_time_range" "rows" scanned
    [("iterations", args.scanIterations), ("table_rows", totalRows)])
  let predicateRows ←
    scanLoop (table.scanWhere features 0 last cheap.predicate) args.scanIterations 0
  let _ ← recordBenchmark json history (.new (timing 2) "db_scan_predicate" "rows" predicateRows
    [("iterations", args.scanIterations), ("table_rows", totalRows)])
  if args.compact then
    let segmentIds := table.manifest.sealedSegments.map (·.id)
    let _ ← onTable (Table.compact serde segmentIds) table
    let _ ← recordBenchmark json history (.new (timing 3) "db_compact" "segments"
      segmentIds.length [])
    return ⟨totalRows, scanned, predicateRows, some segmentIds.length⟩
  else return ⟨totalRows, scanned, predicateRows, none⟩

/-! ## Steps of a run -/

section Steps

variable {serde : Serde} {root : Path} {d d' : Disk} {t t' : Table}
variable {log : List RowBatch} {segs : Segments} {n batches : Nat}

theorem onTable_exec {α : Type} {p : Method Table TableError α} {a : α}
    (run : p.exec t d = ((.ok a, t'), d')) : (onTable p t).exec d = (.ok (a, t'), d') := by
  rw [onTable, Query.exec_mapErr_eq_ok]
  change (p.start t >>= _).exec d = _
  rw [Prog.exec_bind]
  change (p.start t).exec d = _ at run
  rw [run]
  rfl

/-- Bytes of one batch in the log. -/
def frameSize (n : Nat) : Nat := headerLen + payloadSize n + trailerLen

/-- Bytes of a log of batches. -/
def logSize (log : List RowBatch) : Nat :=
  (log.map fun b => headerLen + b.payloadLen + trailerLen).sum

theorem length_frames {records : List WalRecord} (logged : List.Forall₂ Logged log records) :
    (frames records).length = logSize log := by
  induction logged with
  | nil => rfl
  | cons here _ ih =>
    rw [frames_cons, List.length_append, WalRecord.length_frame, ih, length_encodeBatch here.1]
    rfl

theorem length_walBytes {schema : Schema} (h : HoldsLog root schema d log) :
    (walBytes root d).length = logSize log := by
  obtain ⟨records, logged, bytes⟩ := h.records
  rw [bytes, length_frames logged]

theorem logSize_trades (n batches : Nat) : logSize (trades n batches) = batches * frameSize n := by
  simp [logSize, trades, Function.comp_def, payloadLen_tradeBatch, frameSize]

theorem logSize_append (front back : List RowBatch) :
    logSize (front ++ back) = logSize front + logSize back := by
  simp [logSize]

/-! ### What is outside of the table -/

/-- Outside of the root no file changes, no directory is removed, and a new one is above it. -/
structure Apart (root : Path) (d d' : Disk) : Prop where
  off : d.EqOff (root <+: ·) d'
  new : ∀ q, ¬ root <+: q → ¬ q <+: root → d'.dirs q = true → d.dirs q = true

theorem Apart.trans {d'' : Disk} (h : Apart root d d') (g : Apart root d' d'') : Apart root d d'' :=
  ⟨h.off.trans g.off, fun q below above found => h.new q below above (g.new q below above found)⟩

theorem Apart.refl (root : Path) (d : Disk) : Apart root d d := ⟨.refl _ _, fun _ _ _ h => h⟩

/-- The call makes no directory outside of the root. -/
def Makes (root : Path) (c : Call) : Prop := ∀ p, c = .createDirAll p → root <+: p

theorem makes_looks : Looks (Makes root) := fun p => by simp [Makes]

/-- A directory after a call that makes none. -/
theorem dirs_of_effect {c : Call} (other : ∀ p, c ≠ .createDirAll p) {q : Path}
    (found : (c.effect d).2.dirs q = true) : d.dirs q = true := by
  cases c with
  | createDirAll p => exact absurd rfl (other p)
  | removeDirAll p =>
    simp only [Call.effect] at found
    split at found
    · simp only [Disk.removeTree] at found
      split at found
      · cases found
      · exact found
    · exact found
  | _ =>
    simp only [Call.effect] at found
    first
      | exact found
      | split at found <;> first
        | exact found
        | split at found <;> exact found

/-- A directory stays unless a call removes one. -/
theorem effect_dirs {c : Call} (other : ∀ p, c ≠ .removeDirAll p) {q : Path}
    (found : d.dirs q = true) : (c.effect d).2.dirs q = true := by
  cases c with
  | removeDirAll p => exact absurd rfl (other p)
  | createDirAll p => simp [Call.effect, found]
  | _ =>
    simp only [Call.effect]
    first
      | exact found
      | split <;> first
        | exact found
        | split <;> exact found

theorem makes_exec {α : Type} {p : Prog α} (h : p.Each (Makes root)) {q : Path}
    (below : ¬ root <+: q) (above : ¬ q <+: root) (found : (p.exec d).2.dirs q = true) :
    d.dirs q = true := by
  induction p generalizing d with
  | ret a => exact found
  | call c k ih =>
    have after := ih _ (h.2 _) found
    by_cases made : ∃ p, c = .createDirAll p
    · obtain ⟨p, rfl⟩ := made
      have inside := h.1 p rfl
      simp only [Call.effect, Disk.makeDirs_dirs, Bool.or_eq_true, decide_eq_true_eq] at after
      obtain before | above_of := after
      · exact before
      · obtain up | down := List.prefix_or_prefix_of_prefix above_of inside
        · exact absurd up above
        · exact absurd down below
    · exact dirs_of_effect (fun p eq => made ⟨p, eq⟩) after

theorem Apart.of_makes {α : Type} {p : Prog α} {a : α} (h : p.Each (Makes root))
    (run : p.exec d = (a, d')) (off : d.EqOff (root <+: ·) d') : Apart root d d' where
  off := off
  new q below above found := makes_exec h below above (by rwa [run])

theorem dirs_exec {α : Type} {p : Prog α} (h : p.Each fun c => ∀ q, c ≠ .removeDirAll q) {q : Path}
    (found : d.dirs q = true) : (p.exec d).2.dirs q = true := by
  induction p generalizing d with
  | ret a => exact found
  | call c k ih => exact ih _ (h.2 _) (effect_dirs h.1 found)

theorem store_each_of {P : Call → Prop} (writes : ∀ q b, P (.write q b))
    (renames : ∀ q r, P (.rename q r)) (m : Manifest) : (m.store serde root).Each P :=
  (Query.each_pureStep _).bind fun _ =>
    (Query.each_io (writes _ _)).bind fun _ => Query.each_io (renames _ _)

theorem sealBatch_makes (schema : Schema) (id : UInt64) (b : RowBatch) :
    (sealBatch serde root schema id b).Each (Makes root) := by
  rw [sealBatch, join_segments]
  have made : Makes root (.createDirAll (segmentDir root id)) := by
    rintro p ⟨⟩
    exact List.prefix_append _ _
  refine (Query.each_io made).bind fun _ => (Query.each_pureStep _).bind fun _ =>
    (Query.each_mapM (fun column => ?_) _).bind fun _ => Query.Each.bind ?_ fun _ => Query.each_pure _
  · refine (Query.each_pureStep _).bind fun _ => (Query.each_pureStep _).bind fun data =>
      Query.Each.bind ?_ fun _ => Query.each_pure _
    exact (Query.each_pureStep _).bind fun _ => Query.each_io (by simp [Makes])
  · exact (Query.each_pureStep _).bind fun _ => Query.each_io (by simp [Makes])

theorem storeManifest_makes : (Table.storeManifest serde).Each (Makes root) :=
  Method.each_get_bind fun _ => Method.each_query
    (store_each_of (by simp [Makes]) (by simp [Makes]) _)

theorem flush_makes (path : t.path = root) :
    ((Table.flush serde).start t).Each (Makes root) := by
  subst path
  have sealing : (Table.sealActive serde t).Each (Makes t.path) := by
    unfold Table.sealActive
    split
    · exact Method.each_pure _
    · exact (Method.each_query (sealBatch_makes _ _ _)).bind fun segment =>
        Table.bumpSegmentId_each.bind fun _ => (Method.each_modify _).bind fun _ =>
        (Method.each_query (readRecords_each makes_looks (by simp [Makes]))).bind fun records =>
        (Method.each_modify _).bind fun _ => storeManifest_makes.bind fun _ => Method.each_modify _
  rw [Table.flush_eq]
  refine ⟨by simp [Makes], ?_⟩
  rintro (e | ⟨⟩)
  · trivial
  · exact sealing t

theorem removeOld_makes (oldPaths : List Path) : (Table.removeOld oldPaths).Each (Makes root) := by
  induction oldPaths with
  | nil => exact Query.each_pure _
  | cons oldPath oldPaths ih =>
    refine (pathExists_each makes_looks _).bind fun found => ?_
    split
    · exact (Query.each_io (by simp [Makes])).bind fun _ => ih
    · exact ih

theorem compact_makes (path : t.path = root) (ids : List UInt64) :
    ((Table.compact serde ids).start t).Each (Makes root) := by
  subst path
  unfold Table.compact
  rw [Method.start_get_bind]
  split
  · trivial
  dsimp only
  split
  · trivial
  refine (Method.Each.bind (Method.each_query (combine_each makes_looks _ _ _ _)) fun combined => ?_) t
  split
  · exact Method.each_pure _
  refine (Method.each_query (sealBatch_makes _ _ _)).bind fun replacement =>
    Table.bumpSegmentId_each.bind fun _ => ?_
  split
  · exact Method.each_throw _
  · exact (Method.each_modify _).bind fun _ => storeManifest_makes.bind fun _ =>
      (Method.each_modify _).bind fun _ => Method.each_query (removeOld_makes _)

/-- `open` removes no directory, and makes none outside of the root. -/
theorem openTable_each_of {P : Call → Prop} (look : Looks P) (schema : Schema)
    (makes : ∀ p, root <+: p → P (.createDirAll p)) (writes : ∀ q b, P (.write q b))
    (renames : ∀ q r, P (.rename q r)) (opens : ∀ q, P (.openAppend q)) :
    (Table.openTable serde root schema).Each P := by
  have wal : root <+: root.join "WAL" := by
    rw [Path.join_of_isName root (by decide)]
    exact List.prefix_append _ _
  have segments : root <+: root.join "segments" := by
    rw [Path.join_of_isName root (by decide)]
    exact List.prefix_append _ _
  unfold Table.openTable
  refine (Query.each_io (makes _ wal)).bind fun _ => (Query.each_io (makes _ segments)).bind fun _ =>
    (load_each look).bind fun m =>
    (Query.each_mapM (load_segment_each look) _).bind fun segments =>
    (store_each_of writes renames m).bind fun _ => Query.Each.bind ?_ fun wal =>
    Query.Each.bind ?_ fun batches => ?_
  · exact ((Query.each_io (opens _)).bind fun _ =>
      ((Query.each_io (opens _)).bind fun _ => Query.each_pure _).bind fun _ =>
        (records_each look _).bind fun _ => Query.each_pure _).mapErr
  · exact (readRecords_each look (opens _)).bind fun _ => Query.each_pureStep _
  · rcases (RowBatch.empty schema).appendAll batches with ⟨_ | _, active⟩
    · exact Query.each_throw _
    · exact Query.each_pure _

theorem below_of_inSegment {id : UInt64} {q : Path} (h : InSegment root id q) : root <+: q :=
  (List.prefix_append _ _).trans h

theorem below_of_owned {id : UInt64} {q : Path} (h : Table.Owned root id q) : root <+: q :=
  h.elim below_of_inSegment ManifestFile.inside

/-- A table is not changed by what is outside of its root. -/
theorem clean_outside {schema : Schema} (h : Clean serde root schema d t log segs)
    (files : ∀ q, root <+: q → d'.files q = d.files q) (dirs : d'.dirs = d.dirs) :
    Clean serde root schema d' t log segs := by
  have wal := files (walPath root) (List.prefix_append _ _)
  have manifest := files (manifestPath root) (List.prefix_append _ _)
  have inside : ∀ id q, InSegment root id q → d'.files q = d.files q := fun id q hq =>
    files q (below_of_inSegment hq)
  obtain ⟨m, listed, saved, lists, le⟩ := h.handle.saved
  refine ⟨{ h.handle with
    rootDir := by rw [dirs, h.handle.rootDir]
    walFile := by rw [wal, h.handle.walFile]
    holdsLog := h.handle.holdsLog.frame wal
    saved := ⟨m, listed, saved.frame manifest, lists.frame inside, le⟩
    holds := h.handle.holds.frame fun _ _ => inside _ }, h.lists.frame inside,
    h.saved.frame manifest⟩

/-! ### The table -/

/-- Every segment has its directory. -/
def HasDirs (root : Path) (d : Disk) (segs : Segments) : Prop :=
  ∀ s ∈ segs, d.dirs (segmentDir root s.1.id) = true

theorem append_dirs {rows : RowBatch} {r : Outcome TableError Nat}
    (run : (Table.append rows).exec t d = ((r, t'), d')) : d'.dirs = d.dirs := by
  have ended := Table.append_exec rows t d
  rw [run] at ended
  cases ended with
  | rejected | tooLarge | unwritten => rfl
  | refused _ write | done _ write =>
    obtain ⟨x, -, -, -, rfl⟩ := write
    rfl

/-- An append of a batch of the benchmark. -/
theorem append_step (clean : Clean serde root tradeSchema d t log segs) (dirs : HasDirs root d segs)
    (small : payloadSize n ≤ u32Max) (room : logSize log + frameSize n ≤ maxFileLen) (batchNo : Nat) :
    ∃ t' d', (Table.append (tradeBatch n batchNo)).exec t d = ((.ok n, t'), d') ∧
      Clean serde root tradeSchema d' t' (log ++ [tradeBatch n batchNo]) segs ∧
      HasDirs root d' segs ∧ t'.manifest = t.manifest ∧ Apart root d d' := by
  obtain ⟨payload, encoded⟩ := encodeBatch_ok_iff.mpr (tradeBatch_encodable n batchNo)
  have size : payload.length = payloadSize n := by
    rw [length_encodeBatch encoded, payloadLen_tradeBatch]
  have few := clean.handle.length_log_le
  have whole := length_walBytes clean.handle.holdsLog
  unfold frameSize at room
  obtain ⟨t', d', run⟩ := clean.handle.append_succeeds (tradeBatch_wellFormed n batchNo) encoded
    (by omega) (by unfold maxFileLen at few; omega) (by omega)
  have off := Table.append_eqOff run
  rw [congrArg WalWriter.path clean.handle.wal] at off
  refine ⟨t', d', run, clean.append (tradeBatch_built n batchNo) run, fun s hs => ?_,
    (Table.append_keeps run).1, off.mono ?_, fun q _ _ found => ?_⟩
  · exact off.dirs _ (segment_ne_wal (List.prefix_refl _)) (dirs s hs)
  · rintro q rfl
    exact List.prefix_append _ _
  · rwa [append_dirs run] at found

/-- The loop over the batches. -/
theorem appendBatches_exec (small : payloadSize n ≤ u32Max) (batchNos : List Nat) {total : Nat}
    (clean : Clean serde root tradeSchema d t log segs) (dirs : HasDirs root d segs)
    (room : logSize log + batchNos.length * frameSize n ≤ maxFileLen)
    (rows : total + batchNos.length * n ≤ usizeMax) :
    ∃ t' d', (appendBatches tradeSchema n batchNos t total).exec d =
        (.ok (t', total + batchNos.length * n), d') ∧
      Clean serde root tradeSchema d' t' (log ++ batchNos.map (tradeBatch n)) segs ∧
      HasDirs root d' segs ∧ t'.manifest = t.manifest ∧ Apart root d d' := by
  induction batchNos generalizing d t log total with
  | nil => exact ⟨t, d, by simp [appendBatches], by simpa using clean, dirs, rfl, .refl _ _⟩
  | cons batchNo batchNos ih =>
    rw [List.length_cons, Nat.succ_mul] at room rows
    obtain ⟨t₁, d₁, run, clean₁, dirs₁, same₁, apart₁⟩ := append_step clean dirs small (by omega) batchNo
    have size : logSize (log ++ [tradeBatch n batchNo]) = logSize log + frameSize n := by
      rw [logSize_append]
      simp [logSize, payloadLen_tradeBatch, frameSize]
    obtain ⟨t', d', rest, clean', dirs', same', apart'⟩ := @ih d₁ t₁ _ (total + n) clean₁ dirs₁
      (by omega) (by omega)
    have sum : saturatingAdd total n = total + n := by
      unfold saturatingAdd
      omega
    refine ⟨t', d', ?_, ?_, dirs', same'.trans same₁, apart₁.trans apart'⟩
    · rw [appendBatches, makeBatch_eq, ofResult_ok, mapErr_ok,
        Query.exec_bind_ok (Query.exec_pureStep _ d), Query.exec_bind_ok (onTable_exec run), sum, rest,
        List.length_cons, Nat.succ_mul]
      congr 3
      omega
    · rwa [List.append_assoc] at clean'

/-- Every row is sealed. -/
def Settled (m : Manifest) (log : List RowBatch) : Prop :=
  logRows (log.drop m.walRecordsApplied) = []

/-- A flush of new batches behind sealed ones. -/
theorem flush_step {new : List RowBatch} (clean : Clean serde root tradeSchema d t (log ++ new) segs)
    (dirs : HasDirs root d segs) (boundary : t.manifest.walRecordsApplied ≤ log.length)
    (settled : Settled t.manifest log) (ids : t.manifest.nextSegmentId.toNat + 1 < 2 ^ 64) :
    ∃ t' d' segs', (Table.flush serde).exec t d = ((.ok (), t'), d') ∧
      Clean serde root tradeSchema d' t' (log ++ new) segs' ∧ HasDirs root d' segs' ∧
      Settled t'.manifest (log ++ new) ∧
      t'.manifest.nextSegmentId.toNat ≤ t.manifest.nextSegmentId.toNat + 1 ∧
      segs'.length = (segs.length + if logRows new = [] then 0 else 1) ∧ Apart root d d' := by
  obtain ⟨ok, rows⟩ := clean.handle.activeOk
  have fresh : t.active.rows = logRows new := by
    rw [rows, List.drop_append_of_le_length boundary, logRows_append, settled, List.nil_append]
  obtain ⟨t', d', run⟩ := clean.handle.flush_succeeds tradeSchema_nameable ids
  have apart : d.EqOff (root <+: ·) d' → Apart root d d' :=
    .of_makes (flush_makes clean.handle.path) run
  obtain ⟨idle, rfl, rfl⟩ | ⟨segment, clean', advanced, added, owned⟩ := clean.flush_cases run
  · have none := fresh.symm.trans (ok.rows_eq_nil.mpr idle)
    refine ⟨_, _, segs, run, clean, dirs, ?_, Nat.le_succ _,
      by rw [if_pos none, Nat.add_zero], .refl _ _⟩
    rw [Settled, ← rows, fresh, none]
  · have segment_rows := (clean'.handle.holds.stored (segment, t.active) (by simp)).nonempty
    have some_row : logRows new ≠ [] := fun none =>
      segment_rows (ok.rows_eq_nil.mp (fresh.trans none))
    refine ⟨t', d', _, run, clean', ?_, ?_, ?_, by rw [if_neg some_row]; simp,
      apart (owned.mono fun _ => below_of_owned)⟩
    · intro s hs
      rcases List.mem_append.mp hs with old | here
      · have lt := clean.handle.holds.below s old
        refine owned.dirs _ ?_ (dirs s old)
        rintro (inside | file)
        · rw [inSegment_unique (List.prefix_refl _) inside] at lt
          exact UInt64.lt_irrefl _ lt
        · exact segment_not_manifest (List.prefix_refl _) file
      · obtain rfl := List.mem_singleton.mp here
        rw [added.id]
        exact added.dir
    · rw [Settled, advanced]
      simp [Manifest.advance, logRows]
    · rw [advanced]
      change (t.manifest.nextSegmentId + 1).toNat ≤ _
      rw [UInt64.toNat_add]
      exact Nat.mod_le _ _

/-- Compacting all segments leaves one, if there is one. -/
theorem compact_step (clean : Clean serde root tradeSchema d t log segs) (dirs : HasDirs root d segs)
    (settled : Settled t.manifest log) (ids : t.manifest.nextSegmentId.toNat + 1 < 2 ^ 64) :
    ∃ t' d' segs',
      (Table.compact serde (t.manifest.sealedSegments.map (·.id))).exec t d = ((.ok (), t'), d') ∧
      Clean serde root tradeSchema d' t' log segs' ∧ HasDirs root d' segs' ∧
      Settled t'.manifest log ∧
      t'.manifest.nextSegmentId.toNat ≤ t.manifest.nextSegmentId.toNat + 1 ∧
      segs'.length = min segs.length 1 ∧ Apart root d d' := by
  have all : t.manifest.sealedSegments.map (·.id) = segs.map (·.1.id) := by
    rw [clean.lists.refs, List.map_map]
    rfl
  have present : ∀ id ∈ segs.map (·.1.id), ∃ s ∈ segs.map Prod.fst, s.id = id := by
    intro id mem
    obtain ⟨s, hs, rfl⟩ := List.mem_map.mp mem
    exact ⟨s.1, List.mem_map_of_mem hs, rfl⟩
  have fits := clean.handle.fits.mono (Nat.le_add_right segs.rowCount _)
  rw [all]
  obtain ⟨t', d', run⟩ := Table.compact_succeeds clean.handle.path clean.handle.schema_eq
    clean.handle.sealed (clean.handle.holds.stored.read fits _) fits tradeSchema_nameable
    clean.handle.rootDir ids clean.handle.holds.below present dirs
  have apart : d.EqOff (root <+: ·) d' → Apart root d d' :=
    .of_makes (compact_makes clean.handle.path _) run
  have ended := Method.wp_exec (clean.handle.compact_wp NoFaults (segs.map (·.1.id)))
  rw [run] at ended
  rcases ended with idle | _ | _ | ⟨nonempty, eqOff, replaced, saved⟩
  · obtain rfl := List.map_eq_nil_iff.mp idle
    exact ⟨_, _, [], run, clean, dirs, settled, Nat.le_succ _, rfl, .refl _ _⟩
  · have lists := (clean.handle.lists_relist rfl eqOff replaced).lists
    have committed := clean.handle.committed rfl eqOff replaced saved
    obtain ⟨new, added, -, perm, rfl⟩ := replaced
    have none_kept : segs.kept (segs.map (·.1.id)) = [] :=
      List.filter_eq_nil_iff.mpr fun s hs => by simpa using ⟨s.1, ⟨s.2, hs⟩, rfl⟩
    rw [none_kept] at perm
    have one := perm.eq_singleton
    refine ⟨_, d', _, run, ⟨committed, lists, saved⟩, ?_, settled, ?_, ?_, apart (eqOff.mono ?_)⟩
    · intro s hs
      rw [one] at hs
      obtain rfl := List.mem_singleton.mp hs
      rw [added.id]
      exact added.dir
    · change (t.manifest.nextSegmentId + 1).toNat ≤ _
      rw [UInt64.toNat_add]
      exact Nat.mod_le _ _
    · have pos : 0 < segs.length := by
        rw [List.length_pos_iff]
        rintro rfl
        exact nonempty rfl
      rw [one, List.length_singleton]
      omega
    · rintro q (own | ⟨s, -, inside⟩)
      · exact below_of_owned own
      · exact below_of_inSegment inside

/-- Opening a directory that earlier runs have left. -/
theorem open_step {m : Manifest} (holdsLog : HoldsLog root tradeSchema d log)
    (found : FoundManifest serde root d m) (lists : Lists serde root tradeSchema d log m segs)
    (dirs : HasDirs root d segs) :
    ∃ t d', (Table.openTable serde root tradeSchema).exec d = (.ok t, d') ∧ t.manifest = m ∧
      Clean serde root tradeSchema d' t log segs ∧ HasDirs root d' segs ∧ Apart root d d' := by
  obtain ⟨t, d', run, manifest, clean⟩ := Clean.opened holdsLog found lists
  have listed : ∀ m', SavedManifest serde root d m' → m'.Local root := by
    intro m' saved
    obtain here | ⟨absent, -, -⟩ := found
    · obtain rfl := saved.unique here
      intro ref mem
      rw [lists.refs] at mem
      obtain ⟨s, -, rfl⟩ := List.mem_map.mp mem
      exact belowSegments_segmentRef s.1
    · obtain ⟨text, held, -⟩ := saved
      rw [absent] at held
      cases held
  have start : Contained serde root d d := ⟨.refl _ _, listed⟩
  have contained := Query.wp_exec (@openTable_local _ _ tradeSchema NoFaults _ _ start)
  have makes : (Table.openTable serde root tradeSchema).Each (Makes root) := by
    refine openTable_each_of makes_looks _ ?_ ?_ ?_ ?_
    · rintro p inside _ ⟨⟩
      exact inside
    all_goals simp [Makes]
  have keeps : (Table.openTable serde root tradeSchema).Each fun c => ∀ q, c ≠ .removeDirAll q := by
    refine openTable_each_of (fun p => by simp) _ ?_ ?_ ?_ ?_ <;> simp
  have after : ((Table.openTable serde root tradeSchema).run.exec d).2 = d' := congrArg Prod.snd run
  rw [run] at contained
  refine ⟨t, d', run, manifest, clean, fun s hs => ?_, .of_makes makes run contained.1.off⟩
  rw [← after]
  exact dirs_exec keeps (dirs s hs)

/-- A scan counts the rows of the log in its range. -/
theorem scan_count (features : Features) (clean : Clean serde root tradeSchema d t log segs)
    (last : Int64) :
    ∃ r, (t.scanTimeRange features 0 last).exec d = (.ok r, d) ∧
      r.rowCount = ((logRows log).filter (inTime tradeSchema 0 last)).length := by
  obtain ⟨r, run, ok, rows⟩ := clean.handle.scansLog features 0 last
  refine ⟨r, run, ?_⟩
  have count := congrArg Multiset.card rows
  rw [Multiset.filter_coe, Multiset.coe_card, Multiset.coe_card, ok.length_rows] at count
  simpa [ScanResult.toBatch] using count

/-- A scan with the predicate counts the cheap ones of them. -/
theorem scanWhere_count (features : Features) (clean : Clean serde root tradeSchema d t log segs)
    (last : Int64) :
    ∃ r, (t.scanWhere features 0 last cheap.predicate).exec d = (.ok r, d) ∧
      r.rowCount = (((logRows log).filter (inTime tradeSchema 0 last)).filter
        (passes cheap.predicate 2)).length := by
  have price : tradeSchema.columns[2]? = some priceDef := rfl
  obtain ⟨r, run, ok, rows⟩ :=
    clean.handle.readable.scanWhere features 0 last cheap.hintsAgree price rfl
  refine ⟨r, run, ?_⟩
  rw [← ((clean.handle.rows.filter _).filter _).length_eq, ← rows, ok.length_rows]
  rfl

theorem scanLoop_exec {scan : Query TableError ScanResult} {r : ScanResult}
    (run : scan.exec d = (.ok r, d)) (iterations : Nat) {rows : Nat} (le : rows ≤ usizeMax) :
    (scanLoop scan iterations rows).exec d =
      (.ok (min usizeMax (rows + iterations * r.rowCount)), d) := by
  induction iterations generalizing rows with
  | zero =>
    rw [scanLoop, Nat.zero_mul, Nat.add_zero, Nat.min_eq_right le]
    rfl
  | succ iterations ih =>
    rw [scanLoop, Query.exec_bind_ok (Query.exec_mapErr_eq_ok.mpr run), saturatingAdd,
      ih (Nat.min_le_left _ _), Nat.succ_mul]
    congr 2
    omega

end Steps

/-! ### The history -/

section History

variable {serde : Serde} {root path : Path} {json : JsonLine} {writable : BenchRecord → Prop}
variable {history : Option Path} {d d' : Disk} {t : Table} {log : List RowBatch} {segs : Segments}
variable {recs : List BenchRecord} {r : BenchRecord} {text u : List Char}

/-- The text of a history of records. -/
def historyText (json : JsonLine) (recs : List BenchRecord) : List Char := recs.flatMap json.line

/-- A history of records, or a place for one. -/
structure Historic (json : JsonLine) (path : Path) (d : Disk) (recs : List BenchRecord) : Prop where
  holds : Holds path d (historyText json recs)
  dir : d.dirs path.dropLast = true

/-- Neither is inside of the other. -/
structure Beside (root path : Path) : Prop where
  below : ¬ root <+: path
  above : ¬ path <+: root

theorem whole_historyText (laws : json.Lawful writable) (hrs : ∀ s ∈ recs, writable s) :
    Whole json recs (historyText json recs) := by
  induction recs using List.reverseRecOn with
  | nil => rfl
  | append_singleton recs r ih =>
    obtain ⟨before, hr⟩ := List.forall_mem_append.mp hrs
    have text : historyText json (recs ++ [r]) = historyText json recs ++ json.line r := by
      simp [historyText]
    rw [text]
    exact (ih before).line laws (hr r (by simp))

theorem Historic.apart (h : Historic json path d recs) (beside : Beside root path)
    (apart : Apart root d d') : Historic json path d' recs where
  holds := by
    refine h.holds.frame (apart.off.files path beside.below) (Bool.eq_iff_iff.mpr ⟨?_, ?_⟩)
    · exact apart.new path beside.below beside.above
    · exact apart.off.dirs path beside.below
  dir := by
    refine apart.off.dirs _ (fun inside => beside.below ?_) h.dir
    exact inside.trans (List.dropLast_prefix path)

/-- A write behind the text of an open file. -/
theorem append_exec (f : IoError → CliError) (h : Opened path d text)
    (plain : ∀ c ∈ u, c.toNat < 128) (room : text.length + u.length ≤ maxFileLen) :
    (Query.io f (.append path (ascii u))).exec d =
        (.ok (), d.setFile path (some (ascii text ++ ascii u))) ∧
      Opened path (d.setFile path (some (ascii text ++ ascii u))) (text ++ u) := by
  refine ⟨Query.exec_io_eq_ok.mpr ?_, h.append plain⟩
  have fits : (ascii text).length + (ascii u).length ≤ maxFileLen := by simpa [ascii] using room
  simp only [Call.effect, h.file, if_pos fits]

/-- The file is open after it has been created. -/
theorem openAppend_exec (h : Holds path d text) (dir : d.dirs path.dropLast = true) :
    ∃ d', (Query.io CliError.io (.openAppend path)).exec d = (.ok (), d') ∧ Opened path d' text ∧
      (∀ q, q ≠ path → d'.files q = d.files q) ∧ d'.dirs = d.dirs := by
  obtain opened | ⟨gone, absent, rfl⟩ := h
  · refine ⟨d, Query.exec_io_eq_ok.mpr ?_, opened, fun _ _ => rfl, rfl⟩
    simp only [Call.effect, opened.file]
  · refine ⟨d.setFile path (some []), Query.exec_io_eq_ok.mpr ?_, ⟨by simp, gone, by simp [ascii]⟩,
      fun q ne => Disk.setFile_files_of_ne d _ ne, rfl⟩
    simp only [Call.effect, absent, dir, if_true]

/-- A record is appended to a history of records. -/
theorem recordBenchmark_exec (laws : json.Lawful writable) (hrs : ∀ s ∈ recs, writable s)
    (hr : writable r) (h : Historic json path d recs)
    (room : (historyText json (recs ++ [r])).length ≤ maxFileLen) :
    ∃ printed d', (recordBenchmark json (some path) r).exec d = (.ok printed, d') ∧
      Historic json path d' (recs ++ [r]) ∧
      (∀ q, q ≠ path → d'.files q = d.files q) ∧ d'.dirs = d.dirs := by
  obtain ⟨found, done, -⟩ := latestOf_records laws r.benchmark hrs .none
  have look : (latestHistoryRecord json path r.benchmark).exec d = (.ok found, d) := by
    rw [latestHistoryRecord_exec h.holds, (whole_historyText laws hrs).lines_eq laws hrs, done]
    rfl
  have text : historyText json (recs ++ [r]) = historyText json recs ++ json.text r ++ ['\n'] := by
    simp [historyText, JsonLine.line]
  rw [text, List.length_append, List.length_append] at room
  have bytes : asBytes (json.toString r) = ascii (json.text r) := by
    rw [← asBytes_ofList (laws.plain r hr), JsonLine.text, String.ofList_toList]
  obtain ⟨d₁, run₁, opened₁, others₁, dirs₁⟩ := openAppend_exec h.holds h.dir
  obtain ⟨run₂, opened₂⟩ := append_exec (fun err => .json err.text) opened₁ (laws.plain r hr)
    (by omega)
  obtain ⟨run₃, opened₃⟩ := append_exec .io opened₂ (u := ['\n']) (by simp)
    (by rw [List.length_append]; omega)
  refine ⟨some found, _, ?_, ⟨.inl (text ▸ opened₃), ?_⟩, ?_, ?_⟩
  · rw [recordBenchmark, Query.exec_bind_ok look, Query.exec_bind_ok run₁, bytes,
      Query.exec_bind_ok run₂, Query.exec_bind_ok run₃]
    rfl
  · exact (congrFun dirs₁ path.dropLast).trans h.dir
  · intro q ne
    rw [Disk.setFile_files_of_ne _ _ ne, Disk.setFile_files_of_ne _ _ ne, others₁ q ne]
  · exact dirs₁

/-- There is no history, or it holds the records. -/
def Historical (json : JsonLine) (history : Option Path) (d : Disk) (recs : List BenchRecord) : Prop :=
  ∀ path, history = some path → Historic json path d recs

/-- The history is beside the table, and the records fit it. -/
structure Writable (json : JsonLine) (writable : BenchRecord → Prop) (root : Path)
    (history : Option Path) (recs : List BenchRecord) : Prop where
  beside : ∀ path, history = some path → Beside root path
  each : history ≠ none → ∀ r ∈ recs, writable r
  room : history ≠ none → (historyText json recs).length ≤ maxFileLen

theorem Writable.front {more : List BenchRecord}
    (h : Writable json writable root history (recs ++ more)) :
    Writable json writable root history recs where
  beside := h.beside
  each here r mem := h.each here r (List.mem_append_left _ mem)
  room here := by
    have room := h.room here
    rw [historyText, List.flatMap_append, List.length_append] at room
    exact Nat.le_of_add_right_le room

/-- A record of a run, with the table open. -/
theorem record_step (laws : json.Lawful writable)
    (clean : Clean serde root tradeSchema d t log segs) (dirs : HasDirs root d segs)
    (h : Historical json history d recs) (ok : Writable json writable root history (recs ++ [r])) :
    ∃ printed d', (recordBenchmark json history r).exec d = (.ok printed, d') ∧
      Clean serde root tradeSchema d' t log segs ∧ HasDirs root d' segs ∧
      Historical json history d' (recs ++ [r]) := by
  cases history with
  | none => exact ⟨none, d, rfl, clean, dirs, nofun⟩
  | some path =>
    have all := ok.each (by simp)
    obtain ⟨printed, d', run, after, others, same⟩ := recordBenchmark_exec laws
      (fun s mem => all s (List.mem_append_left _ mem)) (all r (by simp)) (h path rfl)
      (ok.room (by simp))
    refine ⟨printed, d', run, clean_outside clean (fun q inside => others q ?_) same, ?_, ?_⟩
    · rintro rfl
      exact (ok.beside q rfl).below inside
    · intro s hs
      rw [same]
      exact dirs s hs
    · rintro _ ⟨⟩
      exact after

theorem Historical.apart (h : Historical json history d recs)
    (beside : ∀ path, history = some path → Beside root path) (apart : Apart root d d') :
    Historical json history d' recs := fun path here =>
  (h path here).apart (beside path here) apart

end History

/-! ## Runs on one directory -/

/-- Rows of a run. -/
def DbBench.total (args : DbBench) : Nat := args.batches * args.rowsPerBatch

/-- What some runs have logged. -/
def benchLog (runs : List DbBench) : List RowBatch :=
  runs.flatMap fun args => trades args.rowsPerBatch args.batches

/-- Segments after a run that found some. -/
def DbBench.flushed (args : DbBench) (segments : Nat) : Nat :=
  segments + if args.total = 0 then 0 else 1

/-- The segments that some runs leave. -/
def segmentsLeft (runs : List DbBench) : Nat :=
  runs.foldl (fun segments args =>
    if args.compact then min (args.flushed segments) 1 else args.flushed segments) 0

/-- What a run prints after the others: its scans find the rows of all of them with its times. -/
def figures (runs : List DbBench) (args : DbBench) : DbFigures where
  rows := args.total
  scanned := min usizeMax (args.scanIterations *
    ((runs ++ [args]).map fun run => min run.total args.total).sum)
  predicateRows := min usizeMax (args.scanIterations *
    ((runs ++ [args]).map fun run => cheapRows run.rowsPerBatch (min run.total args.total)).sum)
  segments := if args.compact then some (args.flushed (segmentsLeft runs)) else none

/-- The records that a run adds to the history. -/
def benchRecords (timing : Nat → Timing) (args : DbBench) (printed : DbFigures) :
    List BenchRecord :=
  [.new (timing 0) "db_append" "rows" printed.rows
      [("rows_per_batch", args.rowsPerBatch), ("batches", args.batches)],
    .new (timing 1) "db_scan_time_range" "rows" printed.scanned
      [("iterations", args.scanIterations), ("table_rows", printed.rows)],
    .new (timing 2) "db_scan_predicate" "rows" printed.predicateRows
      [("iterations", args.scanIterations), ("table_rows", printed.rows)]] ++
  (printed.segments.map fun segments =>
    .new (timing 3) "db_compact" "segments" segments []).toList

/-- The payloads fit their length fields, the log fits its file, and there are ids. -/
structure Room (runs : List DbBench) : Prop where
  payloads : ∀ args ∈ runs, payloadSize args.rowsPerBatch ≤ u32Max
  log : logSize (benchLog runs) ≤ maxFileLen
  ids : 2 * runs.length + 1 < 2 ^ 64

section Counts

variable {runs more : List DbBench} {args : DbBench} {bound : Nat}

theorem Room.front (h : Room (runs ++ more)) : Room runs where
  payloads args mem := h.payloads args (List.mem_append_left _ mem)
  log := by
    have size := h.log
    rw [benchLog, List.flatMap_append, logSize_append] at size
    exact Nat.le_of_add_right_le size
  ids := by
    have ids := h.ids
    rw [List.length_append] at ids
    omega

/-- The rows of a run are fewer than the bytes of its log. -/
theorem total_le_logSize (mem : args ∈ runs) : args.total ≤ logSize (benchLog runs) := by
  induction runs with
  | nil => cases mem
  | cons run runs ih =>
    have split : logSize (benchLog (run :: runs)) =
        run.batches * frameSize run.rowsPerBatch + logSize (benchLog runs) := by
      rw [benchLog, List.flatMap_cons, logSize_append, logSize_trades]
      rfl
    rw [split]
    obtain rfl | later := List.mem_cons.mp mem
    · refine Nat.le_add_right_of_le (Nat.mul_le_mul_left _ ?_)
      unfold frameSize payloadSize
      omega
    · exact Nat.le_add_left_of_le (ih later)

/-- The rows of some runs with a time before a bound. -/
theorem benchLog_inTime (fits : ∀ run ∈ runs, run.total < 2 ^ 63) (hb : bound < 2 ^ 63) :
    (logRows (benchLog runs)).filter (inTime tradeSchema 0 (Int64.ofNat bound)) =
      runs.flatMap fun run =>
        (List.range (min run.total bound)).map (tradeRow run.rowsPerBatch) := by
  induction runs with
  | nil => rfl
  | cons run runs ih =>
    obtain ⟨here, later⟩ := List.forall_mem_cons.mp fits
    rw [benchLog, List.flatMap_cons, logRows_append, List.filter_append, trades_inTime here hb,
      List.flatMap_cons]
    exact congrArg _ (ih later)

theorem scanned_count (fits : ∀ run ∈ runs, run.total < 2 ^ 63) (hb : bound < 2 ^ 63) :
    ((logRows (benchLog runs)).filter (inTime tradeSchema 0 (Int64.ofNat bound))).length =
      (runs.map fun run => min run.total bound).sum := by
  rw [benchLog_inTime fits hb, List.length_flatMap]
  simp

theorem predicate_count (fits : ∀ run ∈ runs, run.total < 2 ^ 63) (hb : bound < 2 ^ 63) :
    (((logRows (benchLog runs)).filter (inTime tradeSchema 0 (Int64.ofNat bound))).filter
        (passes cheap.predicate 2)).length =
      (runs.map fun run => cheapRows run.rowsPerBatch (min run.total bound)).sum := by
  rw [benchLog_inTime fits hb, List.filter_flatMap, List.length_flatMap]
  congr 1
  refine List.map_congr_left fun run _ => ?_
  rw [List.filter_map, List.length_map, cheapRows, List.countP_eq_length_filter]
  have same : passes cheap.predicate 2 ∘ tradeRow run.rowsPerBatch =
      fun t => decide (t % run.rowsPerBatch % 10000 < 1000) := by
    funext t
    rw [Function.comp_apply, passes_tradeRow]
  rw [same]

theorem benchLog_append : benchLog (runs ++ [args]) =
    benchLog runs ++ trades args.rowsPerBatch args.batches := by
  simp [benchLog]

theorem logRows_trades_eq_nil : logRows (trades args.rowsPerBatch args.batches) = [] ↔
    args.total = 0 := by
  rw [logRows_trades, List.map_eq_nil_iff, List.range_eq_nil]
  rfl

theorem segmentsLeft_append : segmentsLeft (runs ++ [args]) =
    if args.compact then min (args.flushed (segmentsLeft runs)) 1
    else args.flushed (segmentsLeft runs) := by
  rw [segmentsLeft, List.foldl_append]
  rfl

/-- No run has more rows than a time can count. -/
theorem Room.total_lt (h : Room runs) (mem : args ∈ runs) : args.total < 2 ^ 63 := by
  have le := (total_le_logSize mem).trans h.log
  unfold maxFileLen at le
  omega

end Counts

/-- What some runs leave. -/
structure Left (serde : Serde) (root : Path) (runs : List DbBench) (d : Disk) (m : Manifest)
    (segs : Segments) : Prop where
  log : HoldsLog root tradeSchema d (benchLog runs)
  found : FoundManifest serde root d m
  lists : Lists serde root tradeSchema d (benchLog runs) m segs
  dirs : HasDirs root d segs
  settled : Settled m (benchLog runs)
  ids : m.nextSegmentId.toNat ≤ 2 * runs.length + 1
  count : segs.length = segmentsLeft runs

section Relation

variable (serde : Serde) (json : JsonLine) (root : Path) (history : Option Path)

/-- A directory after runs that have returned `Ok`, and the records of what they should print. -/
inductive Benched : List DbBench → List BenchRecord → Disk → Prop
  | fresh {d} : Fresh root d → Historical json history d [] → Benched [] [] d
  | ran {runs recs d features timing args printed d'} : Benched runs recs d →
      (benchDb serde json features timing root args history).exec d = (.ok printed, d') →
      Benched (runs ++ [args]) (recs ++ benchRecords timing args (figures runs args)) d'

end Relation

section Runs

variable {serde : Serde} {root : Path} {json : JsonLine} {writable : BenchRecord → Prop}
variable {history : Option Path} {features : Features} {timing : Nat → Timing} {d d' : Disk}
variable {t : Table} {m : Manifest} {segs : Segments} {runs : List DbBench} {args : DbBench}
variable {recs : List BenchRecord}

theorem Left.fresh (serde : Serde) (h : Fresh root d) : Left serde root [] d .new [] := by
  have durable : Durable serde root tradeSchema d [] := h.durable
  have manifest := h (manifestPath root) (List.prefix_append _ _) (by simp [manifestPath])
  refine ⟨durable.holdsLog, .inr ⟨manifest.1, manifest.2, rfl⟩, ⟨rfl, ?_⟩, ?_, rfl, ?_, rfl⟩
  · exact ⟨by simp [AllStored], by simp, by simp, Nat.le_refl _,
      by simp [Segments.rows, benchLog, logRows]⟩
  · simp [HasDirs]
  · exact Nat.le_refl 1

/-- The part of a run before its scans. -/
theorem Left.written (left : Left serde root runs d m segs) (room : Room (runs ++ [args])) :
    ∃ t₁ d₁ t₂ d₂ t d' segs',
      (Table.openTable serde root tradeSchema).exec d = (.ok t₁, d₁) ∧
      (appendBatches tradeSchema args.rowsPerBatch (List.range args.batches) t₁ 0).exec d₁ =
        (.ok (t₂, args.total), d₂) ∧
      (Table.flush serde).exec t₂ d₂ = ((.ok (), t), d') ∧
      Clean serde root tradeSchema d' t (benchLog (runs ++ [args])) segs' ∧
      HasDirs root d' segs' ∧ Settled t.manifest (benchLog (runs ++ [args])) ∧
      t.manifest.nextSegmentId.toNat ≤ 2 * runs.length + 2 ∧
      segs'.length = args.flushed (segmentsLeft runs) ∧ Apart root d d' := by
  have mem : args ∈ runs ++ [args] := by simp
  have few := room.total_lt mem
  have size := room.log
  rw [benchLog_append, logSize_append, logSize_trades] at size
  have ids := room.ids
  rw [List.length_append, List.length_singleton] at ids
  have before := left.ids
  obtain ⟨t₁, d₁, run₁, rfl, clean₁, dirs₁, apart₁⟩ :=
    open_step left.log left.found left.lists left.dirs
  have total : 0 + (List.range args.batches).length * args.rowsPerBatch = args.total := by
    rw [List.length_range, Nat.zero_add, DbBench.total]
  have fits : 0 + (List.range args.batches).length * args.rowsPerBatch ≤ usizeMax := by
    rw [total]
    unfold usizeMax
    omega
  obtain ⟨t₂, d₂, run₂, clean₂, dirs₂, same₂, apart₂⟩ := appendBatches_exec
    (room.payloads args mem) (List.range args.batches) clean₁ dirs₁ (by rwa [List.length_range]) fits
  rw [total] at run₂
  rw [← same₂] at before
  obtain ⟨t, d', segs', run₃, clean₃, dirs₃, settled₃, next, count, apart₃⟩ := flush_step clean₂ dirs₂
    (same₂ ▸ left.lists.holds.boundary) (same₂ ▸ left.settled) (by omega)
  change Clean _ _ _ _ _ (benchLog runs ++ trades args.rowsPerBatch args.batches) _ at clean₃
  change Settled _ (benchLog runs ++ trades args.rowsPerBatch args.batches) at settled₃
  rw [← benchLog_append] at clean₃ settled₃
  refine ⟨t₁, d₁, t₂, d₂, t, d', segs', run₁, run₂, run₃, clean₃, dirs₃, settled₃, by omega, ?_,
    (apart₁.trans apart₂).trans apart₃⟩
  rw [count, left.count, DbBench.flushed]
  congr 1
  exact if_congr logRows_trades_eq_nil rfl rfl

/-- The scans of the times. -/
theorem scans_exec (features : Features)
    (clean : Clean serde root tradeSchema d t (benchLog (runs ++ [args])) segs)
    (room : Room (runs ++ [args])) :
    (scanLoop (t.scanTimeRange features 0 (Int64.ofNat args.total)) args.scanIterations 0).exec d =
      (.ok (figures runs args).scanned, d) := by
  obtain ⟨r, run, count⟩ := scan_count features clean (Int64.ofNat args.total)
  rw [scanned_count (fun _ => room.total_lt) (room.total_lt (by simp))] at count
  rw [scanLoop_exec run _ (Nat.zero_le _), count, Nat.zero_add]
  rfl

/-- The scans with the predicate. -/
theorem predicateScans_exec (features : Features)
    (clean : Clean serde root tradeSchema d t (benchLog (runs ++ [args])) segs)
    (room : Room (runs ++ [args])) :
    (scanLoop (t.scanWhere features 0 (Int64.ofNat args.total) cheap.predicate)
      args.scanIterations 0).exec d = (.ok (figures runs args).predicateRows, d) := by
  obtain ⟨r, run, count⟩ := scanWhere_count features clean (Int64.ofNat args.total)
  rw [predicate_count (fun _ => room.total_lt) (room.total_lt (by simp))] at count
  rw [scanLoop_exec run _ (Nat.zero_le _), count, Nat.zero_add]
  rfl

/-- A run prints its figures, and leaves a directory for the next one. -/
theorem Left.benchDb_exec (laws : json.Lawful writable) (left : Left serde root runs d m segs)
    (h : Historical json history d recs) (room : Room (runs ++ [args]))
    (ok : Writable json writable root history
      (recs ++ benchRecords timing args (figures runs args))) :
    ∃ d' m' segs', (benchDb serde json features timing root args history).exec d =
        (.ok (figures runs args), d') ∧ Left serde root (runs ++ [args]) d' m' segs' ∧
      Historical json history d' (recs ++ benchRecords timing args (figures runs args)) := by
  have ids := room.ids
  have length : (runs ++ [args]).length = runs.length + 1 := List.length_append
  obtain ⟨t₁, d₁, t₂, d₂, t, d₃, segs', run₁, run₂, run₃, clean, dirs, settled, next, count, apart⟩ :=
    left.written room
  have one_by_one : recs ++ benchRecords timing args (figures runs args) =
      recs ++ [.new (timing 0) "db_append" "rows" args.total
          [("rows_per_batch", args.rowsPerBatch), ("batches", args.batches)]] ++
        [.new (timing 1) "db_scan_time_range" "rows" (figures runs args).scanned
          [("iterations", args.scanIterations), ("table_rows", args.total)]] ++
        [.new (timing 2) "db_scan_predicate" "rows" (figures runs args).predicateRows
          [("iterations", args.scanIterations), ("table_rows", args.total)]] ++
        ((figures runs args).segments.map fun segments =>
          .new (timing 3) "db_compact" "segments" segments []).toList := by
    simp only [benchRecords, List.append_assoc, List.cons_append, List.nil_append]
    rfl
  rw [one_by_one] at ok ⊢
  have h₃ := h.apart ok.beside apart
  obtain ⟨_, d₄, run₄, clean, dirs, h₄⟩ := record_step laws clean dirs h₃ ok.front.front.front
  have scans := scans_exec features clean room
  obtain ⟨_, d₅, run₅, clean, dirs, h₅⟩ := record_step laws clean dirs h₄ ok.front.front
  have predicateScans := predicateScans_exec features clean room
  obtain ⟨_, d₆, run₆, clean, dirs, h₆⟩ := record_step laws clean dirs h₅ ok.front
  unfold benchDb
  rw [benchSchema_eq, ofResult_ok, mapErr_ok, Query.exec_bind_ok (Query.exec_pureStep _ d),
    Query.exec_bind_ok (Query.exec_mapErr_eq_ok.mpr run₁), Query.exec_bind_ok run₂]
  dsimp only
  rw [Query.exec_bind_ok (onTable_exec run₃)]
  dsimp only
  rw [Query.exec_bind_ok run₄, Query.exec_bind_ok scans, Query.exec_bind_ok run₅,
    Query.exec_bind_ok predicateScans, Query.exec_bind_ok run₆]
  by_cases compact : args.compact
  · have segments : (figures runs args).segments = some (args.flushed (segmentsLeft runs)) :=
      if_pos compact
    have listed : (t.manifest.sealedSegments.map (·.id)).length =
        args.flushed (segmentsLeft runs) := by
      rw [List.length_map, clean.lists.refs, List.length_map, count]
    rw [segments, Option.map_some, Option.toList_some] at ok ⊢
    obtain ⟨t', d₇, segs₇, run₇, clean, dirs, settled, next', count', apart⟩ :=
      compact_step clean dirs settled (by omega)
    obtain ⟨_, d₈, run₈, clean, dirs, h₈⟩ :=
      record_step laws clean dirs (h₆.apart ok.beside apart) ok
    refine ⟨d₈, _, segs₇, ?_, ⟨clean.handle.holdsLog, .inl clean.saved, clean.lists, dirs, settled,
      by omega, ?_⟩, h₈⟩
    · rw [if_pos compact, Query.exec_bind_ok (onTable_exec run₇), listed, Query.exec_bind_ok run₈,
        ← segments]
      rfl
    · rw [segmentsLeft_append, if_pos compact, count', count]
  · have segments : (figures runs args).segments = none := if_neg compact
    rw [segments, Option.map_none, Option.toList_none, List.append_nil]
    refine ⟨d₆, _, segs', ?_, ⟨clean.handle.holdsLog, .inl clean.saved, clean.lists, dirs, settled,
      by omega, ?_⟩, h₆⟩
    · rw [if_neg compact, ← segments]
      rfl
    · rw [segmentsLeft_append, if_neg compact, count]

theorem Benched.left (laws : json.Lawful writable) (h : Benched serde json root history runs recs d)
    (room : Room runs) (ok : Writable json writable root history recs) :
    (∃ m segs, Left serde root runs d m segs) ∧ Historical json history d recs := by
  induction h with
  | fresh empty hist => exact ⟨⟨_, _, .fresh serde empty⟩, hist⟩
  | ran before run ih =>
    obtain ⟨⟨m, segs, left⟩, hist⟩ := ih room.front ok.front
    obtain ⟨d', m', segs', exact_run, left', hist'⟩ := left.benchDb_exec laws hist room ok
    obtain rfl : _ = _ := congrArg Prod.snd (run.symm.trans exact_run)
    exact ⟨⟨m', segs', left'⟩, hist'⟩

/-- A run on a directory of such runs returns `Ok` and prints its figures, and the history holds a
record of each of them. -/
theorem benchDb_exact (features : Features) (timing : Nat → Timing) (laws : json.Lawful writable)
    (h : Benched serde json root history runs recs d) (room : Room (runs ++ [args]))
    (ok : Writable json writable root history
      (recs ++ benchRecords timing args (figures runs args))) :
    ∃ d', (benchDb serde json features timing root args history).exec d =
        (.ok (figures runs args), d') ∧
      ∀ path, history = some path →
        Readable json path d' (recs ++ benchRecords timing args (figures runs args)) := by
  obtain ⟨⟨m, segs, left⟩, hist⟩ := h.left laws room.front ok.front
  obtain ⟨d', m', segs', run, -, hist'⟩ := left.benchDb_exec laws hist room ok
  refine ⟨d', run, fun path here => ?_⟩
  have all := ok.each (by simp [here])
  exact (hist' path here).holds.readable laws all ((whole_historyText laws all).lines_eq laws all)

/-- A second run finds four rows of the first one as well, and compacts both segments. -/
example : figures [⟨2, 3, 1, false⟩] ⟨2, 2, 5, true⟩ = ⟨4, 40, 40, some 2⟩ := by decide

end Runs

/-! ## A run with a history -/

def sampleRun : DbBench := ⟨1, 1, 1, false⟩

def sampleTiming : Nat → Timing := fun _ => ⟨0, 0, 1700000000000⟩

/-- The records of the run, as texts. -/
def runTexts : List String :=
  ["\x7b\"benchmark\":\"db_append\",\"unit\":\"rows\",\"units\":1,\"bytes\":null,\"elapsed_ms\":0,\"rate_per_sec\":0.0,\"mib_per_sec\":null,\"context\":[\x7b\"key\":\"rows_per_batch\",\"value\":1\x7d,\x7b\"key\":\"batches\",\"value\":1\x7d],\"timestamp_ms\":1700000000000\x7d",
   "\x7b\"benchmark\":\"db_scan_time_range\",\"unit\":\"rows\",\"units\":1,\"bytes\":null,\"elapsed_ms\":0,\"rate_per_sec\":0.0,\"mib_per_sec\":null,\"context\":[\x7b\"key\":\"iterations\",\"value\":1\x7d,\x7b\"key\":\"table_rows\",\"value\":1\x7d],\"timestamp_ms\":1700000000000\x7d",
   "\x7b\"benchmark\":\"db_scan_predicate\",\"unit\":\"rows\",\"units\":1,\"bytes\":null,\"elapsed_ms\":0,\"rate_per_sec\":0.0,\"mib_per_sec\":null,\"context\":[\x7b\"key\":\"iterations\",\"value\":1\x7d,\x7b\"key\":\"table_rows\",\"value\":1\x7d],\"timestamp_ms\":1700000000000\x7d"]

def runRecords : List BenchRecord :=
  benchRecords sampleTiming sampleRun (figures [] sampleRun)

/-- `serde_json` on these records. -/
def runJson : JsonLine where
  toString r := (runTexts[runRecords.idxOf r]?).getD ""
  fromStr text := match runRecords[runTexts.idxOf text]? with
    | some r => .ok r
    | none => .error "unexpected JSON text"

theorem runTexts_checked : ∀ text ∈ runTexts, Checked text.toList := by
  simp only [runTexts, List.forall_mem_cons]
  rw [String.toList_ofList, String.toList_ofList, String.toList_ofList]
  decide +kernel

theorem runTexts_nodup : runTexts.Nodup := by
  refine List.Nodup.of_map String.toList ?_
  simp only [runTexts, List.map_cons, List.map_nil]
  rw [String.toList_ofList, String.toList_ofList, String.toList_ofList]
  decide +kernel

theorem map_runRecords : runRecords.map runJson.toString = runTexts := rfl

theorem length_runRecords : runRecords.length = runTexts.length := rfl

/-- Every record is read back from its text. -/
theorem runJson_finds {r : BenchRecord} (mem : r ∈ runRecords) : runJson.toString r ∈ runTexts ∧
    runRecords[runTexts.idxOf (runJson.toString r)]? = some r := by
  have lt : runRecords.idxOf r < runTexts.length :=
    length_runRecords ▸ List.idxOf_lt_length_of_mem mem
  have text : runJson.toString r = runTexts[runRecords.idxOf r] := by
    simp only [runJson, List.getElem?_eq_getElem lt, Option.getD_some]
  rw [text, runTexts_nodup.idxOf_getElem]
  exact ⟨List.getElem_mem lt, List.getElem?_idxOf mem⟩

theorem runJson_lawful : runJson.Lawful (· ∈ runRecords) where
  object r mem := (runTexts_checked _ (runJson_finds mem).1).object
  plain r mem := (runTexts_checked _ (runJson_finds mem).1).plain
  reads r mem := by
    have found := (runJson_finds mem).2
    refine ⟨r, ?_, rfl⟩
    simp only [runJson] at found ⊢
    rw [found]
  accepts text r read := by
    by_cases mem : text ∈ runTexts
    · exact (runTexts_checked text mem).object.closed
    · simp [runJson, List.idxOf_eq_length mem, length_runRecords] at read

theorem noHistory_fresh (root : Path) (ne : root ≠ []) : Fresh root noHistory := by
  intro q inside _
  refine ⟨rfl, decide_eq_false ?_⟩
  rintro rfl
  exact ne (List.prefix_nil.mp inside)

theorem sampleRun_room : Room [sampleRun] where
  payloads := by decide
  log := by
    rw [benchLog, List.flatMap_singleton, logSize_trades]
    decide +kernel
  ids := by decide

theorem runRecords_writable :
    Writable runJson (· ∈ runRecords) ["bench"] (some historyPath) runRecords where
  beside := by
    rintro _ ⟨⟩
    exact ⟨by decide, by decide⟩
  each _ _ mem := mem
  room _ := by
    have text : historyText runJson runRecords = runTexts.flatMap (·.toList ++ ['\n']) := by
      rw [← map_runRecords, List.flatMap_map]
      rfl
    rw [text]
    simp only [runTexts, List.flatMap_cons, List.flatMap_nil]
    rw [String.toList_ofList, String.toList_ofList, String.toList_ofList]
    decide +kernel

theorem benchDb_exact_first : ∃ d',
    (benchDb jsonSerde runJson ⟨true, true⟩ sampleTiming ["bench"] sampleRun
        (some historyPath)).exec noHistory = (.ok ⟨1, 1, 1, none⟩, d') ∧
      Readable runJson historyPath d' runRecords := by
  have empty : Historical runJson (some historyPath) noHistory [] := by
    rintro _ ⟨⟩
    exact ⟨.inr ⟨by decide, rfl, rfl⟩, by decide⟩
  have first : Benched jsonSerde runJson ["bench"] (some historyPath) [] [] noHistory :=
    .fresh (noHistory_fresh _ (by simp)) empty
  obtain ⟨d', run, readable⟩ := benchDb_exact ⟨true, true⟩ sampleTiming runJson_lawful first
    sampleRun_room runRecords_writable
  exact ⟨d', run, readable _ rfl⟩

end BypassIo.Cli
