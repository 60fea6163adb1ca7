import BypassIo.Db.Reopen

/-!
# The log as the whole history

A flush and a compaction leave the log file alone: `Table::open` skips the records before the
boundary, it does not remove them. So in every state of the life of a directory, also after
kills, the log holds every acknowledged batch (`recover_complete`), and it is enough to rebuild
the table when everything else is lost (`log_alone`).
-/

namespace BypassIo.Db
open Octet Rust FileSystem Columns

variable {serde : Serde} {root : Path} {schema : Schema} {d d' : Disk} {t : Table}
  {log : List RowBatch} {k : Nat} {segs : Segments}

/-! ## Reading the log back -/

/-- The log file of an open table reads as one record for each batch, and reading changes
nothing. -/
theorem Handle.readRecords_exec (h : Handle serde root schema d t log k segs) :
    ∃ records, (readRecords (walPath root)).exec d = (.ok records, d) ∧
      List.Forall₂ Logged log records := by
  obtain ⟨bytes, held⟩ := Option.isSome_iff_exists.mp h.walFile
  obtain ⟨records, read, logged⟩ := h.holdsLog.readLog
  rw [walBytes, held, Option.getD_some] at read
  have opened : ((WalReader.openReader (walPath root)).mapErr TableError.wal).exec d =
      (.ok (walPath root), d) := by
    refine Query.exec_mapErr_eq_ok.mpr (Query.exec_bind_eq_ok.mpr ⟨(), d, ?_, rfl⟩)
    rw [Query.exec_io_eq_ok, Call.effect, held]
  refine ⟨records, ?_, logged⟩
  rw [readRecords, Query.exec_bind_ok opened]
  exact Query.exec_mapErr_eq_ok.mpr (records_exec_eq_ok.mpr ⟨rfl, bytes, [], held, read⟩)

theorem Handle.recoverRecords_exec (h : Handle serde root schema d t log k segs) :
    ∃ payloads, t.recoverRecords.exec d = (.ok payloads, d) ∧
      List.Forall₂ (fun b payload => encodeBatch b = .ok payload) log payloads ∧
      payloads.mapM (decodeBatch schema) = .ok log := by
  obtain ⟨records, read, logged⟩ := h.readRecords_exec
  have decoded := decode_of_logged h.holdsLog.wellFormed logged
  refine ⟨records.map WalRecord.payload, ?_, ?_, ?_⟩
  · rw [Table.recoverRecords, h.path, join_wal, Query.exec_bind_ok read]
    rfl
  · rw [List.forall₂_map_right_iff]
    exact logged.imp fun _ _ here => here.1
  · rw [List.mapM_map]
    exact decoded

theorem Handle.recoverBatches_exec (h : Handle serde root schema d t log k segs) :
    t.recoverBatches.exec d = (.ok log, d) := by
  obtain ⟨payloads, read, -, decoded⟩ := h.recoverRecords_exec
  rw [Table.recoverBatches, Query.exec_bind_ok read, h.schema_eq, decoded]
  rfl

/-- In every state, `recover_records` and `recover_batches` return every acknowledged batch, in
order and once, also those that are sealed and compacted, and change nothing. -/
theorem recover_complete (h : Life serde root schema d (some t) log) :
    t.recoverBatches.exec d = (.ok log, d) ∧
      ∃ payloads, t.recoverRecords.exec d = (.ok payloads, d) ∧
        List.Forall₂ (fun b payload => encodeBatch b = .ok payload) log payloads := by
  obtain ⟨segs, clean⟩ := h.inv
  obtain ⟨payloads, read, encoded, -⟩ := clean.handle.recoverRecords_exec
  exact ⟨clean.handle.recoverBatches_exec, payloads, read, encoded⟩

theorem recover_complete_ticks :
    ∃ d t, Life jsonSerde ["db"] tickSchema d (some t) [tick] ∧
      t.recoverBatches.exec d = (.ok [tick], d) := by
  obtain ⟨d, t, reach⟩ := tick_reopened jsonSerde ["db"]
  exact ⟨d, t, reach.life, (recover_complete reach.life).1⟩

/-! ## Everything else lost -/

theorem Life.holdsLog {s : Option Table} (h : Life serde root schema d s log) :
    HoldsLog root schema d log := by
  have inv := h.inv
  cases s with
  | none => exact inv.holdsLog
  | some t =>
    obtain ⟨segs, clean⟩ := inv
    exact clean.handle.holdsLog

/-- A disk with the log and no manifest opens as a table that has sealed nothing. -/
theorem HoldsLog.opens (serde : Serde) (h : HoldsLog root schema d log)
    (file : d.files (manifestPath root) = none) (dir : d.dirs (manifestPath root) = false) :
    ∃ t d', (Table.openTable serde root schema).exec d = (.ok t, d') ∧ t.manifest = .new ∧
      Clean serde root schema d' t log [] := by
  have none_sealed : Lists serde root schema d log .new [] :=
    ⟨rfl, by simp [AllStored], by simp, by simp, Nat.zero_le _,
      by simp [Segments.rows, logRows, Manifest.new]⟩
  exact Clean.opened h (.inr ⟨file, dir, rfl⟩) none_sealed

/-- Whatever becomes of the rest of the disk, the log file alone gives the table back: it opens
with nothing sealed and every acknowledged row active, and scans return the rows in the order
they were appended. -/
theorem log_alone {s : Option Table} (h : Life serde root schema d s log)
    (kept : d'.files (walPath root) = d.files (walPath root))
    (lost : d'.files (manifestPath root) = none ∧ d'.dirs (manifestPath root) = false) :
    ∃ t d'', (Table.openTable serde root schema).exec d' = (.ok t, d'') ∧ t.sealed = [] ∧
      t.active.rows = logRows log ∧ ∀ features start last, ∃ r,
        (t.scanTimeRange features start last).exec d'' = (.ok r, d'') ∧
        r.toBatch.WellFormed schema ∧
        r.toBatch.rows = (logRows log).filter (inTime schema start last) := by
  obtain ⟨t, d'', run, new, clean⟩ := (h.holdsLog.frame kept).opens serde lost.1 lost.2
  have active : t.active.rows = logRows log := by
    rw [clean.handle.activeOk.2, new]
    rfl
  refine ⟨t, d'', run, clean.handle.sealed, active, fun features start last => ?_⟩
  obtain ⟨r, scan, collected⟩ := clean.handle.readable.scanTimeRange features start last
  refine ⟨r, scan, collected.wellFormed, ?_⟩
  rw [collected.rows, active]
  rfl

/-- The log file of a disk and nothing else. -/
def onlyLog (root : Path) (d : Disk) : Disk where
  files q := if q = walPath root then d.files q else none
  dirs _ := false

/-- The flushed row comes back from a disk with nothing but the log. -/
theorem log_alone_ticks :
    ∃ d t d', Life jsonSerde ["db"] tickSchema d none [tick] ∧
      (Table.openTable jsonSerde ["db"] tickSchema).exec (onlyLog ["db"] d) = (.ok t, d') ∧
      t.active.rows = logRows [tick] := by
  obtain ⟨d, t, reach⟩ := tick_reopened jsonSerde ["db"]
  have kept : (onlyLog ["db"] d).files (walPath ["db"]) = d.files (walPath ["db"]) := by
    simp [onlyLog]
  have lost : (onlyLog ["db"] d).files (manifestPath ["db"]) = none ∧
      (onlyLog ["db"] d).dirs (manifestPath ["db"]) = false := by
    simp [onlyLog, walPath_ne_manifest.symm]
  obtain ⟨t', d', opened, -, rows, -⟩ := log_alone reach.life.dropped kept lost
  exact ⟨d, t', d', reach.life.dropped, opened, rows⟩

end BypassIo.Db
