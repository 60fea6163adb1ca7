import BypassIo.Db.Faults

/-!
# Schemas that can be flushed

`ColumnDef::new` takes any name but the empty one, and `seal_batch` makes a file name of it. A
table takes appends under every name, and can flush them only where all names are file names.

## Main results

* `append_failsAs`, `flush_failsAs`: a failed call is the only error that calls add.
* `Handle.append_fine_iff`, `Handle.flush_done_iff`: when a batch is accepted, and when its rows
  can be flushed.
* `flushes_iff`: which batches are accepted and can be flushed.
-/

namespace BypassIo.Db
open Octet Rust FileSystem Columns

variable {serde : Serde} {root : Path} {schema : Schema} {d d' : Disk} {log : List RowBatch}
  {t t' : Table} {k : Nat} {segs : Segments} {b : RowBatch} {may : Call → Prop}

/-! ## Errors of failed calls -/

theorem wal_failsAs {α : Type} {p : Query WalError α}
    (h : p.FailsAs fun e => ∃ text, e = .io text) : (p.mapErr TableError.wal).FailsAs TableError.IsIo := by
  refine h.mapErr ?_
  rintro _ ⟨text, rfl⟩
  trivial

theorem tableIo_failsAs (c : Call) : (Query.io TableError.ofIo c).FailsAs TableError.IsIo :=
  Query.failsAs_io (fun _ => trivial) c

theorem walIo_failsAs (c : Call) : (Query.io WalError.ofIo c).FailsAs fun e => ∃ text, e = .io text :=
  Query.failsAs_io (fun _ => ⟨_, rfl⟩) c

theorem readRecords_failsAs (path : Path) : (readRecords path).FailsAs TableError.IsIo := by
  refine (wal_failsAs ?_).bind fun reader => wal_failsAs ?_
  · exact (walIo_failsAs _).bind fun _ => Query.failsAs_pure _
  · exact (walIo_failsAs _).bind fun _ => (walIo_failsAs _).bind fun bytes =>
      (Query.failsAs_pureStep _).bind fun _ => Query.failsAs_pure _

theorem store_failsAs (m : Manifest) : (m.store serde root).FailsAs TableError.IsIo :=
  (Query.failsAs_pureStep _).bind fun _ => (tableIo_failsAs _).bind fun _ => tableIo_failsAs _

theorem sealColumn_failsAs (dir : Path) (column : ColumnDef) :
    (sealColumn dir b column).FailsAs TableError.IsIo :=
  (Query.failsAs_pureStep _).bind fun _ => (Query.failsAs_pureStep _).bind fun _ =>
    Query.FailsAs.bind ((Query.failsAs_pureStep _).bind fun _ => tableIo_failsAs _) fun _ =>
      Query.failsAs_pure _

theorem sealBatch_failsAs (id : UInt64) : (sealBatch serde root schema id b).FailsAs TableError.IsIo := by
  refine (tableIo_failsAs _).bind fun _ => (Query.failsAs_pureStep _).bind fun timestamps => ?_
  refine (Query.failsAs_mapM (sealColumn_failsAs _) _).bind fun columns => ?_
  refine Query.FailsAs.bind ?_ fun _ => Query.failsAs_pure _
  exact (Query.failsAs_pureStep _).bind fun _ => tableIo_failsAs _

namespace Table

theorem append_failsAs (rows : RowBatch) : (append rows).FailsAs TableError.IsIo := by
  refine Method.failsAs_get.bind fun t => ?_
  split
  · exact Method.failsAs_throw _
  split
  · exact Method.failsAs_throw _
  have logged : ∀ payload, (WalWriter.append payload).FailsAs fun e => ∃ text, e = .io text := by
    intro payload
    refine Method.failsAs_get.bind fun w => ?_
    split
    · exact Method.failsAs_throw _
    refine (Method.failsAs_set _).bind fun _ => ?_
    split
    · exact Method.failsAs_throw _
    · exact (Method.failsAs_query (walIo_failsAs _)).bind fun _ => Method.failsAs_pure _
  refine Method.FailsAs.bind ((logged _).onField ?_) fun _ => ?_
  · rintro _ ⟨text, rfl⟩
    trivial
  refine Method.FailsAs.bind ?_ fun _ => Method.failsAs_pure _
  refine Method.failsAs_get.bind fun t => ?_
  split
  · exact Method.failsAs_set _
  · exact (Method.failsAs_set _).bind fun _ => Method.failsAs_throw _

theorem flush_failsAs : (flush serde).FailsAs TableError.IsIo := by
  refine Method.failsAs_get.bind fun t => ?_
  refine (Method.failsAs_query (wal_failsAs (walIo_failsAs _))).bind fun _ => ?_
  split
  · exact Method.failsAs_pure _
  refine (Method.failsAs_query (sealBatch_failsAs _)).bind fun segment => ?_
  refine Method.FailsAs.bind ?_ fun _ => (Method.failsAs_modify _).bind fun _ => ?_
  · refine Method.failsAs_get.bind fun t => ?_
    split
    · exact Method.failsAs_throw _
    · exact Method.failsAs_set _
  refine (Method.failsAs_query (readRecords_failsAs _)).bind fun records => (Method.failsAs_modify _).bind fun _ => ?_
  refine Method.FailsAs.bind ?_ fun _ => Method.failsAs_modify _
  exact Method.failsAs_get.bind fun t => Method.failsAs_query (store_failsAs _)

end Table

/-! ## What a table accepts -/

/-- The call has returned a value, or the error of a failed system call. -/
def Fine {α : Type} (r : Outcome TableError α) : Prop := (∃ a, r = .ok a) ∨ IsError TableError.IsIo r

theorem fine_ok {α : Type} (a : α) : Fine (.ok a) := .inl ⟨a, rfl⟩

theorem fine_error {α : Type} {e : TableError} :
    Fine (.error (.error e) : Outcome TableError α) ↔ e.IsIo := by
  simp [Fine, IsError]

namespace Handle

theorem length_log_le (h : Handle serde root schema d t log k segs) : log.length ≤ maxFileLen := by
  obtain ⟨records, logged, bytes⟩ := h.holdsLog.records
  have size := h.holdsLog.size
  rw [bytes] at size
  rw [logged.length_eq]
  exact (length_le_frames records).trans size

/-- The sequence numbers do not run out before the log is full. -/
theorem next_seqNo (h : Handle serde root schema d t log k segs) :
    checkedAdd64 t.wal.nextSeqNo 1 = some (t.wal.nextSeqNo + 1) := by
  have few := h.length_log_le
  unfold maxFileLen at few
  have here : t.wal.nextSeqNo.toNat = log.length := by
    rw [h.wal]
    exact UInt64.toNat_ofNat_of_lt' (by simp [UInt64.size]; omega)
  refine checkedAdd64_eq_some.mpr ⟨?_, rfl⟩
  rw [here, UInt64.toNat_one]
  omega

/-- A batch of the schema is refused only for a length that does not fit its field. -/
theorem append_fine_iff (h : Handle serde root schema d t log k segs) (ok : b.WellFormed schema) :
    Fine ((Table.append b).exec t d).1.1 ↔ b.Encodable ∧ b.payloadLen ≤ u32Max := by
  have lengths : ∀ {payload next}, Table.Admitted b t payload next →
      b.Encodable ∧ payload.length = b.payloadLen := fun admitted =>
    ⟨encodeBatch_ok_iff.mp ⟨_, admitted.encoded⟩, length_encodeBatch admitted.encoded⟩
  have seq := h.next_seqNo
  have ended := Table.append_exec b t d
  generalize (Table.append b).exec t d = outcome at ended ⊢
  obtain ⟨⟨r, t'⟩, d'⟩ := outcome
  cases ended with
  | rejected notIo why =>
    refine iff_of_false (fun fine => notIo (fine_error.mp fine)) ?_
    rintro ⟨encodable, -⟩
    rcases why with invalid | ⟨-, unencoded | ⟨-, overflow, -⟩⟩
    · have valid := validate_of_wellFormed ok
      rw [← h.schema_eq] at valid
      cases valid.symm.trans invalid
    · obtain ⟨payload, encoded⟩ := encodeBatch_ok_iff.mpr encodable
      cases encoded.symm.trans unencoded
    · rw [seq] at overflow
      cases overflow
  | tooLarge admitted large =>
    have size := (lengths admitted).2
    refine iff_of_false (fun fine => ?_) (by omega)
    exact fine_error.mp fine
  | unwritten admitted fits =>
    obtain ⟨encodable, size⟩ := lengths admitted
    exact iff_of_true (fine_error.mpr trivial) ⟨encodable, size ▸ fits⟩
  | refused admitted write step =>
    obtain ⟨active, accepted⟩ := h.active_accepts ok (h.written ok admitted.encoded write)
    cases (Prod.mk.inj (step.symm.trans accepted)).1
  | done admitted write =>
    obtain ⟨encodable, size⟩ := lengths admitted
    obtain ⟨x, -, fits, -⟩ := write
    exact iff_of_true (fine_ok _) ⟨encodable, size ▸ fits⟩

/-- The log has grown by the record. -/
theorem append_room (h : Handle serde root schema d t log k segs) {n : Nat}
    (run : (Table.append b).exec t d = ((.ok n, t'), d')) :
    (walBytes root d).length + headerLen + b.payloadLen + trailerLen ≤ maxFileLen := by
  have ended := Table.append_exec b t d
  rw [run] at ended
  obtain _ | _ | _ | _ | ⟨admitted, ⟨x, held, -, room, -⟩, -⟩ := ended
  rw [congrArg WalWriter.path h.wal] at held
  rw [WalRecord.length_frame] at room
  rw [walBytes, held, ← length_encodeBatch admitted.encoded, Option.getD_some]
  dsimp only at room
  omega

/-- After an append some row is active. -/
theorem active_of_append (h : Handle serde root schema d' t' (log ++ [b]) k segs)
    (boundary : k ≤ log.length) (some_row : b.rowCount ≠ 0) : t'.active.rowCount ≠ 0 := by
  rw [h.rowCount_active, List.drop_append_of_le_length boundary]
  simp [some_row]

end Handle

/-! ## What a table can flush -/

theorem sealColumn_named {dir : Path} {column : ColumnDef} {cm : ColumnMeta}
    (run : (sealColumn dir b column).exec d = (.ok cm, d')) :
    '\x00' ∉ column.name.toList ∧ ∃ file, columnFileName column.name = .ok file := by
  obtain ⟨file, named, rest⟩ := Query.exec_pureStep_bind_eq_ok.mp run
  have named := ofResult_eq_ok.mp named
  obtain ⟨data, -, rest⟩ := Query.exec_pureStep_bind_eq_ok.mp rest
  obtain ⟨⟨⟩, d₁, written, -⟩ := Query.exec_bind_eq_ok.mp rest
  obtain ⟨out, -, written⟩ := Query.exec_pureStep_bind_eq_ok.mp written
  obtain ⟨⟨nul, -⟩, -⟩ := Query.exec_write_eq_ok.mp written
  refine ⟨fun mem => ?_, file, named⟩
  rw [(hasNul_columnFile named).mpr mem] at nul
  cases nul

/-- A sealed batch has its columns in files. -/
theorem sealBatch_named {id : UInt64} {segment : ImmutableSegment}
    (run : (sealBatch serde root schema id b).exec d = (.ok segment, d')) : schema.Nameable := by
  obtain ⟨⟨⟩, d₁, -, rest⟩ := Query.exec_bind_eq_ok.mp run
  obtain ⟨timestamps, -, rest⟩ := Query.exec_pureStep_bind_eq_ok.mp rest
  obtain ⟨cms, d₂, loop, -⟩ := Query.exec_bind_eq_ok.mp rest
  intro column hc
  obtain ⟨cm, d₃, d₄, turn⟩ := Query.exec_mapM_eq_ok_mem loop hc
  exact sealColumn_named turn

/-- A flush of some rows has sealed them. -/
theorem Table.flush_seals (some_row : t.active.rowCount ≠ 0)
    (run : (Table.flush serde).exec t d = ((.ok (), t'), d')) :
    ∃ segment d₁, (sealBatch serde t.path t.schema t.manifest.nextSegmentId t.active).exec d =
      (.ok segment, d₁) := by
  have synced : (Method.query (t.wal.sync.mapErr TableError.wal) : Method Table TableError Unit).exec
      t d = ((.ok (), t), d) := rfl
  unfold Table.flush at run
  rw [Method.exec_get_bind, Method.exec_bind_ok synced, if_neg some_row, Method.exec_bind,
    Method.exec_query] at run
  cases sealed : (sealBatch serde t.path t.schema t.manifest.nextSegmentId t.active).exec d with
  | mk r d₁ =>
    cases r with
    | ok segment => exact ⟨segment, d₁, rfl⟩
    | error e =>
      rw [sealed] at run
      cases run

/-- Active rows are flushed exactly where the names make file names and an id is left. -/
theorem Handle.flush_done_iff (h : Handle serde root schema d t log k segs)
    (some_row : t.active.rowCount ≠ 0) :
    (∃ t' d', (Table.flush serde).exec t d = ((.ok (), t'), d')) ↔
      schema.Nameable ∧ t.manifest.nextSegmentId.toNat + 1 < 2 ^ 64 := by
  constructor
  · rintro ⟨t', d', run⟩
    obtain ⟨segment, d₁, sealed⟩ := Table.flush_seals some_row run
    rw [h.schema_eq] at sealed
    refine ⟨sealBatch_named sealed, ?_⟩
    have ended := Method.wp_exec (h.flush_wp NoFaults)
    rw [run] at ended
    obtain idle | _ | _ | _ | ⟨-, -, new, -⟩ := ended
    · exact absurd idle some_row
    · exact new.room
  · rintro ⟨names, room⟩
    exact h.flush_succeeds names room

/-! ## Batches that are accepted and flushed -/

/-- Whatever calls fail, the batch is accepted, and after it the rows are flushed. -/
structure Flushes (serde : Serde) (d : Disk) (t : Table) (b : RowBatch) : Prop where
  accepted : ∀ may r t' d', (Table.append b).Runs may t d r t' d' → Fine r
  flushed : ∀ may n t' d', (Table.append b).Runs may t d (.ok n) t' d' →
    (∃ t'' d'', (Table.flush serde).exec t' d' = ((.ok (), t''), d'')) ∧
      ∀ may r t'' d'', (Table.flush serde).Runs may t' d' r t'' d'' → Fine r

/-- Every length fits its field. Unless the log file can grow no more, every column name makes a
file name, and a segment id is left. -/
def Flushable (root : Path) (d : Disk) (t : Table) (b : RowBatch) : Prop :=
  b.Encodable ∧ b.payloadLen ≤ u32Max ∧
    (maxFileLen < (walBytes root d).length + headerLen + b.payloadLen + trailerLen ∨
      t.schema.Nameable ∧ t.manifest.nextSegmentId.toNat + 1 < 2 ^ 64)

/-- A run ends well when its execution does. -/
theorem fine_of_exec {α : Type} {p : Method Table TableError α} (fails : p.FailsAs TableError.IsIo)
    {r : Outcome TableError α} (fine : Fine (p.exec t d).1.1) (run : p.Runs may t d r t' d') :
    Fine r := by
  obtain same | bad := fails.runs run
  · rwa [same] at fine
  · exact .inr bad

theorem Handle.flushes_iff_flushable (h : Handle serde root schema d t log k segs) (ok : b.WellFormed schema)
    (some_row : b.rowCount ≠ 0) : Flushes serde d t b ↔ Flushable root d t b := by
  have after : ∀ {n t' d'}, (Table.append b).exec t d = ((.ok n, t'), d') →
      ((∃ t'' d'', (Table.flush serde).exec t' d' = ((.ok (), t''), d'')) ↔
        t.schema.Nameable ∧ t.manifest.nextSegmentId.toNat + 1 < 2 ^ 64) := by
    intro n t' d' run
    have handle := h.append ⟨_, RowBatchBuilder.build_of_wellFormed ok⟩ run
    rw [handle.flush_done_iff (handle.active_of_append h.holds.boundary some_row),
      (Table.append_keeps run).1, h.schema_eq]
  constructor
  · intro flushes
    have fine := flushes.accepted NoFaults _ _ _ (Method.runs_of_exec rfl)
    obtain ⟨encodable, small⟩ := (h.append_fine_iff ok).mp fine
    refine ⟨encodable, small, (Nat.lt_or_ge _ _).imp_right fun room => ?_⟩
    obtain ⟨payload, encoded⟩ := encodeBatch_ok_iff.mpr encodable
    rw [← length_encodeBatch encoded] at small room
    have few := h.length_log_le
    unfold maxFileLen at few
    obtain ⟨t', d', run⟩ := h.append_succeeds ok encoded small (by omega) room
    exact (after run).mp (flushes.flushed NoFaults _ _ _ (Method.runs_of_exec run)).1
  · rintro ⟨encodable, small, room⟩
    have fine := (h.append_fine_iff ok).mpr ⟨encodable, small⟩
    refine ⟨fun may r t' d' => fine_of_exec (Table.append_failsAs b) fine, ?_⟩
    intro may n t' d' run
    obtain same | ⟨e, failed, -⟩ := (Table.append_failsAs b).runs run
    · have named := room.resolve_left (Nat.not_lt.mpr (h.append_room same))
      obtain ⟨t'', d'', flushed⟩ := (after same).mpr named
      refine ⟨⟨t'', d'', flushed⟩, fun may r u e => fine_of_exec Table.flush_failsAs ?_⟩
      rw [flushed]
      exact fine_ok _
    · cases failed

/-- Which batches a table accepts and can flush, after any run of safe operations in which the
calls of `flush` and `compact` may have failed. -/
theorem flushes_iff (h : Faulty serde root schema Safe d t log) (ok : b.WellFormed schema)
    (some_row : b.rowCount ≠ 0) : Flushes serde d t b ↔ Flushable root d t b := by
  obtain ⟨k, segs, handle, -⟩ := h.inv
  exact handle.flushes_iff_flushable ok some_row

theorem flushes_iff_ticks : ∃ d t, Faulty jsonSerde ["db"] tickSchema Safe d t [] ∧
    Flushes jsonSerde d t tick := by
  obtain ⟨t, d, opened, new, clean⟩ := (emptyDisk_fresh ["db"]).opens jsonSerde tickSchema
  have faulty : Faulty jsonSerde ["db"] tickSchema Safe d t [] := .opened (emptyDisk_fresh _) opened
  have flushable : Flushable ["db"] d t tick := by
    refine ⟨?_, by decide, .inr ⟨?_, by rw [new]; decide⟩⟩
    · simp only [RowBatch.Encodable, tick, ColumnData.Encodable, List.mem_singleton, forall_eq]
      decide
    · rw [clean.handle.schema_eq]
      exact tickSchema_nameable
  exact ⟨d, t, faulty, (flushes_iff faulty tick_wellFormed (by decide)).mpr flushable⟩

/-- A table whose only column has a slash in its name. -/
def slashSchema : Schema where
  name := "slashes"
  columns := [⟨"t/s", .timestamp, by decide, tsColumn.width_ne⟩]
  timestampColumnIdx := 0
  name_ne := by decide
  nodup := by decide
  only_timestamp := .of_types (by decide) (by decide)

def slashTick : RowBatch := ⟨[("t/s", .timestamp [7])], 1⟩

theorem slashTick_wellFormed : slashTick.WellFormed slashSchema :=
  RowBatchBuilder.build_wellFormed (b := ⟨slashSchema, slashTick.columns⟩) rfl

/-- The new table accepts a row and cannot flush it. -/
theorem slash_never_flushes :
    ¬ ∀ (serde : Serde) (root : Path) (schema : Schema) (d : Disk) (t : Table)
      (log : List RowBatch) (b : RowBatch), Reach serde root schema d t log →
      b.WellFormed schema → b.rowCount ≠ 0 → Flushes serde d t b := by
  intro all
  obtain ⟨t, d, opened, new, clean⟩ := (emptyDisk_fresh ["db"]).opens jsonSerde slashSchema
  have reach : Reach jsonSerde ["db"] slashSchema d t [] := .opened (emptyDisk_fresh _) opened
  have flushes := all _ _ _ d t [] slashTick reach slashTick_wellFormed (by decide)
  obtain ⟨-, -, full | ⟨names, -⟩⟩ :=
    (clean.handle.flushes_iff_flushable slashTick_wellFormed (by decide)).mp flushes
  · obtain ⟨records, logged, bytes⟩ := clean.handle.holdsLog.records
    cases logged
    rw [bytes] at full
    exact absurd full (by decide)
  · rw [clean.handle.schema_eq] at names
    obtain ⟨-, file, named⟩ := names _ List.mem_cons_self
    rw [columnFileName, if_pos (by decide)] at named
    cases named

end BypassIo.Db
