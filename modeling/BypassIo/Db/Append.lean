import BypassIo.Db.Handle

/-!
# What an append does

`Appended` lists the ways in which `append` can end without a failing system call. A batch
whose append succeeds has the table's columns in the table's order, so its record replays.
-/

namespace BypassIo.Db
open Octet Rust FileSystem Columns

/-! ## The writer -/

/-- The result of `WalWriter::append`, the writer and the disk it leaves. -/
theorem WalWriter.append_exec (payload : Bytes) (w : WalWriter) (d : Disk) :
    (WalWriter.append payload).exec w d =
      match checkedAdd64 w.nextSeqNo 1 with
      | none => ((.error (.error .sequenceOverflow), w), d)
      | some next =>
        match WalRecord.encode ⟨w.nextSeqNo, payload⟩ with
        | .error e => ((.error (.error e), { w with nextSeqNo := next }), d)
        | .ok encoded =>
          match (Call.append w.path encoded).effect d with
          | (.ok (), d') => ((.ok w.nextSeqNo, { w with nextSeqNo := next }), d')
          | (.error e, d') =>
            ((.error (.error (.ofIo e)), { w with nextSeqNo := next }), d') := by
  unfold WalWriter.append
  rw [Method.exec_get_bind]
  cases checkedAdd64 w.nextSeqNo 1 with
  | none => rfl
  | some next =>
    dsimp only
    rw [Method.exec_set_bind]
    cases WalRecord.encode ⟨w.nextSeqNo, payload⟩ with
    | error e => rfl
    | ok encoded =>
      dsimp only
      rw [Method.exec_bind, Method.exec_query, Query.exec_io]
      obtain ⟨_ | ⟨⟩, d'⟩ := (Call.append w.path encoded).effect d <;> rfl

namespace Table

/-! ## The whole operation -/

/-- The handle with the record of sequence number `next - 1` taken. -/
def withSeqNo (t : Table) (next : UInt64) : Table := { t with wal := { t.wal with nextSeqNo := next } }

section Appended

variable (rows : RowBatch) (t : Table) (d : Disk)

/-- The checks before the log passed and gave this payload and next sequence number. -/
structure Admitted (payload : Bytes) (next : UInt64) : Prop where
  valid : validateBatchMatchesSchema t.schema rows = .ok ()
  encoded : encodeBatch rows = .ok payload
  next : checkedAdd64 t.wal.nextSeqNo 1 = some next

/-- The record of the payload has been added to the log. -/
def Written (payload : Bytes) (d' : Disk) : Prop :=
  ∃ x, d.files t.wal.path = some x ∧ payload.length ≤ u32Max ∧
    x.length + (WalRecord.frame ⟨t.wal.nextSeqNo, payload⟩).length ≤ maxFileLen ∧
    d' = d.setFile t.wal.path (some (x ++ WalRecord.frame ⟨t.wal.nextSeqNo, payload⟩))

/-- How `append` ends when no system call fails for an outer reason. -/
inductive Appended : Outcome TableError Nat → Table → Disk → Prop where
  /-- A check before the log failed. -/
  | rejected {e} : ¬ e.IsIo →
      (validateBatchMatchesSchema t.schema rows = .error e ∨
        validateBatchMatchesSchema t.schema rows = .ok () ∧
          (encodeBatch rows = .error e ∨
            (∃ payload, encodeBatch rows = .ok payload) ∧
              checkedAdd64 t.wal.nextSeqNo 1 = none ∧ e = .wal .sequenceOverflow)) →
      Appended (.error (.error e)) t d
  /-- The payload is too large for a record; the sequence number has moved. -/
  | tooLarge {payload next} : Admitted rows t payload next → u32Max < payload.length →
      Appended (.error (.error (.wal (.payloadTooLarge payload.length)))) (t.withSeqNo next) d
  /-- The record could not be written. -/
  | unwritten {payload next e} : Admitted rows t payload next → payload.length ≤ u32Max →
      (∀ d', ¬ Written t d payload d') →
      Appended (.error (.error (.wal (.io e)))) (t.withSeqNo next) d
  /-- The record is in the log, and the active batch refused the rows. -/
  | refused {payload next d' e active} : Admitted rows t payload next →
      Written t d payload d' → t.active.append rows = (.error e, active) →
      Appended (.error (.error (.batch e))) { t.withSeqNo next with active } d'
  | done {payload next d' active} : Admitted rows t payload next → Written t d payload d' →
      t.active.append rows = (.ok (), active) →
      Appended (.ok rows.rowCount) { t.withSeqNo next with active } d'

end Appended

theorem validateColumns_not_io {rows : RowBatch} {columns : List ColumnDef} {e : TableError}
    (h : validateColumns rows columns = .error e) : ¬ e.IsIo := by
  induction columns with
  | nil => cases h
  | cons column columns ih =>
    rw [validateColumns] at h
    split at h
    · cases h
      exact id
    · split at h
      · exact ih h
      · cases h
        exact id

theorem validate_not_io {schema : Schema} {rows : RowBatch} {e : TableError}
    (h : validateBatchMatchesSchema schema rows = .error e) : ¬ e.IsIo := by
  unfold validateBatchMatchesSchema at h
  split at h
  · cases h
    exact id
  · exact validateColumns_not_io h

theorem writeBytes_eq_error {bytes : Bytes} {e : TableError} (h : writeBytes bytes = .error e) :
    e = .payloadTooLarge bytes.length := by
  unfold writeBytes at h
  split at h <;> cases h
  rfl

/-- Encoding fails only on bytes that do not fit a length field. -/
theorem encodeBatch_eq_error {rows : RowBatch} {e : TableError} (h : encodeBatch rows = .error e) :
    ∃ len, e = .payloadTooLarge len := by
  rcases bind_eq_error.mp h with loop | ⟨columns, -, done⟩
  · obtain ⟨column, -, failed⟩ := mapM_eq_error loop
    rcases bind_eq_error.mp failed with name | ⟨name, -, failed⟩
    · exact ⟨_, writeBytes_eq_error name⟩
    · rcases bind_eq_error.mp failed with data | ⟨data, -, done⟩
      · cases hdata : column.2 <;> rw [hdata] at data
        · cases data
        · cases data
        · cases data
        · rcases bind_eq_error.mp data with values | ⟨written, -, done⟩
          · obtain ⟨value, -, failed⟩ := mapM_eq_error values
            exact ⟨_, writeBytes_eq_error failed⟩
          · cases done
      · cases done
  · cases done

theorem encodeBatch_not_io {rows : RowBatch} {e : TableError} (h : encodeBatch rows = .error e) :
    ¬ e.IsIo := by
  obtain ⟨len, rfl⟩ := encodeBatch_eq_error h
  exact id

/-- What the log's part of `append` leaves. -/
theorem append_effect (t : Table) (d : Disk) (payload : Bytes)
    (fits : payload.length ≤ u32Max) :
    (∃ d', (Call.append t.wal.path (WalRecord.frame ⟨t.wal.nextSeqNo, payload⟩)).effect d =
        (.ok (), d') ∧ Written t d payload d') ∨
      (∃ e, (Call.append t.wal.path (WalRecord.frame ⟨t.wal.nextSeqNo, payload⟩)).effect d =
        (.error e, d)) ∧ ∀ d', ¬ Written t d payload d' := by
  simp only [Call.effect, Written]
  cases held : d.files t.wal.path with
  | none => exact .inr ⟨⟨.notFound, rfl⟩, by simp⟩
  | some x =>
    by_cases size : x.length + (WalRecord.frame ⟨t.wal.nextSeqNo, payload⟩).length ≤ maxFileLen
    · exact .inl ⟨_, by simp only [if_pos size], x, rfl, fits, size, rfl⟩
    · refine .inr ⟨⟨.fileTooLarge, by simp only [if_neg size]⟩, ?_⟩
      rintro d' ⟨x', same, -, small, -⟩
      obtain rfl := Option.some.inj same
      exact size small

theorem appendActive_exec (rows : RowBatch) (t : Table) (d : Disk) :
    (appendActive rows).exec t d = match t.active.append rows with
      | (.ok (), active) => ((.ok (), { t with active }), d)
      | (.error e, active) => ((.error (.error (.batch e)), { t with active }), d) := by
  unfold appendActive
  rw [Method.exec_get_bind]
  rcases t.active.append rows with ⟨_ | ⟨⟩, active⟩ <;> rfl

/-- `append` ends in one of these ways. -/
theorem append_exec (rows : RowBatch) (t : Table) (d : Disk) :
    Appended rows t d ((append rows).exec t d).1.1 ((append rows).exec t d).1.2
      ((append rows).exec t d).2 := by
  unfold append
  rw [Method.exec_get_bind]
  cases valid : validateBatchMatchesSchema t.schema rows with
  | error e => exact .rejected (validate_not_io valid) (.inl valid)
  | ok u =>
    cases encoded : encodeBatch rows with
    | error e => exact .rejected (encodeBatch_not_io encoded) (.inr ⟨valid, .inl encoded⟩)
    | ok payload =>
      have logged := Method.exec_onField wal (fun wal t => { t with wal }) TableError.wal
        (WalWriter.append payload) t d
      rw [WalWriter.append_exec] at logged
      dsimp only
      cases next : checkedAdd64 t.wal.nextSeqNo 1 with
      | none =>
        rw [next] at logged
        rw [Method.exec_bind_error logged]
        exact .rejected id (.inr ⟨valid, .inr ⟨⟨_, encoded⟩, next, rfl⟩⟩)
      | some seq =>
        have admitted : Admitted rows t payload seq := ⟨valid, encoded, next⟩
        rw [next] at logged
        by_cases fits : payload.length ≤ u32Max
        swap
        · simp only [WalRecord.encode, if_neg fits] at logged
          rw [Method.exec_bind_error logged]
          exact .tooLarge admitted (Nat.lt_of_not_le fits)
        simp only [WalRecord.encode, if_pos fits] at logged
        rcases append_effect t d payload fits with ⟨d', done, written⟩ | ⟨⟨e, failed⟩, unwritten⟩
        · rw [done] at logged
          rw [Method.exec_bind_ok logged, Method.exec_bind, appendActive_exec]
          cases step : t.active.append rows with
          | mk result active =>
            cases result with
            | error e => exact .refused admitted written step
            | ok u => exact .done admitted written step
        · rw [failed] at logged
          rw [Method.exec_bind_error logged]
          exact .unwritten admitted fits unwritten

/-- An append leaves the manifest and the segments alone. -/
theorem append_keeps {rows : RowBatch} {t t' : Table} {d d' : Disk} {r : Outcome TableError Nat}
    (h : (append rows).exec t d = ((r, t'), d')) :
    t'.manifest = t.manifest ∧ t'.sealed = t.sealed := by
  have ended := append_exec rows t d
  rw [h] at ended
  cases ended <;> exact ⟨rfl, rfl⟩

/-- An append changes no file but the log. -/
theorem append_eqOff {rows : RowBatch} {t t' : Table} {d d' : Disk} {r : Outcome TableError Nat}
    (h : (append rows).exec t d = ((r, t'), d')) : d.EqOff (· = t.wal.path) d' := by
  have written : ∀ {payload d'}, Written t d payload d' → d.EqOff (· = t.wal.path) d' := by
    rintro payload d' ⟨x, -, -, -, rfl⟩
    exact Disk.EqOff.setFile (K := (· = t.wal.path)) rfl d _
  have ended := append_exec rows t d
  rw [h] at ended
  cases ended with
  | rejected | tooLarge | unwritten => exact .refl _ _
  | refused _ write | done _ write => exact written write

theorem append_frame {rows : RowBatch} {t t' : Table} {d d' : Disk} {r : Outcome TableError Nat}
    (h : (append rows).exec t d = ((r, t'), d')) (q : Path) (ne : q ≠ t.wal.path) :
    d'.files q = d.files q := (append_eqOff h).files q ne

end Table

/-! ## Batches that are accepted -/

/-- A batch that some builder made. -/
def Built (b : RowBatch) : Prop := ∃ builder : RowBatchBuilder, builder.build = .ok b

theorem Built.wellFormed {b : RowBatch} (h : Built b) : ∃ schema, b.WellFormed schema := by
  obtain ⟨builder, built⟩ := h
  exact ⟨builder.schema, RowBatchBuilder.build_wellFormed built⟩

theorem validateColumns_eq_ok {rows : RowBatch} {columns : List ColumnDef} :
    validateColumns rows columns = .ok () ↔ ∀ column ∈ columns, ∃ data,
      rows.column column.name = some data ∧ data.matchesDtype column.dtype := by
  induction columns with
  | nil => simp [validateColumns]
  | cons column columns ih =>
    rw [validateColumns, List.forall_mem_cons]
    cases found : rows.column column.name with
    | none => simp
    | some data =>
      by_cases type : data.matchesDtype column.dtype
      · simp [type, ih]
      · simp [type]

/-- What `validate_batch_matches_schema` accepts: the schema's columns in any order. -/
theorem validate_eq_ok {schema : Schema} {rows : RowBatch} :
    validateBatchMatchesSchema schema rows = .ok () ↔
      schema.columns.length = rows.columns.length ∧ ∀ column ∈ schema.columns, ∃ data,
        rows.column column.name = some data ∧ data.matchesDtype column.dtype := by
  unfold validateBatchMatchesSchema
  by_cases same : schema.columns.length = rows.columns.length
  · rw [if_neg (not_not.mpr same), validateColumns_eq_ok]
    simp [same]
  · simp [same]

/-- The positional loop accepts only the same names in the same order. -/
theorem names_of_appendColumns {left right both : List (String × ColumnData)}
    (same : left.length = right.length)
    (h : RowBatch.appendColumns left right = (.ok (), both)) :
    right.map (·.1) = left.map (·.1) := by
  induction left generalizing right both with
  | nil =>
    obtain rfl := List.length_eq_zero_iff.mp same.symm
    rfl
  | cons l left ih =>
    obtain _ | ⟨r, right⟩ := right
    · cases same
    · rw [RowBatch.appendColumns] at h
      split at h
      · cases h
      · rename_i name
        split at h
        · cases h
        · rename_i data _
          cases rest : RowBatch.appendColumns left right with
          | mk result columns =>
            rw [rest] at h
            obtain ⟨rfl, -⟩ := Prod.mk.inj h
            simp only [ne_eq, not_not] at name
            simp [name, ih (by simpa using same) rest]

theorem names_of_append {a b c : RowBatch} (h : a.append b = (.ok (), c)) :
    b.columns.map (·.1) = a.columns.map (·.1) := by
  unfold RowBatch.append at h
  split at h
  · cases h
  · rename_i same
    split at h
    · cases h
    · rename_i columns loop
      exact names_of_appendColumns (by simpa using same) loop

/-- The table's columns by name and in order make a batch of the table's schema. -/
theorem wellFormed_of_valid {schema other : Schema} {b : RowBatch} (made : b.WellFormed other)
    (valid : validateBatchMatchesSchema schema b = .ok ())
    (names : b.columns.map (·.1) = schema.names) : b.WellFormed schema := by
  obtain ⟨len, typed⟩ := validate_eq_ok.mp valid
  refine forall₂_of_getElem? len fun i column c hcolumn hc => ?_
  have lt : i < other.columns.length := by
    rw [← made.length_columns]
    exact (List.getElem?_eq_some_iff.mp hc).1
  obtain ⟨data, hdata, -, shape⟩ := made.getElem? (List.getElem?_eq_getElem lt)
  obtain rfl := Option.some.inj (hc.symm.trans hdata)
  have name : other.columns[i].name = column.name := by
    have same := congrArg (·[i]?) names
    simpa [hc, Schema.names, hcolumn] using same
  obtain ⟨found, hfound, type⟩ := typed column (List.mem_of_getElem? hcolumn)
  have unique : (b.columns.map (·.1)).Nodup := names ▸ schema.nodup_names
  have here := RowBatch.WellFormed.findSome?_of_nodup unique hc
  rw [name] at here
  obtain rfl := Option.some.inj (hfound.symm.trans here)
  exact ⟨name, type, shape.rowCount, shape.widths⟩

/-! ## The handle after an append -/

section Handle

variable {serde : Serde} {root : Path} {schema : Schema} {d d' : Disk} {log : List RowBatch}
  {t t' : Table} {k : Nat} {segs listed : Segments} {rows : RowBatch}

theorem Lists.extend {m : Manifest} (h : Lists serde root schema d log m segs)
    (more : List RowBatch) : Lists serde root schema d (log ++ more) m segs :=
  ⟨h.refs, h.holds.extend more⟩

theorem Synced.extend {m : Manifest} (h : Synced serde root schema d m log k segs)
    (more : List RowBatch) : Synced serde root schema d m (log ++ more) k segs :=
  ⟨h.lists.extend more, h.boundary⟩

theorem Lists.keep {m : Manifest} (h : Lists serde root schema d log m segs)
    (kept : ∀ id q c, InSegment root id q → d.files q = some c → d'.files q = some c) :
    Lists serde root schema d' log m segs := ⟨h.refs, h.holds.keep kept⟩

theorem Lists.frame {m : Manifest} (h : Lists serde root schema d log m segs)
    (same : ∀ id q, InSegment root id q → d'.files q = d.files q) :
    Lists serde root schema d' log m segs := ⟨h.refs, h.holds.frame fun _ _ => same _⟩

/-- Names in order are those of the schema. -/
theorem RowBatch.WellFormed.names_of_append {a c : RowBatch} (ok : a.WellFormed schema)
    (h : a.append rows = (.ok (), c)) : rows.columns.map (·.1) = schema.names :=
  (BypassIo.Db.names_of_append h).trans ok.names

namespace Handle

/-- The log after a record has been written. -/
theorem written (h : Handle serde root schema d t log k segs) {payload : Bytes}
    (ok : rows.WellFormed schema) (encoded : encodeBatch rows = .ok payload)
    (write : Table.Written t d payload d') : HoldsLog root schema d' (log ++ [rows]) := by
  obtain ⟨x, held, fits, size, rfl⟩ := write
  rw [h.wal] at held size ⊢
  obtain ⟨records, logged, bytes⟩ := h.holdsLog.records
  obtain rfl : x = frames records := by rw [← bytes, walBytes, held, Option.getD_some]
  have now : walBytes root (d.setFile (walPath root) (some (frames records ++
      WalRecord.frame ⟨UInt64.ofNat log.length, payload⟩))) =
      frames (records ++ [⟨UInt64.ofNat log.length, payload⟩]) := by
    simp [walBytes]
  refine ⟨?_, ⟨_, ?_, now⟩, ?_⟩
  · intro b hb
    rcases List.mem_append.mp hb with old | new
    · exact h.holdsLog.wellFormed b old
    · obtain rfl := List.mem_singleton.mp new
      exact ok
  · exact List.rel_append logged (.cons ⟨encoded, fits⟩ .nil)
  · rw [now]
    simpa using size

/-- The handle after a successful append. -/
theorem appended (h : Handle serde root schema d t log k segs) {next : UInt64} {payload : Bytes}
    {active : RowBatch} (ok : rows.WellFormed schema)
    (admitted : Table.Admitted rows t payload next) (write : Table.Written t d payload d')
    (step : t.active.append rows = (.ok (), active)) :
    Handle serde root schema d' { t.withSeqNo next with active } (log ++ [rows]) k segs := by
  have holdsLog := h.written ok admitted.encoded write
  obtain ⟨x, held, -, -, rfl⟩ := write
  have walAt : t.wal.path = walPath root := congrArg WalWriter.path h.wal
  rw [walAt] at holdsLog ⊢
  have segments : ∀ id q, InSegment root id q → (d.setFile (walPath root) (some (x ++
      WalRecord.frame ⟨t.wal.nextSeqNo, payload⟩))).files q = d.files q := by
    rintro id q hq
    exact Disk.setFile_files_of_ne _ _ fun same => walPath_not_inSegment id (same ▸ hq)
  obtain ⟨m, listed, saved, lists, le⟩ := h.saved
  exact
    { path := h.path
      schema_eq := h.schema_eq
      rootDir := h.rootDir
      walFile := by simp
      holdsLog := holdsLog
      saved := ⟨m, listed, saved.frame (Disk.setFile_files_of_ne _ _ walPath_ne_manifest.symm),
        (lists.frame segments).extend _, le⟩
      wal := by
        obtain ⟨-, rfl⟩ := checkedAdd64_eq_some.mp admitted.next
        simp [Table.withSeqNo, h.wal]
      sealed := h.sealed
      holds := (h.holds.frame fun s _ => segments s.1.id).extend _
      active := by
        rw [List.drop_append_of_le_length h.holds.boundary, RowBatch.appendAll_append _ h.active]
        simp [RowBatch.appendAll, step] }

/-- A successful append of a batch that some builder made. -/
theorem append (h : Handle serde root schema d t log k segs) {n : Nat} (built : Built rows)
    (run : (Table.append rows).exec t d = ((.ok n, t'), d')) :
    Handle serde root schema d' t' (log ++ [rows]) k segs := by
  obtain ⟨other, made⟩ := built.wellFormed
  have ended := Table.append_exec rows t d
  rw [run] at ended
  obtain _ | _ | _ | _ | ⟨admitted, written, step⟩ := ended
  have names := h.activeOk.1.names_of_append step
  exact h.appended (wellFormed_of_valid made (h.schema_eq ▸ admitted.valid) names) admitted
    written step

end Handle

end Handle

end BypassIo.Db
