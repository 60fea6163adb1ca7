import BypassIo.Db.Reopen

/-!
# Appends that fail

`validate_batch_matches_schema` looks columns up by name; `RowBatch::append` and the decoder
go by position. A batch with the schema's columns in another order passes the first check,
is written to the log and is refused by the second. `append_all_or_nothing` shows that this
order, a payload too large for a record, and an overflowing row count are the only inputs on
which an append is neither done nor without effect.
-/

namespace BypassIo.Db
open Octet Rust FileSystem Columns

/-- An append that is done or has no effect. -/
structure AllOrNothing (serde : Serde) (root : Path) (schema : Schema) (d : Disk) (t : Table)
    (b : RowBatch) : Prop where
  /-- After an error that no system call caused, nothing has changed. -/
  failed : ∀ e t' d', (Table.append b).exec t d = ((.error (.error e), t'), d') → ¬ e.IsIo →
    walBytes root d' = walBytes root d ∧ t'.wal.nextSeqNo = t.wal.nextSeqNo ∧ t'.active = t.active
  /-- The record of an appended batch decodes, and opening the table again replays it. -/
  done : ∀ n t' d', (Table.append b).exec t d = ((.ok n, t'), d') →
    ∃ payload, walBytes root d' = walBytes root d ++ WalRecord.frame ⟨t.wal.nextSeqNo, payload⟩ ∧
      decodeBatch schema payload = .ok b ∧
      ∃ t'' d'', (Table.openTable serde root schema).exec d' = (.ok t'', d'') ∧
        t''.active = t'.active
  /-- What the check accepts, the active batch accepts. -/
  accepted : validateBatchMatchesSchema schema b = .ok () →
    ∃ active, t.active.append b = (.ok (), active)

/-- A batch that passes the check has its columns in the order of the schema, adds to the rows
without overflow, and is not both writable and too large for a record. -/
def AppendSafe (t : Table) (b : RowBatch) : Prop :=
  validateBatchMatchesSchema t.schema b = .ok () →
    b.columns.map (·.1) = t.schema.names ∧ t.active.rowCount + b.rowCount ≤ usizeMax ∧
      ¬ (b.Encodable ∧ u32Max < b.payloadLen ∧ t.wal.nextSeqNo.toNat + 1 < 2 ^ 64)

/-! ## Runs in which appends may fail -/

section Relation

variable (serde : Serde) (root : Path) (schema : Schema)

/-- A run whose appends are safe; they may fail for any reason but a system call. -/
inductive Tried : Disk → Table → List RowBatch → Prop where
  | opened {d d' t} : Fresh root d →
      (Table.openTable serde root schema).exec d = (.ok t, d') → Tried d' t []
  | append {d d' t t' log b n} : Tried d t log → Built b → AppendSafe t b →
      (Table.append b).exec t d = ((.ok n, t'), d') → Tried d' t' (log ++ [b])
  | failedAppend {d d' t t' log b e} : Tried d t log → Built b → AppendSafe t b →
      (Table.append b).exec t d = ((.error (.error e), t'), d') → ¬ e.IsIo → Tried d' t' log
  | flush {d d' t t' log} : Tried d t log →
      (Table.flush serde).exec t d = ((.ok (), t'), d') → Tried d' t' log
  | compact {d d' t t' log} (ids : List UInt64) : Tried d t log →
      (Table.compact serde ids).exec t d = ((.ok (), t'), d') → Tried d' t' log
  | reopened {d d' t t' log} : Tried d t log →
      (Table.openTable serde root schema).exec d = (.ok t', d') → Tried d' t' log

end Relation

variable {serde : Serde} {root : Path} {schema : Schema} {d d' : Disk} {t t' : Table}
  {log : List RowBatch} {segs : Segments} {b : RowBatch}

namespace Clean

/-- A batch that passed the check and has its columns in order is well formed. -/
theorem wellFormed_of_names (h : Clean serde root schema d t log segs) (built : Built b)
    (valid : validateBatchMatchesSchema t.schema b = .ok ())
    (names : b.columns.map (·.1) = t.schema.names) : b.WellFormed schema := by
  obtain ⟨other, made⟩ := built.wellFormed
  rw [h.handle.schema_eq] at valid names
  exact wellFormed_of_valid made valid names

/-- A safe append that fails for an inner reason leaves table and disk as they were. -/
theorem failed_append (h : Clean serde root schema d t log segs) (built : Built b)
    (safe : AppendSafe t b) {e : TableError}
    (run : (Table.append b).exec t d = ((.error (.error e), t'), d')) (inner : ¬ e.IsIo) :
    t' = t ∧ d' = d := by
  have ended := Table.append_exec b t d
  rw [run] at ended
  cases ended with
  | rejected => exact ⟨rfl, rfl⟩
  | tooLarge admitted large =>
    obtain ⟨-, -, small⟩ := safe admitted.valid
    refine absurd ⟨?_, ?_, (checkedAdd64_eq_some.mp admitted.next).1⟩ small
    · exact encodeBatch_ok_iff.mp ⟨_, admitted.encoded⟩
    · rwa [← length_encodeBatch admitted.encoded]
  | unwritten => exact absurd trivial inner
  | refused admitted _ step =>
    obtain ⟨names, room, -⟩ := safe admitted.valid
    have ok := h.wellFormed_of_names built admitted.valid names
    obtain ⟨active, fine, -⟩ := h.handle.activeOk.1.append ok room
    cases (Prod.mk.inj (step.symm.trans fine)).1

end Clean

theorem Tried.clean (h : Tried serde root schema d t log) :
    ∃ segs, Clean serde root schema d t log segs := by
  induction h with
  | opened fresh run =>
    obtain ⟨t, d', exec, -, clean⟩ := fresh.opens serde schema
    obtain ⟨rfl, rfl⟩ : t = _ ∧ d' = _ := by simpa using exec.symm.trans run
    exact ⟨[], clean⟩
  | append _ built _ run ih =>
    obtain ⟨segs, clean⟩ := ih
    exact ⟨segs, clean.append built run⟩
  | failedAppend _ built safe run inner ih =>
    obtain ⟨segs, clean⟩ := ih
    obtain ⟨rfl, rfl⟩ := clean.failed_append built safe run inner
    exact ⟨segs, clean⟩
  | flush _ run ih =>
    obtain ⟨segs, clean⟩ := ih
    exact clean.flush run
  | compact ids _ run ih =>
    obtain ⟨segs, clean⟩ := ih
    exact clean.compact run
  | reopened _ run ih =>
    obtain ⟨segs, clean⟩ := ih
    obtain ⟨t, d', exec, -, opened⟩ :=
      Clean.opened clean.handle.holdsLog (.inl clean.saved) clean.lists
    obtain ⟨rfl, rfl⟩ : t = _ ∧ d' = _ := by simpa using exec.symm.trans run
    exact ⟨segs, opened⟩

/-! ## Safe appends -/

/-- A safe append is all or nothing. -/
theorem Clean.allOrNothing (h : Clean serde root schema d t log segs) (built : Built b)
    (safe : AppendSafe t b) : AllOrNothing serde root schema d t b where
  failed e t' d' run inner := by
    obtain ⟨rfl, rfl⟩ := h.failed_append built safe run inner
    exact ⟨rfl, rfl, rfl⟩
  done n t' d' run := by
    have after := h.append built run
    obtain ⟨t'', d'', opened, same, again⟩ :=
      Clean.opened after.handle.holdsLog (.inl after.saved) after.lists
    have ended := Table.append_exec b t d
    rw [run] at ended
    obtain _ | _ | _ | _ | ⟨admitted, ⟨x, held, fits, -, rfl⟩, step⟩ := ended
    rename_i payload next active
    have names := h.handle.activeOk.1.names_of_append step
    have ok := h.wellFormed_of_names built admitted.valid (by rw [names, h.handle.schema_eq])
    refine ⟨payload, ?_, decodeBatch_encodeBatch ok admitted.encoded fits, t'', d'', opened,
      by rw [after.unique again same]⟩
    have walAt : t.wal.path = walPath root := congrArg WalWriter.path h.handle.wal
    rw [walAt] at held ⊢
    simp [walBytes, held]
  accepted valid := by
    rw [← h.handle.schema_eq] at valid
    obtain ⟨names, room, -⟩ := safe valid
    obtain ⟨active, fine, -⟩ :=
      h.handle.activeOk.1.append (h.wellFormed_of_names built valid names) room
    exact ⟨active, fine⟩

/-- Rows that the active batch accepts do not overflow its count. -/
theorem room_of_append {a b c : RowBatch} (h : a.append b = (.ok (), c)) :
    a.rowCount + b.rowCount ≤ usizeMax := by
  unfold RowBatch.append at h
  split at h
  · cases h
  · split at h
    · cases h
    · split at h
      · cases h
      · rename_i found
        exact (checkedAdd_eq_some.mp found).1

/-- An append to a table that only safe appends have touched is all or nothing exactly when it
is safe. -/
theorem append_all_or_nothing (h : Tried serde root schema d t log) (built : Built b) :
    AllOrNothing serde root schema d t b ↔ AppendSafe t b := by
  obtain ⟨segs, clean⟩ := h.clean
  refine ⟨fun whole valid => ?_, clean.allOrNothing built⟩
  obtain ⟨active, fine⟩ := whole.accepted (by rwa [← clean.handle.schema_eq])
  have names := clean.handle.activeOk.1.names_of_append fine
  rw [← clean.handle.schema_eq] at names
  refine ⟨names, room_of_append fine, ?_⟩
  rintro ⟨encodable, large, seq⟩
  obtain ⟨payload, encoded⟩ := encodeBatch_ok_iff.mpr encodable
  rw [← length_encodeBatch encoded] at large
  have next : checkedAdd64 t.wal.nextSeqNo 1 = some (t.wal.nextSeqNo + 1) :=
    checkedAdd64_eq_some.mpr ⟨seq, rfl⟩
  -- The append can only end with the payload too large, and the sequence number has moved.
  have ended := Table.append_exec b t d
  have failed := whole.failed
  generalize (Table.append b).exec t d = outcome at ended failed
  obtain ⟨⟨r, t'⟩, d'⟩ := outcome
  cases ended with
  | rejected _ why =>
    rcases why with invalid | ⟨-, unencoded | ⟨-, overflow, -⟩⟩
    · cases valid.symm.trans invalid
    · cases encoded.symm.trans unencoded
    · cases next.symm.trans overflow
  | tooLarge admitted _ =>
    obtain ⟨-, moved, -⟩ := failed _ _ _ rfl id
    have grown := toNat_of_checkedAdd64 admitted.next
    simp only [UInt64.toNat_one] at moved grown
    rw [moved] at grown
    omega
  | unwritten admitted fits =>
    obtain rfl := Except.ok.inj (encoded.symm.trans admitted.encoded)
    omega
  | refused admitted write | done admitted write =>
    obtain rfl := Except.ok.inj (encoded.symm.trans admitted.encoded)
    obtain ⟨x, -, fits, -⟩ := write
    omega

theorem append_all_or_nothing_ticks :
    ∃ d t, Tried jsonSerde ["db"] tickSchema d t [] ∧
      AllOrNothing jsonSerde ["db"] tickSchema d t tick := by
  obtain ⟨t, d, opened, -, clean⟩ := (emptyDisk_fresh ["db"]).opens jsonSerde tickSchema
  have tried : Tried jsonSerde ["db"] tickSchema d t [] := .opened (emptyDisk_fresh ["db"]) opened
  refine ⟨d, t, tried, (append_all_or_nothing tried tick_built).mpr fun _ => ?_⟩
  have none_active : t.active.rowCount = 0 := by simp [clean.handle.rowCount_active]
  refine ⟨by rw [clean.handle.schema_eq]; rfl, by rw [none_active]; decide, ?_⟩
  rintro ⟨-, large, -⟩
  exact absurd large (by decide)

/-! ## Columns in another order -/

/-- A valid batch with its columns in another order is written to the log and then refused. -/
theorem Clean.append_poisons (h : Clean serde root schema d t log segs) {payload : Bytes}
    (valid : validateBatchMatchesSchema schema b = .ok ())
    (crossed : b.columns.map (·.1) ≠ schema.names) (encoded : encodeBatch b = .ok payload)
    (fits : payload.length ≤ u32Max) (seq : log.length + 1 < 2 ^ 64)
    (size : (walBytes root d).length + headerLen + payload.length + trailerLen ≤ maxFileLen) :
    ∃ e t' d', (Table.append b).exec t d = ((.error (.error (.batch e)), t'), d') ∧
      t'.wal.nextSeqNo.toNat = t.wal.nextSeqNo.toNat + 1 ∧
      walBytes root d' = walBytes root d ++ WalRecord.frame ⟨t.wal.nextSeqNo, payload⟩ := by
  obtain ⟨next, d', admitted, ⟨x, held, -, -, rfl⟩, ⟨active, step, -⟩ | ⟨e, active, -, run⟩⟩ :=
    h.handle.append_writes valid encoded fits seq size
  · exact absurd (h.handle.activeOk.1.names_of_append step) crossed
  · refine ⟨e, _, _, run, toNat_of_checkedAdd64 admitted.next, ?_⟩
    have walAt : t.wal.path = walPath root := congrArg WalWriter.path h.handle.wal
    rw [walAt] at held ⊢
    simp [walBytes, held]

def crossedQuote : RowBatch := ⟨[("px", .f64 [0]), ("ts", .timestamp [7])], 1⟩

/-- The append returns an error, and its record is in the log. -/
theorem append_crossed_quote :
    ∃ d t, Reach jsonSerde ["db"] quoteSchema d t [] ∧ Built crossedQuote ∧
      ¬ AllOrNothing jsonSerde ["db"] quoteSchema d t crossedQuote := by
  obtain ⟨t, d, opened, -, clean⟩ := (emptyDisk_fresh ["db"]).opens jsonSerde quoteSchema
  obtain ⟨payload, encoded, small⟩ :
      ∃ payload, encodeBatch crossedQuote = .ok payload ∧ payload.length ≤ 64 :=
    ⟨_, rfl, by decide⟩
  have none_yet : walBytes ["db"] d = [] := by
    obtain ⟨records, logged, bytes⟩ := clean.handle.holdsLog.records
    cases logged
    exact bytes
  obtain ⟨e, t', d', run, moved, -⟩ := clean.append_poisons (b := crossedQuote) rfl (by decide)
    encoded (by unfold u32Max; omega) (by decide)
    (by rw [none_yet, List.length_nil]; unfold maxFileLen headerLen trailerLen; omega)
  refine ⟨d, t, .opened (emptyDisk_fresh ["db"]) opened, ⟨⟨priceFirst, crossedQuote.columns⟩, rfl⟩,
    fun whole => ?_⟩
  obtain ⟨-, same, -⟩ := whole.failed _ t' d' run id
  rw [same] at moved
  omega

end BypassIo.Db
