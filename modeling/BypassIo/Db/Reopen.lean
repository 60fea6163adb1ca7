import BypassIo.Db.Refinement

/-!
# Reopening and crashes

A reachable table is determined by its files: dropping it and opening it again gives the
same table (`reopen_identity`). A directory that was killed inside `open`, `flush` or
`compact`, any number of times, opens with the rows it had (`crash_safe`).
-/

namespace BypassIo.Db
open Octet Rust FileSystem Columns

variable {serde : Serde} {root : Path} {schema : Schema} {d d' : Disk} {t t' : Table}
  {log : List RowBatch} {segs : Segments}

/-! ## Reopening -/

/-- The bounds of the segment are its least and its greatest timestamp. -/
structure ExactBounds (info : SegmentMeta) (timestamps : List Int64) : Prop where
  least : ∃ lo ∈ timestamps, info.minTs = some lo ∧ ∀ ts ∈ timestamps, lo ≤ ts
  greatest : ∃ hi ∈ timestamps, info.maxTs = some hi ∧ ∀ ts ∈ timestamps, ts ≤ hi

theorem Stored.exactBounds {segment : ImmutableSegment} {b : RowBatch}
    (h : Stored serde root schema d segment b) :
    ∃ timestamps, timestampsOf schema b = .ok timestamps ∧ ExactBounds segment.info timestamps := by
  obtain ⟨timestamps, -, times, length⟩ := timestamps_of_wellFormed h.wellFormed
  obtain ⟨timestamps', times', minTs, maxTs⟩ := h.bounds
  obtain rfl := Except.ok.inj (times'.symm.trans times)
  have some_time : timestamps' ≠ [] := by
    rintro rfl
    exact h.nonempty length.symm
  obtain ⟨lo, hlo⟩ := Option.isSome_iff_exists.mp (List.isSome_min?_iff.mpr some_time)
  obtain ⟨hi, hhi⟩ := Option.isSome_iff_exists.mp (List.isSome_max?_iff.mpr some_time)
  obtain ⟨memLo, least⟩ := List.min?_eq_some_iff.mp hlo
  obtain ⟨memHi, greatest⟩ := List.max?_eq_some_iff.mp hhi
  exact ⟨timestamps', times, ⟨lo, memLo, minTs.trans hlo, least⟩,
    ⟨hi, memHi, maxTs.trans hhi, greatest⟩⟩

/-- A clean table is determined by its log, its manifest and its segments. -/
theorem Clean.unique (h : Clean serde root schema d t log segs)
    (h' : Clean serde root schema d' t' log segs) (same : t'.manifest = t.manifest) : t' = t := by
  have path := h'.handle.path.trans h.handle.path.symm
  have schema_eq := h'.handle.schema_eq.trans h.handle.schema_eq.symm
  have sealed := h'.handle.sealed.trans h.handle.sealed.symm
  have wal := h'.handle.wal.trans h.handle.wal.symm
  have replayed := h'.handle.active
  rw [same, h.handle.active] at replayed
  have active := (Prod.mk.inj replayed).2
  cases t
  cases t'
  simp_all

/-- What a reachable table keeps in step, and that reopening it gives it back. -/
theorem reopen_identity (h : Reach serde root schema d t log) :
    (t.manifest.sealedSegments = t.sealed.map segmentRef ∧ (t.sealed.map (·.id)).Nodup ∧
      ∀ segment ∈ t.sealed, segment.id < t.manifest.nextSegmentId) ∧
    (∀ segment ∈ t.sealed, ∃ batch timestamps,
      (segment.readBatch schema).exec d = (.ok batch, d) ∧ batch.rowCount ≠ 0 ∧
      timestampsOf schema batch = .ok timestamps ∧ ExactBounds segment.info timestamps) ∧
    (∃ records batches, readLog (walBytes root d) = .ok (records, []) ∧
      t.manifest.walRecordsApplied ≤ records.length ∧
      ((records.drop t.manifest.walRecordsApplied).mapM fun record =>
        decodeBatch schema record.payload) = .ok batches ∧
      (RowBatch.empty schema).appendAll batches = (.ok (), t.active)) ∧
    ∃ d', (Table.openTable serde root schema).exec d = (.ok t, d') := by
  obtain ⟨segs, clean⟩ := h.clean
  have handle := clean.handle
  have holds := clean.lists.holds
  refine ⟨⟨?_, ?_, ?_⟩, ?_, ?_, ?_⟩
  · rw [clean.lists.refs, handle.sealed, List.map_map]
    rfl
  · rw [handle.sealed, List.map_map]
    exact holds.nodup
  · rw [handle.sealed, List.forall_mem_map]
    exact fun s hs => holds.below s hs
  · rw [handle.sealed, List.forall_mem_map]
    intro s hs
    have stored := holds.stored s hs
    obtain ⟨timestamps, times, bounds⟩ := stored.exactBounds
    refine ⟨s.2, timestamps, readBatch_exec stored (handle.fits.mono ?_), stored.nonempty, times,
      bounds⟩
    exact (Segments.rowCount_le hs).trans (Nat.le_add_right _ _)
  · obtain ⟨records, read, logged⟩ := handle.holdsLog.readLog
    refine ⟨records, _, read, logged.length_eq ▸ holds.boundary, ?_, handle.active⟩
    exact decode_of_logged (fun b hb => handle.holdsLog.wellFormed b (List.mem_of_mem_drop hb))
      (List.forall₂_drop _ logged)
  · obtain ⟨t', d', exec, same, reopened⟩ :=
      Clean.opened handle.holdsLog (.inl clean.saved) clean.lists
    exact ⟨d', by rw [exec, clean.unique reopened same]⟩

theorem reopen_identity_ticks :
    ∃ d t d', Reach jsonSerde ["db"] tickSchema d t [tick] ∧
      t.manifest.sealedSegments = t.sealed.map segmentRef ∧
      (Table.openTable jsonSerde ["db"] tickSchema).exec d = (.ok t, d') := by
  obtain ⟨d, t, reach⟩ := tick_reopened jsonSerde ["db"]
  obtain ⟨⟨refs, -⟩, -, -, d', opened⟩ := reopen_identity reach
  exact ⟨d, t, d', reach, refs, opened⟩

/-! ## Crashes -/

/-- A durable disk opens as a table whose scans return the log. -/
theorem Durable.opens (h : Durable serde root schema d log) :
    ∃ t d', (Table.openTable serde root schema).exec d = (.ok t, d') ∧
      ScansLog schema d' t log := by
  obtain ⟨holdsLog, m, segs, found, lists⟩ := h
  obtain ⟨t, d', exec, -, clean⟩ := Clean.opened holdsLog found lists
  exact ⟨t, d', exec, clean.handle.scansLog⟩

/-- Through any number of kills, an open table scans the log, and the directory opens again as
a table that scans the log. -/
theorem crash_safe {s : Option Table} (h : Life serde root schema d s log) :
    (∀ t, s = some t → ScansLog schema d t log) ∧
      ∃ t d', (Table.openTable serde root schema).exec d = (.ok t, d') ∧
        ScansLog schema d' t log := by
  have inv := h.inv
  cases s with
  | none => exact ⟨by simp, inv.opens⟩
  | some t =>
    obtain ⟨segs, clean⟩ := inv
    refine ⟨?_, clean.handle.durable.opens⟩
    rintro t' ⟨⟩
    exact clean.handle.scansLog

/-- A kill in the first call of a flush. -/
theorem crash_safe_ticks :
    ∃ d, Life jsonSerde ["db"] tickSchema d none [tick] ∧
      ∃ t d', (Table.openTable jsonSerde ["db"] tickSchema).exec d = (.ok t, d') ∧
        ScansLog tickSchema d' t [tick] := by
  obtain ⟨d, t, reach, -⟩ := tick_appended jsonSerde ["db"]
  have killed : Prog.Crashes ((Table.flush jsonSerde).start t) d d :=
    .here (Call.torn_refl (.sync t.wal.path) d)
  have life := Life.flushKilled reach.life killed
  exact ⟨d, life, (crash_safe life).2⟩

end BypassIo.Db
