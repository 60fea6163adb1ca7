import BypassIo.Db.Runs
import Mathlib.Data.Multiset.Filter

/-!
# What scans return

The abstract table is a bag of rows. A scan of a reachable table returns the appended rows
in range, each as often as it was appended (`scan_refines_log`); it lists them in the order
of the segments and of the active batch (`scan_exact`), and a predicate keeps exactly the
rows whose cell passes (`scan_where_exact`).
-/

namespace BypassIo.Db
open Octet Rust FileSystem Columns

variable {serde : Serde} {root : Path} {schema : Schema} {d : Disk} {t : Table}
  {log : List RowBatch} {segs : Segments}

/-- The batches of the sealed segments, in order. -/
def Table.readSealed (t : Table) : Query TableError (List RowBatch) :=
  t.sealed.mapM fun segment => ImmutableSegment.readBatch segment t.schema

theorem readSealed_exec (h : Clean serde root schema d t log segs) :
    t.readSealed.exec d = (.ok (segs.map Prod.snd), d) := by
  rw [Table.readSealed, h.handle.sealed, h.handle.schema_eq]
  refine Query.exec_mapM_ok ?_
  rw [List.forall₂_map_left_iff, List.forall₂_map_right_iff, List.forall₂_same]
  intro s hs
  refine readBatch_exec (h.handle.holds.stored s hs) (h.handle.fits.mono ?_)
  exact (Segments.rowCount_le hs).trans (Nat.le_add_right _ _)

/-- Every scan of the table returns the rows of the log in its range. -/
def ScansLog (schema : Schema) (d : Disk) (t : Table) (log : List RowBatch) : Prop :=
  ∀ features start last, ∃ r, (t.scanTimeRange features start last).exec d = (.ok r, d) ∧
    r.toBatch.WellFormed schema ∧
    (r.toBatch.rows : Multiset Row) = (logRows log : Multiset Row).filter
      fun row => inTime schema start last row

theorem Handle.scansLog {k : Nat} (h : Handle serde root schema d t log k segs) :
    ScansLog schema d t log := by
  intro features start last
  obtain ⟨r, run, collected⟩ := h.readable.scanTimeRange features start last
  refine ⟨r, run, collected.wellFormed, ?_⟩
  rw [collected.rows, Multiset.filter_coe, Multiset.coe_eq_coe]
  simpa using h.rows.filter (inTime schema start last)

/-- Scans return the rows ever appended in the range, each as often as it was appended. -/
theorem scan_refines_log (h : Reach serde root schema d t log) : ScansLog schema d t log := by
  obtain ⟨segs, clean⟩ := h.clean
  exact clean.handle.scansLog

/-- After a flush and a reopening the row is found once. -/
theorem scan_refines_log_ticks :
    ∃ d t r, Reach jsonSerde ["db"] tickSchema d t [tick] ∧
      (t.scanTimeRange ⟨true, true⟩ 0 10).exec d = (.ok r, d) ∧
      (r.toBatch.rows : Multiset Row) = {[.timestamp 7]} := by
  obtain ⟨d, t, reach⟩ := tick_reopened jsonSerde ["db"]
  obtain ⟨r, run, -, rows⟩ := scan_refines_log reach ⟨true, true⟩ 0 10
  refine ⟨d, t, r, reach, run, rows.trans ?_⟩
  decide

/-- A scan is the filter of the sealed batches and the active batch, in order. -/
theorem scan_exact (h : Reach serde root schema d t log) (features : Features)
    (start last : Int64) :
    ∃ batches r, t.readSealed.exec d = (.ok batches, d) ∧
      (t.scanTimeRange features start last).exec d = (.ok r, d) ∧
      r.toBatch.WellFormed schema ∧
      r.toBatch.rows =
        ((batches ++ [t.active]).flatMap RowBatch.rows).filter (inTime schema start last) ∧
      ∀ c ∈ r.columns, c.2.flatten.rowCount = r.rowCount := by
  obtain ⟨segs, clean⟩ := h.clean
  obtain ⟨r, run, collected⟩ := clean.handle.readable.scanTimeRange features start last
  refine ⟨_, r, readSealed_exec clean, run, collected.wellFormed, ?_, ?_⟩
  · rw [collected.rows]
    simp [Segments.rows, List.flatMap_map]
  · intro c hc
    obtain ⟨column, -, -, shape⟩ := exists_of_forall₂_right collected.wellFormed
      (List.mem_map_of_mem (f := fun c => (c.1, c.2.flatten)) hc)
    exact shape.rowCount

theorem scan_exact_ticks :
    ∃ d t batches r, Reach jsonSerde ["db"] tickSchema d t [tick] ∧
      t.readSealed.exec d = (.ok batches, d) ∧
      (t.scanTimeRange ⟨false, false⟩ 0 10).exec d = (.ok r, d) ∧
      r.toBatch.rows =
        ((batches ++ [t.active]).flatMap RowBatch.rows).filter (inTime tickSchema 0 10) := by
  obtain ⟨d, t, reach⟩ := tick_reopened jsonSerde ["db"]
  obtain ⟨batches, r, stored, run, -, rows, -⟩ := scan_exact reach ⟨false, false⟩ 0 10
  exact ⟨d, t, batches, r, reach, stored, run, rows⟩

/-- A scan with a predicate keeps the rows whose cell passes, and only an unknown column fails. -/
theorem scan_where_exact (h : Reach serde root schema d t log) (features : Features)
    (start last : Int64) {p : ColumnPredicate} (agree : p.HintsAgree) :
    ((t.scanWhere features start last p).exec d =
        (.error (.error (.scan (.unknownColumn p.column))), d) ↔ p.column ∉ schema.names) ∧
    ∀ i column, schema.columns[i]? = some column → column.name = p.column →
      ∃ r out, (t.scanTimeRange features start last).exec d = (.ok r, d) ∧
        (t.scanWhere features start last p).exec d = (.ok out, d) ∧
        out.toBatch.WellFormed schema ∧
        out.toBatch.rows = r.toBatch.rows.filter (passes p i) ∧
        ∀ c ∈ out.columns, c.2.flatten.rowCount = out.rowCount := by
  obtain ⟨segs, clean⟩ := h.clean
  obtain ⟨r, run, collected⟩ := clean.handle.readable.scanTimeRange features start last
  have known : ∀ i column, schema.columns[i]? = some column → column.name = p.column →
      ∃ out, (t.scanWhere features start last p).exec d = (.ok out, d) ∧
        out.toBatch.WellFormed schema ∧
        out.toBatch.rows = r.toBatch.rows.filter (passes p i) := by
    intro i column hi name
    rw [collected.rows]
    exact clean.handle.readable.scanWhere features start last agree hi name
  refine ⟨⟨fun failed mem => ?_, fun absent => ?_⟩, fun i column hi name => ?_⟩
  · obtain ⟨column, hcolumn, name⟩ := List.mem_map.mp mem
    obtain ⟨i, hi⟩ := List.mem_iff_getElem?.mp hcolumn
    obtain ⟨out, done, -⟩ := known i column hi name
    rw [failed] at done
    cases (Prod.mk.inj done).1
  · unfold Table.scanWhere
    rw [Query.exec_bind_ok run, filterScan_unknown collected absent]
    rfl
  · obtain ⟨out, done, ok, rows⟩ := known i column hi name
    refine ⟨r, out, run, done, ok, rows, fun c hc => ?_⟩
    obtain ⟨column, -, -, shape⟩ := exists_of_forall₂_right ok
      (List.mem_map_of_mem (f := fun c => (c.1, c.2.flatten)) hc)
    exact shape.rowCount

/-- A predicate without hints. -/
def laterThan (bound : Int64) : ColumnPredicate where
  column := "ts"
  f64Range := none
  f64Gt := none
  testF64 _ := false
  testI64 value := bound < value
  testFixedStr _ := false

theorem scan_where_exact_ticks :
    ∃ d t r out, Reach jsonSerde ["db"] tickSchema d t [tick] ∧
      (t.scanTimeRange ⟨true, true⟩ 0 10).exec d = (.ok r, d) ∧
      (t.scanWhere ⟨true, true⟩ 0 10 (laterThan 5)).exec d = (.ok out, d) ∧
      out.toBatch.rows = r.toBatch.rows.filter (passes (laterThan 5) 0) := by
  obtain ⟨d, t, reach⟩ := tick_reopened jsonSerde ["db"]
  have agree : (laterThan 5).HintsAgree := ⟨by simp [laterThan], by simp [laterThan]⟩
  obtain ⟨r, out, run, done, -, rows, -⟩ :=
    (scan_where_exact reach ⟨true, true⟩ 0 10 agree).2 0 _ rfl rfl
  exact ⟨d, t, r, out, reach, run, done, rows⟩

end BypassIo.Db
