import BypassIo.Db.Refinement

/-!
# Reading a table page by page

A reader walks through a time range in consecutive windows, and the table is flushed, compacted
and reopened between its scans. Windows are half open, so they meet without a gap and without an
overlap: the pages hold each row of the range once, whatever happened to the files in between. No
window ends behind `i64::MAX`, so no page holds a row with that timestamp.
-/

namespace BypassIo.Db
open Octet Rust FileSystem Columns

variable {serde : Serde} {root : Path} {schema : Schema} {d d' : Disk} {t : Table}
  {log : List RowBatch} {features : Features} {start mid last : Int64} {pages : List ScanResult}

/-! ## Windows that meet -/

theorem inRange_split (le : start ≤ mid) (le' : mid ≤ last) (ts : Int64) :
    (inRange start last ts = true ↔ inRange start mid ts = true ∨ inRange mid last ts = true) ∧
      ¬ (inRange start mid ts = true ∧ inRange mid last ts = true) := by
  simp only [inRange, ge_iff_le, Bool.and_eq_true, decide_eq_true_eq, Int64.le_iff_toInt_le,
    Int64.lt_iff_toInt_lt] at *
  omega

/-- A row is in one of two windows that meet exactly if it is in the window of both. -/
theorem inTime_split (le : start ≤ mid) (le' : mid ≤ last) (row : Row) :
    (inTime schema start last row = true ↔
        inTime schema start mid row = true ∨ inTime schema mid last row = true) ∧
      ¬ (inTime schema start mid row = true ∧ inTime schema mid last row = true) := by
  unfold inTime
  cases row[schema.timestampColumnIdx]? with
  | none => simp
  | some cell =>
    cases cell with
    | timestamp ts => exact inRange_split le le' ts
    | _ => simp [Cell.inTime]

/-- The rows of two windows that meet. -/
theorem filter_inTime_split (le : start ≤ mid) (le' : mid ≤ last) (rows : Multiset Row) :
    (rows.filter fun row => inTime schema start last row) =
      (rows.filter fun row => inTime schema start mid row) +
        rows.filter fun row => inTime schema mid last row := by
  rw [Multiset.filter_add_filter]
  have none : (rows.filter fun row => inTime schema start mid row = true ∧
      inTime schema mid last row = true) = 0 :=
    Multiset.filter_eq_nil.mpr fun row _ => (inTime_split le le' row).2
  rw [none, Multiset.add_zero]
  exact Multiset.filter_congr fun row _ => (inTime_split le le' row).1

theorem filter_inTime_empty (rows : Multiset Row) :
    (rows.filter fun row => inTime schema start start row) = 0 := by
  refine Multiset.filter_eq_nil.mpr fun row _ both => ?_
  exact (inTime_split (Int64.le_refl start) (Int64.le_refl start) row).2 ⟨both, both⟩

/-! ## The last instant -/

/-- Every row of a well-formed batch has a timestamp. -/
theorem RowBatch.WellFormed.timestamp {b : RowBatch} (ok : b.WellFormed schema) {row : Row}
    (mem : row ∈ b.rows) : ∃ ts, row[schema.timestampColumnIdx]? = some (.timestamp ts) := by
  obtain ⟨timestamps, found, -⟩ := timestamps_of_wellFormed ok
  have column := ok.rows_column schema.getElem?_timestampColumn found
  have cell : row[schema.timestampColumnIdx]? ∈ b.rows.map (·[schema.timestampColumnIdx]?) :=
    List.mem_map_of_mem mem
  rw [column, ColumnData.cells, List.map_map] at cell
  obtain ⟨ts, -, same⟩ := List.mem_map.mp cell
  exact ⟨ts, same.symm⟩

/-- The widest window holds every timestamp but the last. -/
theorem inRange_widest (ts : Int64) :
    inRange Int64.minValue Int64.maxValue ts = true ↔ ts ≠ Int64.maxValue := by
  have lo := Int64.le_toInt ts
  have hi := Int64.toInt_lt ts
  have max : Int64.maxValue.toInt = 2 ^ 63 - 1 := by decide
  have min : Int64.minValue.toInt = -2 ^ 63 := by decide
  rw [Ne, ← Int64.toInt_inj]
  simp only [inRange, ge_iff_le, Bool.and_eq_true, decide_eq_true_eq, Int64.le_iff_toInt_le,
    Int64.lt_iff_toInt_lt, max, min]
  omega

/-! ## Pages -/

/-- The pages of a reader: scans of consecutive windows, each of the table as it is then, with the
same rows acknowledged. -/
inductive Paged (serde : Serde) (root : Path) (schema : Schema) (features : Features)
    (log : List RowBatch) : Int64 → Int64 → List ScanResult → Prop where
  | done (a : Int64) : Paged serde root schema features log a a []
  | page {d d' : Disk} {t : Table} {a b c : Int64} {r : ScanResult} {pages : List ScanResult} :
      Reach serde root schema d t log → a ≤ b →
      (t.scanTimeRange features a b).exec d = (.ok r, d') →
      Paged serde root schema features log b c pages →
      Paged serde root schema features log a c (r :: pages)

/-- The rows of all pages. -/
def pageRows (pages : List ScanResult) : List Row := pages.flatMap (·.toBatch.rows)

theorem Paged.le (h : Paged serde root schema features log start last pages) : start ≤ last := by
  induction h with
  | done => exact Int64.le_refl _
  | page _ le _ _ ih => exact Int64.le_trans le ih

theorem Paged.rows (h : Paged serde root schema features log start last pages) :
    (pageRows pages : Multiset Row) =
      (logRows log : Multiset Row).filter fun row => inTime schema start last row := by
  induction h with
  | done => exact (filter_inTime_empty _).symm
  | page reach le scan rest ih =>
    obtain ⟨segs, clean⟩ := reach.clean
    obtain ⟨r, run, -, rows⟩ := clean.handle.scansLog features _ _
    obtain rfl := Except.ok.inj (Prod.mk.inj (run.symm.trans scan)).1
    rw [filter_inTime_split le rest.le, ← rows, ← ih, pageRows, List.flatMap_cons,
      ← Multiset.coe_add]
    rfl

/-- Every acknowledged row has a timestamp. -/
theorem Reach.timestamp (h : Reach serde root schema d t log) {row : Row} (mem : row ∈ logRows log) :
    ∃ ts, row[schema.timestampColumnIdx]? = some (.timestamp ts) := by
  obtain ⟨segs, clean⟩ := h.clean
  obtain ⟨b, hb, here⟩ := List.mem_flatMap.mp mem
  exact (clean.handle.holdsLog.wellFormed b hb).timestamp here

/-- The pages hold the acknowledged rows of the range, each as often as it was appended; pages
from the least to the greatest timestamp hold all rows but those at the greatest. -/
theorem paged_exact (h : Paged serde root schema features log start last pages) :
    (pageRows pages : Multiset Row) =
        ((logRows log : Multiset Row).filter fun row => inTime schema start last row) ∧
      (start = Int64.minValue → last = Int64.maxValue → (pageRows pages : Multiset Row) =
        (logRows log : Multiset Row).filter fun row =>
          row[schema.timestampColumnIdx]? ≠ some (.timestamp Int64.maxValue)) := by
  refine ⟨h.rows, ?_⟩
  rintro rfl rfl
  rw [h.rows]
  refine Multiset.filter_congr fun row mem => ?_
  obtain ⟨ts, cell⟩ : ∃ ts, row[schema.timestampColumnIdx]? = some (.timestamp ts) := by
    cases h with
    | page reach _ _ _ => exact reach.timestamp (by simpa using mem)
  rw [inTime, cell]
  simpa [Cell.inTime] using inRange_widest ts

/-- One page before the flush and one after the flush and a reopening. -/
theorem paged_exact_ticks : ∃ before after,
    Paged jsonSerde ["db"] tickSchema ⟨false, false⟩ [tick] 0 10 [before, after] ∧
      (pageRows [before, after] : Multiset Row) =
        (logRows [tick] : Multiset Row).filter fun row => inTime tickSchema 0 10 row := by
  obtain ⟨d, t, reach, -⟩ := tick_appended jsonSerde ["db"]
  obtain ⟨d', t', reach'⟩ := tick_reopened jsonSerde ["db"]
  obtain ⟨segs, clean⟩ := reach.clean
  obtain ⟨segs', clean'⟩ := reach'.clean
  obtain ⟨before, run, -⟩ := clean.handle.scansLog ⟨false, false⟩ 0 5
  obtain ⟨after, run', -⟩ := clean'.handle.scansLog ⟨false, false⟩ 5 10
  have pages : Paged jsonSerde ["db"] tickSchema ⟨false, false⟩ [tick] 0 10 [before, after] :=
    .page reach (by decide) run (.page reach' (by decide) run' (.done 10))
  exact ⟨before, after, pages, (paged_exact pages).1⟩

end BypassIo.Db
