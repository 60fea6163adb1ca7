import BypassIo.Db.Open
import BypassIo.Db.ScanBatch

/-!
# Scanning an open table

A scan of a handle returns, in order, the rows of the sealed segments and of the active
batch whose timestamp is in range: pruning drops only segments without such rows, and the
selection of a segment gathers exactly them.
-/

namespace BypassIo.Db
open Octet Rust FileSystem Columns

variable {serde : Serde} {root : Path} {schema : Schema} {d : Disk} {log : List RowBatch}
  {t : Table} {k : Nat} {segs : Segments}

/-! ## Rows in a time range -/

def Cell.inTime (start last : Int64) : Cell → Bool
  | .timestamp ts => inRange start last ts
  | _ => false

/-- The timestamp of the row lies in `[start, last)`. -/
def inTime (schema : Schema) (start last : Int64) (row : Row) : Bool :=
  (row[schema.timestampColumnIdx]?).any (Cell.inTime start last)

/-- Timestamps in range are rows in range. -/
theorem positions_timestamps {b : RowBatch} (ok : b.WellFormed schema) {timestamps : List Int64}
    (found : b.column schema.timestampColumn.name = some (.timestamp timestamps))
    (start last : Int64) :
    positions (inRange start last) timestamps = positions (inTime schema start last) b.rows := by
  have cells := ok.positions_column schema.getElem?_timestampColumn found (Cell.inTime start last)
  rw [ColumnData.cells, positions_map] at cells
  exact cells

/-- A time filter of a batch keeps the rows in range. -/
theorem filterTimeBatch_ok {b : RowBatch} (ok : b.WellFormed schema) (start last : Int64) :
    ∃ out, filterTimeBatch schema b start last = .ok out ∧ out.WellFormed schema ∧
      out.rows = b.rows.filter (inTime schema start last) := by
  obtain ⟨timestamps, found, times, -⟩ := timestamps_of_wellFormed ok
  have same := positions_timestamps ok found start last
  have lt : ∀ i ∈ positions (inRange start last) timestamps, i < b.rowCount := by
    rw [same, ← ok.length_rows]
    exact positions_lt
  obtain ⟨out, taken, okOut, rows⟩ := ok.takeIndices (ε := TableError) lt
  refine ⟨out, bind_eq_ok.mpr ⟨timestamps, times, taken⟩, okOut, ?_⟩
  rw [rows, same, gather_positions]

/-! ## Pruning -/

instance lawfulOrderMax : Std.LawfulOrderMax Int64 where
  max_le_iff a b c := by
    simp only [max]
    split
    · exact ⟨fun h => ⟨Int64.le_trans ‹_› h, h⟩, And.right⟩
    · have below : b ≤ a := (Int64.le_total a b).resolve_left ‹_›
      exact ⟨fun h => ⟨h, Int64.le_trans below h⟩, And.left⟩
  max_eq_or a b := by
    simp only [max]
    split <;> simp

/-- A segment whose bounds miss the range has no timestamp in it. -/
theorem not_inRange_of_not_overlaps {segment : ImmutableSegment} {b : RowBatch}
    (stored : Stored serde root schema d segment b) {start last : Int64}
    (apart : segment.overlapsTimeRange start last = false) {timestamps : List Int64}
    (times : timestampsOf schema b = .ok timestamps) :
    ∀ ts ∈ timestamps, inRange start last ts = false := by
  obtain ⟨timestamps', times', minTs, maxTs⟩ := stored.bounds
  obtain rfl := Except.ok.inj (times'.symm.trans times)
  intro ts mem
  have some_time : timestamps' ≠ [] := List.ne_nil_of_mem mem
  obtain ⟨lo, hlo⟩ := Option.isSome_iff_exists.mp (List.isSome_min?_iff.mpr some_time)
  obtain ⟨hi, hhi⟩ := Option.isSome_iff_exists.mp (List.isSome_max?_iff.mpr some_time)
  have above := (List.min?_eq_some_iff.mp hlo).2 ts mem
  have beneath := (List.max?_eq_some_iff.mp hhi).2 ts mem
  simp only [ImmutableSegment.overlapsTimeRange, minTs, maxTs, hlo, hhi] at apart
  simp only [inRange, ge_iff_le, Bool.and_eq_false_iff, decide_eq_false_iff_not,
    Int64.not_le, Int64.not_lt] at apart ⊢
  rcases apart with early | late
  · exact .inl (Int64.lt_of_le_of_lt beneath early)
  · exact .inr (Int64.le_trans late above)

/-- A segment whose bounds miss the range has no row in it. -/
theorem no_rows_of_not_overlaps {segment : ImmutableSegment} {b : RowBatch}
    (stored : Stored serde root schema d segment b) {start last : Int64}
    (apart : segment.overlapsTimeRange start last = false) :
    b.rows.filter (inTime schema start last) = [] := by
  obtain ⟨timestamps, found, times, -⟩ := timestamps_of_wellFormed stored.wellFormed
  have none := not_inRange_of_not_overlaps stored apart times
  have empty : positions (inRange start last) timestamps = [] := by
    rw [positions_congr none]
    simp [positions_eq_filter]
  rw [← gather_positions, ← positions_timestamps stored.wellFormed found, empty, gather_nil]

/-! ## One segment -/

/-- What a scan has collected so far: the rows of a batch of the schema. -/
structure Collected (schema : Schema) (r : ScanResult) (rows : List Row) : Prop where
  wellFormed : r.toBatch.WellFormed schema
  sound : r.Sound
  rows : r.toBatch.rows = rows

theorem Collected.rowCount {r : ScanResult} {rows : List Row} (h : Collected schema r rows) :
    r.rowCount = rows.length := by
  rw [← h.rows, h.wellFormed.length_rows]
  rfl

/-- The columns of a stored segment map to their values. -/
theorem scanColumns_exec {segment : ImmutableSegment} {b : RowBatch}
    (stored : Stored serde root schema d segment b) (fits : Fits schema b.rowCount)
    {timestamps : List Int64}
    (found : b.column schema.timestampColumn.name = some (.timestamp timestamps)) :
    ∃ columns, (schema.columns.mapM (Table.scanColumn schema segment
        ⟨schema.timestampColumn.name, schema.timestampColumn.dtype, b.rowCount,
          valueBytes (.timestamp timestamps)⟩)).exec d = (.ok columns, d) ∧
      List.Forall₂ (ScanResult.MapsTo b) schema.columns columns := by
  have each : ∀ column ∈ schema.columns, ∃ mapped,
      (Table.scanColumn schema segment
        ⟨schema.timestampColumn.name, schema.timestampColumn.dtype, b.rowCount,
          valueBytes (.timestamp timestamps)⟩ column).exec d = (.ok mapped, d) ∧
      ScanResult.MapsTo b column mapped := by
    intro column mem
    unfold Table.scanColumn
    by_cases time : column.name = schema.timestampColumn.name
    · obtain ⟨i, hi⟩ := List.mem_iff_getElem?.mp mem
      have same := schema.idx_unique hi schema.getElem?_timestampColumn time
      obtain rfl : column = schema.timestampColumn := by
        rw [same, schema.getElem?_timestampColumn] at hi
        exact (Option.some.inj hi).symm
      rw [if_pos rfl]
      exact ⟨_, rfl, _, found, rfl⟩
    · obtain ⟨data, hdata, -⟩ := stored.wellFormed.column mem
      rw [if_neg time, Query.exec_bind_ok (mapColumn_exec stored mem (fits column mem) hdata)]
      exact ⟨_, rfl, data, hdata, rfl⟩
  revert each
  generalize schema.columns = columns
  intro each
  induction columns with
  | nil => exact ⟨[], rfl, .nil⟩
  | cons column columns ih =>
    obtain ⟨mapped, run, maps⟩ := each column List.mem_cons_self
    obtain ⟨rest, runRest, mapsRest⟩ := ih fun c hc => each c (List.mem_cons_of_mem _ hc)
    refine ⟨mapped :: rest, ?_, .cons maps mapsRest⟩
    rw [List.mapM_cons, Query.exec_bind_ok run, Query.exec_bind_ok runRest]
    rfl

/-- One turn of the segment loop adds the segment's rows in range. -/
theorem scanSegment_exec {features : Features} {segment : ImmutableSegment} {b : RowBatch}
    {output : ScanResult} {rows : List Row} (collected : Collected schema output rows)
    (stored : Stored serde root schema d segment b) (fits : Fits schema b.rowCount)
    (room : rows.length + b.rowCount ≤ usizeMax) (start last : Int64) :
    ∃ out, (Table.scanSegment features schema start last output segment).exec d = (.ok out, d) ∧
      Collected schema out (rows ++ b.rows.filter (inTime schema start last)) := by
  unfold Table.scanSegment
  by_cases overlaps : segment.overlapsTimeRange start last = true
  swap
  · rw [if_pos overlaps, no_rows_of_not_overlaps stored (Bool.eq_false_iff.mpr overlaps),
      List.append_nil]
    exact ⟨output, rfl, collected⟩
  rw [if_neg (not_not.mpr overlaps)]
  obtain ⟨timestamps, found, -, length⟩ := timestamps_of_wellFormed stored.wellFormed
  have same := positions_timestamps stored.wellFormed found start last
  rw [Query.exec_bind_ok (mapColumn_exec stored schema.timestampColumn_mem
    (fits _ schema.timestampColumn_mem) found)]
  have indices : rangeFilterI64Mapped features ⟨schema.timestampColumn.name,
      schema.timestampColumn.dtype, b.rowCount, valueBytes (.timestamp timestamps)⟩ start last =
      .ok (positions (inRange start last) timestamps) :=
    Simd.rangeFilterI64Bytes_eq timestamps start last
  rw [indices, ofResult_ok, mapErr_ok, Query.exec_bind_ok (Query.exec_pureStep _ d)]
  dsimp only
  by_cases none : positions (inRange start last) timestamps = []
  · rw [if_pos ((RowSelection.isEmpty_fromIndices _ _).mpr none), ← gather_positions, ← same, none,
      gather_nil, List.append_nil]
    exact ⟨output, rfl, collected⟩
  rw [if_neg fun empty => none ((RowSelection.isEmpty_fromIndices _ _).mp empty)]
  obtain ⟨columns, run, maps⟩ := scanColumns_exec stored fits found
  have lt : ∀ i ∈ positions (inRange start last) timestamps, i < b.rowCount := by
    rw [same, ← stored.wellFormed.length_rows]
    exact positions_lt
  have few : (positions (inRange start last) timestamps).length ≤ b.rowCount := by
    rw [positions_eq_filter, ← length]
    exact (List.length_filter_le _ _).trans (by simp)
  obtain ⟨out, appended, ok, sound, all, -⟩ := ScanResult.appendMappedColumns_ok
    collected.wellFormed collected.sound stored.wellFormed fits maps lt
    (by rw [collected.rowCount]; omega)
  refine ⟨out, ?_, ok, sound, ?_⟩
  · rw [Query.exec_bind_ok run, appended]
    rfl
  · rw [all, collected.rows, same, gather_positions]

/-! ## The whole scan -/

theorem scanSegments_exec (features : Features) {segs : Segments} {output : ScanResult}
    {rows : List Row} (collected : Collected schema output rows)
    (stored : AllStored serde root schema d segs)
    (fits : Fits schema (rows.length + segs.rowCount)) (start last : Int64) :
    ∃ out, ((segs.map Prod.fst).foldlM (Table.scanSegment features schema start last)
        output).exec d = (.ok out, d) ∧
      Collected schema out (rows ++ segs.rows.filter (inTime schema start last)) := by
  induction segs generalizing output rows with
  | nil => exact ⟨output, rfl, by simpa [Segments.rows] using collected⟩
  | cons s segs ih =>
    simp only [Segments.rowCount, List.map_cons, List.sum_cons] at fits
    have here := stored s List.mem_cons_self
    obtain ⟨mid, run, collected₁⟩ := scanSegment_exec collected here (fits.mono (by omega))
      ((fits.mono (by omega)).usize) start last
    have shorter := List.length_filter_le (inTime schema start last) s.2.rows
    rw [here.wellFormed.length_rows] at shorter
    obtain ⟨out, runRest, collected₂⟩ := ih collected₁
      (fun s hs => stored s (List.mem_cons_of_mem _ hs))
      (fits.mono (by rw [List.length_append, Segments.rowCount]; omega))
    refine ⟨out, ?_, ?_⟩
    · rw [List.map_cons, List.foldlM_cons, Query.exec_bind_ok run]
      exact runRest
    · simpa [Segments.rows] using collected₂

/-- What a scan needs of a table: its segments are stored and all rows fit a file. -/
structure Readable (serde : Serde) (root : Path) (schema : Schema) (d : Disk) (t : Table)
    (segs : Segments) : Prop where
  schema_eq : t.schema = schema
  sealed : t.sealed = segs.map Prod.fst
  stored : AllStored serde root schema d segs
  active : t.active.WellFormed schema
  fits : Fits schema (segs.rowCount + t.active.rowCount)

/-- A scan finds the rows in range, in the order of the segments. -/
theorem Readable.scanTimeRange (h : Readable serde root schema d t segs) (features : Features)
    (start last : Int64) :
    ∃ r, (t.scanTimeRange features start last).exec d = (.ok r, d) ∧
      Collected schema r ((segs.rows ++ t.active.rows).filter (inTime schema start last)) := by
  have fits := h.fits
  have empty : Collected schema (.empty schema) [] :=
    ⟨by simpa using RowBatch.empty_wellFormed schema, ScanResult.sound_empty schema, by simp⟩
  obtain ⟨output, run, collected⟩ := scanSegments_exec features empty h.stored
    (fits.mono (by simp)) start last
  obtain ⟨active, filtered, ok, rows⟩ := filterTimeBatch_ok h.active start last
  have count : active.rowCount ≤ t.active.rowCount := by
    rw [← ok.length_rows, rows, ← h.active.length_rows]
    exact List.length_filter_le _ _
  have sealedCount : output.rowCount ≤ segs.rowCount := by
    rw [collected.rowCount, ← length_segRows h.stored]
    exact List.length_filter_le _ _
  obtain ⟨out, appended, okOut, sound, all, -⟩ := ScanResult.appendBatch_ok collected.wellFormed
    collected.sound ok ((fits.mono (by omega)).usize)
  refine ⟨out, ?_, okOut, sound, ?_⟩
  · unfold Table.scanTimeRange
    rw [h.schema_eq, h.sealed, Query.exec_bind_ok run, filtered,
      Query.exec_bind_ok (Query.exec_pureStep _ d), appended]
    rfl
  · rw [all, collected.rows, rows, List.filter_append]
    rfl

theorem Handle.readable (h : Handle serde root schema d t log k segs) :
    Readable serde root schema d t segs :=
  ⟨h.schema_eq, h.sealed, h.holds.stored, h.activeOk.1, h.fits⟩

/-! ## Scans with a predicate -/

/-- The row's cell in column `i` passes the predicate. -/
def passes (p : ColumnPredicate) (i : Nat) (row : Row) : Bool := (row[i]?).any p.testCell

/-- A column of a result is the column of its batch. -/
theorem column_toBatch (r : ScanResult) (name : String) :
    r.toBatch.column name = (r.column name).map ScanColumn.flatten := by
  simp only [RowBatch.column, ScanResult.column, ScanResult.toBatch, ScanResult.flattened]
  induction r.columns with
  | nil => rfl
  | cons c columns ih =>
    by_cases same : c.1 = name
    · simp [same]
    · simpa [List.findSome?_cons, same] using ih

theorem ScanResult.mem_of_column {r : ScanResult} {name : String} {column : ScanColumn}
    (found : r.column name = some column) : ∃ c ∈ r.columns, c.2 = column := by
  obtain ⟨c, mem, hc⟩ := List.exists_of_findSome?_eq_some found
  by_cases same : c.1 = name
  · exact ⟨c, mem, by simpa [same] using hc⟩
  · simp [same] at hc

theorem ScanResult.Sound.column {r : ScanResult} (sound : r.Sound) {name : String}
    {column : ScanColumn} (found : r.column name = some column) : column.Sound := by
  obtain ⟨c, mem, rfl⟩ := ScanResult.mem_of_column found
  exact sound c mem

/-- Filtering a result by a predicate on column `i` keeps the rows that pass. -/
theorem filterScan_ok (features : Features) {r : ScanResult} {rows : List Row}
    {p : ColumnPredicate} (collected : Collected schema r rows) (fits : r.rowCount ≤ usizeMax)
    (agree : p.HintsAgree) {i : Nat} {column : ColumnDef}
    (hi : schema.columns[i]? = some column) (name : column.name = p.column) :
    ∃ indices out, filterScanIndices features r p = .ok indices ∧
      r.takeIndices indices = (.ok out : Outcome TableError ScanResult) ∧
      out.toBatch.WellFormed schema ∧ out.toBatch.rows = rows.filter (passes p i) := by
  obtain ⟨data, -, found, shape⟩ := collected.wellFormed.getElem? hi
  have inResult := column_toBatch r column.name
  rw [found] at inResult
  obtain ⟨scanned, hscanned, rfl⟩ := Option.map_eq_some_iff.mp inResult.symm
  have indices := filterColumn_eq features agree (collected.sound.column hscanned)
    shape.rowCount
  have same : positions p.testCell scanned.flatten.cells = positions (passes p i) r.toBatch.rows :=
    collected.wellFormed.positions_column hi found p.testCell
  have lt : ∀ j ∈ filterColumn features r scanned p, j < r.rowCount := by
    have count : r.rowCount = r.toBatch.rows.length := collected.wellFormed.length_rows.symm
    rw [indices, same, count]
    exact positions_lt
  obtain ⟨out, taken, ok, outRows⟩ :=
    ScanResult.takeIndices_ok (ε := TableError) collected.wellFormed collected.sound fits lt
  refine ⟨_, out, ?_, taken, ok, ?_⟩
  · rw [filterScanIndices, ← name, hscanned]
  · rw [outRows, indices, same, gather_positions, collected.rows]

/-- A column that the schema lacks is unknown to the filter. -/
theorem filterScan_unknown {features : Features} {r : ScanResult} {rows : List Row}
    {p : ColumnPredicate} (collected : Collected schema r rows) (absent : p.column ∉ schema.names) :
    filterScanIndices features r p = .error (.unknownColumn p.column) := by
  have none : r.column p.column = none := by
    rw [ScanResult.column, List.findSome?_eq_none_iff]
    intro c mem
    refine if_neg fun same => absent ?_
    rw [← collected.wellFormed.names, ← same]
    exact List.mem_map_of_mem (List.mem_map_of_mem mem)
  rw [filterScanIndices, none]

/-- A scan with a predicate keeps the rows in range that pass. -/
theorem Readable.scanWhere (h : Readable serde root schema d t segs) (features : Features)
    (start last : Int64) {p : ColumnPredicate} (agree : p.HintsAgree) {i : Nat}
    {column : ColumnDef} (hi : schema.columns[i]? = some column) (name : column.name = p.column) :
    ∃ out, (t.scanWhere features start last p).exec d = (.ok out, d) ∧
      out.toBatch.WellFormed schema ∧ out.toBatch.rows =
        ((segs.rows ++ t.active.rows).filter (inTime schema start last)).filter (passes p i) := by
  obtain ⟨r, run, collected⟩ := h.scanTimeRange features start last
  have fits : r.rowCount ≤ usizeMax := by
    rw [collected.rowCount]
    refine (List.length_filter_le _ _).trans ?_
    rw [List.length_append, length_segRows h.stored, h.active.length_rows]
    exact h.fits.usize
  obtain ⟨indices, out, found, taken, ok, rows⟩ :=
    filterScan_ok features collected fits agree hi name
  refine ⟨out, ?_, ok, rows⟩
  unfold Table.scanWhere
  rw [Query.exec_bind_ok run, found, ofResult_ok, mapErr_ok,
    Query.exec_bind_ok (Query.exec_pureStep _ d), Query.exec_pureStep, taken]

end BypassIo.Db
