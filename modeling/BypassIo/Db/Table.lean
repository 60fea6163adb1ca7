import BypassIo.Db.Codec
import BypassIo.Db.Scan
import BypassIo.Db.Wal
import Mathlib.Data.List.Dedup
import Mathlib.Data.List.Sort

/-!
# Tables

`Table` of `table.rs`. The methods on `&mut self` keep the changes they have made to the
handle when they fail: `flush` and `compact` change the manifest in memory before they
store it.
-/

namespace BypassIo.Db
open Octet Rust FileSystem Columns

structure Table where
  path : Path
  schema : Schema
  active : RowBatch
  sealed : List ImmutableSegment
  manifest : Manifest
  wal : WalWriter

/-! ## Helpers -/

/-- The loop of `validate_batch_matches_schema`. -/
def validateColumns (rows : RowBatch) : List ColumnDef → Except TableError Unit
  | [] => .ok ()
  | column :: columns =>
    match rows.column column.name with
    | none => .error (.missingColumn column.name)
    | some data =>
      if data.matchesDtype column.dtype then validateColumns rows columns
      else .error (.batch (.columnTypeMismatch column.name column.dtype))

def validateBatchMatchesSchema (schema : Schema) (rows : RowBatch) : Except TableError Unit :=
  if schema.columns.length ≠ rows.columns.length then .error (.batch .schemaMismatch)
  else validateColumns rows schema.columns

/-- `WalReader::open(wal_path)?.records()?` -/
def readRecords (walPath : Path) : Query TableError (List WalRecord) := do
  let reader ← (WalReader.openReader walPath).mapErr .wal
  (WalReader.records reader).mapErr .wal

def recoverBatchesAfter (schema : Schema) (walPath : Path) (appliedRecords : Nat) :
    Query TableError (List RowBatch) := do
  let records ← readRecords walPath
  Query.pureStep ((records.drop appliedRecords).mapM fun record =>
    decodeBatch schema record.payload)

def filterTimeBatch (schema : Schema) (batch : RowBatch) (start last : Int64) :
    Outcome TableError RowBatch := do
  let timestamps ← timestampsOf schema batch
  batch.takeIndices (positions (inRange start last) timestamps)

namespace Table

/-! ## Opening -/

/-- `Table::open`. -/
def openTable (serde : Serde) (path : Path) (schema : Schema) : Query TableError Table := do
  Query.io .ofIo (.createDirAll (path.join "WAL"))
  Query.io .ofIo (.createDirAll (path.join "segments"))
  let walPath := (path.join "WAL").join "wal-000000.log"
  let manifest ← Manifest.load serde path
  let sealed ← manifest.sealedSegments.mapM (ImmutableSegment.load serde path)
  manifest.store serde path
  let wal ← (WalWriter.openWriter walPath).mapErr .wal
  let batches ← recoverBatchesAfter schema walPath manifest.walRecordsApplied
  match (RowBatch.empty schema).appendAll batches with
  | (.error e, _) => throw (.error (.batch e))
  | (.ok (), active) => return { path, schema, active, sealed, manifest, wal }

/-! ## Appending -/

/-- `self.active.append(rows)?` -/
def appendActive (rows : RowBatch) : Method Table TableError Unit := do
  let t ← get
  match t.active.append rows with
  | (.ok (), active) => set { t with active }
  | (.error e, active) =>
    set { t with active }
    throw (.error (.batch e))

/-- `Table::append`. -/
def append (rows : RowBatch) : Method Table TableError Nat := do
  let t ← get
  match validateBatchMatchesSchema t.schema rows with
  | .error e => throw (.error e)
  | .ok () =>
    match encodeBatch rows with
    | .error e => throw (.error e)
    | .ok payload =>
      let _ ← (WalWriter.append payload).onField wal (fun wal t => { t with wal }) .wal
      appendActive rows
      return rows.rowCount

/-! ## Flushing -/

/-- `checked_add(1).ok_or_else(..)?` on `manifest.next_segment_id`. -/
def bumpSegmentId : Method Table TableError Unit := do
  let t ← get
  match checkedAdd64 t.manifest.nextSegmentId 1 with
  | none => throw (.error (.manifest "segment id overflow"))
  | some next => set { t with manifest := { t.manifest with nextSegmentId := next } }

/-- `self.manifest.store(&self.path)?` -/
def storeManifest (serde : Serde) : Method Table TableError Unit := do
  let t ← get
  Method.query (t.manifest.store serde t.path)

/-- `Table::flush`. -/
def flush (serde : Serde) : Method Table TableError Unit := do
  let t ← get
  Method.query (t.wal.sync.mapErr .wal)
  if t.active.rowCount = 0 then return
  else do
    let segment ← Method.query
      (sealBatch serde t.path t.schema t.manifest.nextSegmentId t.active)
    bumpSegmentId
    modify fun t => { t with manifest :=
      { t.manifest with sealedSegments := t.manifest.sealedSegments ++ [segmentRef segment] } }
    let records ← Method.query (readRecords t.wal.path)
    modify fun t => { t with manifest :=
      { t.manifest with walRecordsApplied := records.length } }
    storeManifest serde
    modify fun t => { t with sealed := t.sealed ++ [segment], active := .empty t.schema }

/-! ## Compacting -/

/-- `requested.difference(&present)`: ascending, each id once. -/
def missingIds (segmentIds : List UInt64) (sealed : List ImmutableSegment) : List UInt64 :=
  ((segmentIds.filter fun id => id ∉ sealed.map ImmutableSegment.id).dedup).mergeSort

/-- A list of ids in `{:?}` format. -/
def debugIds (ids : List UInt64) : String := "[" ++ ", ".intercalate (ids.map toString) ++ "]"

/-- The first loop of `compact`: the rows of the requested segments. -/
def combine (schema : Schema) (requested : List UInt64) :
    List ImmutableSegment → RowBatch → Query TableError RowBatch
  | [], combined => pure combined
  | segment :: sealed, combined =>
    if segment.id ∈ requested then do
      let batch ← segment.readBatch schema
      match combined.append batch with
      | (.error e, _) => throw (.error (.batch e))
      | (.ok (), both) => combine schema requested sealed both
    else combine schema requested sealed combined

/-- The second loop of `compact`: the replacement stands at the first requested segment. -/
def replaceSelected (requested : List UInt64) (replacement : ImmutableSegment) (insertAt : Nat) :
    List ImmutableSegment → Nat → List ImmutableSegment
  | [], _ => []
  | segment :: sealed, idx =>
    (if idx = insertAt then [replacement] else []) ++
      (if segment.id ∈ requested then [] else [segment]) ++
      replaceSelected requested replacement insertAt sealed (idx + 1)

/-- The last loop of `compact`. -/
def removeOld : List Path → Query TableError Unit
  | [] => pure ()
  | oldPath :: oldPaths => do
    let found ← pathExists oldPath
    if found then
      Query.io .ofIo (.removeDirAll oldPath)
      removeOld oldPaths
    else removeOld oldPaths

/-- `Table::compact`. The capacity of `new_sealed` cannot underflow: every requested id is
the id of some segment. -/
def compact (serde : Serde) (segmentIds : List UInt64) : Method Table TableError Unit := do
  let t ← get
  if segmentIds = [] then return
  else
    let missing := missingIds segmentIds t.sealed
    if missing ≠ [] then
      throw (.error (.segment ("cannot compact unknown segment ids " ++ debugIds missing)))
    else do
      let combined ← Method.query (combine t.schema segmentIds t.sealed (.empty t.schema))
      if combined.rowCount = 0 then return
      else do
        let replacement ← Method.query
          (sealBatch serde t.path t.schema t.manifest.nextSegmentId combined)
        bumpSegmentId
        match t.sealed.findIdx? fun segment => segment.id ∈ segmentIds with
        | none => throw .panic
        | some insertAt =>
          let newSealed := replaceSelected segmentIds replacement insertAt t.sealed 0
          modify fun t => { t with manifest :=
            { t.manifest with sealedSegments := newSealed.map segmentRef } }
          storeManifest serde
          modify fun t => { t with sealed := newSealed }
          Method.query (removeOld ((t.sealed.filter fun segment =>
            segment.id ∈ segmentIds).map ImmutableSegment.path))

/-! ## Scanning -/

/-- The map of one column: the timestamps are mapped already. -/
def scanColumn (schema : Schema) (segment : ImmutableSegment) (timestampMap : MappedColumn)
    (column : ColumnDef) : Query TableError (String × MappedColumn) := do
  if column.name = schema.timestampColumn.name then return (column.name, timestampMap)
  else do
    let mapped ← segment.mapColumn column.name column.dtype
    return (column.name, mapped)

/-- One turn of the segment loop of `scan_time_range`. -/
def scanSegment (features : Features) (schema : Schema) (start last : Int64) (output : ScanResult)
    (segment : ImmutableSegment) : Query TableError ScanResult := do
  if ¬ segment.overlapsTimeRange start last then return output
  else do
    let timestampMap ←
      segment.mapColumn schema.timestampColumn.name schema.timestampColumn.dtype
    let indices ← Query.pureStep (mapErr .scan (ofResult
      (rangeFilterI64Mapped features timestampMap start last)))
    let selection := RowSelection.fromIndices indices timestampMap.rowCount
    if selection.isEmpty then return output
    else do
      let columns ← schema.columns.mapM (scanColumn schema segment timestampMap)
      Query.pureStep (mapErr .scan (ofResult (output.appendMappedColumns columns selection)))

/-- `Table::scan_time_range`. -/
def scanTimeRange (features : Features) (start last : Int64) (t : Table) :
    Query TableError ScanResult := do
  let output ← t.sealed.foldlM (scanSegment features t.schema start last) (.empty t.schema)
  let active ← Query.pureStep (filterTimeBatch t.schema t.active start last)
  Query.pureStep (mapErr .scan (ofResult (output.appendBatch active)))

/-- `Table::scan_where`. -/
def scanWhere (features : Features) (start last : Int64) (predicate : ColumnPredicate)
    (t : Table) : Query TableError ScanResult := do
  let timeResult ← t.scanTimeRange features start last
  let indices ← Query.pureStep (mapErr .scan (ofResult
    (filterScanIndices features timeResult predicate)))
  Query.pureStep (timeResult.takeIndices indices)

/-! ## Recovery -/

/-- `Table::recover_records`. -/
def recoverRecords (t : Table) : Query TableError (List Bytes) := do
  let records ← readRecords ((t.path.join "WAL").join "wal-000000.log")
  return records.map WalRecord.payload

/-- `Table::recover_batches`. -/
def recoverBatches (t : Table) : Query TableError (List RowBatch) := do
  let payloads ← t.recoverRecords
  Query.pureStep (payloads.mapM (decodeBatch t.schema))

end Table

end BypassIo.Db
