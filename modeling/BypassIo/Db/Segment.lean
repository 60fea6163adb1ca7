import BypassIo.Db.Error
import BypassIo.Db.Rows
import BypassIo.Library.Program

/-!
# Manifest and sealed segments

`segment.rs`. The JSON text of the manifest and of a segment's `meta.json` is that of
`serde_json`, which the model takes as a pair of formats with their round trip.
-/

namespace BypassIo.Db
open Octet Rust FileSystem

/-! ## Records kept as JSON -/

/-- Manifest entry for one sealed segment. -/
structure SegmentRef where
  id : UInt64
  path : String
  rowCount : Nat
  minTs : Option Int64
  maxTs : Option Int64
  deriving DecidableEq, Repr

structure Manifest where
  version : UInt32
  activeWal : String
  walRecordsApplied : Nat
  nextSegmentId : UInt64
  sealedSegments : List SegmentRef
  deriving DecidableEq, Repr

/-- `Manifest::new`. -/
def Manifest.new : Manifest where
  version := 1
  activeWal := "WAL/wal-000000.log"
  walRecordsApplied := 0
  nextSegmentId := 1
  sealedSegments := []

structure ColumnMeta where
  name : String
  dtype : String
  fixedWidth : Option UInt64
  file : String
  deriving DecidableEq, Repr

structure SegmentMeta where
  id : UInt64
  rowCount : Nat
  minTs : Option Int64
  maxTs : Option Int64
  columns : List ColumnMeta
  deriving DecidableEq, Repr

/-- `serde_json::to_string_pretty` and `serde_json::from_str` at one type. -/
structure JsonFormat (α : Type) where
  toStringPretty : α → Except String String
  fromStr : String → Except String α
  roundTrip : ∀ a, ∃ text, toStringPretty a = .ok text ∧ fromStr text = .ok a

structure Serde where
  manifest : JsonFormat Manifest
  segmentMeta : JsonFormat SegmentMeta

/-- A sealed segment: its directory and its `meta.json`. -/
structure ImmutableSegment where
  path : Path
  info : SegmentMeta
  deriving DecidableEq, Repr

/-- A column file mapped into memory. -/
structure MappedColumn where
  name : String
  dtype : DType
  rowCount : Nat
  mmap : Bytes
  deriving DecidableEq, Repr

/-! ## Names -/

/-- `format!("seg-{segment_id:06}")` -/
def segmentDirName (segmentId : UInt64) : String :=
  "seg-" ++ String.ofList ((Nat.toDigits 10 segmentId.toNat).leftpad 6 '0')

/-- A string in `{:?}` format, up to the escapes of unprintable characters. -/
def debugStr (s : String) : String := s.quote

def columnFileName (name : String) : Except TableError String :=
  if '/' ∈ name.toList ∨ '\\' ∈ name.toList ∨ ['.', '.'] <:+: name.toList then
    .error (.segment s!"column name {debugStr name} is not valid for a segment file")
  else .ok (name ++ ".col")

def dtypeMeta : DType → String × Option UInt64
  | .f64 => ("F64", none)
  | .i64 => ("I64", none)
  | .timestamp => ("Timestamp", none)
  | .fixedStr width => ("FixedStr", some width)

namespace SegmentMeta

/-- `SegmentMeta::to_ref`. -/
def toRef (info : SegmentMeta) : SegmentRef where
  id := info.id
  path := "segments" ++ "/" ++ segmentDirName info.id
  rowCount := info.rowCount
  minTs := info.minTs
  maxTs := info.maxTs

/-- `SegmentMeta::column`. -/
def column (info : SegmentMeta) (name : String) : Option ColumnMeta :=
  info.columns.find? fun column => column.name = name

end SegmentMeta

/-- `segment_ref`. -/
def segmentRef (segment : ImmutableSegment) : SegmentRef := segment.info.toRef

/-! ## Column bytes -/

/-- The bytes of the values, without the checks of `write_column`. -/
def valueBytes : ColumnData → Bytes
  | .f64 values => values.flatMap u64Bytes
  | .i64 values | .timestamp values => values.flatMap i64Bytes
  | .fixedStr _ values => values.flatten

def displayPath (path : Path) : String := "/" ++ "/".intercalate path

/-- A vector after its `extend_from_slice` calls: growing past `isize::MAX` bytes panics. -/
def extended (out : Bytes) : Outcome TableError Bytes := do
  withCapacity 1 out.length
  return out

/-- The buffer of `write_column`: the reservation, the width check and the bytes. -/
def columnBytes (path : Path) : ColumnData → Outcome TableError Bytes
  | .f64 values => do
    withCapacity 1 (wrappingMul values.length 8)
    extended (values.flatMap u64Bytes)
  | .i64 values | .timestamp values => do
    withCapacity 1 (wrappingMul values.length 8)
    extended (values.flatMap i64Bytes)
  | .fixedStr width values => do
    withCapacity 1 (wrappingMul values.length width.toNat)
    if values.any fun value => value.length ≠ width.toNat then
      throw (.error (.segment
        s!"fixed string value in {displayPath path} is not {width} bytes"))
    extended values.flatten

def writeColumn (path : Path) (data : ColumnData) : Query TableError Unit := do
  let out ← Query.pureStep (columnBytes path data)
  Query.io .ofIo (.write path out)

def readF64Values (bytes : Bytes) (rowCount : Nat) : Except TableError (List UInt64) :=
  if bytes.length ≠ wrappingMul rowCount 8 then
    .error (.segment s!"f64 column has {bytes.length} bytes, expected {wrappingMul rowCount 8}")
  else .ok ((chunksExact 8 bytes).map u64Of)

def readI64Values (bytes : Bytes) (rowCount : Nat) : Except TableError (List Int64) :=
  if bytes.length ≠ wrappingMul rowCount 8 then
    .error (.segment s!"i64 column has {bytes.length} bytes, expected {wrappingMul rowCount 8}")
  else .ok ((chunksExact 8 bytes).map i64Of)

/-- The `match dtype` of `read_column`. -/
def decodeColumnBytes (name : String) (dtype : DType) (rowCount : Nat) (bytes : Bytes) :
    Except TableError ColumnData :=
  match dtype with
  | .f64 => (readF64Values bytes rowCount).map .f64
  | .i64 => (readI64Values bytes rowCount).map .i64
  | .timestamp => (readI64Values bytes rowCount).map .timestamp
  | .fixedStr width =>
    match checkedMul rowCount width.toNat with
    | none => .error (.segment "fixed string byte count overflow")
    | some expected =>
      if bytes.length ≠ expected then
        .error (.segment
          s!"fixed string column {name} has {bytes.length} bytes, expected {expected}")
      else .ok (.fixedStr width (chunksExact width.toNat bytes))

def readColumn (dir : Path) (name : String) (dtype : DType) (rowCount : Nat) :
    Query TableError ColumnData := do
  let file ← Query.pureStep (ofResult (columnFileName name))
  let bytes ← Query.io .ofIo (.read (dir.join file))
  Query.pureStep (ofResult (decodeColumnBytes name dtype rowCount bytes))

/-! ## JSON files -/

/-- `fs::read_to_string`. -/
def readToString (path : Path) : Query TableError String := do
  let bytes ← Query.io .ofIo (.read path)
  match fromUtf8 bytes with
  | none => throw (.error (.ofIo .invalidData))
  | some text => return text

/-- `Path::exists`; a failed look-up counts as absence. -/
def pathExists (path : Path) : Query TableError Bool :=
  ExceptT.mk (Prog.call (.pathExists path) fun
    | .ok found => .ret (.ok found)
    | .error _ => .ret (.ok false))

def manifestFile : String := "manifest.json"

namespace Manifest

variable (serde : Serde)

/-- `Manifest::load`. -/
def load (tablePath : Path) : Query TableError Manifest := do
  let path := tablePath.join manifestFile
  let found ← pathExists path
  if ¬ found then return Manifest.new
  else do
    let text ← readToString path
    Query.pureStep (mapErr .manifest (ofResult (serde.manifest.fromStr text)))

/-- `Manifest::store`. -/
def store (m : Manifest) (tablePath : Path) : Query TableError Unit := do
  let path := tablePath.join manifestFile
  let tmp := tablePath.join "manifest.json.tmp"
  let text ← Query.pureStep (mapErr .manifest (ofResult (serde.manifest.toStringPretty m)))
  Query.io .ofIo (.write tmp (asBytes text))
  Query.io .ofIo (.rename tmp path)

end Manifest

def readMeta (serde : Serde) (dir : Path) : Query TableError SegmentMeta := do
  let text ← readToString (dir.join "meta.json")
  Query.pureStep (mapErr .segment (ofResult (serde.segmentMeta.fromStr text)))

def writeMeta (serde : Serde) (dir : Path) (info : SegmentMeta) : Query TableError Unit := do
  let text ← Query.pureStep (mapErr .segment (ofResult (serde.segmentMeta.toStringPretty info)))
  Query.io .ofIo (.write (dir.join "meta.json") (asBytes text))

/-! ## Sealing -/

/-- `batch.column(..).and_then(ColumnData::timestamp_values).ok_or_else(..)` -/
def timestampsOf (schema : Schema) (batch : RowBatch) : Outcome TableError (List Int64) :=
  match (batch.column schema.timestampColumn.name).bind ColumnData.timestampValues with
  | none => .error (.error (.missingColumn schema.timestampColumn.name))
  | some timestamps => .ok timestamps

/-- `batch.column(..).ok_or_else(..)` -/
def columnOf (batch : RowBatch) (name : String) : Outcome TableError ColumnData :=
  match batch.column name with
  | none => .error (.error (.missingColumn name))
  | some data => .ok data

/-- One turn of the column loop of `seal_batch`. -/
def sealColumn (dir : Path) (batch : RowBatch) (column : ColumnDef) :
    Query TableError ColumnMeta := do
  let file ← Query.pureStep (ofResult (columnFileName column.name))
  let data ← Query.pureStep (columnOf batch column.name)
  writeColumn (dir.join file) data
  return ⟨column.name, (dtypeMeta column.dtype).1, (dtypeMeta column.dtype).2, file⟩

def sealBatch (serde : Serde) (tablePath : Path) (schema : Schema) (segmentId : UInt64)
    (batch : RowBatch) : Query TableError ImmutableSegment := do
  let dir := (tablePath.join "segments").join (segmentDirName segmentId)
  Query.io .ofIo (.createDirAll dir)
  let timestamps ← Query.pureStep (timestampsOf schema batch)
  let columns ← schema.columns.mapM (sealColumn dir batch)
  let info : SegmentMeta :=
    ⟨segmentId, batch.rowCount, timestamps.min?, timestamps.max?, columns⟩
  writeMeta serde dir info
  return ⟨dir, info⟩

/-! ## Reading a segment -/

def validateColumnMeta (column : ColumnMeta) (dtype : DType) : Except TableError Unit :=
  let (expectedDtype, expectedWidth) := dtypeMeta dtype
  if column.dtype ≠ expectedDtype ∨ column.fixedWidth ≠ expectedWidth then
    .error (.segment (s!"column {column.name} metadata is {column.dtype} " ++
      s!"{debugWidth column.fixedWidth}, expected {expectedDtype} {debugWidth expectedWidth}"))
  else .ok ()
where
  /-- An `Option<usize>` in `{:?}` format. -/
  debugWidth : Option UInt64 → String
    | none => "None"
    | some width => s!"Some({width})"

def expectedColumnBytes (dtype : DType) (rowCount : Nat) : Except TableError Nat :=
  match checkedMul rowCount dtype.width with
  | none => .error (.segment "column byte count overflow")
  | some expected => .ok expected

namespace ImmutableSegment

/-- `ImmutableSegment::load`. -/
def load (serde : Serde) (tablePath : Path) (segment : SegmentRef) :
    Query TableError ImmutableSegment := do
  let path := tablePath.join segment.path
  let info ← readMeta serde path
  return ⟨path, info⟩

def id (segment : ImmutableSegment) : UInt64 := segment.info.id

/-- `ImmutableSegment::overlaps_time_range`. -/
def overlapsTimeRange (segment : ImmutableSegment) (start last : Int64) : Bool :=
  match segment.info.minTs, segment.info.maxTs with
  | some minTs, some maxTs => maxTs ≥ start && minTs < last
  | _, _ => false

/-- One turn of the column loop of `ImmutableSegment::read_batch`. -/
def readBatchColumn (segment : ImmutableSegment) (column : ColumnDef) :
    Query TableError (String × ColumnData) := do
  let data ← readColumn segment.path column.name column.dtype segment.info.rowCount
  return (column.name, data)

/-- `ImmutableSegment::read_batch`. -/
def readBatch (segment : ImmutableSegment) (schema : Schema) : Query TableError RowBatch := do
  let columns ← schema.columns.mapM segment.readBatchColumn
  return ⟨columns, segment.info.rowCount⟩

/-- `self.meta.column(name).ok_or_else(..)` -/
def metaColumn (segment : ImmutableSegment) (name : String) : Outcome TableError ColumnMeta :=
  match segment.info.column name with
  | none => .error (.error (.missingColumn name))
  | some column => .ok column

theorem metaColumn_eq_ok {segment : ImmutableSegment} {name : String} {cm : ColumnMeta} :
    segment.metaColumn name = .ok cm ↔ segment.info.column name = some cm := by
  unfold metaColumn
  split <;> simp [*]

/-- The length checks of `map_column`. -/
def checkMapLen (name : String) (actual expected : Nat) : Except TableError Unit :=
  if actual ≠ expected then
    .error (.segment s!"column {name} has {actual} bytes, expected {expected}")
  else if expected = 0 then
    .error (.segment s!"column {name} is empty and cannot be memory-mapped")
  else .ok ()

/-- `ImmutableSegment::map_column`. -/
def mapColumn (segment : ImmutableSegment) (name : String) (dtype : DType) :
    Query TableError MappedColumn := do
  let column ← Query.pureStep (segment.metaColumn name)
  Query.pureStep (ofResult (validateColumnMeta column dtype))
  let expectedLen ← Query.pureStep (ofResult (expectedColumnBytes dtype segment.info.rowCount))
  let path := segment.path.join column.file
  Query.io .ofIo (.openRead path)
  let actualLen ← Query.io .ofIo (.fileLen path)
  Query.pureStep (ofResult (checkMapLen name actualLen expectedLen))
  let mmap ← Query.io .ofIo (.read path)
  return ⟨name, dtype, segment.info.rowCount, mmap⟩

end ImmutableSegment

namespace MappedColumn

variable (column : MappedColumn)

/-- `MappedColumn::value_bytes`, and the slice of `fixed_str_value`. -/
def valueSlice (width index : Nat) : Option Bytes := do
  let start ← checkedMul index width
  let last ← checkedAdd start width
  if last ≤ column.mmap.length then some ((column.mmap.drop start).take width) else none

def f64Value (index : Nat) : Option UInt64 :=
  if column.dtype ≠ .f64 then none else (column.valueSlice 8 index).map u64Of

def i64Value (index : Nat) : Option Int64 :=
  if column.dtype ≠ .i64 ∧ column.dtype ≠ .timestamp then none
  else (column.valueSlice 8 index).map i64Of

def fixedStrValue (index : Nat) : Option Bytes :=
  match column.dtype with
  | .fixedStr width => column.valueSlice width.toNat index
  | _ => none

end MappedColumn

end BypassIo.Db
