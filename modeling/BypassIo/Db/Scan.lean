import BypassIo.Db.Segment

/-!
# Scan results

`scan.rs`: chunked columns, row selections, the vector kernels and the predicate filters.
The three chunk types of the source differ in their element type alone, so `Chunk` is one
type with the element and its reader as parameters.

Which kernel runs depends on the processor, so the filters take the detected `Features`.
-/

namespace BypassIo.Db
open Octet Rust Columns

/-! ## Row selections -/

inductive RowSelection where
  | all (len : Nat)
  | range (start len : Nat)
  | indices (rows : List Nat)
  deriving DecidableEq, Repr

namespace RowSelection

/-- `RowSelection::from_indices`. -/
def fromIndices (indices : List Nat) (totalRows : Nat) : RowSelection :=
  if indices.length = totalRows ∧ indices = List.range totalRows then .all totalRows
  else match indices with
    | [] => .range 0 0
    | first :: rest =>
      if rest.zipIdx.all fun (value, offset) => value = first + offset + 1 then
        .range first (first :: rest).length
      else .indices (first :: rest)

/-- `RowSelection::len`. -/
def len : RowSelection → Nat
  | .all len | .range _ len => len
  | .indices rows => rows.length

def isEmpty (s : RowSelection) : Bool := s.len = 0

def isIdentity : RowSelection → Bool
  | .all _ => true
  | _ => false

/-- `RowSelection::index_at`. -/
def indexAt : RowSelection → Nat → Option Nat
  | .all len, localIdx => if localIdx < len then some localIdx else none
  | .range start len, localIdx => if localIdx < len then some (start + localIdx) else none
  | .indices rows, localIdx => rows[localIdx]?

/-- What `RowSelectionIter` yields: `index_at` of 0, 1, … until it is `None`, which it is
from `len` on. -/
def iter (s : RowSelection) : List Nat := (List.range s.len).filterMap s.indexAt

/-- `RowSelection::take_local_indices`. -/
def takeLocalIndices (s : RowSelection) (localIndices : List Nat) : RowSelection :=
  fromIndices (localIndices.filterMap s.indexAt) s.len

end RowSelection

/-! ## Chunks -/

structure MappedSelection where
  column : MappedColumn
  rows : RowSelection
  deriving DecidableEq, Repr

/-- `F64Chunk`, `I64Chunk` and `FixedStrChunk`. -/
inductive Chunk (α : Type) where
  | owned (values : List α)
  | mapped (selection : MappedSelection)
  deriving DecidableEq, Repr

namespace Chunk

variable {α : Type}

def rowCount : Chunk α → Nat
  | .owned values => values.length
  | .mapped selection => selection.rows.len

variable (read : MappedColumn → Nat → Option α)

/-- The values of one chunk, as `flatten_*_chunks` collects them. -/
def values : Chunk α → List α
  | .owned values => values
  | .mapped selection => selection.rows.iter.filterMap (read selection.column)

/-- `flatten_*_chunks`. -/
def flatten (chunks : List (Chunk α)) : List α := chunks.flatMap (values read)

/-- `value_at_*`. -/
def valueAt : List (Chunk α) → Nat → Option α
  | [], _ => none
  | chunk :: chunks, index =>
    if index < chunk.rowCount then
      match chunk with
      | .owned values => values[index]?
      | .mapped selection => (selection.rows.indexAt index).bind (read selection.column)
    else valueAt chunks (index - chunk.rowCount)

end Chunk

/-- The inner loop of `group_indices_by_chunk`: the chunk of an index, and the index in it. -/
def locate (globalIdx : Nat) : List Nat → Nat → Nat → Option (Nat × Nat)
  | [], _, _ => none
  | len :: lengths, base, chunkIdx =>
    let last := saturatingAdd base len
    if base ≤ globalIdx ∧ globalIdx < last then some (chunkIdx, globalIdx - base)
    else locate globalIdx lengths last (chunkIdx + 1)

/-- One index more: onto the last group when it is in the same chunk. -/
def pushGroup (groups : List (Nat × List Nat)) (chunkIdx localIdx : Nat) : List (Nat × List Nat) :=
  match groups.getLast? with
  | none => groups ++ [(chunkIdx, [localIdx])]
  | some (lastChunk, values) =>
    if lastChunk = chunkIdx then groups.dropLast ++ [(lastChunk, values ++ [localIdx])]
    else groups ++ [(chunkIdx, [localIdx])]

/-- One turn of the outer loop of `group_indices_by_chunk`. -/
def addIndex (chunkLengths : List Nat) (groups : List (Nat × List Nat)) (globalIdx : Nat) :
    List (Nat × List Nat) :=
  match locate globalIdx chunkLengths 0 0 with
  | none => groups
  | some (chunkIdx, localIdx) => pushGroup groups chunkIdx localIdx

/-- `group_indices_by_chunk`. -/
def groupIndicesByChunk (indices chunkLengths : List Nat) : List (Nat × List Nat) :=
  indices.foldl (addIndex chunkLengths) []

namespace Chunk

variable {α : Type} {ε : Type}

/-- The rows of one group; indexing out of bounds panics. -/
def takeLocal (localIndices : List Nat) : Chunk α → Outcome ε (Chunk α)
  | .owned values => do
    let taken ← localIndices.mapM (index values)
    return .owned taken
  | .mapped selection =>
    .ok (.mapped { selection with rows := selection.rows.takeLocalIndices localIndices })

/-- One group of `take_*_chunks`. -/
def takeGroup (chunks : List (Chunk α)) (group : Nat × List Nat) : Outcome ε (Chunk α) := do
  let chunk ← index chunks group.1
  chunk.takeLocal group.2

/-- `take_*_chunks`. -/
def take (chunks : List (Chunk α)) (indices : List Nat) : Outcome ε (List (Chunk α)) :=
  (groupIndicesByChunk indices (chunks.map rowCount)).mapM (takeGroup chunks)

end Chunk

abbrev F64Chunk := Chunk UInt64
abbrev I64Chunk := Chunk Int64
abbrev FixedStrChunk := Chunk Bytes

/-! ## Columns -/

inductive ScanColumn where
  | f64 (chunks : List F64Chunk)
  | i64 (chunks : List I64Chunk)
  | timestamp (chunks : List I64Chunk)
  | fixedStr (width : UInt64) (chunks : List FixedStrChunk)
  deriving DecidableEq, Repr

namespace ScanColumn

def empty : DType → ScanColumn
  | .f64 => .f64 []
  | .i64 => .i64 []
  | .timestamp => .timestamp []
  | .fixedStr width => .fixedStr width []

/-- `ScanColumn::from_mapped`. -/
def fromMapped (column : MappedColumn) (rows : RowSelection) : ScanColumn :=
  match column.dtype with
  | .f64 => .f64 [.mapped ⟨column, rows⟩]
  | .i64 => .i64 [.mapped ⟨column, rows⟩]
  | .timestamp => .timestamp [.mapped ⟨column, rows⟩]
  | .fixedStr width => .fixedStr width [.mapped ⟨column, rows⟩]

/-- `impl From<ColumnData> for ScanColumn`. -/
def ofData : ColumnData → ScanColumn
  | .f64 values => .f64 [.owned values]
  | .i64 values => .i64 [.owned values]
  | .timestamp values => .timestamp [.owned values]
  | .fixedStr width values => .fixedStr width [.owned values]

/-- `ScanColumn::append`. -/
def append : ScanColumn → ScanColumn → Except ScanError ScanColumn
  | .f64 left, .f64 right => .ok (.f64 (left ++ right))
  | .i64 left, .i64 right => .ok (.i64 (left ++ right))
  | .timestamp left, .timestamp right => .ok (.timestamp (left ++ right))
  | .fixedStr leftWidth left, .fixedStr rightWidth right =>
    if leftWidth = rightWidth then .ok (.fixedStr leftWidth (left ++ right))
    else .error .columnTypeMismatch
  | _, _ => .error .columnTypeMismatch

/-- `ScanColumn::take_indices`. -/
def takeIndices {ε : Type} (indices : List Nat) : ScanColumn → Outcome ε ScanColumn
  | .f64 chunks => do return .f64 (← Chunk.take chunks indices)
  | .i64 chunks => do return .i64 (← Chunk.take chunks indices)
  | .timestamp chunks => do return .timestamp (← Chunk.take chunks indices)
  | .fixedStr width chunks => do return .fixedStr width (← Chunk.take chunks indices)

def f64Values : ScanColumn → Option (List UInt64)
  | .f64 chunks => some (Chunk.flatten MappedColumn.f64Value chunks)
  | _ => none

def i64Values : ScanColumn → Option (List Int64)
  | .i64 chunks | .timestamp chunks => some (Chunk.flatten MappedColumn.i64Value chunks)
  | _ => none

def timestampValues : ScanColumn → Option (List Int64)
  | .timestamp chunks => some (Chunk.flatten MappedColumn.i64Value chunks)
  | _ => none

def fixedStrValues : ScanColumn → Option (List Bytes)
  | .fixedStr _ chunks => some (Chunk.flatten MappedColumn.fixedStrValue chunks)
  | _ => none

/-- The column with its chunks flattened. -/
def flatten : ScanColumn → ColumnData
  | .f64 chunks => .f64 (Chunk.flatten MappedColumn.f64Value chunks)
  | .i64 chunks => .i64 (Chunk.flatten MappedColumn.i64Value chunks)
  | .timestamp chunks => .timestamp (Chunk.flatten MappedColumn.i64Value chunks)
  | .fixedStr width chunks => .fixedStr width (Chunk.flatten MappedColumn.fixedStrValue chunks)

end ScanColumn

/-! ## Vector kernels -/

/-- What `is_x86_feature_detected!` reports. -/
structure Features where
  avx : Bool
  avx2 : Bool

namespace F64

/-! IEEE comparisons of bit patterns. -/

def magnitude (x : UInt64) : Nat := x.toNat % 2 ^ 63

/-- Past the pattern of infinity. -/
def isNan (x : UInt64) : Bool := magnitude x > 0x7ff0000000000000

/-- A number in the order of the values; both zeros are 0. -/
def key (x : UInt64) : Int := if x.toNat < 2 ^ 63 then magnitude x else -magnitude x

def ge (a b : UInt64) : Bool := !isNan a && !isNan b && key a ≥ key b

def lt (a b : UInt64) : Bool := !isNan a && !isNan b && key a < key b

def gt (a b : UInt64) : Bool := !isNan a && !isNan b && key a > key b

end F64

/-- `u32::trailing_zeros`. -/
def trailingZeros (mask : UInt32) : Nat :=
  ((List.range 32).find? fun i => (mask >>> UInt32.ofNat i) &&& 1 = 1).getD 32

/-- The loop of `push_mask_indices`; every turn clears a bit, so 32 turns are enough. -/
def maskLanes : Nat → UInt32 → List Nat
  | 0, _ => []
  | turns + 1, mask =>
    if mask = 0 then [] else trailingZeros mask :: maskLanes turns (mask &&& (mask - 1))

/-- `push_mask_indices`. -/
def pushMaskIndices (mask : UInt32) (base : Nat) : List Nat := (maskLanes 32 mask).map (base + ·)

/-- `_mm256_movemask_pd` of four lanes that are all ones or all zeros. -/
def movemask (a b c d : Bool) : UInt32 :=
  (if a then 1 else 0) ||| (if b then 2 else 0) ||| (if c then 4 else 0) ||| (if d then 8 else 0)

/-- The shape of the vector kernels: four values at a time through a mask, and the values
that are left one by one. `idx` is the position of the first value. -/
def laneFilter {α : Type} (vector scalar : α → Bool) : List α → Nat → List Nat
  | a :: b :: c :: d :: rest, idx =>
    pushMaskIndices (movemask (vector a) (vector b) (vector c) (vector d)) idx ++
      laneFilter vector scalar rest (idx + 4)
  | rest, idx => (rest.zipIdx idx).filterMap fun (value, i) => if scalar value then some i else none

/-- The scalar test `value >= start && value < end`. -/
def inRange (start last : Int64) (value : Int64) : Bool := value ≥ start && value < last

def inRangeF64 (min max : UInt64) (value : UInt64) : Bool := F64.ge value min && F64.lt value max

/-- `i64::checked_sub(1)`. -/
def checkedPred (x : Int64) : Option Int64 := if x = Int64.minValue then none else some (x - 1)

/-- One lane of `range_filter_i64_bytes_avx2`. -/
def i64Lane (start last : Int64) (value : Int64) : Bool :=
  let ltEnd := value < last
  let geStart := match checkedPred start with
    | some before => decide (value > before)
    | none => true
  geStart && ltEnd

namespace Simd

variable (features : Features)

/-- The length check shared by the filters over bytes. -/
def checkBytes (bytes : Bytes) : Except ScanError Unit :=
  if bytes.length % 8 ≠ 0 then .error (.invalidColumnBytes bytes.length 8) else .ok ()

def rangeFilterI64Bytes (bytes : Bytes) (start last : Int64) : Except ScanError (List Nat) := do
  checkBytes bytes
  let values := (chunksExact 8 bytes).map i64Of
  return if features.avx2 then laneFilter (i64Lane start last) (inRange start last) values 0
    else positions (inRange start last) values

/-- The shape of the `f64` filters over values. -/
def filterF64Values (test : UInt64 → Bool) (values : List UInt64) : List Nat :=
  if features.avx then laneFilter test test values 0 else positions test values

def rangeFilterF64Values (values : List UInt64) (min max : UInt64) : List Nat :=
  filterF64Values features (inRangeF64 min max) values

def gtFilterF64Values (values : List UInt64) (threshold : UInt64) : List Nat :=
  filterF64Values features (F64.gt · threshold) values

/-- The shape of the `f64` filters over bytes. -/
def filterF64Bytes (test : UInt64 → Bool) (bytes : Bytes) : Except ScanError (List Nat) := do
  checkBytes bytes
  let values := (chunksExact 8 bytes).map u64Of
  return if features.avx then laneFilter test test values 0 else positions test values

/-- The shape of the `f64` filters over a mapped selection. -/
def filterF64Selection (test : UInt64 → Bool) (selection : MappedSelection) : List Nat :=
  match selection.rows.isIdentity, filterF64Bytes features test selection.column.mmap with
  | true, .ok indices => indices
  | _, _ =>
    selection.rows.iter.zipIdx.filterMap fun (mappedIdx, localIdx) =>
      ((selection.column.f64Value mappedIdx).filter test).map fun _ => localIdx

def rangeFilterF64Selection (selection : MappedSelection) (min max : UInt64) : List Nat :=
  filterF64Selection features (inRangeF64 min max) selection

def gtFilterF64Selection (selection : MappedSelection) (threshold : UInt64) : List Nat :=
  filterF64Selection features (F64.gt · threshold) selection

end Simd

/-! ## Predicates -/

/-- A `dyn ColumnPredicate`: its column, its two hints and its three tests. -/
structure ColumnPredicate where
  column : String
  f64Range : Option (UInt64 × UInt64)
  f64Gt : Option UInt64
  testF64 : UInt64 → Bool
  testI64 : Int64 → Bool
  testFixedStr : Bytes → Bool

namespace ScanColumn

/-- `ScanColumn::test_at`. -/
def testAt (column : ScanColumn) (index : Nat) (predicate : ColumnPredicate) : Bool :=
  match column with
  | .f64 chunks => (Chunk.valueAt MappedColumn.f64Value chunks index).any predicate.testF64
  | .i64 chunks | .timestamp chunks =>
    (Chunk.valueAt MappedColumn.i64Value chunks index).any predicate.testI64
  | .fixedStr _ chunks =>
    (Chunk.valueAt MappedColumn.fixedStrValue chunks index).any predicate.testFixedStr

/-- The chunk loop of `range_filter_f64` and `gt_filter_f64`. -/
def filterChunks (owned : List UInt64 → List Nat) (mapped : MappedSelection → List Nat) :
    List F64Chunk → Nat → List Nat
  | [], _ => []
  | chunk :: chunks, base =>
    let found := match chunk with
      | .owned values => owned values
      | .mapped selection => mapped selection
    found.map (base + ·) ++ filterChunks owned mapped chunks (base + chunk.rowCount)

/-- `ScanColumn::range_filter_f64`. -/
def rangeFilterF64 (features : Features) (column : ScanColumn) (min max : UInt64) :
    Option (List Nat) :=
  match column with
  | .f64 chunks => some (filterChunks (Simd.rangeFilterF64Values features · min max)
      (Simd.rangeFilterF64Selection features · min max) chunks 0)
  | _ => none

/-- `ScanColumn::gt_filter_f64`. -/
def gtFilterF64 (features : Features) (column : ScanColumn) (threshold : UInt64) :
    Option (List Nat) :=
  match column with
  | .f64 chunks => some (filterChunks (Simd.gtFilterF64Values features · threshold)
      (Simd.gtFilterF64Selection features · threshold) chunks 0)
  | _ => none

end ScanColumn

/-! ## Results -/

structure ScanResult where
  columns : List (String × ScanColumn)
  rowCount : Nat
  deriving DecidableEq, Repr

namespace ScanResult

def empty (schema : Schema) : ScanResult where
  columns := schema.columns.map fun column => (column.name, ScanColumn.empty column.dtype)
  rowCount := 0

/-- `ScanResult::from_batch`. -/
def fromBatch (batch : RowBatch) : ScanResult where
  columns := batch.columns.map fun (name, data) => (name, ScanColumn.ofData data)
  rowCount := batch.rowCount

/-- The zip loop of `append_columns`, with the number of columns appended. -/
def appendLoop : List (String × ScanColumn) → List (String × ScanColumn) →
    Except ScanError (List (String × ScanColumn) × Nat)
  | (name, incoming) :: columns, (expectedName, existing) :: self =>
    if name ≠ expectedName then .error .columnOrderMismatch
    else do
      let both ← existing.append incoming
      let (rest, count) ← appendLoop columns self
      return ((expectedName, both) :: rest, count + 1)
  | _, self => .ok (self, 0)

/-- `ScanResult::append_columns`. -/
def appendColumns (r : ScanResult) (columns : List (String × ScanColumn)) (rowCount : Nat) :
    Except ScanError ScanResult := do
  let (appended, count) ← appendLoop columns r.columns
  if count ≠ r.columns.length then throw .columnOrderMismatch
  match checkedAdd r.rowCount rowCount with
  | none => throw .rowCountOverflow
  | some total => return ⟨appended, total⟩

/-- `ScanResult::append_batch`. -/
def appendBatch (r : ScanResult) (batch : RowBatch) : Except ScanError ScanResult :=
  r.appendColumns (batch.columns.map fun (name, data) => (name, ScanColumn.ofData data))
    batch.rowCount

/-- `ScanResult::append_mapped_columns`. -/
def appendMappedColumns (r : ScanResult) (columns : List (String × MappedColumn))
    (selection : RowSelection) : Except ScanError ScanResult :=
  r.appendColumns
    (columns.map fun (name, column) => (name, ScanColumn.fromMapped column selection))
    selection.len

/-- `ScanResult::take_indices`. -/
def takeIndices {ε : Type} (r : ScanResult) (indices : List Nat) : Outcome ε ScanResult := do
  let columns ← r.columns.mapM fun (name, column) => do
    let taken ← column.takeIndices indices
    return (name, taken)
  return ⟨columns, indices.length⟩

/-- `ScanResult::column`. -/
def column (r : ScanResult) (name : String) : Option ScanColumn :=
  r.columns.findSome? fun (column, data) => if column = name then some data else none

end ScanResult

/-- The last loop of `filter_scan_indices`. -/
def testRows (result : ScanResult) (column : ScanColumn) (predicate : ColumnPredicate) :
    List Nat := (List.range result.rowCount).filter fun idx => column.testAt idx predicate

/-- The first filter of `filter_scan_indices` that applies. -/
def filterColumn (features : Features) (result : ScanResult) (column : ScanColumn)
    (predicate : ColumnPredicate) : List Nat :=
  match predicate.f64Range.bind fun (min, max) => column.rangeFilterF64 features min max with
  | some indices => indices
  | none =>
    match predicate.f64Gt.bind fun threshold => column.gtFilterF64 features threshold with
    | some indices => indices
    | none => testRows result column predicate

/-- `filter_scan_indices`. -/
def filterScanIndices (features : Features) (result : ScanResult) (predicate : ColumnPredicate) :
    Except ScanError (List Nat) :=
  match result.column predicate.column with
  | none => .error (.unknownColumn predicate.column)
  | some column => .ok (filterColumn features result column predicate)

/-- `range_filter_i64_mapped`. -/
def rangeFilterI64Mapped (features : Features) (column : MappedColumn) (start last : Int64) :
    Except ScanError (List Nat) := Simd.rangeFilterI64Bytes features column.mmap start last

end BypassIo.Db
