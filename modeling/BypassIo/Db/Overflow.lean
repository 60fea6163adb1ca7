import BypassIo.Db.ReadPaths

/-!
# Overflowing row counts

`read_column` compares the length of a file with the row count of `meta.json` times the width of
a value. For fixed strings the product is checked; for numbers it is a plain `row_count * 8`,
which a release build wraps and a build with overflow checks panics on. From `2 ^ 61` rows on, a
file of the wrapped length passes the comparison.

## Main definitions

* `readColumnIn`: `read_column` in either build.
* `LengthsChecked`: no product of a segment's columns overflows, and every column that is read
  has the segment's row count.

## Main results

* `lengthsChecked_iff`: the segments of which this holds.
-/

namespace BypassIo.Db
open Octet Rust FileSystem Columns

variable {schema : Schema} {d d' : Disk} {segment : ImmutableSegment} {column : ColumnDef}
variable {dir : Path} {name : String} {dtype : DType} {n : Nat} {bytes : Bytes} {data : ColumnData}
variable {build : Build}

/-! ## Reading in either build -/

/-- `read_f64_values` and `read_i64_values`, by the value of 8 bytes and the message. -/
def readValuesIn {α : Type} (value : Bytes → α) (message : Nat → Nat → String) (build : Build)
    (bytes : Bytes) (rowCount : Nat) : Outcome TableError (List α) := do
  if bytes.length ≠ (← build.mul rowCount 8) then
    let expected ← build.mul rowCount 8
    throw (.error (.segment (message bytes.length expected)))
  return (chunksExact 8 bytes).map value

def readF64ValuesIn : Build → Bytes → Nat → Outcome TableError (List UInt64) :=
  readValuesIn u64Of fun len expected => s!"f64 column has {len} bytes, expected {expected}"

def readI64ValuesIn : Build → Bytes → Nat → Outcome TableError (List Int64) :=
  readValuesIn i64Of fun len expected => s!"i64 column has {len} bytes, expected {expected}"

/-- The `match dtype` of `read_column`; that of fixed strings is the same in every build. -/
def decodeColumnBytesIn (build : Build) (name : String) (dtype : DType) (rowCount : Nat)
    (bytes : Bytes) : Outcome TableError ColumnData :=
  match dtype with
  | .f64 => do return .f64 (← readF64ValuesIn build bytes rowCount)
  | .i64 => do return .i64 (← readI64ValuesIn build bytes rowCount)
  | .timestamp => do return .timestamp (← readI64ValuesIn build bytes rowCount)
  | .fixedStr _ => ofResult (decodeColumnBytes name dtype rowCount bytes)

def readColumnIn (build : Build) (dir : Path) (name : String) (dtype : DType) (rowCount : Nat) :
    Query TableError ColumnData := do
  let file ← Query.pureStep (ofResult (columnFileName name))
  let bytes ← Query.io .ofIo (.read (dir.join file))
  Query.pureStep (decodeColumnBytesIn build name dtype rowCount bytes)

section Product

variable (product : (build.mul n 8 : Outcome TableError Nat) = .ok (wrappingMul n 8))
include product

/-- The builds read alike where they have the same product. -/
theorem readValuesIn_eq {α : Type} (value : Bytes → α) (message : Nat → Nat → String) :
    readValuesIn value message build bytes n = ofResult
      (if bytes.length ≠ wrappingMul n 8 then
        .error (.segment (message bytes.length (wrappingMul n 8)))
      else .ok ((chunksExact 8 bytes).map value)) := by
  unfold readValuesIn
  rw [product]
  by_cases size : bytes.length = wrappingMul n 8
  · simp [size, bind, Except.bind, pure, Except.pure]
  · simp [size, bind, Except.bind, throw, throwThe, MonadExceptOf.throw]

theorem readF64ValuesIn_eq : readF64ValuesIn build bytes n = ofResult (readF64Values bytes n) :=
  readValuesIn_eq product u64Of _

theorem readI64ValuesIn_eq : readI64ValuesIn build bytes n = ofResult (readI64Values bytes n) :=
  readValuesIn_eq product i64Of _

end Product

theorem decodeColumnBytesIn_eq (product : dtype.isNumber →
      (build.mul n 8 : Outcome TableError Nat) = .ok (wrappingMul n 8)) :
    decodeColumnBytesIn build name dtype n bytes = ofResult (decodeColumnBytes name dtype n bytes) := by
  cases dtype with
  | f64 =>
    rw [decodeColumnBytesIn, readF64ValuesIn_eq (product rfl), decodeColumnBytes]
    cases readF64Values bytes n <;> rfl
  | i64 | timestamp =>
    rw [decodeColumnBytesIn, readI64ValuesIn_eq (product rfl), decodeColumnBytes]
    cases readI64Values bytes n <;> rfl
  | fixedStr width => rfl

/-- The release build is the one that `readColumn` models. -/
theorem readColumnIn_release : readColumnIn .release = readColumn := by
  funext dir name dtype n
  unfold readColumnIn readColumn
  have same : ∀ bytes, decodeColumnBytesIn .release name dtype n bytes =
      ofResult (decodeColumnBytes name dtype n bytes) := fun _ => decodeColumnBytesIn_eq fun _ => rfl
  simp only [same]

theorem decodeColumnBytesIn_debug_panic :
    decodeColumnBytesIn .debug name dtype n bytes = .error .panic ↔
      dtype.isNumber ∧ usizeMax < n * 8 := by
  by_cases large : dtype.isNumber ∧ usizeMax < n * 8
  · have panics : (Build.debug.mul n 8 : Outcome TableError Nat) = .error .panic :=
      if_neg (by omega)
    have number := large.1
    cases dtype with
    | f64 =>
      simp [decodeColumnBytesIn, readF64ValuesIn, readValuesIn, panics, bind, Except.bind, large]
    | i64 | timestamp =>
      simp [decodeColumnBytesIn, readI64ValuesIn, readValuesIn, panics, bind, Except.bind, large]
    | fixedStr width => cases number
  · rw [decodeColumnBytesIn_eq]
    · cases decodeColumnBytes name dtype n bytes <;> simp [large]
    · intro number
      have fits : n * 8 ≤ usizeMax := by
        by_contra h
        exact large ⟨number, by omega⟩
      rw [Build.mul_of_le fits, wrappingMul_of_le fits]

/-! ## What is read -/

/-- The bytes of the file named after the column. -/
def ColumnFile (d : Disk) (dir : Path) (name : String) (bytes : Bytes) : Prop :=
  ∃ file, columnFileName name = .ok file ∧ d.files (dir.join file) = some bytes

theorem readColumnIn_exec (found : ColumnFile d dir name bytes) :
    (readColumnIn build dir name dtype n).exec d =
      (decodeColumnBytesIn build name dtype n bytes, d) := by
  obtain ⟨file, named, held⟩ := found
  rw [readColumnIn, named, ofResult_ok]
  refine (Query.exec_bind_ok (Query.exec_pureStep _ d)).trans ?_
  rw [Query.exec_bind_ok (Query.exec_read_eq_ok.mpr ⟨held, rfl⟩), Query.exec_pureStep]

theorem readColumnIn_exec_absent (absent : ∀ bytes, ¬ ColumnFile d dir name bytes) :
    ∃ e, (readColumnIn build dir name dtype n).exec d = (.error (.error e), d) := by
  rw [readColumnIn, Query.exec_bind, Query.exec_pureStep]
  cases named : columnFileName name with
  | error e => exact ⟨e, rfl⟩
  | ok file =>
    cases held : d.files (dir.join file) with
    | none =>
      have missing : (Query.io TableError.ofIo (.read (dir.join file))).exec d =
          (.error (.error (.ofIo .notFound)), d) := by
        rw [Query.exec_io, Call.effect, held]
      simp only [ofResult_ok, Query.exec_bind]
      rw [missing]
      exact ⟨_, rfl⟩
    | some bytes => exact absurd ⟨file, named, held⟩ (absent bytes)

theorem readColumn_exec_eq_ok : (readColumn dir name dtype n).exec d = (.ok data, d') ↔
    d' = d ∧ ∃ bytes, ColumnFile d dir name bytes ∧
      decodeColumnBytes name dtype n bytes = .ok data := by
  rw [← readColumnIn_release]
  constructor
  · intro h
    by_cases present : ∃ bytes, ColumnFile d dir name bytes
    · obtain ⟨bytes, found⟩ := present
      rw [readColumnIn_exec found, decodeColumnBytesIn_eq fun _ => rfl] at h
      obtain ⟨decoded, rfl⟩ := Prod.mk.inj h
      exact ⟨rfl, bytes, found, ofResult_eq_ok.mp decoded⟩
    · push Not at present
      obtain ⟨e, failed⟩ := readColumnIn_exec_absent present
      cases failed.symm.trans h
  · rintro ⟨rfl, bytes, found, decoded⟩
    rw [readColumnIn_exec found, decodeColumnBytesIn_eq fun _ => rfl, decoded, ofResult_ok]

/-- The values of numbers fill the wrapped product. -/
theorem decodeColumnBytes_room (number : dtype.isNumber)
    (h : decodeColumnBytes name dtype n bytes = .ok data) : data.rowCount * 8 ≤ wrappingMul n 8 := by
  have size := (decodeColumnBytes_ok_iff name).mp ⟨data, h⟩
  cases dtype with
  | f64 =>
    simp only [decodeColumnBytes, readF64Values] at h
    split at h <;> cases h
    simp only [ColumnData.rowCount, List.length_map, length_chunksExact]
    grind [readLen]
  | i64 | timestamp =>
    simp only [decodeColumnBytes, readI64Values] at h
    split at h <;> cases h
    simp only [ColumnData.rowCount, List.length_map, length_chunksExact]
    grind [readLen]
  | fixedStr width => cases number

/-- A column that is read has the row count when the product fits. -/
theorem rowCount_of_decodeColumnBytes (h : decodeColumnBytes name dtype n bytes = .ok data)
    (width : dtype ≠ .fixedStr 0) : data.rowCount = n ↔ (dtype.isNumber → n * 8 ≤ usizeMax) := by
  constructor
  · rintro rfl number
    have room := decodeColumnBytes_room number h
    unfold wrappingMul at room
    unfold usizeMax
    omega
  · intro fits
    exact (decodeColumnBytes_shape h fits width).rowCount

/-! ## Length checks of a segment -/

/-- A column of the schema is read only with the row count of the segment. -/
def ValuesCounted (d : Disk) (segment : ImmutableSegment) (schema : Schema) : Prop :=
  ∀ column ∈ schema.columns, ∀ data d',
    (readColumn segment.path column.name column.dtype segment.info.rowCount).exec d =
      (.ok data, d') → data.rowCount = segment.info.rowCount

/-- Reading a column with overflow checks does not panic. -/
def NoOverflow (d : Disk) (segment : ImmutableSegment) (schema : Schema) : Prop :=
  ∀ column ∈ schema.columns,
    ((readColumnIn .debug segment.path column.name column.dtype segment.info.rowCount).exec d).1 ≠
      .error .panic

/-- The columns of a batch that is read have its row count. -/
def BatchCounted (d : Disk) (segment : ImmutableSegment) (schema : Schema) : Prop :=
  ∀ b d', (segment.readBatch schema).exec d = (.ok b, d') →
    ∀ c ∈ b.columns, c.2.rowCount = b.rowCount

structure LengthsChecked (d : Disk) (segment : ImmutableSegment) (schema : Schema) : Prop where
  values : ValuesCounted d segment schema
  products : NoOverflow d segment schema
  batch : BatchCounted d segment schema

theorem valuesCounted_iff : ValuesCounted d segment schema ↔
    segment.info.rowCount * 8 ≤ usizeMax ∨ ∀ column ∈ schema.columns, column.dtype.isNumber →
      ∀ bytes, ¬ NamedFile d segment column bytes := by
  constructor
  · intro counted
    by_cases fits : segment.info.rowCount * 8 ≤ usizeMax
    · exact .inl fits
    · refine .inr fun column hc number bytes named => fits ?_
      obtain ⟨data, decoded⟩ := (decodeColumnBytes_ok_iff column.name).mpr named.size
      have same := counted column hc data d
        (readColumn_exec_eq_ok.mpr ⟨rfl, bytes, named.file, decoded⟩)
      exact (rowCount_of_decodeColumnBytes decoded column.width_ne).mp same number
  · intro holds column hc data d' read
    obtain ⟨-, bytes, found, decoded⟩ := readColumn_exec_eq_ok.mp read
    refine (rowCount_of_decodeColumnBytes decoded column.width_ne).mpr fun number => ?_
    obtain fits | unread := holds
    · exact fits
    · have size := (decodeColumnBytes_ok_iff column.name).mp ⟨data, decoded⟩
      exact absurd ⟨found, size⟩ (unread column hc number bytes)

theorem noOverflow_iff : NoOverflow d segment schema ↔
    segment.info.rowCount * 8 ≤ usizeMax ∨ ∀ column ∈ schema.columns, column.dtype.isNumber →
      ∀ bytes, ¬ ColumnFile d segment.path column.name bytes := by
  constructor
  · intro safe
    by_cases fits : segment.info.rowCount * 8 ≤ usizeMax
    · exact .inl fits
    · refine .inr fun column hc number bytes found => safe column hc ?_
      rw [readColumnIn_exec found]
      exact decodeColumnBytesIn_debug_panic.mpr ⟨number, by omega⟩
  · intro holds column hc panics
    by_cases present : ∃ bytes, ColumnFile d segment.path column.name bytes
    · obtain ⟨bytes, found⟩ := present
      rw [readColumnIn_exec found] at panics
      obtain ⟨number, large⟩ := decodeColumnBytesIn_debug_panic.mp panics
      obtain fits | absent := holds
      · omega
      · exact absent column hc number bytes found
    · push Not at present
      obtain ⟨e, failed⟩ := readColumnIn_exec_absent present
      rw [failed] at panics
      cases panics

theorem batchCounted_iff : BatchCounted d segment schema ↔
    segment.info.rowCount * 8 ≤ usizeMax ∨
      ∃ column ∈ schema.columns, ∀ bytes, ¬ NamedFile d segment column bytes := by
  constructor
  · intro counted
    by_cases readable : ∀ column ∈ schema.columns, ∃ bytes, NamedFile d segment column bytes
    · -- The timestamps are numbers, so their count says that the product fits.
      obtain ⟨b, read⟩ := readBatch_ok_iff.mpr readable
      obtain ⟨columns, count⟩ := readBatch_exec_eq_ok read
      obtain ⟨c, hc, from_file⟩ := exists_of_forall₂_left columns schema.timestampColumn_mem
      obtain ⟨-, file, bytes, -, -, decoded⟩ := from_file
      have same : c.2.rowCount = segment.info.rowCount := (counted b d read c hc).trans count
      refine .inl ((rowCount_of_decodeColumnBytes decoded ?_).mp same ?_)
      · exact schema.timestampColumn.width_ne
      · rw [schema.timestampColumn_dtype]
        rfl
    · push Not at readable
      exact .inr readable
  · intro holds b d' read c hc
    obtain ⟨columns, count⟩ := readBatch_exec_eq_ok read
    obtain ⟨column, mem, -, file, bytes, named, held, decoded⟩ :=
      exists_of_forall₂_right columns hc
    rw [count]
    refine (rowCount_of_decodeColumnBytes decoded column.width_ne).mpr fun _ => ?_
    obtain fits | ⟨unread, hu, none⟩ := holds
    · exact fits
    · obtain ⟨c', -, -, file', bytes', named', held', decoded'⟩ :=
        exists_of_forall₂_left columns hu
      have size := (decodeColumnBytes_ok_iff unread.name).mp ⟨c'.2, decoded'⟩
      exact absurd ⟨⟨file', named', held'⟩, size⟩ (none bytes')

/-- The lengths are checked exactly where eight bytes a row fit a `usize`, or no column of numbers
has a file to compare with. -/
theorem lengthsChecked_iff (schema : Schema) (d : Disk) (segment : ImmutableSegment) :
    LengthsChecked d segment schema ↔
      segment.info.rowCount * 8 ≤ usizeMax ∨ ∀ column ∈ schema.columns, column.dtype.isNumber →
        ∀ bytes, ¬ ColumnFile d segment.path column.name bytes := by
  rw [← noOverflow_iff]
  constructor
  · exact LengthsChecked.products
  · intro safe
    have either := noOverflow_iff.mp safe
    refine ⟨valuesCounted_iff.mpr ?_, safe, batchCounted_iff.mpr ?_⟩
    · refine either.imp id fun absent column hc number bytes named => ?_
      exact absent column hc number bytes named.file
    · refine either.imp id fun absent => ⟨_, schema.timestampColumn_mem, fun bytes named => ?_⟩
      have number : schema.timestampColumn.dtype.isNumber := by
        rw [schema.timestampColumn_dtype]
        rfl
      exact absent _ schema.timestampColumn_mem number bytes named.file

/-! ### Empty files -/

/-- The empty files of two columns. -/
def emptyFiles : Disk :=
  ((⟨fun _ => none, fun _ => true⟩ : Disk).setFile ["ts.col"] (some [])).setFile ["px.col"] (some [])

/-- A segment of `2 ^ 61` rows. -/
def hugeSegment : ImmutableSegment where
  path := []
  info := {
    id := 1
    rowCount := 2 ^ 61
    minTs := none
    maxTs := none
    columns := [⟨"ts", "Timestamp", none, "ts.col"⟩, ⟨"px", "F64", none, "px.col"⟩] }

theorem hugeSegment_column (hc : column ∈ quoteSchema.columns) : ∃ file,
    columnFileName column.name = .ok file ∧
      emptyFiles.files (hugeSegment.path.join file) = some [] := by
  have joins : ∀ file, IsName file → hugeSegment.path.join file = [file] :=
    fun file h => Path.join_of_isName [] h
  simp only [quoteSchema, List.mem_cons, List.not_mem_nil, or_false] at hc
  obtain rfl | rfl := hc
  · refine ⟨"ts.col", by decide, ?_⟩
    rw [joins _ (by decide)]
    rfl
  · refine ⟨"px.col", by decide, ?_⟩
    rw [joins _ (by decide)]
    rfl

theorem hugeSegment_readBatch : (hugeSegment.readBatch quoteSchema).exec emptyFiles =
    (.ok ⟨[("ts", .timestamp []), ("px", .f64 [])], 2 ^ 61⟩, emptyFiles) := by
  have each : ∀ column ∈ quoteSchema.columns, ∀ data,
      decodeColumnBytes column.name column.dtype (2 ^ 61) [] = .ok data →
      (hugeSegment.readBatchColumn column).exec emptyFiles =
        (.ok (column.name, data), emptyFiles) := by
    intro column hc data decoded
    obtain ⟨file, named, held⟩ := hugeSegment_column hc
    exact readBatchColumn_exec_iff.mpr ⟨rfl, rfl, file, [], named, held, decoded⟩
  have loop : List.Forall₂ (fun column c =>
      (hugeSegment.readBatchColumn column).exec emptyFiles = (.ok c, emptyFiles))
      quoteSchema.columns [("ts", .timestamp []), ("px", .f64 [])] :=
    .cons (each tsColumn (by simp [quoteSchema]) _ rfl)
      (.cons (each pxColumn (by simp [quoteSchema]) _ rfl) .nil)
  rw [ImmutableSegment.readBatch, Query.exec_bind_ok (Query.exec_mapM_ok loop)]
  rfl

/-- Its batch has `2 ^ 61` rows and no values. -/
theorem empty_files_read_as_rows : hugeSegment.info.rowCount ≤ usizeMax ∧
    (hugeSegment.readBatch quoteSchema).exec emptyFiles =
      (.ok ⟨[("ts", .timestamp []), ("px", .f64 [])], 2 ^ 61⟩, emptyFiles) ∧
    ¬ LengthsChecked emptyFiles hugeSegment quoteSchema := by
  refine ⟨by decide, hugeSegment_readBatch, fun checked => ?_⟩
  have counted := checked.batch _ _ hugeSegment_readBatch ("ts", .timestamp []) (by simp)
  simp [ColumnData.rowCount] at counted

end BypassIo.Db
