import BypassIo.Db.Codec
import BypassIo.Db.Flatten
import BypassIo.Db.Project

/-!
# Two ways to read a segment

`read_batch` takes the file named after the column and never looks at the list of columns in
the metadata. `map_column` takes the file that the metadata names, after it has compared the
metadata's type with the one asked for.

## Main results

* `readBatch_ok_iff`, `mapColumn_eq_ok`: what each of them needs.
* `read_paths_agree_iff`: the segments on which they agree.
-/

namespace BypassIo.Db
open Octet Rust FileSystem Columns

variable {schema : Schema} {d d' : Disk} {segment : ImmutableSegment} {column : ColumnDef}
variable {dtype : DType} {n : Nat} {bytes : Bytes} {data : ColumnData}

/-! ## Bytes of a column -/

/-- The number of bytes that `read_column` expects; the product of numbers wraps. -/
def readLen (dtype : DType) (n : Nat) : Option Nat :=
  match dtype with
  | .fixedStr width => checkedMul n width.toNat
  | _ => some (wrappingMul n 8)

theorem readLen_of_le (fits : n * dtype.width ≤ usizeMax) :
    readLen dtype n = some (n * dtype.width) := by
  cases dtype with
  | f64 | i64 | timestamp => exact congrArg some (wrappingMul_of_le fits)
  | fixedStr w => exact checkedMul_of_le fits

theorem decodeColumnBytes_ok_iff (name : String) :
    (∃ data, decodeColumnBytes name dtype n bytes = .ok data) ↔ readLen dtype n = some bytes.length := by
  cases dtype with
  | f64 =>
    simp only [decodeColumnBytes, readF64Values, readLen]
    split <;> simp_all [Except.map, eq_comm]
  | i64 | timestamp =>
    simp only [decodeColumnBytes, readI64Values, readLen]
    split <;> simp_all [Except.map, eq_comm]
  | fixedStr w =>
    simp only [decodeColumnBytes, readLen]
    cases checkedMul n w.toNat with
    | none => simp
    | some expected =>
      dsimp only
      split <;> simp_all [eq_comm]

/-! ## What each path needs -/

/-- The file named after the column holds these bytes, as many as the rows take. -/
structure NamedFile (d : Disk) (segment : ImmutableSegment) (column : ColumnDef) (bytes : Bytes) :
    Prop where
  file : ∃ file, columnFileName column.name = .ok file ∧
    d.files (segment.path.join file) = some bytes
  size : readLen column.dtype segment.info.rowCount = some bytes.length

theorem readBatchColumn_exec_iff {c : String × ColumnData} :
    (segment.readBatchColumn column).exec d = (.ok c, d') ↔ d' = d ∧ c.1 = column.name ∧
      ∃ file bytes, columnFileName column.name = .ok file ∧
        d.files (segment.path.join file) = some bytes ∧
        decodeColumnBytes column.name column.dtype segment.info.rowCount bytes = .ok c.2 := by
  constructor
  · intro h
    have from_file := readBatchColumn_exec_eq_ok h
    have only_reads : (segment.readBatchColumn column).ReadOnly :=
      (readColumn_readOnly _ _ _ _).bind fun _ => Query.readOnly_pure _
    have still := only_reads.exec_snd d
    rw [h] at still
    exact ⟨still, from_file.name, from_file.file⟩
  · rintro ⟨rfl, name, file, bytes, named, held, decoded⟩
    have read : (readColumn segment.path column.name column.dtype segment.info.rowCount).exec d' =
        (.ok c.2, d') := by
      rw [readColumn, named, ofResult_ok]
      refine (Query.exec_bind_ok (Query.exec_pureStep _ d')).trans ?_
      rw [Query.exec_bind_ok (Query.exec_read_eq_ok.mpr ⟨held, rfl⟩), decoded]
      rfl
    rw [ImmutableSegment.readBatchColumn, Query.exec_bind_ok read, ← name]
    rfl

theorem readBatch_ok_iff : (∃ b, (segment.readBatch schema).exec d = (.ok b, d)) ↔
    ∀ column ∈ schema.columns, ∃ bytes, NamedFile d segment column bytes := by
  have only_reads : ∀ column, (segment.readBatchColumn column).ReadOnly := fun _ =>
    (readColumn_readOnly _ _ _ _).bind fun _ => Query.readOnly_pure _
  constructor
  · rintro ⟨b, h⟩ column hc
    obtain ⟨c, -, -, file, bytes, named, held, decoded⟩ :=
      exists_of_forall₂_left (readBatch_exec_eq_ok h).1 hc
    exact ⟨bytes, ⟨file, named, held⟩, (decodeColumnBytes_ok_iff column.name).mp ⟨_, decoded⟩⟩
  · intro readable
    have each : ∀ column ∈ schema.columns, ∃ c,
        (segment.readBatchColumn column).exec d = (.ok c, d) := by
      intro column hc
      obtain ⟨bytes, ⟨file, named, held⟩, size⟩ := readable column hc
      obtain ⟨data, decoded⟩ := (decodeColumnBytes_ok_iff column.name).mpr size
      exact ⟨(column.name, data),
        readBatchColumn_exec_iff.mpr ⟨rfl, rfl, file, bytes, named, held, decoded⟩⟩
    obtain ⟨columns, all⟩ := exists_forall₂ each
    refine ⟨⟨columns, segment.info.rowCount⟩, ?_⟩
    rw [ImmutableSegment.readBatch, Query.exec_bind_ok (Query.exec_mapM_ok all)]
    rfl

/-! ## Agreement -/

/-- Both paths return or neither does, and what they return holds the same values. -/
structure PathsAgree (d : Disk) (segment : ImmutableSegment) (schema : Schema) : Prop where
  return_together : (∃ b, (segment.readBatch schema).exec d = (.ok b, d)) ↔
    ∀ column ∈ schema.columns, ∃ mapped,
      (segment.mapColumn column.name column.dtype).exec d = (.ok mapped, d)
  same_values : ∀ b, (segment.readBatch schema).exec d = (.ok b, d) →
    ∀ column ∈ schema.columns, ∀ mapped,
      (segment.mapColumn column.name column.dtype).exec d = (.ok mapped, d) →
      ∃ data, b.column column.name = some data ∧ mapped.Holds data

theorem NamedFile.bytes_unique {bytes' : Bytes} (h : NamedFile d segment column bytes)
    (h' : NamedFile d segment column bytes') : bytes = bytes' := by
  obtain ⟨⟨file, named, held⟩, -⟩ := h
  obtain ⟨⟨file', named', held'⟩, -⟩ := h'
  obtain rfl := Except.ok.inj (named.symm.trans named')
  exact Option.some.inj (held.symm.trans held')

theorem ListedFile.bytes_unique {bytes' : Bytes} (h : ListedFile d segment column bytes)
    (h' : ListedFile d segment column bytes') : bytes = bytes' := by
  obtain ⟨⟨cm, listed, -, held⟩, -⟩ := h
  obtain ⟨⟨cm', listed', -, held'⟩, -⟩ := h'
  obtain rfl := Option.some.inj (listed.symm.trans listed')
  exact Option.some.inj (held.symm.trans held')

/-- The values that a mapped column holds are determined by its type. -/
theorem MappedColumn.Holds.unique {mapped : MappedColumn} {data data' : ColumnData}
    (h : mapped.Holds data) (h' : mapped.Holds data') (type : data.matchesDtype dtype)
    (type' : data'.matchesDtype dtype) : data = data' := by
  cases data <;> cases data' <;> cases dtype <;> simp [ColumnData.matchesDtype] at type type'
  all_goals
    simp only [Holds] at h h'
    have same := List.ext_getElem? fun i => (h i).symm.trans (h' i)
    simp_all

/-- A mapped file as long as its rows holds a column of them. -/
theorem MappedColumn.exists_holds (name : String) (width : dtype ≠ .fixedStr 0)
    (size : checkedMul n dtype.width = some bytes.length) :
    n * dtype.width ≤ usizeMax ∧ ∃ data, data.HasShape dtype n ∧ bytes = valueBytes data ∧
      Holds ⟨name, dtype, n, bytes⟩ data := by
  obtain ⟨fits, size⟩ := checkedMul_eq_some.mp size
  refine ⟨fits, ?_⟩
  obtain ⟨data, decoded⟩ := (decodeColumnBytes_ok_iff name).mpr
    ((readLen_of_le fits).trans (congrArg some size.symm))
  obtain ⟨shape, rfl⟩ := (decodeColumnBytes_iff _ fits width).mp decoded
  exact ⟨data, shape, rfl, holds_valueBytes name shape fits (DType.width_pos width)⟩

/-- What `map_column` maps decodes to a column of the row count, which it holds. -/
theorem ListedFile.holds (h : ListedFile d segment column bytes) (name : String) :
    segment.info.rowCount * column.dtype.width ≤ usizeMax ∧
      ∃ data, data.HasShape column.dtype segment.info.rowCount ∧ bytes = valueBytes data ∧
        MappedColumn.Holds ⟨name, column.dtype, segment.info.rowCount, bytes⟩ data :=
  MappedColumn.exists_holds name column.width_ne h.size

/-- What `read_batch` returns for a column, in terms of the file it reads. -/
theorem readBatch_column {b : RowBatch} (read : (segment.readBatch schema).exec d = (.ok b, d'))
    (hc : column ∈ schema.columns) (fits : segment.info.rowCount * column.dtype.width ≤ usizeMax) :
    ∃ data, b.column column.name = some data ∧
      data.HasShape column.dtype segment.info.rowCount ∧
      NamedFile d segment column (valueBytes data) := by
  obtain ⟨columns, -⟩ := readBatch_exec_eq_ok read
  have names : b.columns.map (·.1) = schema.names :=
    map_eq_of_forall₂ columns fun _ _ from_file => from_file.name
  obtain ⟨i, hi⟩ := List.mem_iff_getElem?.mp hc
  obtain ⟨⟨name, data⟩, here, rfl, file, bytes, named, held, decoded⟩ := forall₂_getElem? columns hi
  have unique : (b.columns.map (·.1)).Nodup := names ▸ schema.nodup_names
  obtain ⟨shape, rfl⟩ := (decodeColumnBytes_iff _ fits column.width_ne).mp decoded
  refine ⟨data, RowBatch.WellFormed.findSome?_of_nodup unique here, shape, ⟨file, named, held⟩, ?_⟩
  rw [readLen_of_le fits, length_valueBytes shape]

/-- A column is mapped exactly where its metadata leads to a file of its length. -/
theorem mapColumns_ok_iff (nonempty : segment.info.rowCount ≠ 0) :
    (∀ column ∈ schema.columns, ∃ mapped,
      (segment.mapColumn column.name column.dtype).exec d = (.ok mapped, d)) ↔
      ∀ column ∈ schema.columns, ∃ bytes, ListedFile d segment column bytes := by
  refine forall₂_congr fun column _ => ?_
  constructor
  · rintro ⟨mapped, h⟩
    obtain ⟨-, -, bytes, mappable, -⟩ := mapColumn_eq_ok.mp h
    exact ⟨bytes, mappable⟩
  · rintro ⟨bytes, mappable⟩
    exact ⟨_, mapColumn_eq_ok.mpr ⟨rfl, nonempty, bytes, mappable, rfl⟩⟩

/-- Where both paths read one file, the batch has what is mapped. -/
theorem ListedFile.holds_column {b : RowBatch} (listed : ListedFile d segment column bytes)
    (named : NamedFile d segment column bytes)
    (read : (segment.readBatch schema).exec d = (.ok b, d')) (hc : column ∈ schema.columns) :
    ∃ data, b.column column.name = some data ∧
      MappedColumn.Holds ⟨column.name, column.dtype, segment.info.rowCount, bytes⟩ data := by
  obtain ⟨fits, data, shape, rfl, holds⟩ := listed.holds column.name
  obtain ⟨data', found, shape', file⟩ := readBatch_column read hc fits
  have same := file.bytes_unique named
  have back := (decodeColumnBytes_iff column.name fits column.width_ne).mpr ⟨shape, same⟩
  have back' := (decodeColumnBytes_iff column.name fits column.width_ne).mpr ⟨shape', rfl⟩
  obtain rfl := Except.ok.inj (back.symm.trans back')
  exact ⟨_, found, holds⟩

/-- Where both paths return the same values, they read the same bytes. -/
theorem PathsAgree.same_file {b : RowBatch} (agree : PathsAgree d segment schema)
    (nonempty : segment.info.rowCount ≠ 0) (read : (segment.readBatch schema).exec d = (.ok b, d))
    (hc : column ∈ schema.columns) (listed : ListedFile d segment column bytes) :
    NamedFile d segment column bytes := by
  have mapped := mapColumn_eq_ok.mpr ⟨rfl, nonempty, bytes, listed, rfl⟩
  obtain ⟨fits, data, shape, rfl, holds⟩ := listed.holds column.name
  obtain ⟨data', found, shape', file⟩ := readBatch_column read hc fits
  obtain ⟨data'', found', holds'⟩ := agree.same_values b read column hc _ mapped
  obtain rfl := Option.some.inj (found.symm.trans found')
  obtain rfl := holds.unique holds' shape.dtype shape'.dtype
  exact file

/-- On a segment with rows the two paths agree if and only if every column's metadata leads to
the bytes of the file named after the column, or each path fails at some column. -/
theorem read_paths_agree_iff (schema : Schema) (d : Disk) (segment : ImmutableSegment)
    (nonempty : segment.info.rowCount ≠ 0) :
    PathsAgree d segment schema ↔
      (∀ column ∈ schema.columns, ∃ bytes,
        NamedFile d segment column bytes ∧ ListedFile d segment column bytes) ∨
      (∃ column ∈ schema.columns, ∀ bytes, ¬ NamedFile d segment column bytes) ∧
        ∃ column ∈ schema.columns, ∀ bytes, ¬ ListedFile d segment column bytes := by
  have map_ok := @mapColumns_ok_iff schema d segment nonempty
  constructor
  · intro agree
    have together := agree.return_together
    rw [readBatch_ok_iff, map_ok] at together
    by_cases readable : ∀ column ∈ schema.columns, ∃ bytes, NamedFile d segment column bytes
    · refine .inl fun column hc => ?_
      obtain ⟨b, read⟩ := readBatch_ok_iff.mpr readable
      obtain ⟨bytes, mappable⟩ := together.mp readable column hc
      exact ⟨bytes, agree.same_file nonempty read hc mappable, mappable⟩
    · have unmappable : ¬ ∀ column ∈ schema.columns, ∃ bytes, ListedFile d segment column bytes :=
        fun mappable => readable (together.mpr mappable)
      push Not at readable unmappable
      exact .inr ⟨readable, unmappable⟩
  · rintro (both | ⟨⟨column, hc, unreadable⟩, column', hc', unmappable⟩)
    · constructor
      · rw [readBatch_ok_iff, map_ok]
        exact ⟨fun _ column hc => (both column hc).imp fun _ h => h.2,
          fun _ column hc => (both column hc).imp fun _ h => h.1⟩
      · intro b read column hc mapped h
        obtain ⟨bytes, readable, mappable⟩ := both column hc
        obtain ⟨-, -, bytes', mappable', rfl⟩ := mapColumn_eq_ok.mp h
        obtain rfl : bytes = bytes' := mappable.bytes_unique mappable'
        exact mappable.holds_column readable read hc
    · constructor
      · rw [readBatch_ok_iff, map_ok]
        constructor
        · intro readable
          obtain ⟨bytes, found⟩ := readable column hc
          exact absurd found (unreadable bytes)
        · intro mappable
          obtain ⟨bytes, found⟩ := mappable column' hc'
          exact absurd found (unmappable bytes)
      · intro b read
        obtain ⟨bytes, found⟩ := readBatch_ok_iff.mp ⟨b, read⟩ column hc
        exact absurd found (unreadable bytes)

/-! ### A segment of one trade -/

/-- The files of the segment. -/
def tradeFiles : Disk :=
  (((⟨fun _ => none, fun _ => true⟩ : Disk).setFile ["ts.col"] (some (i64Bytes 7))).setFile
    ["px.col"] (some (u64Bytes 0))).setFile ["sym.col"] (some [66, 89, 80])

/-- Its metadata, with the type of the timestamps. -/
def tradeSegment (type : String) : ImmutableSegment where
  path := []
  info := {
    id := 1
    rowCount := 1
    minTs := some 7
    maxTs := some 7
    columns := [⟨"ts", type, none, "ts.col"⟩, ⟨"px", "F64", none, "px.col"⟩,
      ⟨"sym", "FixedStr", some 3, "sym.col"⟩] }

theorem tradeFiles_readable (type : String) : ∀ column ∈ tradeSchema.columns, ∃ bytes,
    NamedFile tradeFiles (tradeSegment type) column bytes := by
  have joins : ∀ file, IsName file → (tradeSegment type).path.join file = [file] :=
    fun file h => Path.join_of_isName [] h
  intro column hc
  simp only [tradeSchema, List.mem_cons, List.not_mem_nil, or_false] at hc
  obtain rfl | rfl | rfl := hc
  · refine ⟨i64Bytes 7, ⟨"ts.col", by decide, ?_⟩, rfl⟩
    rw [joins _ (by decide)]
    rfl
  · refine ⟨u64Bytes 0, ⟨"px.col", by decide, ?_⟩, rfl⟩
    rw [joins _ (by decide)]
    rfl
  · refine ⟨[66, 89, 80], ⟨"sym.col", by decide, ?_⟩, rfl⟩
    rw [joins _ (by decide)]
    rfl

theorem read_paths_agree_trade :
    (tradeSegment "Timestamp").info.rowCount ≠ 0 ∧
      PathsAgree tradeFiles (tradeSegment "Timestamp") tradeSchema := by
  refine ⟨by decide, (read_paths_agree_iff _ _ _ (by decide)).mpr (.inl fun column hc => ?_)⟩
  obtain ⟨bytes, readable⟩ := tradeFiles_readable "Timestamp" column hc
  obtain ⟨⟨file, named, held⟩, size⟩ := readable
  obtain ⟨rfl, -⟩ := columnFileName_eq_ok named
  simp only [tradeSchema, List.mem_cons, List.not_mem_nil, or_false] at hc
  obtain rfl | rfl | rfl := hc
  all_goals exact ⟨bytes, ⟨⟨_, named, held⟩, size⟩, ⟨_, rfl, rfl, held⟩, size⟩

/-- The metadata gives the timestamps another type. The segment is read as a batch, and its
timestamps cannot be mapped. -/
theorem read_batch_ignores_metadata : ¬ ∀ (d : Disk) (segment : ImmutableSegment) (schema : Schema),
    segment.info.rowCount ≠ 0 → PathsAgree d segment schema := by
  intro agree
  have agrees := agree tradeFiles (tradeSegment "I64") tradeSchema (by decide)
  have mapped := agrees.return_together.mp (readBatch_ok_iff.mpr (tradeFiles_readable "I64"))
  obtain ⟨column, h⟩ := mapped tsColumn (by simp [tradeSchema])
  obtain ⟨-, -, bytes, ⟨⟨cm, listed, type, -⟩, -⟩, -⟩ := mapColumn_eq_ok.mp h
  obtain rfl := Option.some.inj (listed.symm.trans (show _ = some ⟨"ts", "I64", none, "ts.col"⟩ from rfl))
  simp [dtypeMeta] at type

end BypassIo.Db
