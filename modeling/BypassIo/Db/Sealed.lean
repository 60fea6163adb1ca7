import BypassIo.Db.Segment

/-!
# What a sealed segment holds

`Stored d seg b` says that the files of `seg` on disk `d` hold exactly the batch `b`. Sealing
establishes it (`sealBatch_exec`), every disk that agrees on the segment's directory keeps it
(`Stored.frame`), and loading, reading and mapping the segment give `b` back.
-/

namespace BypassIo.Db
open Octet Rust FileSystem Columns

/-! ## The layout of a table directory -/

section Layout

variable (root : Path)

def segmentDir (id : UInt64) : Path := root ++ ["segments", segmentDirName id]

def manifestPath : Path := root ++ ["manifest.json"]

def manifestTmp : Path := root ++ ["manifest.json.tmp"]

def walPath : Path := root ++ ["WAL", "wal-000000.log"]

/-- The files of segment `id`. -/
def InSegment (id : UInt64) (q : Path) : Prop := segmentDir root id <+: q

/-- Segment names spell the id, so they are distinct. -/
theorem segmentDirName_injective {a b : UInt64} (h : segmentDirName a = segmentDirName b) :
    a = b := by
  have chars := congrArg String.toList h
  simp only [segmentDirName, String.toList_append, String.toList_ofList,
    List.append_cancel_left_eq] at chars
  have digits := congrArg (Nat.ofDigitChars 10 · 0) chars
  simp only [List.leftpad, Nat.ofDigitChars_append, Nat.ofDigitChars_replicate_zero,
    Nat.mul_zero, Nat.ofDigitChars_ten_toDigits] at digits
  exact UInt64.toNat_inj.mp digits

theorem segmentDirName_isName (id : UInt64) : IsName (segmentDirName id) := by
  have first : (segmentDirName id).toList.head? = some 's' := by
    simp [segmentDirName, String.toList_append]
  have slash : '/' ∉ (segmentDirName id).toList := by
    have digits : '/' ∉ Nat.toDigits 10 id.toNat := fun mem => by
      simpa using Nat.isDigit_of_mem_toDigits (by decide) (by decide) mem
    simp [segmentDirName, String.toList_append, List.leftpad, digits]
  refine ⟨slash, ?_, ?_, ?_⟩ <;> rintro e <;> rw [e] at first <;> simp at first

theorem join_segments (id : UInt64) :
    (root.join "segments").join (segmentDirName id) = segmentDir root id := by
  rw [Path.join_of_isName root (by decide), Path.join_of_isName _ (segmentDirName_isName id)]
  simp [segmentDir]

theorem join_toRef (info : SegmentMeta) : root.join info.toRef.path = segmentDir root info.id := by
  rw [SegmentMeta.toRef, Path.join_slash root (by decide) (segmentDirName_isName info.id)]
  rfl

theorem join_manifest : root.join manifestFile = manifestPath root :=
  Path.join_of_isName root (by decide)

theorem join_manifestTmp : root.join "manifest.json.tmp" = manifestTmp root :=
  Path.join_of_isName root (by decide)

theorem join_wal : (root.join "WAL").join "wal-000000.log" = walPath root := by
  rw [Path.join_of_isName root (by decide), Path.join_of_isName _ (by decide)]
  simp [walPath]

theorem join_meta (dir : Path) : dir.join "meta.json" = dir ++ ["meta.json"] :=
  Path.join_of_isName dir (by decide)

variable {root}

theorem inSegment_file (id : UInt64) (name : String) :
    InSegment root id (segmentDir root id ++ [name]) := List.prefix_append _ _

/-- Directories of different segments share no file. -/
theorem inSegment_unique {a b : UInt64} {q : Path} (ha : InSegment root a q)
    (hb : InSegment root b q) : a = b := by
  have same : segmentDir root a = segmentDir root b := by
    have := List.prefix_of_prefix_length_le ha hb (by simp [segmentDir])
    exact this.eq_of_length (by simp [segmentDir])
  simp only [segmentDir, List.append_cancel_left_eq, List.cons.injEq, and_true, true_and] at same
  exact segmentDirName_injective same

theorem not_inSegment {id : UInt64} {first : String} {rest : Path} (h : first ≠ "segments") :
    ¬ InSegment root id (root ++ first :: rest) := by
  simp only [InSegment, segmentDir, List.prefix_append_right_inj, List.cons_prefix_cons]
  exact fun both => h both.1.symm

theorem manifestPath_not_inSegment (id : UInt64) : ¬ InSegment root id (manifestPath root) :=
  not_inSegment (by decide)

theorem manifestTmp_not_inSegment (id : UInt64) : ¬ InSegment root id (manifestTmp root) :=
  not_inSegment (by decide)

theorem walPath_not_inSegment (id : UInt64) : ¬ InSegment root id (walPath root) :=
  not_inSegment (by decide)

theorem manifestTmp_ne : manifestTmp root ≠ manifestPath root := by
  simp [manifestTmp, manifestPath]

theorem walPath_ne_manifest : walPath root ≠ manifestPath root := by
  simp [walPath, manifestPath]

theorem walPath_ne_tmp : walPath root ≠ manifestTmp root := by
  simp [walPath, manifestTmp]

end Layout

/-! ## Column files -/

theorem columnFileName_eq_ok {name file : String} (h : columnFileName name = .ok file) :
    file = name ++ ".col" ∧ IsName file := by
  unfold columnFileName at h
  split at h <;> cases h
  rename_i good
  simp only [not_or] at good
  have last : (name ++ ".col").toList.getLast? = some 'l' := by
    simp [String.toList_append]
  refine ⟨rfl, by simp [String.toList_append, good.1], ?_, ?_, ?_⟩ <;>
    intro e <;> rw [e] at last <;> simp at last

theorem columnFile_injective {a b : String} (h : a ++ ".col" = b ++ ".col") : a = b := by
  have chars := congrArg String.toList h
  simp only [String.toList_append] at chars
  exact String.toList_inj.mp (List.append_cancel_right chars)

theorem columnFile_ne_meta (name : String) : name ++ ".col" ≠ "meta.json" := by
  intro e
  have last := congrArg (fun s => s.toList.getLast?) e
  simp [String.toList_append] at last

theorem length_valueBytes {dtype : DType} {n : Nat} {data : ColumnData}
    (h : data.HasShape dtype n) : (valueBytes data).length = n * dtype.width := by
  cases h using ColumnData.HasShape.elim with
  | f64 values =>
    exact length_flatMap_of_width _ _ fun v _ => length_u64Bytes v
  | i64 values | timestamp values =>
    exact length_flatMap_of_width _ _ fun v _ => length_i64Bytes v
  | fixedStr width values _ widths =>
    have := length_flatMap_of_width id values widths
    rwa [List.flatMap_id] at this

theorem extended_eq_ok {bytes out : Bytes} :
    extended bytes = .ok out ↔ bytes.length ≤ isizeMax ∧ out = bytes := by
  unfold extended
  rw [bind_eq_ok]
  constructor
  · rintro ⟨⟨⟩, room, done⟩
    rw [withCapacity_eq_ok, Nat.one_mul] at room
    exact ⟨room, (Except.ok.inj done).symm⟩
  · rintro ⟨room, rfl⟩
    exact ⟨(), withCapacity_of_le (by rwa [Nat.one_mul]), rfl⟩

/-- What the buffer of `write_column` holds when it is filled. -/
theorem columnBytes_eq_ok {path : Path} {data : ColumnData} {out : Bytes}
    (h : columnBytes path data = .ok out) : out.length ≤ isizeMax ∧ out = valueBytes data := by
  cases data with
  | f64 values | i64 values | timestamp values =>
    obtain ⟨⟨⟩, -, done⟩ := bind_eq_ok.mp h
    obtain ⟨room, rfl⟩ := extended_eq_ok.mp done
    exact ⟨room, rfl⟩
  | fixedStr width values =>
    obtain ⟨⟨⟩, -, rest⟩ := bind_eq_ok.mp h
    split at rest
    · cases rest
    · obtain ⟨room, rfl⟩ := extended_eq_ok.mp rest
      exact ⟨room, rfl⟩

/-- A row count whose columns have byte counts that fit a file. -/
def Fits (schema : Schema) (n : Nat) : Prop :=
  ∀ c ∈ schema.columns, n * c.dtype.width ≤ maxFileLen

theorem Fits.mono {schema : Schema} {n m : Nat} (h : Fits schema n) (le : m ≤ n) :
    Fits schema m := fun c hc => Nat.le_trans (Nat.mul_le_mul_right _ le) (h c hc)

theorem Fits.rowCount {schema : Schema} {n : Nat} (h : Fits schema n) : n * 8 ≤ maxFileLen := by
  have := h _ schema.timestampColumn_mem
  rwa [schema.timestampColumn_dtype] at this

theorem Fits.usize {schema : Schema} {n : Nat} (h : Fits schema n) : n ≤ usizeMax := by
  have := h.rowCount
  unfold maxFileLen at this
  unfold usizeMax
  omega

theorem maxFileLen_le : maxFileLen ≤ usizeMax := by decide

theorem wrappingMul_of_le {a b : Nat} (h : a * b ≤ usizeMax) : wrappingMul a b = a * b :=
  wrappingMul_eq_iff.mpr h

theorem checkedMul_of_le {a b : Nat} (h : a * b ≤ usizeMax) : checkedMul a b = some (a * b) :=
  if_pos h

theorem readF64Values_flatMap {values : List UInt64} (fits : values.length * 8 ≤ usizeMax) :
    readF64Values (values.flatMap u64Bytes) values.length = .ok values := by
  have size := length_flatMap_of_width _ values fun v _ => length_u64Bytes v
  rw [readF64Values, wrappingMul_of_le fits, if_neg fun ne => ne size,
    map_u64Of_chunksExact]

theorem readI64Values_flatMap {values : List Int64} (fits : values.length * 8 ≤ usizeMax) :
    readI64Values (values.flatMap i64Bytes) values.length = .ok values := by
  have size := length_flatMap_of_width _ values fun v _ => length_i64Bytes v
  rw [readI64Values, wrappingMul_of_le fits, if_neg fun ne => ne size,
    map_i64Of_chunksExact]

theorem DType.width_pos {dtype : DType} (ne : dtype ≠ .fixedStr 0) : 0 < dtype.width := by
  cases dtype with
  | f64 | i64 | timestamp => simp [width]
  | fixedStr w =>
    rw [width, Nat.pos_iff_ne_zero]
    exact fun zero => ne (congrArg _ (UInt64.toNat_inj.mp zero))

/-- The values of a column come back from their bytes. -/
theorem decodeColumnBytes_valueBytes {dtype : DType} {n : Nat} {data : ColumnData} (name : String)
    (shape : data.HasShape dtype n) (fits : n * dtype.width ≤ usizeMax)
    (width : dtype ≠ .fixedStr 0) :
    decodeColumnBytes name dtype n (valueBytes data) = .ok data := by
  have size := length_valueBytes shape
  cases shape using ColumnData.HasShape.elim with
  | f64 values =>
    exact congrArg (Except.map ColumnData.f64) (readF64Values_flatMap fits)
  | i64 values =>
    exact congrArg (Except.map ColumnData.i64) (readI64Values_flatMap fits)
  | timestamp values =>
    exact congrArg (Except.map ColumnData.timestamp) (readI64Values_flatMap fits)
  | fixedStr w values _ widths =>
    have positive : 0 < w.toNat := DType.width_pos width
    have values_back : chunksExact w.toNat values.flatten = values := by
      simpa using chunksExact_flatMap positive id values widths
    have product : checkedMul values.length w.toNat = some _ :=
      checkedMul_of_le fits
    simp only [decodeColumnBytes, product]
    rw [if_neg fun ne => ne size, valueBytes, values_back]

/-- A column decodes from the bytes of its values alone. -/
theorem decodeColumnBytes_iff {dtype : DType} {n : Nat} {bytes : Bytes} {data : ColumnData}
    (name : String) (fits : n * dtype.width ≤ usizeMax) (width : dtype ≠ .fixedStr 0) :
    decodeColumnBytes name dtype n bytes = .ok data ↔
      data.HasShape dtype n ∧ bytes = valueBytes data := by
  constructor
  · intro h
    cases dtype with
    | f64 =>
      have product : wrappingMul n 8 = n * 8 := wrappingMul_of_le fits
      simp only [decodeColumnBytes, readF64Values, product] at h
      split at h <;> cases h
      rename_i size
      rw [ne_eq, not_not] at size
      refine ⟨⟨rfl, ?_, trivial⟩, ?_⟩
      · simp only [ColumnData.rowCount, List.length_map, length_chunksExact]
        omega
      · exact (flatMap_map_chunksExact (by decide) (fun _ => u64Bytes_u64Of) size).symm
    | i64 | timestamp =>
      have product : wrappingMul n 8 = n * 8 := wrappingMul_of_le fits
      simp only [decodeColumnBytes, readI64Values, product] at h
      split at h <;> cases h
      rename_i size
      rw [ne_eq, not_not] at size
      refine ⟨⟨rfl, ?_, trivial⟩, ?_⟩
      · simp only [ColumnData.rowCount, List.length_map, length_chunksExact]
        omega
      · exact (flatMap_map_chunksExact (by decide) (fun _ => i64Bytes_i64Of) size).symm
    | fixedStr w =>
      have positive : 0 < w.toNat := DType.width_pos width
      have product : checkedMul n w.toNat = some _ := checkedMul_of_le fits
      simp only [decodeColumnBytes, product] at h
      split at h <;> cases h
      rename_i size
      rw [ne_eq, not_not] at size
      refine ⟨⟨by simp [ColumnData.matchesDtype], ?_, fun v hv => length_of_mem_chunksExact hv⟩, ?_⟩
      · rw [ColumnData.rowCount, length_chunksExact, size, Nat.mul_div_cancel _ positive]
      · rw [valueBytes, flatten_chunksExact positive size]
  · rintro ⟨shape, rfl⟩
    exact decodeColumnBytes_valueBytes name shape fits width

/-- The timestamps of a batch. -/
theorem timestamps_of_wellFormed {schema : Schema} {b : RowBatch}
    (ok : b.WellFormed schema) :
    ∃ timestamps, b.column schema.timestampColumn.name = some (.timestamp timestamps) ∧
      timestampsOf schema b = .ok timestamps ∧ timestamps.length = b.rowCount := by
  obtain ⟨data, found, shape⟩ := ok.column schema.timestampColumn_mem
  have type := shape.dtype
  rw [schema.timestampColumn_dtype] at type
  cases data <;> simp [ColumnData.matchesDtype] at type
  rename_i timestamps
  exact ⟨timestamps, found, by simp [timestampsOf, found, ColumnData.timestampValues],
    shape.rowCount⟩

/-! ## Stored segments -/

/-- The file of one column holds the batch's values. -/
structure StoredColumn (d : Disk) (dir : Path) (b : RowBatch) (column : ColumnDef)
    (cm : ColumnMeta) : Prop where
  name : cm.name = column.name
  dtype : (cm.dtype, cm.fixedWidth) = dtypeMeta column.dtype
  file : columnFileName column.name = .ok cm.file
  data : ∃ data, b.column column.name = some data ∧
    d.files (dir ++ [cm.file]) = some (valueBytes data)

/-- The bounds of a segment are those of the batch's timestamps. -/
def TimeBounds (schema : Schema) (b : RowBatch) (info : SegmentMeta) : Prop :=
  ∃ timestamps, timestampsOf schema b = .ok timestamps ∧
    info.minTs = timestamps.min? ∧ info.maxTs = timestamps.max?

/-- The files of a segment hold the batch `b`. -/
structure Stored (serde : Serde) (root : Path) (schema : Schema) (d : Disk)
    (segment : ImmutableSegment) (b : RowBatch) : Prop where
  path : segment.path = segmentDir root segment.id
  wellFormed : b.WellFormed schema
  nonempty : b.rowCount ≠ 0
  rowCount : segment.info.rowCount = b.rowCount
  bounds : TimeBounds schema b segment.info
  columns : ∀ column ∈ schema.columns, ∃ cm, segment.info.column column.name = some cm ∧
    StoredColumn d segment.path b column cm
  info : ∃ text, d.files (segment.path ++ ["meta.json"]) = some (asBytes text) ∧
    serde.segmentMeta.fromStr text = .ok segment.info

variable {serde : Serde} {root : Path} {schema : Schema}

/-- A disk that keeps the files of the segment keeps the segment. -/
theorem Stored.keep {d d' : Disk} {segment : ImmutableSegment} {b : RowBatch}
    (h : Stored serde root schema d segment b)
    (kept : ∀ q c, InSegment root segment.id q → d.files q = some c → d'.files q = some c) :
    Stored serde root schema d' segment b := by
  obtain ⟨text, hfile, hparse⟩ := h.info
  have inside : ∀ name c, d.files (segment.path ++ [name]) = some c →
      d'.files (segment.path ++ [name]) = some c := by
    intro name c
    rw [h.path]
    exact kept _ c (inSegment_file _ name)
  refine { h with columns := fun column hc => ?_, info := ⟨text, inside _ _ hfile, hparse⟩ }
  obtain ⟨cm, listed, name, dtype, file, data, found, held⟩ := h.columns column hc
  exact ⟨cm, listed, name, dtype, file, data, found, inside _ _ held⟩

theorem Stored.frame {d d' : Disk} {segment : ImmutableSegment} {b : RowBatch}
    (h : Stored serde root schema d segment b)
    (same : ∀ q, InSegment root segment.id q → d'.files q = d.files q) :
    Stored serde root schema d' segment b :=
  h.keep fun q _ hq held => (same q hq).trans held

/-! ### Sealing -/

theorem writeColumn_strict (path : Path) (data : ColumnData) : (writeColumn path data).Strict :=
  (Query.strict_pureStep _).bind fun _ => Query.strict_io _ _

theorem sealColumn_strict (dir : Path) (b : RowBatch) (column : ColumnDef) :
    (sealColumn dir b column).Strict :=
  (Query.strict_pureStep _).bind fun _ => (Query.strict_pureStep _).bind fun _ =>
    (writeColumn_strict _ _).bind fun _ => Query.strict_pure _

/-- Sealing a column touches the column's file alone. -/
theorem sealColumn_confined (dir : Path) (b : RowBatch) (column : ColumnDef) :
    (sealColumn dir b column).Confined (· = dir ++ [column.name ++ ".col"]) := by
  refine Query.confined_pureStep_bind fun file named => ?_
  obtain ⟨rfl, isName⟩ := columnFileName_eq_ok (ofResult_eq_ok.mp named)
  rw [Path.join_of_isName dir isName]
  refine (Query.confined_pureStep _).bind fun data => ?_
  refine Query.Confined.bind ?_ fun _ => Query.confined_pure _
  exact (Query.confined_pureStep _).bind fun out => Query.confined_io fun _ hq => hq

theorem sealColumn_exec {dir : Path} {b : RowBatch} {column : ColumnDef} {d d' : Disk}
    {cm : ColumnMeta} (h : (sealColumn dir b column).exec d = (.ok cm, d')) :
    StoredColumn d' dir b column cm := by
  obtain ⟨file, named, h⟩ := Query.exec_pureStep_bind_eq_ok.mp h
  obtain ⟨rfl, isName⟩ := columnFileName_eq_ok (ofResult_eq_ok.mp named)
  obtain ⟨data, found, h⟩ := Query.exec_pureStep_bind_eq_ok.mp h
  obtain ⟨⟨⟩, d₁, written, h⟩ := Query.exec_bind_eq_ok.mp h
  obtain ⟨out, filled, written⟩ := Query.exec_pureStep_bind_eq_ok.mp written
  obtain ⟨-, rfl⟩ := Query.exec_write_eq_ok.mp written
  obtain ⟨rfl, rfl⟩ := Query.exec_pure_eq_ok.mp h
  obtain ⟨-, rfl⟩ := columnBytes_eq_ok filled
  have column_found : b.column column.name = some data := by
    unfold columnOf at found
    split at found <;> cases found
    assumption
  refine ⟨rfl, rfl, ofResult_eq_ok.mp named, data, column_found, ?_⟩
  rw [Path.join_of_isName dir isName, Disk.setFile_files_self]

/-- A sealed column fits a buffer. -/
theorem sealColumn_fits {dir : Path} {b : RowBatch} {column : ColumnDef} {d d' : Disk}
    {cm : ColumnMeta} (ok : b.WellFormed schema) (hc : column ∈ schema.columns)
    (h : (sealColumn dir b column).exec d = (.ok cm, d')) :
    b.rowCount * column.dtype.width ≤ maxFileLen := by
  obtain ⟨file, -, h⟩ := Query.exec_pureStep_bind_eq_ok.mp h
  obtain ⟨data, found, h⟩ := Query.exec_pureStep_bind_eq_ok.mp h
  obtain ⟨⟨⟩, d₁, written, -⟩ := Query.exec_bind_eq_ok.mp h
  obtain ⟨out, filled, -⟩ := Query.exec_pureStep_bind_eq_ok.mp written
  obtain ⟨room, rfl⟩ := columnBytes_eq_ok filled
  obtain ⟨data', found', shape⟩ := ok.column hc
  rw [columnOf, found'] at found
  obtain rfl := Except.ok.inj found
  rwa [length_valueBytes shape] at room

/-- The column loop leaves every column in its file. -/
theorem sealColumns_exec {dir : Path} {b : RowBatch} {defs : List ColumnDef} {d d' : Disk}
    {cms : List ColumnMeta} (names : (defs.map (·.name)).Nodup)
    (h : (defs.mapM (sealColumn dir b)).exec d = (.ok cms, d')) :
    List.Forall₂ (StoredColumn d' dir b) defs cms := by
  induction defs generalizing d cms with
  | nil =>
    cases h
    exact .nil
  | cons column defs ih =>
    obtain ⟨fresh, names⟩ := List.nodup_cons.mp names
    rw [List.mapM_cons] at h
    obtain ⟨cm, d₁, first, h⟩ := Query.exec_bind_eq_ok.mp h
    obtain ⟨rest, d₂, later, h⟩ := Query.exec_bind_eq_ok.mp h
    obtain ⟨rfl, rfl⟩ := Query.exec_pure_eq_ok.mp h
    obtain ⟨name, dtype, file, data, found, held⟩ := sealColumn_exec first
    have confined : (defs.mapM (sealColumn dir b)).Confined
        fun q => ∃ c ∈ defs, q = dir ++ [c.name ++ ".col"] :=
      Query.confined_mapM fun c hc => (sealColumn_confined dir b c).mono fun q hq => ⟨c, hc, hq⟩
    have kept := (confined.exec d₁).files (dir ++ [cm.file]) (by
      rintro ⟨c, hc, same⟩
      rw [(columnFileName_eq_ok file).1] at same
      have : column.name = c.name := columnFile_injective (by simpa using same)
      exact fresh (List.mem_map.mpr ⟨c, hc, this.symm⟩))
    rw [later] at kept
    exact .cons ⟨name, dtype, file, data, found, kept.trans held⟩ (ih names later)

theorem writeMeta_strict (dir : Path) (info : SegmentMeta) : (writeMeta serde dir info).Strict :=
  (Query.strict_pureStep _).bind fun _ => Query.strict_io _ _

theorem writeMeta_confined (dir : Path) (info : SegmentMeta) :
    (writeMeta serde dir info).Confined (· = dir ++ ["meta.json"]) := by
  refine (Query.confined_pureStep _).bind fun text => Query.confined_io fun q hq => ?_
  rwa [← join_meta]

theorem writeMeta_exec {dir : Path} {info : SegmentMeta} {d d' : Disk}
    (h : (writeMeta serde dir info).exec d = (.ok (), d')) :
    ∃ text, d'.files (dir ++ ["meta.json"]) = some (asBytes text) ∧
      serde.segmentMeta.fromStr text = .ok info := by
  obtain ⟨text, printed, h⟩ := Query.exec_pureStep_bind_eq_ok.mp h
  obtain ⟨-, rfl⟩ := Query.exec_write_eq_ok.mp h
  obtain ⟨text', print, parse⟩ := serde.segmentMeta.roundTrip info
  rw [print] at printed
  cases printed
  exact ⟨text, by rw [join_meta, Disk.setFile_files_self], parse⟩

theorem sealBatch_strict (id : UInt64) (b : RowBatch) :
    (sealBatch serde root schema id b).Strict :=
  (Query.strict_io _ _).bind fun _ => (Query.strict_pureStep _).bind fun _ =>
    (Query.strict_mapM (sealColumn_strict _ b) _).bind fun _ =>
      (writeMeta_strict _ _).bind fun _ => Query.strict_pure _

/-- Sealing touches the new segment's directory alone. -/
theorem sealBatch_confined (id : UInt64) (b : RowBatch) :
    (sealBatch serde root schema id b).Confined (InSegment root id) := by
  have inside : ∀ name q, q = segmentDir root id ++ [name] → InSegment root id q := by
    rintro name q rfl
    exact inSegment_file id name
  simp only [sealBatch, join_segments]
  refine Query.Confined.bind (Query.confined_io fun q hq => nomatch hq) fun _ => ?_
  refine (Query.confined_pureStep _).bind fun _ => Query.Confined.bind ?_ fun cms => ?_
  · exact Query.confined_mapM fun c _ => (sealColumn_confined _ b c).mono (inside _)
  · exact ((writeMeta_confined _ _).mono (inside _)).bind fun _ => Query.confined_pure _

/-- Columns stored one by one are found by their names. -/
theorem find?_of_storedColumns {d : Disk} {dir : Path} {b : RowBatch} {defs : List ColumnDef}
    {cms : List ColumnMeta} (stored : List.Forall₂ (StoredColumn d dir b) defs cms)
    (names : (defs.map (·.name)).Nodup) {column : ColumnDef} (hc : column ∈ defs) :
    ∃ cm, cms.find? (fun c => c.name = column.name) = some cm ∧ StoredColumn d dir b column cm := by
  induction stored with
  | nil => cases hc
  | @cons c cm defs cms head _ ih =>
    obtain ⟨fresh, names⟩ := List.nodup_cons.mp names
    obtain rfl | mem := List.mem_cons.mp hc
    · exact ⟨cm, by simp [head.name], head⟩
    · have other : cm.name ≠ column.name := by
        rw [head.name]
        exact fun e => fresh (List.mem_map.mpr ⟨column, mem, e.symm⟩)
      obtain ⟨cm', found, held⟩ := ih names mem
      exact ⟨cm', by simp [other, found], held⟩

/-- A sealed batch is stored, in a directory of its own and with no other columns. -/
theorem sealBatch_exec {id : UInt64} {b : RowBatch} {d d' : Disk} {segment : ImmutableSegment}
    (ok : b.WellFormed schema) (nonempty : b.rowCount ≠ 0)
    (h : (sealBatch serde root schema id b).exec d = (.ok segment, d')) :
    Stored serde root schema d' segment b ∧ segment.id = id ∧
      d'.dirs (segmentDir root id) = true ∧ segment.info.columns.map (·.name) = schema.names := by
  simp only [sealBatch, join_segments] at h
  obtain ⟨⟨⟩, d₁, made, h⟩ := Query.exec_bind_eq_ok.mp h
  obtain ⟨timestamps, times, h⟩ := Query.exec_pureStep_bind_eq_ok.mp h
  obtain ⟨cms, d₃, columns, h⟩ := Query.exec_bind_eq_ok.mp h
  obtain ⟨⟨⟩, d₄, written, h⟩ := Query.exec_bind_eq_ok.mp h
  obtain ⟨rfl, rfl⟩ := Query.exec_pure_eq_ok.mp h
  have stored := sealColumns_exec schema.nodup columns
  have confined : (writeMeta serde (segmentDir root id)
      ⟨id, b.rowCount, timestamps.min?, timestamps.max?, cms⟩).Confined _ :=
    writeMeta_confined _ _
  have kept := confined.exec d₃
  rw [written] at kept
  have stored' : List.Forall₂ (StoredColumn d' (segmentDir root id) b) schema.columns cms := by
    refine stored.imp ?_
    rintro column cm ⟨name, dtype, file, data, found, held⟩
    refine ⟨name, dtype, file, data, found, (kept.files _ fun same => ?_).trans held⟩
    rw [(columnFileName_eq_ok file).1] at same
    exact columnFile_ne_meta column.name (by simpa using same)
  have dir : d'.dirs (segmentDir root id) = true := by
    have loop : (schema.columns.mapM (sealColumn (segmentDir root id) b)).Confined
        fun q => ∃ c ∈ schema.columns, q = segmentDir root id ++ [c.name ++ ".col"] :=
      Query.confined_mapM fun c hc => (sealColumn_confined _ b c).mono fun q hq => ⟨c, hc, hq⟩
    have before := loop.exec d₁
    rw [columns] at before
    rw [join_segments, Query.exec_io_eq_ok] at made
    obtain rfl := (Prod.mk.inj made).2
    have first : d₃.dirs (segmentDir root id) = true :=
      before.dirs _ (by simp) (by simp)
    exact kept.dirs _ (by simp) first
  have names : cms.map (·.name) = schema.names := by
    rw [Schema.names, ← List.forall₂_eq_eq_eq, List.forall₂_map_left_iff, List.forall₂_map_right_iff]
    exact List.Forall₂.flip (stored.imp fun column cm h => h.name)
  refine ⟨⟨rfl, ok, nonempty, rfl, ⟨timestamps, times, rfl, rfl⟩, ?_, writeMeta_exec written⟩, rfl,
    dir, names⟩
  exact fun column hc => find?_of_storedColumns stored' schema.nodup hc

/-- The columns of a sealed batch fit their files. -/
theorem sealBatch_fits {id : UInt64} {b : RowBatch} {d d' : Disk} {segment : ImmutableSegment}
    (ok : b.WellFormed schema)
    (h : (sealBatch serde root schema id b).exec d = (.ok segment, d')) : Fits schema b.rowCount := by
  intro column hc
  obtain ⟨⟨⟩, d₁, -, h⟩ := Query.exec_bind_eq_ok.mp h
  obtain ⟨timestamps, -, h⟩ := Query.exec_pureStep_bind_eq_ok.mp h
  obtain ⟨cms, d₂, columns, -⟩ := Query.exec_bind_eq_ok.mp h
  obtain ⟨cm, d₃, d₄, one⟩ := Query.exec_mapM_eq_ok_mem columns hc
  exact sealColumn_fits ok hc one

/-! ### Reading back -/

theorem readToString_exec {path : Path} {d : Disk} {text : String}
    (h : d.files path = some (asBytes text)) : (readToString path).exec d = (.ok text, d) := by
  rw [readToString, Query.exec_bind_ok (Query.exec_read_eq_ok.mpr ⟨h, rfl⟩), fromUtf8_asBytes]
  rfl

theorem readToString_readOnly (path : Path) : (readToString path).ReadOnly := by
  refine Query.readOnly_io_bind trivial fun bytes => ?_
  cases fromUtf8 bytes <;> trivial

theorem load_exec {d : Disk} {segment : ImmutableSegment} {b : RowBatch}
    (h : Stored serde root schema d segment b) :
    (ImmutableSegment.load serde root (segmentRef segment)).exec d = (.ok segment, d) := by
  obtain ⟨text, held, parsed⟩ := h.info
  have path : root.join (segmentRef segment).path = segment.path :=
    (join_toRef root segment.info).trans h.path.symm
  have text_read := readToString_exec held
  rw [← join_meta] at text_read
  have info : (readMeta serde segment.path).exec d = (.ok segment.info, d) := by
    rw [readMeta, Query.exec_bind_ok text_read, parsed]
    rfl
  simp only [ImmutableSegment.load, path]
  rw [Query.exec_bind_ok info]
  rfl

theorem readColumn_readOnly (dir : Path) (name : String) (dtype : DType) (n : Nat) :
    (readColumn dir name dtype n).ReadOnly :=
  (Query.readOnly_pureStep _).bind fun _ => Query.readOnly_io_bind trivial fun _ =>
    Query.readOnly_pureStep _

theorem readColumn_strict (dir : Path) (name : String) (dtype : DType) (n : Nat) :
    (readColumn dir name dtype n).Strict :=
  (Query.strict_pureStep _).bind fun _ => (Query.strict_io _ _).bind fun _ =>
    Query.strict_pureStep _

theorem readBatch_readOnly (segment : ImmutableSegment) (schema : Schema) :
    (segment.readBatch schema).ReadOnly :=
  (Query.readOnly_mapM (fun _ => (readColumn_readOnly _ _ _ _).bind fun _ =>
    Query.readOnly_pure _) _).bind fun _ => Query.readOnly_pure _

theorem readBatch_strict (segment : ImmutableSegment) (schema : Schema) :
    (segment.readBatch schema).Strict :=
  (Query.strict_mapM (fun _ => (readColumn_strict _ _ _ _).bind fun _ =>
    Query.strict_pure _) _).bind fun _ => Query.strict_pure _

/-- Reading a stored segment gives its batch. -/
theorem readBatch_exec {d : Disk} {segment : ImmutableSegment} {b : RowBatch}
    (h : Stored serde root schema d segment b) (fits : Fits schema b.rowCount) :
    (segment.readBatch schema).exec d = (.ok b, d) := by
  have columns : (schema.columns.mapM segment.readBatchColumn).exec d = (.ok b.columns, d) := by
    refine Query.exec_mapM_ok (forall₂_of_getElem? h.wellFormed.length_columns.symm ?_)
    intro i column c hcolumn hc
    obtain ⟨data, hdata, found, shape⟩ := h.wellFormed.getElem? hcolumn
    obtain rfl : c = (column.name, data) := Option.some.inj (hc.symm.trans hdata)
    have mem := List.mem_of_getElem? hcolumn
    obtain ⟨cm, -, -, -, file, data', found', held⟩ := h.columns _ mem
    obtain rfl : data' = data := Option.some.inj (found'.symm.trans found)
    have read : (readColumn segment.path column.name column.dtype segment.info.rowCount).exec d =
        (.ok data', d) := by
      have isName := (columnFileName_eq_ok file).2
      rw [readColumn, file, ofResult_ok]
      refine (Query.exec_bind_ok (Query.exec_pureStep _ d)).trans ?_
      rw [Path.join_of_isName _ isName,
        Query.exec_bind_ok (Query.exec_read_eq_ok.mpr ⟨held, rfl⟩), h.rowCount,
        decodeColumnBytes_valueBytes column.name shape ((fits column mem).trans maxFileLen_le)
          column.width_ne]
      rfl
    rw [ImmutableSegment.readBatchColumn, Query.exec_bind_ok read]
    rfl
  rw [ImmutableSegment.readBatch, Query.exec_bind_ok columns, h.rowCount]
  rfl

theorem mapColumn_readOnly (segment : ImmutableSegment) (name : String) (dtype : DType) :
    (segment.mapColumn name dtype).ReadOnly :=
  (Query.readOnly_pureStep _).bind fun _ => (Query.readOnly_pureStep _).bind fun _ =>
    (Query.readOnly_pureStep _).bind fun _ => Query.readOnly_io_bind trivial fun _ =>
      Query.readOnly_io_bind trivial fun _ => (Query.readOnly_pureStep _).bind fun _ =>
        Query.readOnly_io_bind trivial fun _ => Query.readOnly_pure _

/-- Every value takes some bytes. -/
theorem width_pos (column : ColumnDef) : 0 < column.dtype.width := DType.width_pos column.width_ne

theorem validateColumnMeta_eq_ok {cm : ColumnMeta} {dtype : DType} :
    validateColumnMeta cm dtype = .ok () ↔ (cm.dtype, cm.fixedWidth) = dtypeMeta dtype := by
  unfold validateColumnMeta
  split
  rename_i wanted width expected
  rw [expected, Prod.mk.injEq]
  split
  · next wrong => simpa [imp_iff_not_or] using wrong
  · next right => simpa [not_or] using right

/-- The length checks pass when the file is as long as its rows, and not empty. -/
theorem checkMapLen_eq_ok {name : String} {actual expected : Nat} :
    ImmutableSegment.checkMapLen name actual expected = .ok () ↔
      actual = expected ∧ expected ≠ 0 := by
  unfold ImmutableSegment.checkMapLen
  split
  · simp_all
  · split <;> simp_all

theorem expectedColumnBytes_eq_ok {dtype : DType} {n expected : Nat} :
    expectedColumnBytes dtype n = .ok expected ↔ checkedMul n dtype.width = some expected := by
  unfold expectedColumnBytes
  split <;> simp_all

/-- The metadata lists the column with its type, and the file it names holds these bytes, as
many as the rows take. -/
structure ListedFile (d : Disk) (segment : ImmutableSegment) (column : ColumnDef) (bytes : Bytes) :
    Prop where
  listed : ∃ cm, segment.info.column column.name = some cm ∧
    (cm.dtype, cm.fixedWidth) = dtypeMeta column.dtype ∧
    d.files (segment.path.join cm.file) = some bytes
  size : checkedMul segment.info.rowCount column.dtype.width = some bytes.length

/-- What `map_column` needs. -/
theorem mapColumn_eq_ok {d d' : Disk} {segment : ImmutableSegment} {column : ColumnDef}
    {mapped : MappedColumn} :
    (segment.mapColumn column.name column.dtype).exec d = (.ok mapped, d') ↔
      d' = d ∧ segment.info.rowCount ≠ 0 ∧ ∃ bytes, ListedFile d segment column bytes ∧
        mapped = ⟨column.name, column.dtype, segment.info.rowCount, bytes⟩ := by
  unfold ImmutableSegment.mapColumn
  constructor
  · intro h
    obtain ⟨cm, listed, h⟩ := Query.exec_pureStep_bind_eq_ok.mp h
    obtain ⟨⟨⟩, valid, h⟩ := Query.exec_pureStep_bind_eq_ok.mp h
    obtain ⟨expected, product, h⟩ := Query.exec_pureStep_bind_eq_ok.mp h
    obtain ⟨⟨⟩, d₁, opened, h⟩ := Query.exec_bind_eq_ok.mp h
    obtain ⟨len, d₂, sized, h⟩ := Query.exec_bind_eq_ok.mp h
    obtain ⟨⟨⟩, checked, h⟩ := Query.exec_pureStep_bind_eq_ok.mp h
    obtain ⟨bytes, d₃, read, h⟩ := Query.exec_bind_eq_ok.mp h
    obtain ⟨rfl, rfl⟩ := Query.exec_pure_eq_ok.mp h
    obtain ⟨-, rfl⟩ := Query.exec_openRead_eq_ok.mp opened
    obtain ⟨⟨x, held, rfl⟩, rfl⟩ := Query.exec_fileLen_eq_ok.mp sized
    obtain ⟨held', rfl⟩ := Query.exec_read_eq_ok.mp read
    obtain rfl := Option.some.inj (held.symm.trans held')
    obtain ⟨rfl, filled⟩ := checkMapLen_eq_ok.mp (ofResult_eq_ok.mp checked)
    have listing := expectedColumnBytes_eq_ok.mp (ofResult_eq_ok.mp product)
    have found := ImmutableSegment.metaColumn_eq_ok.mp listed
    refine ⟨rfl, fun none => filled ?_, x, ⟨⟨cm, found, ?_, held⟩, listing⟩, rfl⟩
    · rw [(checkedMul_eq_some.mp listing).2, none, Nat.zero_mul]
    · exact validateColumnMeta_eq_ok.mp (ofResult_eq_ok.mp valid)
  · rintro ⟨rfl, nonempty, bytes, ⟨⟨cm, found, type, held⟩, size⟩, rfl⟩
    have listed := ImmutableSegment.metaColumn_eq_ok.mpr found
    have positive : bytes.length ≠ 0 := by
      rw [(checkedMul_eq_some.mp size).2]
      exact Nat.mul_ne_zero nonempty (width_pos column).ne'
    refine Query.exec_pureStep_bind_eq_ok.mpr ⟨cm, listed, ?_⟩
    refine Query.exec_pureStep_bind_eq_ok.mpr
      ⟨(), ofResult_eq_ok.mpr (validateColumnMeta_eq_ok.mpr type), ?_⟩
    refine Query.exec_pureStep_bind_eq_ok.mpr
      ⟨_, ofResult_eq_ok.mpr (expectedColumnBytes_eq_ok.mpr size), ?_⟩
    refine Query.exec_bind_eq_ok.mpr ⟨(), d', Query.exec_openRead_eq_ok.mpr ⟨by simp [held], rfl⟩, ?_⟩
    refine Query.exec_bind_eq_ok.mpr
      ⟨_, d', Query.exec_fileLen_eq_ok.mpr ⟨⟨bytes, held, rfl⟩, rfl⟩, ?_⟩
    refine Query.exec_pureStep_bind_eq_ok.mpr
      ⟨(), ofResult_eq_ok.mpr (checkMapLen_eq_ok.mpr ⟨rfl, positive⟩), ?_⟩
    exact Query.exec_bind_eq_ok.mpr ⟨bytes, d', Query.exec_read_eq_ok.mpr ⟨held, rfl⟩, rfl⟩

/-- Mapping a column of a stored segment maps the bytes of its values. -/
theorem mapColumn_exec {d : Disk} {segment : ImmutableSegment} {b : RowBatch}
    (h : Stored serde root schema d segment b) {column : ColumnDef}
    (hc : column ∈ schema.columns) (fits : b.rowCount * column.dtype.width ≤ maxFileLen)
    {data : ColumnData} (found : b.column column.name = some data) :
    (segment.mapColumn column.name column.dtype).exec d =
      (.ok ⟨column.name, column.dtype, b.rowCount, valueBytes data⟩, d) := by
  obtain ⟨cm, hcm, -, dtype, file, data', found', held⟩ := h.columns _ hc
  obtain rfl : data' = data := Option.some.inj (found'.symm.trans found)
  obtain ⟨data, found', shape⟩ := h.wellFormed.column hc
  obtain rfl : data = data' := Option.some.inj (found'.symm.trans found)
  have nonempty : segment.info.rowCount ≠ 0 := h.rowCount ▸ h.nonempty
  rw [← Path.join_of_isName _ (columnFileName_eq_ok file).2] at held
  refine mapColumn_eq_ok.mpr ⟨rfl, nonempty, _, ⟨⟨cm, hcm, dtype, held⟩, ?_⟩, by rw [h.rowCount]⟩
  rw [h.rowCount, checkedMul_of_le (fits.trans maxFileLen_le), length_valueBytes shape]

end BypassIo.Db
