import BypassIo.Db.Sealed

/-!
# Fewer columns

A batch of the schema `A` is also a batch of every schema `B` whose columns are among those
of `A`: `project` picks them. A segment stored under `A` is stored under `B` with the
projected batch (`Stored.project`), and a segment stored under `B` reads under `A`, where
that succeeds at all, as a batch whose projection is the stored one (`project_readBatch`).
-/

namespace BypassIo.Db
open Octet Rust FileSystem Columns

variable {serde : Serde} {root : Path} {A B : Schema} {d d' : Disk} {b : RowBatch}
  {segment : ImmutableSegment}

/-! ## Places of columns -/

namespace Schema

/-- The index of the column of this name. -/
def place (s : Schema) (name : String) : Nat := s.names.idxOf name

theorem getElem?_place {s : Schema} {column : ColumnDef} (hc : column ∈ s.columns) :
    s.columns[s.place column.name]? = some column := by
  obtain ⟨i, hi⟩ := List.mem_iff_getElem?.mp hc
  have mem : column.name ∈ s.names := List.mem_map_of_mem hc
  have there : s.names[s.place column.name]? = some column.name := List.getElem?_idxOf mem
  rw [names, List.getElem?_map, Option.map_eq_some_iff] at there
  obtain ⟨c, found, name⟩ := there
  rwa [s.idx_unique found hi name]

/-- The places in `A` of the columns of `B`. -/
def places (A B : Schema) : List Nat := B.columns.map fun column => A.place column.name

/-- A schema has one timestamp column. -/
theorem timestampColumn_of_mem {column : ColumnDef} (hc : column ∈ A.columns)
    (time : column.dtype = .timestamp) : A.timestampColumn = column := by
  obtain ⟨i, hi⟩ := List.mem_iff_getElem?.mp hc
  have at_idx : 0 + i = A.timestampColumnIdx := (A.only_timestamp.2.2 i _ hi).mp time
  rw [Nat.zero_add] at at_idx
  rw [at_idx, A.getElem?_timestampColumn] at hi
  exact Option.some.inj hi

end Schema

/-! ## Projections -/

namespace RowBatch

/-- The columns of `B`, picked from a batch of `A`. -/
def project (A B : Schema) (b : RowBatch) : RowBatch :=
  ⟨gather b.columns (A.places B), b.rowCount⟩

theorem WellFormed.gather_ok (ok : b.WellFormed A) {columns : List ColumnDef}
    (covers : ∀ column ∈ columns, column ∈ A.columns) :
    List.Forall₂ (ColumnOk b.rowCount) columns
      (gather b.columns (columns.map fun column => A.place column.name)) := by
  induction columns with
  | nil => exact .nil
  | cons column columns ih =>
    obtain ⟨here, rest⟩ := List.forall_mem_cons.mp covers
    obtain ⟨data, found, -, shape⟩ := ok.getElem? (Schema.getElem?_place here)
    rw [List.map_cons, gather_cons found]
    exact .cons ⟨rfl, shape⟩ (ih rest)

theorem WellFormed.project (ok : b.WellFormed A) (covers : B.columns ⊆ A.columns) :
    (b.project A B).WellFormed B := ok.gather_ok covers

/-- Batches with the same columns by name are equal. -/
theorem WellFormed.eq_of_columns {a : RowBatch} (ha : a.WellFormed A) (hb : b.WellFormed A)
    (count : a.rowCount = b.rowCount)
    (same : ∀ column ∈ A.columns, a.column column.name = b.column column.name) : a = b := by
  have columns : a.columns = b.columns := by
    apply List.ext_getElem (by rw [ha.length_columns, hb.length_columns])
    intro i hia hib
    have hs : i < A.columns.length := by rwa [← ha.length_columns]
    have hi := List.getElem?_eq_getElem hs
    obtain ⟨l, hl, foundl, -⟩ := ha.getElem? hi
    obtain ⟨r, hr, foundr, -⟩ := hb.getElem? hi
    rw [same _ (List.mem_of_getElem? hi), foundr] at foundl
    rw [List.getElem?_eq_getElem hia] at hl
    rw [List.getElem?_eq_getElem hib] at hr
    rw [Option.some.inj hl, Option.some.inj hr, Option.some.inj foundl]
  obtain ⟨ca, na⟩ := a
  obtain ⟨cb, nb⟩ := b
  simp_all

theorem WellFormed.project_column (ok : b.WellFormed A) (covers : B.columns ⊆ A.columns)
    {column : ColumnDef} (hc : column ∈ B.columns) :
    (b.project A B).column column.name = b.column column.name := by
  obtain ⟨i, hi⟩ := List.mem_iff_getElem?.mp hc
  obtain ⟨data, there, found, -⟩ := (ok.project covers).getElem? hi
  obtain ⟨data', here, found', -⟩ := ok.getElem? (Schema.getElem?_place (covers hc))
  have picks : ∀ p ∈ A.places B, p < b.columns.length := by
    rw [Schema.places, List.forall_mem_map, ok.length_columns]
    exact fun c hc => (List.getElem?_eq_some_iff.mp (Schema.getElem?_place (covers hc))).1
  have pick : (A.places B)[i]? = some (A.place column.name) := by
    rw [Schema.places, List.getElem?_map, hi]
    rfl
  rw [RowBatch.project, getElem?_gather picks, pick, Option.bind_some, here] at there
  rw [found, found', (Prod.mk.inj (Option.some.inj there)).2]

/-- Projecting a batch projects its rows. -/
theorem WellFormed.rows_project (ok : b.WellFormed A) (covers : B.columns ⊆ A.columns) :
    (b.project A B).rows = b.rows.map (gather · (A.places B)) := by
  have picks : ∀ p ∈ A.places B, p < (b.columns.map (·.2.cells)).length := by
    rw [Schema.places, List.forall_mem_map, List.length_map, ok.length_columns]
    exact fun c hc => (List.getElem?_eq_some_iff.mp (Schema.getElem?_place (covers hc))).1
  rw [rows, rows, ← rowsOf_pick ok.length_cells picks, gather_map]
  rfl

end RowBatch

/-- A stored segment is stored under every schema with fewer columns. -/
theorem Stored.project (h : Stored serde root A d segment b) (covers : B.columns ⊆ A.columns) :
    Stored serde root B d segment (b.project A B) := by
  have time := Schema.timestampColumn_of_mem (covers B.timestampColumn_mem) B.timestampColumn_dtype
  refine { h with wellFormed := h.wellFormed.project covers, bounds := ?_, columns := ?_ }
  · obtain ⟨timestamps, times, bounds⟩ := h.bounds
    refine ⟨timestamps, ?_, bounds⟩
    rw [timestampsOf, time] at times
    rwa [timestampsOf, h.wellFormed.project_column covers B.timestampColumn_mem]
  · intro column hc
    obtain ⟨cm, listed, name, dtype, file, data, found, held⟩ := h.columns column (covers hc)
    refine ⟨cm, listed, name, dtype, file, data, ?_, held⟩
    rw [h.wellFormed.project_column covers hc, found]

/-! ## Reading under another schema -/

/-- A column that decodes has the type and the length it was read with; the reader checks no
product of numbers. -/
theorem decodeColumnBytes_shape {name : String} {dtype : DType} {n : Nat} {bytes : Bytes}
    {data : ColumnData} (h : decodeColumnBytes name dtype n bytes = .ok data)
    (fits : dtype.isNumber → n * 8 ≤ usizeMax) (width : dtype ≠ .fixedStr 0) :
    data.HasShape dtype n := by
  have small : n * dtype.width ≤ usizeMax := by
    cases dtype with
    | fixedStr w =>
      simp only [decodeColumnBytes] at h
      split at h
      · cases h
      · rename_i expected product
        exact (checkedMul_eq_some.mp product).1
    | _ => exact fits rfl
  exact ((decodeColumnBytes_iff name small width).mp h).1

/-- What a successful read of a segment finds in the file of each column. -/
structure ReadFrom (d : Disk) (segment : ImmutableSegment) (column : ColumnDef)
    (c : String × ColumnData) : Prop where
  name : c.1 = column.name
  file : ∃ file bytes, columnFileName column.name = .ok file ∧
    d.files (segment.path.join file) = some bytes ∧
    decodeColumnBytes column.name column.dtype segment.info.rowCount bytes = .ok c.2

theorem readBatchColumn_exec_eq_ok {column : ColumnDef} {c : String × ColumnData}
    (h : (segment.readBatchColumn column).exec d = (.ok c, d')) : ReadFrom d segment column c := by
  unfold ImmutableSegment.readBatchColumn readColumn at h
  obtain ⟨data, d₁, read, h⟩ := Query.exec_bind_eq_ok.mp h
  obtain ⟨rfl, rfl⟩ := Query.exec_pure_eq_ok.mp h
  obtain ⟨file, named, read⟩ := Query.exec_pureStep_bind_eq_ok.mp read
  obtain ⟨bytes, d₂, found, decode⟩ := Query.exec_bind_eq_ok.mp read
  obtain ⟨held, rfl⟩ := Query.exec_read_eq_ok.mp found
  obtain ⟨decoded, -⟩ := Prod.mk.inj decode
  exact ⟨rfl, file, bytes, ofResult_eq_ok.mp named, held, ofResult_eq_ok.mp decoded⟩

/-- A segment that reads at all reads as a batch of the schema. -/
theorem readBatch_exec_eq_ok (h : (segment.readBatch A).exec d = (.ok b, d')) :
    List.Forall₂ (ReadFrom d segment) A.columns b.columns ∧ b.rowCount = segment.info.rowCount := by
  obtain ⟨columns, d₁, loop, h⟩ := Query.exec_bind_eq_ok.mp h
  obtain ⟨rfl, rfl⟩ := Query.exec_pure_eq_ok.mp h
  have only_reads : ∀ column, (segment.readBatchColumn column).ReadOnly := fun _ =>
    (readColumn_readOnly _ _ _ _).bind fun _ => Query.readOnly_pure _
  obtain ⟨-, each⟩ := (Query.ReadOnly.exec_mapM_eq_ok only_reads).mp loop
  exact ⟨each.imp fun _ _ => readBatchColumn_exec_eq_ok, rfl⟩

theorem readBatch_wellFormed (h : (segment.readBatch A).exec d = (.ok b, d'))
    (fits : segment.info.rowCount * 8 ≤ maxFileLen) :
    b.WellFormed A ∧ b.rowCount = segment.info.rowCount := by
  obtain ⟨columns, count⟩ := readBatch_exec_eq_ok h
  refine ⟨columns.imp fun column c from_file => ⟨from_file.name, ?_⟩, count⟩
  obtain ⟨file, bytes, -, -, decoded⟩ := from_file.file
  rw [count]
  exact decodeColumnBytes_shape decoded (fun _ => fits.trans maxFileLen_le) column.width_ne

/-- A segment stored under `B` and read under `A` holds the stored values in the columns of `B`. -/
theorem project_readBatch {stored : RowBatch} (h : Stored serde root B d segment stored)
    (fits : Fits B stored.rowCount) (covers : B.columns ⊆ A.columns)
    (read : (segment.readBatch A).exec d = (.ok b, d')) : b.project A B = stored := by
  obtain ⟨columns, -⟩ := readBatch_exec_eq_ok read
  obtain ⟨ok, count⟩ := readBatch_wellFormed read (by rw [h.rowCount]; exact fits.rowCount)
  refine (ok.project covers).eq_of_columns h.wellFormed (count.trans h.rowCount) ?_
  intro column hc
  rw [ok.project_column covers hc]
  obtain ⟨i, hi⟩ := List.mem_iff_getElem?.mp (covers hc)
  obtain ⟨data, there, found, -⟩ := ok.getElem? hi
  obtain ⟨c, here, -, file, bytes, named, held, decoded⟩ := forall₂_getElem? columns hi
  obtain rfl : (column.name, data) = c := Option.some.inj (there.symm.trans here)
  obtain ⟨cm, -, -, -, file', data', found', held'⟩ := h.columns column hc
  obtain ⟨data'', found'', shape⟩ := h.wellFormed.column hc
  obtain rfl : data' = data'' := Option.some.inj (found'.symm.trans found'')
  obtain rfl : file = cm.file := Except.ok.inj (named.symm.trans file')
  rw [Path.join_of_isName _ (columnFileName_eq_ok file').2, held'] at held
  obtain rfl := Option.some.inj held
  rw [h.rowCount, decodeColumnBytes_valueBytes column.name shape
    ((fits column hc).trans maxFileLen_le) column.width_ne] at decoded
  rw [found, found', Except.ok.inj decoded]

end BypassIo.Db
