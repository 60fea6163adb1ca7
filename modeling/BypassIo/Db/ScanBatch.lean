import BypassIo.Db.Flatten

/-!
# Scan results as batches

`ScanResult.toBatch` flattens a result. On sound results, appending columns and taking
indices refine the operations of `RowBatch`, and `filter_scan_indices` finds the rows that
pass the predicate.
-/

namespace BypassIo.Db
open Octet Rust Columns FileSystem

/-! ## Columns -/

namespace ScanColumn

/-- Every chunk can be read, and the vector filters see the chunk they filter. -/
def Sound : ScanColumn → Prop
  | .f64 chunks => ∀ c ∈ chunks, c.Sound MappedColumn.f64Value ∧ c.Whole
  | .i64 chunks | .timestamp chunks => ∀ c ∈ chunks, c.Sound MappedColumn.i64Value
  | .fixedStr _ chunks => ∀ c ∈ chunks, c.Sound MappedColumn.fixedStrValue

@[simp] theorem flatten_empty (dtype : DType) : (empty dtype).flatten = .empty dtype := by
  cases dtype <;> rfl

theorem sound_empty (dtype : DType) : (empty dtype).Sound := by
  cases dtype <;> simp [empty, Sound]

@[simp] theorem flatten_ofData (data : ColumnData) : (ofData data).flatten = data := by
  cases data <;> simp [ofData, flatten, Chunk.flatten, Chunk.values]

theorem sound_ofData (data : ColumnData) : (ofData data).Sound := by
  cases data <;> simp [ofData, Sound, Chunk.Sound, Chunk.values, Chunk.rowCount, Chunk.Whole]

/-- `ScanColumn::append` refines `ColumnData::append`. -/
theorem append_ok {l r : ScanColumn} {both : ColumnData} (sl : l.Sound) (sr : r.Sound)
    (h : l.flatten.append r.flatten = .ok both) :
    ∃ column, l.append r = .ok column ∧ column.Sound ∧ column.flatten = both := by
  cases l <;> cases r <;> simp only [flatten, ColumnData.append] at h <;>
    first
    | (cases h; done)
    | (refine ⟨_, rfl, ?_, ?_⟩
       · intro c hc
         obtain left | right := List.mem_append.mp hc
         · exact sl c left
         · exact sr c right
       · cases h
         simp [flatten])
    | skip
  rename_i lw ls rw rs
  split at h <;> cases h
  rename_i same
  refine ⟨.fixedStr lw (ls ++ rs), by simp [append, same], ?_, by simp [flatten]⟩
  intro c hc
  obtain left | right := List.mem_append.mp hc
  · exact sl c left
  · exact sr c right

/-- `ScanColumn::take_indices` refines `ColumnData::take_indices`. -/
theorem takeIndices_ok {ε : Type} {column : ScanColumn} (sound : column.Sound)
    (fits : column.flatten.rowCount ≤ usizeMax) {indices : List Nat}
    (lt : ∀ i ∈ indices, i < column.flatten.rowCount) :
    ∃ taken, column.takeIndices indices = (.ok taken : Outcome ε ScanColumn) ∧
      column.flatten.takeIndices indices = (.ok taken.flatten : Outcome ε ColumnData) := by
  cases column with
  | f64 chunks =>
    obtain ⟨taken, htaken, values⟩ := Chunk.take_ok (ε := ε) (fun c hc => (sound c hc).1) fits lt
    refine ⟨.f64 taken, bind_eq_ok.mpr ⟨taken, htaken, rfl⟩, ?_⟩
    exact bind_eq_ok.mpr ⟨_, mapM_index lt, congrArg _ (congrArg _ values.symm)⟩
  | i64 chunks =>
    obtain ⟨taken, htaken, values⟩ := Chunk.take_ok (ε := ε) sound fits lt
    refine ⟨.i64 taken, bind_eq_ok.mpr ⟨taken, htaken, rfl⟩, ?_⟩
    exact bind_eq_ok.mpr ⟨_, mapM_index lt, congrArg _ (congrArg _ values.symm)⟩
  | timestamp chunks =>
    obtain ⟨taken, htaken, values⟩ := Chunk.take_ok (ε := ε) sound fits lt
    refine ⟨.timestamp taken, bind_eq_ok.mpr ⟨taken, htaken, rfl⟩, ?_⟩
    exact bind_eq_ok.mpr ⟨_, mapM_index lt, congrArg _ (congrArg _ values.symm)⟩
  | fixedStr width chunks =>
    obtain ⟨taken, htaken, values⟩ := Chunk.take_ok (ε := ε) sound fits lt
    refine ⟨.fixedStr width taken, bind_eq_ok.mpr ⟨taken, htaken, rfl⟩, ?_⟩
    exact bind_eq_ok.mpr ⟨_, mapM_index lt, congrArg _ (congrArg _ values.symm)⟩

/-- Rows selected from a mapped column whose file holds `values`. -/
theorem mappedValues {α : Type} {read : MappedColumn → Nat → Option α} {column : MappedColumn}
    {values : List α} {n : Nat} (held : ∀ i, read column i = values[i]?) {indices : List Nat}
    (lt : ∀ i ∈ indices, i < values.length) :
    (Chunk.mapped ⟨column, .fromIndices indices n⟩).values read = gather values indices ∧
      (Chunk.mapped ⟨column, .fromIndices indices n⟩).Sound read := by
  have all : (Chunk.mapped ⟨column, .fromIndices indices n⟩).values read =
      gather values indices := by
    rw [Chunk.values, RowSelection.iter_fromIndices]
    exact List.filterMap_congr fun i _ => held i
  refine ⟨all, ?_⟩
  rw [Chunk.Sound, all, length_gather lt, Chunk.rowCount, RowSelection.len_fromIndices]

/-- Rows selected from the mapped file of a stored column. -/
theorem fromMapped_ok (name : String) {dtype : DType} {n : Nat} {data : ColumnData}
    (shape : data.HasShape dtype n) (fits : n * dtype.width ≤ usizeMax)
    (width : 0 < dtype.width) {indices : List Nat} (lt : ∀ i ∈ indices, i < n) :
    (fromMapped ⟨name, dtype, n, valueBytes data⟩ (.fromIndices indices n)).Sound ∧
      data.takeIndices indices = (.ok (fromMapped ⟨name, dtype, n, valueBytes data⟩
        (.fromIndices indices n)).flatten : Outcome TableError ColumnData) := by
  have held := MappedColumn.holds_valueBytes name shape fits width
  cases shape using ColumnData.HasShape.elim with
  | f64 values =>
    obtain ⟨all, sound⟩ := mappedValues (n := values.length) held lt
    refine ⟨?_, ?_⟩
    · rintro c hc
      obtain rfl := List.mem_singleton.mp hc
      refine ⟨sound, fun identity => ⟨?_, ?_⟩⟩
      · have size := length_flatMap_of_width _ values fun v _ => length_u64Bytes v
        simp [valueBytes, size]
      · obtain ⟨len, whole⟩ := RowSelection.isIdentity_eq_true.mp identity
        obtain ⟨everything, -⟩ := RowSelection.fromIndices_eq_all.mp whole
        refine all.trans (Eq.trans ?_ (map_u64Of_chunksExact values).symm)
        rw [everything]
        exact gather_range values
    · exact bind_eq_ok.mpr ⟨_, mapM_index lt, congrArg (Except.ok ∘ ColumnData.f64)
        (all.symm.trans (Chunk.flatten_singleton _).symm)⟩
  | i64 values =>
    obtain ⟨all, sound⟩ := mappedValues (n := values.length) held lt
    refine ⟨fun c hc => List.mem_singleton.mp hc ▸ sound, ?_⟩
    exact bind_eq_ok.mpr ⟨_, mapM_index lt, congrArg (Except.ok ∘ ColumnData.i64)
      (all.symm.trans (Chunk.flatten_singleton _).symm)⟩
  | timestamp values =>
    obtain ⟨all, sound⟩ := mappedValues (n := values.length) held lt
    refine ⟨fun c hc => List.mem_singleton.mp hc ▸ sound, ?_⟩
    exact bind_eq_ok.mpr ⟨_, mapM_index lt, congrArg (Except.ok ∘ ColumnData.timestamp)
      (all.symm.trans (Chunk.flatten_singleton _).symm)⟩
  | fixedStr w values =>
    obtain ⟨all, sound⟩ := mappedValues (n := values.length) held lt
    refine ⟨fun c hc => List.mem_singleton.mp hc ▸ sound, ?_⟩
    exact bind_eq_ok.mpr ⟨_, mapM_index lt, congrArg (Except.ok ∘ ColumnData.fixedStr w)
      (all.symm.trans (Chunk.flatten_singleton _).symm)⟩

end ScanColumn

/-! ## Results -/

namespace ScanResult

variable {schema : Schema}

/-- The columns, flattened. -/
def flattened (columns : List (String × ScanColumn)) : List (String × ColumnData) :=
  columns.map fun c => (c.1, c.2.flatten)

theorem flattened_cons (c : String × ScanColumn) (columns : List (String × ScanColumn)) :
    flattened (c :: columns) = (c.1, c.2.flatten) :: flattened columns := rfl

/-- The result with every column flattened. -/
def toBatch (r : ScanResult) : RowBatch := ⟨flattened r.columns, r.rowCount⟩

def Sound (r : ScanResult) : Prop := ∀ c ∈ r.columns, c.2.Sound

@[simp] theorem toBatch_empty (schema : Schema) : (empty schema).toBatch = .empty schema := by
  simp [toBatch, flattened, empty, RowBatch.empty]

theorem sound_empty (schema : Schema) : (empty schema).Sound := by
  simp only [Sound, empty, List.forall_mem_map]
  exact fun column _ => ScanColumn.sound_empty column.dtype

@[simp] theorem toBatch_fromBatch (b : RowBatch) : (fromBatch b).toBatch = b := by
  simp [toBatch, flattened, fromBatch, Function.comp_def]

theorem sound_fromBatch (b : RowBatch) : (fromBatch b).Sound := by
  simp only [Sound, fromBatch, List.forall_mem_map]
  exact fun c _ => ScanColumn.sound_ofData c.2

/-- The zip loop refines the column loop of `RowBatch::append`. -/
theorem appendLoop_ok {incoming existing : List (String × ScanColumn)}
    {both : List (String × ColumnData)} (same : incoming.length = existing.length)
    (si : ∀ c ∈ incoming, c.2.Sound) (se : ∀ c ∈ existing, c.2.Sound)
    (h : RowBatch.appendColumns (flattened existing) (flattened incoming) = (.ok (), both)) :
    ∃ columns, appendLoop incoming existing = .ok (columns, existing.length) ∧
      (∀ c ∈ columns, c.2.Sound) ∧ flattened columns = both := by
  induction incoming generalizing existing both with
  | nil =>
    obtain rfl : existing = [] := List.length_eq_zero_iff.mp same.symm
    cases h
    exact ⟨[], rfl, by simp, rfl⟩
  | cons i incoming ih =>
    obtain _ | ⟨e, existing⟩ := existing
    · cases same
    · simp only [flattened_cons, RowBatch.appendColumns] at h
      split at h
      · cases h
      · rename_i names
        split at h
        · cases h
        · rename_i data hdata
          cases hrest : RowBatch.appendColumns (flattened existing) (flattened incoming) with
          | mk result rest =>
            rw [hrest] at h
            obtain ⟨rfl, rfl⟩ := Prod.mk.inj h
            obtain ⟨columns, loop, sound, rfl⟩ := ih (by simpa using same)
              (fun c hc => si c (List.mem_cons_of_mem _ hc))
              (fun c hc => se c (List.mem_cons_of_mem _ hc)) hrest
            obtain ⟨column, happ, hsound, rfl⟩ := ScanColumn.append_ok
              (se _ List.mem_cons_self) (si _ List.mem_cons_self) hdata
            have same_name : i.1 = e.1 := by simpa using fun ne => names (Ne.symm ne)
            refine ⟨(e.1, column) :: columns, ?_, ?_, rfl⟩
            · simp [appendLoop, same_name, happ, loop, bind, Except.bind, pure, Except.pure]
            · exact List.forall_mem_cons.mpr ⟨hsound, sound⟩

/-- `append_columns` concatenates rows. -/
theorem appendColumns_ok {r new : ScanResult} (hr : r.toBatch.WellFormed schema) (sr : r.Sound)
    (hn : new.toBatch.WellFormed schema) (sn : new.Sound)
    (fits : r.rowCount + new.rowCount ≤ usizeMax) :
    ∃ out, r.appendColumns new.columns new.rowCount = .ok out ∧ out.toBatch.WellFormed schema ∧
      out.Sound ∧ out.toBatch.rows = r.toBatch.rows ++ new.toBatch.rows ∧
      out.rowCount = r.rowCount + new.rowCount := by
  obtain ⟨batch, happ, ok, rows, count⟩ := hr.append hn fits
  have lr : r.columns.length = schema.columns.length := by
    simpa [toBatch, flattened] using hr.length_columns
  have ln : new.columns.length = schema.columns.length := by
    simpa [toBatch, flattened] using hn.length_columns
  unfold RowBatch.append at happ
  rw [if_neg (by simp [toBatch, flattened, lr, ln])] at happ
  cases loop : RowBatch.appendColumns r.toBatch.columns new.toBatch.columns with
  | mk result both =>
    rw [loop] at happ
    cases result with
    | error e => simp at happ
    | ok =>
      obtain ⟨columns, hloop, sound, rfl⟩ := appendLoop_ok (ln.trans lr.symm) sn sr loop
      have total : checkedAdd r.rowCount new.rowCount = some (r.rowCount + new.rowCount) :=
        checkedAdd_eq_some.mpr ⟨fits, rfl⟩
      have hsum : checkedAdd r.toBatch.rowCount new.toBatch.rowCount = _ := total
      simp only [hsum, Prod.mk.injEq, true_and] at happ
      refine ⟨⟨columns, r.rowCount + new.rowCount⟩, ?_, ?_, sound, ?_, rfl⟩
      · simp [appendColumns, hloop, total, bind, Except.bind, pure, Except.pure]
      · rw [toBatch, happ]
        exact ok
      · rw [toBatch, happ, rows]

/-- `append_batch` concatenates rows. -/
theorem appendBatch_ok {r : ScanResult} {b : RowBatch} (hr : r.toBatch.WellFormed schema)
    (sr : r.Sound) (hb : b.WellFormed schema) (fits : r.rowCount + b.rowCount ≤ usizeMax) :
    ∃ out, r.appendBatch b = .ok out ∧ out.toBatch.WellFormed schema ∧
      out.Sound ∧ out.toBatch.rows = r.toBatch.rows ++ b.rows ∧
      out.rowCount = r.rowCount + b.rowCount := by
  have new : (fromBatch b).toBatch.WellFormed schema := by rwa [toBatch_fromBatch]
  have appended := appendColumns_ok hr sr new (sound_fromBatch b) fits
  rwa [toBatch_fromBatch] at appended

/-- The columns of batch `b` as a stored segment maps them. -/
def MapsTo (b : RowBatch) (column : ColumnDef) (mapped : String × MappedColumn) : Prop :=
  ∃ data, b.column column.name = some data ∧
    mapped = (column.name, ⟨column.name, column.dtype, b.rowCount, valueBytes data⟩)

/-- The selected rows of mapped columns. -/
def ofMapped (columns : List (String × MappedColumn)) (selection : RowSelection) : ScanResult where
  columns := columns.map fun (name, column) => (name, ScanColumn.fromMapped column selection)
  rowCount := selection.len

/-- Mapped columns of a stored batch, flattened, are the selected rows of the batch. -/
theorem ofMapped_ok {b : RowBatch} (hb : b.WellFormed schema) (fits : Fits schema b.rowCount)
    {columns : List (String × MappedColumn)} (maps : List.Forall₂ (MapsTo b) schema.columns columns)
    {indices : List Nat} (lt : ∀ i ∈ indices, i < b.rowCount) :
    (ofMapped columns (.fromIndices indices b.rowCount)).Sound ∧
      b.takeIndices indices =
        (.ok (ofMapped columns (.fromIndices indices b.rowCount)).toBatch :
          Outcome TableError RowBatch) := by
  have width : columns.length = b.columns.length :=
    maps.length_eq.symm.trans hb.length_columns.symm
  have each : ∀ (i : Nat) c m, b.columns[i]? = some c → columns[i]? = some m →
      (ScanColumn.fromMapped m.2 (.fromIndices indices b.rowCount)).Sound ∧ c.1 = m.1 ∧
      c.2.takeIndices indices =
        (.ok (ScanColumn.fromMapped m.2 (.fromIndices indices b.rowCount)).flatten :
          Outcome TableError ColumnData) := by
    intro i c m hc hm
    have lt_i : i < schema.columns.length := by
      rw [← hb.length_columns]
      exact (List.getElem?_eq_some_iff.mp hc).1
    have hcolumn := List.getElem?_eq_getElem lt_i
    obtain ⟨m', hm', data, found, rfl⟩ := forall₂_getElem? maps hcolumn
    obtain rfl := Option.some.inj (hm'.symm.trans hm)
    obtain ⟨data', hdata, found', shape⟩ := hb.getElem? hcolumn
    obtain rfl := Option.some.inj (found'.symm.trans found)
    obtain rfl := Option.some.inj (hdata.symm.trans hc)
    have mem := List.mem_of_getElem? hcolumn
    obtain ⟨sound, take⟩ := ScanColumn.fromMapped_ok schema.columns[i].name shape
      ((fits _ mem).trans maxFileLen_le) (width_pos _) lt
    exact ⟨sound, rfl, take⟩
  constructor
  · intro c hc
    obtain ⟨m, hm, rfl⟩ := List.mem_map.mp hc
    obtain ⟨i, hi⟩ := List.mem_iff_getElem?.mp hm
    have lt_i : i < b.columns.length := by
      rw [← width]
      exact (List.getElem?_eq_some_iff.mp hi).1
    exact (each i _ m (List.getElem?_eq_getElem lt_i) hi).1
  · have related : List.Forall₂ (fun c out => (c.2.takeIndices indices >>= fun data =>
        pure (c.1, data)) = (.ok out : Outcome TableError (String × ColumnData)))
        b.columns (flattened (ofMapped columns (.fromIndices indices b.rowCount)).columns) := by
      apply forall₂_of_getElem?
      · simp [flattened, ofMapped, width]
      · intro i c out hc hout
        simp only [flattened, ofMapped, List.map_map, List.getElem?_map,
          Option.map_eq_some_iff] at hout
        obtain ⟨m, hm, rfl⟩ := hout
        obtain ⟨-, name, take⟩ := each i c m hc hm
        exact bind_eq_ok.mpr ⟨_, take, by rw [name]; rfl⟩
    have all := mapM_eq_ok_forall₂.mpr related
    refine bind_eq_ok.mpr ⟨_, all, ?_⟩
    simp only [toBatch, ofMapped, RowSelection.len_fromIndices]
    rfl

/-- `append_mapped_columns` adds the selected rows of the batch. -/
theorem appendMappedColumns_ok {r : ScanResult} (hr : r.toBatch.WellFormed schema) (sr : r.Sound)
    {b : RowBatch} (hb : b.WellFormed schema) (fits : Fits schema b.rowCount)
    {columns : List (String × MappedColumn)} (maps : List.Forall₂ (MapsTo b) schema.columns columns)
    {indices : List Nat} (lt : ∀ i ∈ indices, i < b.rowCount)
    (room : r.rowCount + indices.length ≤ usizeMax) :
    ∃ out, r.appendMappedColumns columns (.fromIndices indices b.rowCount) = .ok out ∧
      out.toBatch.WellFormed schema ∧ out.Sound ∧
      out.toBatch.rows = r.toBatch.rows ++ gather b.rows indices ∧
      out.rowCount = r.rowCount + indices.length := by
  obtain ⟨taken, htaken, ok, rows⟩ := hb.takeIndices (ε := TableError) lt
  obtain ⟨sound, flat⟩ := ofMapped_ok hb fits maps lt
  obtain rfl := Except.ok.inj (htaken.symm.trans flat)
  have count : (ofMapped columns (.fromIndices indices b.rowCount)).rowCount = indices.length :=
    RowSelection.len_fromIndices _ _
  have appended := appendColumns_ok hr sr ok sound (by rwa [count])
  rw [rows, count] at appended
  rw [appendMappedColumns, RowSelection.len_fromIndices]
  exact appended

/-- Taking rows of each column, mapped or not, is taking rows of the flat columns. -/
theorem mapM_takeIndices {ε : Type} {columns : List (String × ScanColumn)} {indices : List Nat}
    (sound : ∀ c ∈ columns, c.2.Sound)
    (fits : ∀ c ∈ columns, c.2.flatten.rowCount ≤ usizeMax)
    (lt : ∀ c ∈ columns, ∀ i ∈ indices, i < c.2.flatten.rowCount) :
    ∃ taken, (columns.mapM fun (name, column) => do
      let taken ← column.takeIndices indices
      return (name, taken)) = (.ok taken : Outcome ε (List (String × ScanColumn))) ∧
      ((flattened columns).mapM fun (name, data) => do
        return (name, ← data.takeIndices indices)) =
          (.ok (flattened taken) : Outcome ε (List (String × ColumnData))) := by
  induction columns with
  | nil => exact ⟨[], rfl, rfl⟩
  | cons c columns ih =>
    obtain ⟨rest, hrest, flat⟩ := ih (fun c hc => sound c (List.mem_cons_of_mem _ hc))
      (fun c hc => fits c (List.mem_cons_of_mem _ hc))
      fun c hc => lt c (List.mem_cons_of_mem _ hc)
    obtain ⟨column, htake, htakeFlat⟩ := ScanColumn.takeIndices_ok (ε := ε)
      (sound c List.mem_cons_self) (fits c List.mem_cons_self) (lt c List.mem_cons_self)
    refine ⟨(c.1, column) :: rest, ?_, ?_⟩
    · exact mapM_cons_eq_ok.mpr ⟨_, _, bind_eq_ok.mpr ⟨column, htake, rfl⟩, hrest, rfl⟩
    · exact mapM_cons_eq_ok.mpr ⟨_, _, bind_eq_ok.mpr ⟨_, htakeFlat, rfl⟩, flat, rfl⟩

/-- `take_indices` refines that of the batch. -/
theorem takeIndices_ok {ε : Type} {r : ScanResult} (hr : r.toBatch.WellFormed schema)
    (sound : r.Sound) (fits : r.rowCount ≤ usizeMax) {indices : List Nat}
    (lt : ∀ i ∈ indices, i < r.rowCount) :
    ∃ out, r.takeIndices indices = (.ok out : Outcome ε ScanResult) ∧
      out.toBatch.WellFormed schema ∧ out.toBatch.rows = gather r.toBatch.rows indices := by
  obtain ⟨taken, htaken, ok, rows⟩ := hr.takeIndices (ε := ε) lt
  have counts : ∀ c ∈ r.columns, c.2.flatten.rowCount = r.rowCount := by
    intro c hc
    obtain ⟨column, -, -, shape⟩ := exists_of_forall₂_right hr
      (List.mem_map_of_mem (f := fun c => (c.1, c.2.flatten)) hc)
    exact shape.rowCount
  obtain ⟨columns, hcolumns, flat⟩ := mapM_takeIndices (ε := ε) sound
    (fun c hc => by rwa [counts c hc]) fun c hc => by rwa [counts c hc]
  refine ⟨⟨columns, indices.length⟩, bind_eq_ok.mpr ⟨columns, hcolumns, rfl⟩, ?_⟩
  obtain ⟨cols, hcols, done⟩ := bind_eq_ok.mp htaken
  obtain rfl := Except.ok.inj done
  obtain rfl := Except.ok.inj (hcols.symm.trans flat)
  exact ⟨ok, rows⟩

end ScanResult

/-! ## Predicates -/

namespace ColumnPredicate

/-- The test of one cell. -/
def testCell (p : ColumnPredicate) : Cell → Bool
  | .f64 bits => p.testF64 bits
  | .i64 value | .timestamp value => p.testI64 value
  | .fixedStr bytes => p.testFixedStr bytes

/-- The hints of a predicate agree with its own test. -/
structure HintsAgree (p : ColumnPredicate) : Prop where
  range : ∀ min max, p.f64Range = some (min, max) → ∀ v, p.testF64 v = inRangeF64 min max v
  gt : ∀ threshold, p.f64Gt = some threshold → ∀ v, p.testF64 v = F64.gt v threshold

end ColumnPredicate

/-- Testing the rows one by one finds the positions of the test. -/
theorem testRows_eq {r : ScanResult} {column : ScanColumn} (p : ColumnPredicate)
    (sound : column.Sound) (count : column.flatten.rowCount = r.rowCount) :
    testRows r column p = positions p.testCell column.flatten.cells := by
  rw [testRows, positions_eq_filter, ColumnData.length_cells, count]
  refine List.filter_congr fun i _ => ?_
  cases column with
  | f64 chunks =>
    rw [ScanColumn.testAt, Chunk.valueAt_eq fun c hc => (sound c hc).1]
    simp [ScanColumn.flatten, ColumnData.cells, Option.any_map, ColumnPredicate.testCell]
  | i64 chunks | timestamp chunks =>
    rw [ScanColumn.testAt, Chunk.valueAt_eq sound]
    simp [ScanColumn.flatten, ColumnData.cells, Option.any_map, ColumnPredicate.testCell]
  | fixedStr width chunks =>
    rw [ScanColumn.testAt, Chunk.valueAt_eq sound]
    simp [ScanColumn.flatten, ColumnData.cells, Option.any_map, ColumnPredicate.testCell]

/-- Every path of the filter finds the positions of the predicate. -/
theorem filterColumn_eq (features : Features) {r : ScanResult} {column : ScanColumn}
    {p : ColumnPredicate} (agree : p.HintsAgree) (sound : column.Sound)
    (count : column.flatten.rowCount = r.rowCount) :
    filterColumn features r column p = positions p.testCell column.flatten.cells := by
  have slow := testRows_eq p sound count
  cases column with
  | f64 chunks =>
    have readable : ∀ c ∈ chunks, c.Sound MappedColumn.f64Value := fun c hc => (sound c hc).1
    have cells : positions p.testCell (ScanColumn.f64 chunks).flatten.cells =
        positions p.testF64 (Chunk.flatten MappedColumn.f64Value chunks) := positions_map _ _ _
    have fast : ∀ test : UInt64 → Bool, (∀ v, p.testF64 v = test v) →
        ScanColumn.filterChunks (Simd.filterF64Values features test)
          (Simd.filterF64Selection features test) chunks 0 =
          positions p.testF64 (Chunk.flatten MappedColumn.f64Value chunks) := by
      intro test same
      rw [filterChunks_eq 0 (Simd.filterF64Values_eq test) (fun s hs =>
        filterF64Selection_eq test (sound _ hs).1 (sound _ hs).2) readable,
        positions_congr fun v _ => (same v).symm]
      simp
    unfold filterColumn
    cases range : p.f64Range with
    | some bounds =>
      obtain ⟨min, max⟩ := bounds
      rw [cells]
      exact fast _ (agree.range min max range)
    | none =>
      cases gt : p.f64Gt with
      | some threshold =>
        rw [cells]
        exact fast _ (agree.gt threshold gt)
      | none => exact slow
  | i64 chunks | timestamp chunks | fixedStr width chunks =>
    unfold filterColumn
    cases p.f64Range <;> cases p.f64Gt <;> exact slow

end BypassIo.Db
