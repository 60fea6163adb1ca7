import BypassIo.Db.Batch

/-!
# Batches as lists of rows

The abstract content of a table is a bag of rows, a row being one cell for each column of
the schema. This module reads a columnar batch as its list of rows and shows that the
column operations act on rows: appending concatenates, taking indices gathers.
-/

namespace BypassIo.Db
open Octet Rust Columns

inductive Cell where
  | f64 (bits : UInt64)
  | i64 (value : Int64)
  | timestamp (value : Int64)
  | fixedStr (bytes : Bytes)
  deriving DecidableEq, Repr

/-- One cell for each column, in schema order. -/
abbrev Row := List Cell

/-! ## Rows of a batch -/

namespace ColumnData

def cells : ColumnData → List Cell
  | .f64 values => values.map .f64
  | .i64 values => values.map .i64
  | .timestamp values => values.map .timestamp
  | .fixedStr _ values => values.map .fixedStr

@[simp] theorem length_cells (data : ColumnData) : data.cells.length = data.rowCount := by
  cases data <;> simp [cells, rowCount]

theorem cells_append {left right both : ColumnData} (h : left.append right = .ok both) :
    both.cells = left.cells ++ right.cells := by
  cases left <;> cases right <;> simp only [append] at h <;> (try split at h) <;> cases h <;>
    simp [cells]

/-- A column of known type is determined by its cells. -/
theorem eq_of_cells {dtype : DType} {left right : ColumnData} (hl : left.matchesDtype dtype)
    (hr : right.matchesDtype dtype) (h : left.cells = right.cells) : left = right := by
  have f64 : Function.Injective Cell.f64 := fun _ _ => Cell.f64.inj
  have i64 : Function.Injective Cell.i64 := fun _ _ => Cell.i64.inj
  have ts : Function.Injective Cell.timestamp := fun _ _ => Cell.timestamp.inj
  have str : Function.Injective Cell.fixedStr := fun _ _ => Cell.fixedStr.inj
  cases dtype <;> cases left <;> cases right <;>
    simp_all [cells, matchesDtype, List.map_inj_right]

/-- `take_indices` in range gathers the cells and keeps the type. -/
theorem takeIndices_spec {ε : Type} {data : ColumnData} {indices : List Nat}
    (lt : ∀ i ∈ indices, i < data.rowCount) :
    ∃ taken, data.takeIndices indices = (.ok taken : Outcome ε ColumnData) ∧
      taken.cells = gather data.cells indices ∧
      ∀ dtype n, data.HasShape dtype n → taken.HasShape dtype indices.length := by
  have kept : ∀ {α : Type} {xs : List α} {x : α}, x ∈ gather xs indices → x ∈ xs := by
    intro α xs x hx
    obtain ⟨i, -, hi⟩ := List.mem_filterMap.mp hx
    exact List.mem_of_getElem? hi
  cases data with
  | f64 values =>
    refine ⟨.f64 (gather values indices), ?_, by simp [cells], fun dtype n h => ?_⟩
    · simp only [takeIndices, mapM_index lt]
      rfl
    · have same := h.dtype
      exact ⟨by cases dtype <;> simp_all [matchesDtype], length_gather lt, trivial⟩
  | i64 values =>
    refine ⟨.i64 (gather values indices), ?_, by simp [cells], fun dtype n h => ?_⟩
    · simp only [takeIndices, mapM_index lt]
      rfl
    · have same := h.dtype
      exact ⟨by cases dtype <;> simp_all [matchesDtype], length_gather lt, trivial⟩
  | timestamp values =>
    refine ⟨.timestamp (gather values indices), ?_, by simp [cells], fun dtype n h => ?_⟩
    · simp only [takeIndices, mapM_index lt]
      rfl
    · have same := h.dtype
      exact ⟨by cases dtype <;> simp_all [matchesDtype], length_gather lt, trivial⟩
  | fixedStr width values =>
    refine ⟨.fixedStr width (gather values indices), ?_, by simp [cells], fun dtype n h => ?_⟩
    · simp only [takeIndices, mapM_index lt]
      rfl
    · have same := h.dtype
      exact ⟨by cases dtype <;> simp_all [matchesDtype], length_gather lt,
        fun v hv => h.widths v (kept hv)⟩

end ColumnData

namespace RowBatch

variable {schema : Schema} {a b : RowBatch}

/-- The rows of a batch, in order. -/
def rows (b : RowBatch) : List Row := rowsOf (b.columns.map (·.2.cells)) b.rowCount

namespace WellFormed

theorem length_cells (h : b.WellFormed schema) :
    ∀ cells ∈ b.columns.map (·.2.cells), cells.length = b.rowCount := by
  intro cells hc
  obtain ⟨c, mem, rfl⟩ := List.mem_map.mp hc
  obtain ⟨column, -, ok⟩ := exists_of_forall₂_right h mem
  simpa using ok.2.rowCount

@[simp] theorem length_rows (h : b.WellFormed schema) : b.rows.length = b.rowCount :=
  length_rowsOf h.length_cells

theorem rows_eq_nil (h : b.WellFormed schema) : b.rows = [] ↔ b.rowCount = 0 := by
  rw [← List.length_eq_zero_iff, h.length_rows]

/-- Names that occur once find their data. -/
theorem findSome?_of_nodup {columns : List (String × ColumnData)} {i : Nat} {name : String}
    {data : ColumnData} (unique : (columns.map (·.1)).Nodup)
    (hi : columns[i]? = some (name, data)) :
    (columns.findSome? fun (column, data) => if column = name then some data else none) =
      some data := by
  induction columns generalizing i with
  | nil => simp at hi
  | cons c columns ih =>
    obtain ⟨fresh, rest⟩ := List.nodup_cons.mp unique
    cases i with
    | zero =>
      obtain rfl : c = (name, data) := by simpa using hi
      simp
    | succ i =>
      have mem : (name, data) ∈ columns := List.mem_of_getElem? (by simpa using hi)
      have other : c.1 ≠ name := fun e =>
        fresh (List.mem_map.mpr ⟨_, mem, e.symm⟩)
      simpa [List.findSome?_cons, other] using ih rest (by simpa using hi)

/-- The column of index `i` is found under its name. -/
theorem getElem? (h : b.WellFormed schema) {i : Nat} {column : ColumnDef}
    (hi : schema.columns[i]? = some column) :
    ∃ data, b.columns[i]? = some (column.name, data) ∧ b.column column.name = some data ∧
      data.HasShape column.dtype b.rowCount := by
  obtain ⟨⟨name, data⟩, hdata, rfl, shape⟩ := forall₂_getElem? h hi
  exact ⟨data, hdata, findSome?_of_nodup h.nodup hdata, shape⟩

theorem column (h : b.WellFormed schema) {column : ColumnDef} (hc : column ∈ schema.columns) :
    ∃ data, b.column column.name = some data ∧ data.HasShape column.dtype b.rowCount := by
  obtain ⟨i, hi⟩ := List.mem_iff_getElem?.mp hc
  obtain ⟨data, -, found, shape⟩ := h.getElem? hi
  exact ⟨data, found, shape⟩

/-- A column of the batch, read off its rows. -/
theorem rows_column (h : b.WellFormed schema) {i : Nat} {column : ColumnDef} {data : ColumnData}
    (hi : schema.columns[i]? = some column) (found : b.column column.name = some data) :
    b.rows.map (·[i]?) = data.cells.map some := by
  obtain ⟨data', hdata, found', -⟩ := h.getElem? hi
  obtain rfl : data' = data := Option.some.inj (found'.symm.trans found)
  exact rowsOf_column h.length_cells (by simp [hdata])

/-- Looking for values in a column is looking for rows. -/
theorem positions_column (h : b.WellFormed schema) {i : Nat} {column : ColumnDef}
    {data : ColumnData} (hi : schema.columns[i]? = some column)
    (found : b.column column.name = some data) (p : Cell → Bool) :
    positions p data.cells = positions (fun row => (row[i]?).any p) b.rows := by
  have rows := congrArg (positions fun cell => cell.any p) (h.rows_column hi found)
  rw [positions_map, positions_map] at rows
  exact rows.symm

/-- Well-formed batches with the same rows are equal. -/
theorem eq_of_rows (ha : a.WellFormed schema) (hb : b.WellFormed schema)
    (h : a.rows = b.rows) : a = b := by
  have count : a.rowCount = b.rowCount := by rw [← ha.length_rows, ← hb.length_rows, h]
  have cells : a.columns.map (·.2.cells) = b.columns.map (·.2.cells) := by
    refine rowsOf_injective ?_ ha.length_cells ?_ (n := a.rowCount) ?_
    · simp [ha.length_columns, hb.length_columns]
    · rw [count]
      exact hb.length_cells
    · rw [rows, rows, ← count] at h
      exact h
  have columns : a.columns = b.columns := by
    apply List.ext_getElem (by rw [ha.length_columns, hb.length_columns])
    intro i hia hib
    have hs : i < schema.columns.length := by rw [← ha.length_columns]; exact hia
    obtain ⟨l, hl, -, sl⟩ := ha.getElem? (List.getElem?_eq_getElem hs)
    obtain ⟨r, hr, -, sr⟩ := hb.getElem? (List.getElem?_eq_getElem hs)
    have same := congrArg (·[i]?) cells
    simp only [List.getElem?_map, hl, hr, Option.map_some, Option.some.injEq] at same
    obtain rfl := ColumnData.eq_of_cells sl.dtype sr.dtype same
    exact Option.some.inj (by rw [← List.getElem?_eq_getElem, ← List.getElem?_eq_getElem, hl, hr])
  obtain ⟨ca, na⟩ := a
  obtain ⟨cb, nb⟩ := b
  simp_all

end WellFormed

/-! ## Appending -/

theorem empty_wellFormed (schema : Schema) : (empty schema).WellFormed schema := by
  unfold WellFormed empty
  induction schema.columns with
  | nil => exact .nil
  | cons column columns ih => exact .cons ⟨rfl, ColumnData.empty_hasShape _⟩ ih

@[simp] theorem rows_empty (schema : Schema) : (empty schema).rows = [] :=
  (empty_wellFormed schema).rows_eq_nil.mpr rfl

/-- The column loop succeeds on columns of the same names and types. -/
theorem appendColumns_ok {columns : List ColumnDef} {left right : List (String × ColumnData)}
    {n m : Nat} (hl : List.Forall₂ (ColumnOk n) columns left)
    (hr : List.Forall₂ (ColumnOk m) columns right) :
    ∃ both, appendColumns left right = (.ok (), both) ∧
      List.Forall₂ (ColumnOk (n + m)) columns both ∧
      both.map (·.2.cells) =
        List.zipWith (· ++ ·) (left.map (·.2.cells)) (right.map (·.2.cells)) := by
  induction hl generalizing right with
  | nil =>
    cases hr
    exact ⟨[], rfl, .nil, rfl⟩
  | @cons column l columns left okl _ ih =>
    obtain _ | ⟨okr, restr⟩ := hr
    rename_i r right
    obtain ⟨rest, loop, ok, cells⟩ := ih restr
    obtain ⟨leftName, leftData⟩ := l
    obtain ⟨rightName, rightData⟩ := r
    obtain ⟨both, happ, -⟩ := ColumnData.append_of_matches okl.2.dtype okr.2.dtype
    have names : leftName = rightName := okl.1.trans okr.1.symm
    refine ⟨(leftName, both) :: rest, ?_, .cons ⟨okl.1, okl.2.append okr.2 happ⟩ ok, ?_⟩
    · simp [appendColumns, names, happ, loop]
    · simp [cells, ColumnData.cells_append happ]

/-- Appending well-formed batches concatenates their rows. -/
theorem WellFormed.append (ha : a.WellFormed schema) (hb : b.WellFormed schema)
    (fits : a.rowCount + b.rowCount ≤ usizeMax) :
    ∃ c, a.append b = (.ok (), c) ∧ c.WellFormed schema ∧ c.rows = a.rows ++ b.rows ∧
      c.rowCount = a.rowCount + b.rowCount := by
  obtain ⟨both, loop, ok, cells⟩ := appendColumns_ok ha hb
  refine ⟨⟨both, a.rowCount + b.rowCount⟩, ?_, ok, ?_, rfl⟩
  · simp [RowBatch.append, ha.length_columns, hb.length_columns, loop, checkedAdd, fits]
  · simp only [rows, cells]
    exact rowsOf_append (by simp [ha.length_columns, hb.length_columns]) ha.length_cells

/-- The loop `for batch in batches { active.append(&batch)?; }`. -/
def appendAll (b : RowBatch) : List RowBatch → Except BatchError Unit × RowBatch
  | [] => (.ok (), b)
  | other :: batches =>
    match b.append other with
    | (.ok (), both) => both.appendAll batches
    | (.error e, left) => (.error e, left)

theorem WellFormed.appendAll {batches : List RowBatch} (ha : a.WellFormed schema)
    (hb : ∀ b ∈ batches, b.WellFormed schema)
    (fits : a.rowCount + (batches.map (·.rowCount)).sum ≤ usizeMax) :
    ∃ c, a.appendAll batches = (.ok (), c) ∧ c.WellFormed schema ∧
      c.rows = a.rows ++ batches.flatMap rows := by
  induction batches generalizing a with
  | nil => exact ⟨a, rfl, ha, by simp⟩
  | cons b batches ih =>
    simp only [List.map_cons, List.sum_cons] at fits
    obtain ⟨both, happ, ok, rows, count⟩ := ha.append (hb b List.mem_cons_self) (by omega)
    obtain ⟨c, loop, okc, all⟩ :=
      ih ok (fun b hb' => hb b (List.mem_cons_of_mem _ hb')) (by omega)
    exact ⟨c, by simp [RowBatch.appendAll, happ, loop], okc, by simp [all, rows]⟩

theorem appendAll_append (b : RowBatch) {front back : List RowBatch} {mid : RowBatch}
    (h : b.appendAll front = (.ok (), mid)) :
    b.appendAll (front ++ back) = mid.appendAll back := by
  induction front generalizing b with
  | nil =>
    cases h
    rfl
  | cons other front ih =>
    simp only [List.cons_append, appendAll] at h ⊢
    split at h
    · exact ih _ h
    · cases h

/-! ## Batches of the schema's columns -/

theorem WellFormed.typed (h : b.WellFormed schema) : b.Typed schema :=
  List.Forall₂.imp (fun _ _ ok => ⟨ok.1, ok.2.dtype⟩) h

theorem Typed.length_columns (h : b.Typed schema) :
    b.columns.length = schema.columns.length := (List.Forall₂.length_eq h).symm

theorem Typed.names (h : b.Typed schema) : b.columns.map (·.1) = schema.names :=
  map_eq_of_forall₂ h fun _ _ ok => ok.1

theorem appendColumns_typed {columns : List ColumnDef} {left right : List (String × ColumnData)}
    (hl : List.Forall₂ ColumnTyped columns left) (hr : List.Forall₂ ColumnTyped columns right) :
    ∃ both, appendColumns left right = (.ok (), both) ∧
      List.Forall₂ ColumnTyped columns both := by
  induction hl generalizing right with
  | nil =>
    cases hr
    exact ⟨[], rfl, .nil⟩
  | @cons column l columns left okl _ ih =>
    obtain _ | ⟨okr, restr⟩ := hr
    rename_i r right
    obtain ⟨rest, loop, ok⟩ := ih restr
    obtain ⟨both, happ, type⟩ := ColumnData.append_of_matches okl.2 okr.2
    have names : l.1 = r.1 := okl.1.trans okr.1.symm
    exact ⟨(l.1, both) :: rest, by simp [appendColumns, names, happ, loop], .cons ⟨okl.1, type⟩ ok⟩

/-- Batches of the schema's columns append as long as their rows can be counted. -/
theorem Typed.append (ha : a.Typed schema) (hb : b.Typed schema)
    (fits : a.rowCount + b.rowCount ≤ usizeMax) :
    ∃ c, a.append b = (.ok (), c) ∧ c.Typed schema ∧ c.rowCount = a.rowCount + b.rowCount := by
  obtain ⟨both, loop, ok⟩ := appendColumns_typed ha hb
  refine ⟨⟨both, a.rowCount + b.rowCount⟩, ?_, ok, rfl⟩
  simp [RowBatch.append, ha.length_columns, hb.length_columns, loop, checkedAdd, fits]

theorem append_eq_ok {c : RowBatch} (h : a.append b = (.ok (), c)) :
    a.columns.length = b.columns.length ∧ appendColumns a.columns b.columns = (.ok (), c.columns) ∧
      c.rowCount = a.rowCount + b.rowCount ∧ c.rowCount ≤ usizeMax := by
  unfold RowBatch.append at h
  split at h
  · cases h
  · rename_i same
    split at h
    · cases h
    · rename_i loop
      split at h
      · cases h
      · rename_i add
        obtain ⟨fits, rfl⟩ := checkedAdd_eq_some.mp add
        cases h
        exact ⟨by simpa using same, loop, rfl, fits⟩

theorem Typed.of_append {c : RowBatch} (ha : a.Typed schema) (hb : b.Typed schema)
    (h : a.append b = (.ok (), c)) : c.Typed schema := by
  obtain ⟨-, loop, -⟩ := append_eq_ok h
  obtain ⟨both, loop', ok⟩ := appendColumns_typed ha hb
  obtain rfl := (Prod.mk.inj (loop.symm.trans loop')).2
  exact ok

theorem empty_typed (schema : Schema) : (empty schema).Typed schema := (empty_wellFormed schema).typed

theorem Typed.of_appendAll {batches : List RowBatch} {c : RowBatch} (ha : a.Typed schema)
    (hb : ∀ b ∈ batches, b.Typed schema) (h : a.appendAll batches = (.ok (), c)) :
    c.Typed schema ∧ c.rowCount = a.rowCount + (batches.map (·.rowCount)).sum := by
  induction batches generalizing a with
  | nil =>
    cases h
    exact ⟨ha, rfl⟩
  | cons b batches ih =>
    obtain ⟨here, later⟩ := List.forall_mem_cons.mp hb
    rw [appendAll] at h
    split at h
    · rename_i both happ
      obtain ⟨typed, count⟩ := ih (ha.of_append here happ) later h
      obtain ⟨-, -, first, -⟩ := append_eq_ok happ
      exact ⟨typed, by simp only [List.map_cons, List.sum_cons]; omega⟩
    · cases h

theorem appendColumns_left_cancel {left right right' both : List (String × ColumnData)}
    (len : left.length = right.length) (len' : left.length = right'.length)
    (h : appendColumns left right = (.ok (), both))
    (h' : appendColumns left right' = (.ok (), both)) : right = right' := by
  induction left generalizing right right' both with
  | nil =>
    rw [List.length_eq_zero_iff.mp len.symm, List.length_eq_zero_iff.mp len'.symm]
  | cons l left ih =>
    obtain _ | ⟨r, right⟩ := right
    · cases len
    obtain _ | ⟨r', right'⟩ := right'
    · cases len'
    rw [appendColumns] at h h'
    split at h
    · cases h
    rename_i name
    split at h'
    · cases h'
    rename_i name'
    split at h
    · cases h
    rename_i data happ
    split at h'
    · cases h'
    rename_i data' happ'
    obtain ⟨done, rfl⟩ := Prod.mk.inj h
    obtain ⟨done', same⟩ := Prod.mk.inj h'
    obtain ⟨sameData, sameRest⟩ := List.cons.inj same
    obtain rfl := (Prod.mk.inj sameData).2
    have rest : appendColumns left right = (.ok (), (appendColumns left right).2) :=
      Prod.ext done rfl
    have rest' : appendColumns left right' = (.ok (), (appendColumns left right).2) :=
      Prod.ext done' sameRest
    have head : r = r' := by
      refine Prod.ext ?_ (ColumnData.append_left_cancel happ happ')
      rw [← not_not.mp name, ← not_not.mp name']
    rw [head, ih (by simpa using len) (by simpa using len') rest rest']

/-- What has been appended is determined by the result. -/
theorem append_left_cancel {b' c : RowBatch} (h : a.append b = (.ok (), c))
    (h' : a.append b' = (.ok (), c)) : b = b' := by
  obtain ⟨len, loop, count, -⟩ := append_eq_ok h
  obtain ⟨len', loop', count', -⟩ := append_eq_ok h'
  have columns := appendColumns_left_cancel len len' loop loop'
  obtain ⟨columns₁, rowCount₁⟩ := b
  obtain ⟨columns₂, rowCount₂⟩ := b'
  simp only [RowBatch.mk.injEq]
  exact ⟨columns, by dsimp only at count count'; omega⟩

/-! ## Taking rows -/

/-- Taking rows in range gathers them. -/
theorem WellFormed.takeIndices {ε : Type} (h : b.WellFormed schema) {indices : List Nat}
    (lt : ∀ i ∈ indices, i < b.rowCount) :
    ∃ taken, b.takeIndices indices = (.ok taken : Outcome ε RowBatch) ∧
      taken.WellFormed schema ∧ taken.rows = gather b.rows indices := by
  have loop : ∃ columns,
      (b.columns.mapM fun (name, data) => do return (name, ← data.takeIndices indices)) =
        (.ok columns : Outcome ε _) ∧
      List.Forall₂ (ColumnOk indices.length) schema.columns columns ∧
      columns.map (·.2.cells) = (b.columns.map (·.2.cells)).map (gather · indices) := by
    unfold WellFormed at h
    revert h
    generalize b.columns = columns
    generalize schema.columns = defs
    intro h
    induction h with
    | nil => exact ⟨[], rfl, .nil, rfl⟩
    | @cons column c defs columns ok _ ih =>
      obtain ⟨rest, hrest, okrest, cells⟩ := ih
      obtain ⟨name, data⟩ := c
      have inside : ∀ i ∈ indices, i < data.rowCount := by
        rw [ok.2.rowCount]
        exact lt
      obtain ⟨taken, htake, hcells, shape⟩ := data.takeIndices_spec (ε := ε) inside
      refine ⟨(name, taken) :: rest, ?_, .cons ⟨ok.1, shape _ _ ok.2⟩ okrest, ?_⟩
      · exact mapM_cons_eq_ok.mpr ⟨_, _, by simp [htake, bind, Except.bind, pure, Except.pure],
          hrest, rfl⟩
      · simp [cells, hcells]
  obtain ⟨columns, hloop, ok, cells⟩ := loop
  refine ⟨⟨columns, indices.length⟩, ?_, ok, ?_⟩
  · exact bind_eq_ok.mpr ⟨columns, hloop, rfl⟩
  · simp only [rows, cells]
    exact rowsOf_gather h.length_cells lt

end RowBatch

end BypassIo.Db
