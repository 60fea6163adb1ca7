import BypassIo.Db.ScanBatch

/-!
# Taking rows of a scan result gathers them

`take_indices` groups the indices by chunk and compresses each group again. On a result whose
columns flatten to as many values as it counts rows, every column it returns flattens to the
values at the indices, and `value_at_*` looks up the flattened column.

## Main definitions

* `ScanResult.Counted`: no column has more rows in its chunks than the result counts.
* `ScanResult.Built`: the results that the functions of `scan.rs` return.

## Main results

* `ScanResult.Built.counted`: every result that is built is counted.
* `ScanResult.takeIndices_gathers`: `take_indices` gathers, at any chunk boundaries.
-/

namespace BypassIo.Db
open Octet Rust Columns

/-! ## Chunks -/

namespace Chunk

variable {α ε : Type} {read : MappedColumn → Nat → Option α}
variable {chunk taken : Chunk α} {chunks out : List (Chunk α)} {indices locals : List Nat}

/-- The rows that the chunks count. -/
def rows (chunks : List (Chunk α)) : Nat := (chunks.map rowCount).sum

theorem length_values_le (read : MappedColumn → Nat → Option α) (chunk : Chunk α) :
    (chunk.values read).length ≤ chunk.rowCount := by
  cases chunk with
  | owned values => exact Nat.le_refl _
  | mapped selection =>
    rw [rowCount, ← RowSelection.length_iter]
    exact List.length_filterMap_le _ _

theorem length_flatten_le (read : MappedColumn → Nat → Option α) (chunks : List (Chunk α)) :
    (flatten read chunks).length ≤ rows chunks := by
  induction chunks with
  | nil => exact Nat.le_refl _
  | cons chunk chunks ih =>
    have head := length_values_le read chunk
    simp only [rows, flatten_cons, List.length_append, List.map_cons, List.sum_cons] at ih ⊢
    omega

/-- Chunks that flatten to as many values as they count rows can all be read. -/
theorem sound_of_rows_le (full : rows chunks ≤ (flatten read chunks).length) :
    ∀ c ∈ chunks, c.Sound read := by
  induction chunks with
  | nil => simp
  | cons chunk chunks ih =>
    have head := length_values_le read chunk
    have tail := length_flatten_le read chunks
    simp only [rows, flatten_cons, List.length_append, List.map_cons, List.sum_cons]
      at full ih tail
    refine List.forall_mem_cons.mpr ⟨?_, ih (by omega)⟩
    unfold Sound
    omega

/-- Taking rows leaves no more rows than indices. -/
theorem rowCount_takeLocal_le
    (h : chunk.takeLocal locals = (.ok taken : Outcome ε (Chunk α))) :
    taken.rowCount ≤ locals.length := by
  cases chunk with
  | owned values =>
    obtain ⟨picked, hpicked, done⟩ := bind_eq_ok.mp h
    cases done
    exact (mapM_eq_ok_forall₂.mp hpicked).length_eq.ge
  | mapped selection =>
    cases h
    rw [rowCount, RowSelection.takeLocalIndices, RowSelection.len_fromIndices]
    exact List.length_filterMap_le _ _

/-- The indices of the groups are no more than the indices grouped. -/
theorem length_pairs_groups_le (indices lengths : List Nat) :
    (pairs (groupIndicesByChunk indices lengths)).length ≤ indices.length := by
  rw [pairs_groupIndicesByChunk]
  exact List.length_filterMap_le _ _

theorem rows_takeGroups_le {groups : List (Nat × List Nat)}
    (h : groups.mapM (takeGroup chunks) = (.ok out : Outcome ε (List (Chunk α)))) :
    rows out ≤ (pairs groups).length := by
  induction groups generalizing out with
  | nil =>
    cases h
    exact Nat.le_refl _
  | cons group groups ih =>
    obtain ⟨taken, rest, first, hrest, rfl⟩ := mapM_cons_eq_ok.mp h
    obtain ⟨chunk, -, htaken⟩ := bind_eq_ok.mp first
    have head := rowCount_takeLocal_le htaken
    have tail := ih hrest
    simp only [rows, pairs, List.map_cons, List.sum_cons, List.flatMap_cons, List.length_append,
      List.length_map] at tail ⊢
    omega

theorem rows_take_le (h : take chunks indices = (.ok out : Outcome ε (List (Chunk α)))) :
    rows out ≤ indices.length :=
  (rows_takeGroups_le h).trans (length_pairs_groups_le _ _)

/-- Looking up the values that are gathered, seen through `cell`. -/
theorem valueAt_map {β : Type} (cell : α → β) (sound : ∀ c ∈ chunks, c.Sound read) (k : Nat) :
    (valueAt read chunks k).map cell = ((flatten read chunks).map cell)[k]? := by
  rw [valueAt_eq sound, List.getElem?_map]

/-- Taking rows gathers the flattened values, and both columns can be looked up. -/
theorem take_gathers {β : Type} (cell : α → β) (full : rows chunks ≤ (flatten read chunks).length)
    (fits : (flatten read chunks).length ≤ usizeMax)
    (lt : ∀ i ∈ indices, i < (flatten read chunks).length) :
    ∃ out, take chunks indices = (.ok out : Outcome ε (List (Chunk α))) ∧
      (flatten read out).map cell = gather ((flatten read chunks).map cell) indices ∧
      (∀ k, (valueAt read chunks k).map cell = ((flatten read chunks).map cell)[k]?) ∧
      ∀ k, (valueAt read out k).map cell = ((flatten read out).map cell)[k]? := by
  have sound := sound_of_rows_le full
  obtain ⟨out, hout, gathered⟩ := take_ok (ε := ε) sound fits lt
  have taken : ∀ c ∈ out, c.Sound read := by
    apply sound_of_rows_le
    rw [gathered, length_gather lt]
    exact rows_take_le hout
  exact ⟨out, hout, by rw [gathered, gather_map], valueAt_map cell sound, valueAt_map cell taken⟩

end Chunk

/-! ## Columns -/

namespace ScanColumn

variable {ε : Type} {column taken : ScanColumn} {indices : List Nat}

def dtype : ScanColumn → DType
  | .f64 _ => .f64
  | .i64 _ => .i64
  | .timestamp _ => .timestamp
  | .fixedStr width _ => .fixedStr width

/-- The rows that the chunks of the column count. -/
def rows : ScanColumn → Nat
  | .f64 chunks => Chunk.rows chunks
  | .i64 chunks | .timestamp chunks => Chunk.rows chunks
  | .fixedStr _ chunks => Chunk.rows chunks

/-- The value at a position, by the `value_at_*` of the column's type. -/
def valueAt : ScanColumn → Nat → Option Cell
  | .f64 chunks, k => (Chunk.valueAt MappedColumn.f64Value chunks k).map .f64
  | .i64 chunks, k => (Chunk.valueAt MappedColumn.i64Value chunks k).map .i64
  | .timestamp chunks, k => (Chunk.valueAt MappedColumn.i64Value chunks k).map .timestamp
  | .fixedStr _ chunks, k => (Chunk.valueAt MappedColumn.fixedStrValue chunks k).map .fixedStr

/-- `taken` has the type of `column` and its values at the indices, in that order. -/
structure Gathered (indices : List Nat) (column taken : ScanColumn) : Prop where
  dtype : taken.dtype = column.dtype
  length : taken.flatten.rowCount = indices.length
  cells : taken.flatten.cells = gather column.flatten.cells indices
  before : ∀ k, column.valueAt k = column.flatten.cells[k]?
  after : ∀ k, taken.valueAt k = taken.flatten.cells[k]?

theorem length_gathered (lt : ∀ i ∈ indices, i < column.flatten.rowCount)
    (h : taken.flatten.cells = gather column.flatten.cells indices) :
    taken.flatten.rowCount = indices.length := by
  rw [← ColumnData.length_cells] at lt ⊢
  rw [h, length_gather lt]

/-- `ScanColumn::take_indices` gathers. -/
theorem takeIndices_gathered (full : column.rows ≤ column.flatten.rowCount)
    (fits : column.flatten.rowCount ≤ usizeMax)
    (lt : ∀ i ∈ indices, i < column.flatten.rowCount) :
    ∃ taken, column.takeIndices indices = (.ok taken : Outcome ε ScanColumn) ∧
      Gathered indices column taken := by
  cases column with
  | f64 chunks =>
    obtain ⟨out, hout, cells, before, after⟩ := Chunk.take_gathers (ε := ε) Cell.f64 full fits lt
    exact ⟨.f64 out, bind_eq_ok.mpr ⟨out, hout, rfl⟩, rfl, length_gathered lt cells, cells,
      before, after⟩
  | i64 chunks =>
    obtain ⟨out, hout, cells, before, after⟩ := Chunk.take_gathers (ε := ε) Cell.i64 full fits lt
    exact ⟨.i64 out, bind_eq_ok.mpr ⟨out, hout, rfl⟩, rfl, length_gathered lt cells, cells,
      before, after⟩
  | timestamp chunks =>
    obtain ⟨out, hout, cells, before, after⟩ :=
      Chunk.take_gathers (ε := ε) Cell.timestamp full fits lt
    exact ⟨.timestamp out, bind_eq_ok.mpr ⟨out, hout, rfl⟩, rfl, length_gathered lt cells, cells,
      before, after⟩
  | fixedStr width chunks =>
    obtain ⟨out, hout, cells, before, after⟩ :=
      Chunk.take_gathers (ε := ε) Cell.fixedStr full fits lt
    exact ⟨.fixedStr width out, bind_eq_ok.mpr ⟨out, hout, rfl⟩, rfl, length_gathered lt cells,
      cells, before, after⟩

theorem rows_ofData (data : ColumnData) : (ofData data).rows = data.rowCount := by
  cases data <;> simp [ofData, rows, Chunk.rows, Chunk.rowCount, ColumnData.rowCount]

theorem rows_fromMapped (column : MappedColumn) (selection : RowSelection) :
    (fromMapped column selection).rows = selection.len := by
  unfold fromMapped
  split <;> simp [rows, Chunk.rows, Chunk.rowCount]

theorem rows_append {l r both : ScanColumn} (h : l.append r = .ok both) :
    both.rows = l.rows + r.rows := by
  cases l <;> cases r <;> simp only [append] at h <;> (try split at h) <;> cases h <;>
    simp [rows, Chunk.rows]

theorem rows_takeIndices_le (h : column.takeIndices indices = (.ok taken : Outcome ε ScanColumn)) :
    taken.rows ≤ indices.length := by
  cases column <;> obtain ⟨out, hout, done⟩ := bind_eq_ok.mp h <;> cases done <;>
    exact Chunk.rows_take_le hout

end ScanColumn

/-! ## Results -/

namespace ScanResult

variable {ε : Type} {r out : ScanResult} {indices : List Nat}

/-- No column has more rows in its chunks than the result counts. -/
def Counted (r : ScanResult) : Prop := ∀ c ∈ r.columns, c.2.rows ≤ r.rowCount

/-- Every column flattens to as many values as the result counts rows. -/
def Flattens (r : ScanResult) : Prop := ∀ c ∈ r.columns, c.2.flatten.rowCount = r.rowCount

/-- What the functions of `scan.rs` return. Batches hold no more values than they count rows;
the selections and the indices are any. -/
inductive Built : ScanResult → Prop
  | empty (schema : Schema) : Built (.empty schema)
  | fromBatch {b : RowBatch} (even : ∀ c ∈ b.columns, c.2.rowCount ≤ b.rowCount) :
      Built (.fromBatch b)
  | appendBatch {r out : ScanResult} {b : RowBatch}
      (even : ∀ c ∈ b.columns, c.2.rowCount ≤ b.rowCount) (built : Built r)
      (h : r.appendBatch b = .ok out) : Built out
  | appendMappedColumns {r out : ScanResult} {columns : List (String × MappedColumn)}
      {selection : RowSelection} (built : Built r)
      (h : r.appendMappedColumns columns selection = .ok out) : Built out
  | takeIndices {ε : Type} {r out : ScanResult} {indices : List Nat} (built : Built r)
      (h : r.takeIndices indices = (.ok out : Outcome ε ScanResult)) : Built out

theorem counted_fromBatch {b : RowBatch} (even : ∀ c ∈ b.columns, c.2.rowCount ≤ b.rowCount) :
    (fromBatch b).Counted := by
  simp only [Counted, fromBatch, List.forall_mem_map, ScanColumn.rows_ofData]
  exact even

theorem appendLoop_rows {incoming existing both : List (String × ScanColumn)} {m n count : Nat}
    (hi : ∀ c ∈ incoming, c.2.rows ≤ m) (he : ∀ c ∈ existing, c.2.rows ≤ n)
    (h : appendLoop incoming existing = .ok (both, count)) : ∀ c ∈ both, c.2.rows ≤ n + m := by
  induction incoming generalizing existing both count with
  | nil =>
    cases h
    exact fun c hc => (he c hc).trans (Nat.le_add_right n m)
  | cons i incoming ih =>
    obtain _ | ⟨e, existing⟩ := existing
    · cases h
      simp
    · rw [appendLoop] at h
      split at h
      · cases h
      · obtain ⟨column, appended, h⟩ := bind_eq_ok.mp h
        obtain ⟨⟨rest, others⟩, loop, done⟩ := bind_eq_ok.mp h
        cases done
        have tail := ih (fun c hc => hi c (List.mem_cons_of_mem _ hc))
          (fun c hc => he c (List.mem_cons_of_mem _ hc)) loop
        refine List.forall_mem_cons.mpr ⟨?_, tail⟩
        rw [ScanColumn.rows_append appended]
        exact Nat.add_le_add (he e List.mem_cons_self) (hi i List.mem_cons_self)

theorem appendColumns_counted {columns : List (String × ScanColumn)} {n : Nat} (hr : r.Counted)
    (hn : ∀ c ∈ columns, c.2.rows ≤ n) (h : r.appendColumns columns n = .ok out) :
    out.Counted := by
  obtain ⟨⟨appended, count⟩, loop, h⟩ := bind_eq_ok.mp h
  dsimp only at h
  split at h
  · cases h
  · split at h <;> cases h
    rename_i total sum
    obtain ⟨-, rfl⟩ := checkedAdd_eq_some.mp sum
    exact appendLoop_rows hn hr loop

theorem takeIndices_counted (h : r.takeIndices indices = (.ok out : Outcome ε ScanResult)) :
    out.Counted := by
  obtain ⟨columns, each, done⟩ := bind_eq_ok.mp h
  cases done
  intro c hc
  obtain ⟨c₀, -, took⟩ := exists_of_forall₂_right (mapM_eq_ok_forall₂.mp each) hc
  obtain ⟨column, taken, done⟩ := bind_eq_ok.mp took
  cases done
  exact ScanColumn.rows_takeIndices_le taken

/-- Every result that is built counts the rows of its chunks. -/
theorem Built.counted (h : Built r) : r.Counted := by
  induction h with
  | empty schema =>
    simp only [Counted, ScanResult.empty, List.forall_mem_map]
    intro column _
    cases column.dtype <;> exact Nat.le_refl _
  | fromBatch even => exact counted_fromBatch even
  | appendBatch even _ h ih => exact appendColumns_counted ih (counted_fromBatch even) h
  | appendMappedColumns _ h ih =>
    refine appendColumns_counted ih ?_ h
    simp only [List.forall_mem_map]
    exact fun column _ => (ScanColumn.rows_fromMapped column.2 _).le
  | takeIndices _ h _ => exact takeIndices_counted h

/-- `take_indices` gathers: every column keeps its name and type and flattens to the values at
the indices, in their order, and `value_at_*` looks up the flattened column before and after. -/
theorem takeIndices_gathers (counted : r.Counted) (flattens : r.Flattens)
    (fits : r.rowCount ≤ usizeMax) (lt : ∀ i ∈ indices, i < r.rowCount) :
    ∃ out, r.takeIndices indices = (.ok out : Outcome ε ScanResult) ∧
      out.rowCount = indices.length ∧
      List.Forall₂ (fun c taken => taken.1 = c.1 ∧ ScanColumn.Gathered indices c.2 taken.2)
        r.columns out.columns := by
  have each : ∀ c ∈ r.columns, ∃ taken : String × ScanColumn,
      (do return (c.1, ← c.2.takeIndices indices)) =
        (.ok taken : Outcome ε (String × ScanColumn)) ∧
      taken.1 = c.1 ∧ ScanColumn.Gathered indices c.2 taken.2 := by
    intro c hc
    have same := flattens c hc
    obtain ⟨taken, took, gathered⟩ := ScanColumn.takeIndices_gathered (ε := ε)
      (same ▸ counted c hc) (same ▸ fits) (same ▸ lt)
    exact ⟨(c.1, taken), bind_eq_ok.mpr ⟨taken, took, rfl⟩, rfl, gathered⟩
  obtain ⟨columns, related⟩ := exists_forall₂ each
  have all := mapM_eq_ok_forall₂.mpr (related.imp fun _ _ h => h.1)
  exact ⟨⟨columns, indices.length⟩, bind_eq_ok.mpr ⟨columns, all, rfl⟩, rfl,
    related.imp fun _ _ h => h.2⟩

/-- Three rows whose columns are cut at different places. -/
def threeRows : ScanResult where
  columns := [
    ("ts", .timestamp [.mapped ⟨⟨"ts", .timestamp, 2, i64Bytes 1 ++ i64Bytes 2⟩, .all 2⟩,
      .owned [3]]),
    ("sym", .fixedStr 1 [.owned [], .owned [[65]], .mapped ⟨⟨"sym", .fixedStr 1, 4, [66, 67, 68, 69]⟩,
      .indices [3, 0]⟩])]
  rowCount := 3

theorem takeIndices_gathers_three :
    ∃ out, threeRows.takeIndices [2, 0, 2] = (.ok out : Outcome ScanError ScanResult) ∧
      out.rowCount = 3 ∧
      List.Forall₂ (fun c taken => taken.1 = c.1 ∧ ScanColumn.Gathered [2, 0, 2] c.2 taken.2)
        threeRows.columns out.columns := by
  refine takeIndices_gathers ?_ ?_ (by decide) (by decide)
  · rw [Counted]
    decide
  · rw [Flattens]
    decide

end ScanResult

end BypassIo.Db
