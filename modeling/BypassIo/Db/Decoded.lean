import BypassIo.Db.Codec

/-!
# What the decoder accepts

`decode_batch` reads the number of rows once, and a count for every column; it compares
neither these numbers nor the lengths of strings with their column's width.

## Main results

* `decodeBatch_iff`: the payloads that decode, and to what.
* `decoded_even_iff`: the payloads that decode to even batches alone, as the builder makes them.
-/

namespace BypassIo.Db
open Octet Rust Columns Reader PayloadReader

variable {schema : Schema} {b : RowBatch} {payload : Bytes} {c c' : Cursor}

/-! ## Room -/

theorem readArray_offset {n : Nat} {bytes : Bytes} (h : readArray n c = .ok (bytes, c')) :
    c'.offset ≤ usizeMax := by
  unfold readArray at h
  split at h
  · cases h
  · rename_i last found
    split at h
    · obtain ⟨-, rfl⟩ := Prod.mk.inj (Except.ok.inj h)
      obtain ⟨fits, rfl⟩ := checkedAdd_eq_some.mp found
      exact fits
    · cases h

theorem readUsize_room {n : Nat} (h : readUsize c = .ok (n, c')) :
    n ≤ usizeMax ∧ c'.offset ≤ usizeMax := by
  obtain ⟨bytes, c₁, read, done⟩ := run_bind_eq_ok.mp h
  obtain ⟨rfl, rfl⟩ := run_pure_eq_ok.mp done
  exact ⟨toNat_le_usizeMax _, readArray_offset read⟩

theorem readF64_offset {x : UInt64} (h : readF64 c = .ok (x, c')) : c'.offset ≤ usizeMax := by
  obtain ⟨bytes, c₁, read, done⟩ := run_bind_eq_ok.mp h
  obtain ⟨-, rfl⟩ := run_pure_eq_ok.mp done
  exact readArray_offset read

theorem readI64_offset {x : Int64} (h : readI64 c = .ok (x, c')) : c'.offset ≤ usizeMax := by
  obtain ⟨bytes, c₁, read, done⟩ := run_bind_eq_ok.mp h
  obtain ⟨-, rfl⟩ := run_pure_eq_ok.mp done
  exact readArray_offset read

theorem readBytes_offset {bytes : Bytes} (h : readBytes c = .ok (bytes, c')) :
    c'.offset ≤ usizeMax := by
  obtain ⟨size, c₁, -, read⟩ := run_bind_eq_ok.mp h
  exact readArray_offset read

/-- The values read behind a count have been given room. -/
theorem readValues_room {α : Type} {p : Reader TableError α} {size : Nat}
    {make : List α → ColumnData} {data : ColumnData}
    (leaves : ∀ {c a c'}, p c = .ok (a, c') → c'.offset ≤ usizeMax)
    (h : (do
      let count ← readUsize
      step (withCapacity size count)
      let values ← p.times count
      return make values : Reader TableError ColumnData) c = .ok (data, c')) :
    ∃ values, data = make values ∧ size * values.length ≤ isizeMax ∧ c'.offset ≤ usizeMax := by
  obtain ⟨count, c₁, counted, h⟩ := run_bind_eq_ok.mp h
  obtain ⟨⟨⟩, c₂, room, h⟩ := run_bind_eq_ok.mp h
  obtain ⟨enough, rfl⟩ := run_step_eq_ok.mp room
  obtain ⟨values, c₃, read, h⟩ := run_bind_eq_ok.mp h
  obtain ⟨rfl, rfl⟩ := run_pure_eq_ok.mp h
  refine ⟨values, rfl, ?_, times_leaves (I := fun c => c.offset ≤ usizeMax) leaves
    (readUsize_room counted).2 read⟩
  rw [length_times read]
  exact withCapacity_eq_ok.mp enough

theorem decodeData_room {tag : UInt8} {data : ColumnData} (h : decodeData tag c = .ok (data, c')) :
    data.InMemory ∧ c'.offset ≤ usizeMax := by
  unfold decodeData at h
  split_ifs at h
  · obtain ⟨values, rfl, room⟩ := readValues_room readF64_offset h
    exact room
  · obtain ⟨values, rfl, room⟩ := readValues_room readI64_offset h
    exact room
  · obtain ⟨values, rfl, room⟩ := readValues_room readI64_offset h
    exact room
  · obtain ⟨width, c₁, -, h⟩ := run_bind_eq_ok.mp h
    obtain ⟨values, rfl, room⟩ := readValues_room readBytes_offset h
    exact room
  · cases h

theorem decodeColumn_room {expected : ColumnDef} {column : String × ColumnData}
    (h : decodeColumn expected c = .ok (column, c')) :
    column.2.InMemory ∧ c'.offset ≤ usizeMax := by
  obtain ⟨bytes, c₁, -, h⟩ := run_bind_eq_ok.mp h
  obtain ⟨name, c₂, -, h⟩ := run_bind_eq_ok.mp h
  obtain ⟨tag, c₃, -, h⟩ := run_bind_eq_ok.mp h
  obtain ⟨data, c₄, read, h⟩ := run_bind_eq_ok.mp h
  obtain ⟨⟨⟩, c₅, checked, h⟩ := run_bind_eq_ok.mp h
  obtain ⟨-, rfl⟩ := run_step_eq_ok.mp checked
  obtain ⟨rfl, rfl⟩ := run_pure_eq_ok.mp h
  exact decodeData_room read

theorem decodeColumns_room {defs : List ColumnDef} {columns : List (String × ColumnData)}
    (start : c.offset ≤ usizeMax) (h : decodeColumns defs c = .ok (columns, c')) :
    (∀ column ∈ columns, column.2.InMemory) ∧ c'.offset ≤ usizeMax := by
  induction defs generalizing columns c with
  | nil =>
    obtain ⟨rfl, rfl⟩ := run_pure_eq_ok.mp h
    exact ⟨nofun, start⟩
  | cons expected defs ih =>
    obtain ⟨column, c₁, first, h⟩ := run_bind_eq_ok.mp h
    obtain ⟨rest, c₂, others, h⟩ := run_bind_eq_ok.mp h
    obtain ⟨rfl, rfl⟩ := run_pure_eq_ok.mp h
    obtain ⟨held, offset⟩ := decodeColumn_room first
    obtain ⟨all, last⟩ := ih offset others
    exact ⟨List.forall_mem_cons.mpr ⟨held, all⟩, last⟩

/-- A payload decodes exactly to the batches of the schema's columns it is the encoding of. -/
theorem decodeBatch_iff : decodeBatch schema payload = .ok b ↔
    b.Typed schema ∧ encodeBatch b = .ok payload ∧ b.InMemory ∧ b.rowCount ≤ usizeMax ∧
      payload.length ≤ usizeMax := by
  constructor
  · intro h
    obtain ⟨typed, written⟩ := decodeBatch_eq_ok h
    refine ⟨typed, written, ?_⟩
    obtain ⟨columnCount, c₁, c₂, c₃, rows, count, -, found, all⟩ := decodeBatch_reads h
    obtain ⟨held, last⟩ := decodeColumns_room (readUsize_room count).2 found
    obtain ⟨encs, -, took⟩ := (decodeColumns_eq_ok found).2
    have input : c₃.input = payload :=
      took.input.trans ((readUsize_eq_ok count).input.trans (readUsize_eq_ok rows).input)
    refine ⟨held, (readUsize_room rows).1, ?_⟩
    rw [← input, ← all]
    exact last
  · rintro ⟨typed, written, held, rows, fits⟩
    exact decodeBatch_of_typed typed written held rows fits

/-! ## Well-formed batches -/

/-- Every column holds as many values as the batch has rows, and every string is as long as its
column is wide. -/
def RowBatch.Even (b : RowBatch) : Prop :=
  ∀ column ∈ b.columns, column.2.rowCount = b.rowCount ∧ column.2.WidthsOk

theorem RowBatch.wellFormed_iff : b.WellFormed schema ↔ b.Typed schema ∧ b.Even := by
  constructor
  · intro h
    refine ⟨h.typed, fun column mem => ?_⟩
    obtain ⟨expected, -, -, shape⟩ := exists_of_forall₂_right h mem
    exact ⟨shape.rowCount, shape.widths⟩
  · rintro ⟨typed, even⟩
    refine forall₂_of_getElem? typed.length_columns.symm fun i column held h h' => ?_
    obtain ⟨found, same, name, dtype⟩ := forall₂_getElem? typed h
    obtain rfl := Option.some.inj (h'.symm.trans same)
    obtain ⟨count, widths⟩ := even held (List.mem_of_getElem? h')
    exact ⟨name, dtype, count, widths⟩

/-- The payload is the encoding of a batch of the schema's columns that are not even. -/
def Uneven (schema : Schema) (payload : Bytes) : Prop :=
  ∃ b : RowBatch, b.Typed schema ∧ encodeBatch b = .ok payload ∧ b.InMemory ∧
    b.rowCount ≤ usizeMax ∧ payload.length ≤ usizeMax ∧ ¬ b.Even

/-- A payload decodes to nothing but even batches, which are the ones the builder makes, if and
only if it does not encode uneven columns. -/
theorem decoded_even_iff (schema : Schema) (payload : Bytes) :
    (∀ b, decodeBatch schema payload = .ok b →
      b.Even ∧ (⟨schema, b.columns⟩ : RowBatchBuilder).build = .ok b) ↔
    ¬ Uneven schema payload := by
  constructor
  · rintro good ⟨b, typed, written, held, rows, fits, odd⟩
    exact odd (good b (decodeBatch_iff.mpr ⟨typed, written, held, rows, fits⟩)).1
  · intro even b h
    obtain ⟨typed, written, held, rows, fits⟩ := decodeBatch_iff.mp h
    have columns : b.Even := by
      by_contra odd
      exact even ⟨b, typed, written, held, rows, fits, odd⟩
    exact ⟨columns, RowBatchBuilder.build_of_wellFormed (RowBatch.wellFormed_iff.mpr ⟨typed, columns⟩)⟩

/-- One row by the payload's own count, one timestamp, no price, and a symbol of one byte where
the schema has three. -/
def unevenTrades : RowBatch where
  columns := [("ts", .timestamp [7]), ("px", .f64 []), ("sym", .fixedStr 3 [[65]])]
  rowCount := 1

theorem decodes_uneven : ¬ ∀ schema payload b, decodeBatch schema payload = .ok b →
    ∀ column ∈ b.columns, column.2.rowCount = b.rowCount ∧ column.2.WidthsOk := by
  intro even
  have typed : unevenTrades.Typed tradeSchema :=
    .cons ⟨rfl, rfl⟩ (.cons ⟨rfl, rfl⟩ (.cons ⟨rfl, rfl⟩ .nil))
  have small : unevenTrades.Encodable := by
    simp [RowBatch.Encodable, unevenTrades, ColumnData.Encodable, asBytes, u32Max]
    decide
  have held : unevenTrades.InMemory := by
    simp [RowBatch.InMemory, unevenTrades, ColumnData.InMemory, ColumnData.valueSize,
      ColumnData.rowCount, isizeMax]
  obtain ⟨payload, written⟩ := encodeBatch_ok_iff.mpr small
  have fits : payload.length ≤ usizeMax := by
    rw [length_encodeBatch written]
    decide
  have read := decodeBatch_of_typed typed written held (by decide) fits
  have count := (even _ _ _ read ("px", .f64 []) (by simp [unevenTrades])).1
  simp [ColumnData.rowCount, unevenTrades] at count

end BypassIo.Db
