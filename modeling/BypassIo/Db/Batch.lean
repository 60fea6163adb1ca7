import BypassIo.Db.Schema
import BypassIo.Library.Bytes
import BypassIo.Library.Outcome

/-!
# Columnar row batches

`ColumnData`, `RowBatch` and `RowBatchBuilder` of `batch.rs`. Floats are kept as their bit
patterns. A method on `&mut self` returns the value it leaves behind next to its result,
because a failing append keeps the columns it has already extended.

`RowBatch.WellFormed` is what the builder establishes: the schema's columns in order, each
of the schema's type, each with `row_count` values, fixed strings of their exact width.
-/

namespace BypassIo.Db
open Octet Rust

inductive ColumnData where
  | f64 (values : List UInt64)
  | i64 (values : List Int64)
  | timestamp (values : List Int64)
  | fixedStr (width : UInt64) (values : List Bytes)
  deriving DecidableEq, Repr

inductive BatchError where
  | schemaMismatch
  | missingColumn (column : String)
  | columnTypeMismatch (column : String) (expected : DType)
  | rowCountMismatch (column : String) (expected actual : Nat)
  | fixedStringWidthMismatch (column : String) (width : UInt64)
  | typeMismatch
  | rowCountOverflow
  deriving DecidableEq, Repr

namespace ColumnData

/-- `ColumnData::row_count`. -/
def rowCount : ColumnData → Nat
  | .f64 values => values.length
  | .i64 values | .timestamp values => values.length
  | .fixedStr _ values => values.length

/-- `ColumnData::matches_dtype`. -/
def matchesDtype : ColumnData → DType → Bool
  | .f64 _, .f64 | .i64 _, .i64 | .timestamp _, .timestamp => true
  | .fixedStr width _, .fixedStr expected => width = expected
  | _, _ => false

/-- `ColumnData::append`; on a mismatch `self` is left alone. -/
def append : ColumnData → ColumnData → Except BatchError ColumnData
  | .f64 left, .f64 right => .ok (.f64 (left ++ right))
  | .i64 left, .i64 right => .ok (.i64 (left ++ right))
  | .timestamp left, .timestamp right => .ok (.timestamp (left ++ right))
  | .fixedStr leftWidth left, .fixedStr rightWidth right =>
    if leftWidth = rightWidth then .ok (.fixedStr leftWidth (left ++ right))
    else .error .typeMismatch
  | _, _ => .error .typeMismatch

/-- `ColumnData::take_indices`; an index out of bounds panics. -/
def takeIndices {ε : Type} (indices : List Nat) : ColumnData → Outcome ε ColumnData
  | .f64 values => do return .f64 (← indices.mapM (index values))
  | .i64 values => do return .i64 (← indices.mapM (index values))
  | .timestamp values => do return .timestamp (← indices.mapM (index values))
  | .fixedStr width values => do return .fixedStr width (← indices.mapM (index values))

/-- `ColumnData::timestamp_values`. -/
def timestampValues : ColumnData → Option (List Int64)
  | .timestamp values => some values
  | _ => none

/-- The column without values of a type, as in `RowBatch::empty`. -/
def empty : DType → ColumnData
  | .f64 => .f64 []
  | .i64 => .i64 []
  | .timestamp => .timestamp []
  | .fixedStr width => .fixedStr width []

/-- Every fixed string has exactly the column's width. -/
def WidthsOk : ColumnData → Prop
  | .fixedStr width values => ∀ v ∈ values, v.length = width.toNat
  | _ => True

/-- A column of type `dtype` with `n` values. -/
structure HasShape (dtype : DType) (n : Nat) (data : ColumnData) : Prop where
  dtype : data.matchesDtype dtype
  rowCount : data.rowCount = n
  widths : data.WidthsOk

/-- A column of some shape is a column of its type: the cases that are left. -/
@[elab_as_elim]
theorem HasShape.elim {motive : ∀ dtype n data, HasShape dtype n data → Prop}
    (f64 : ∀ values shape, motive .f64 (List.length values) (.f64 values) shape)
    (i64 : ∀ values shape, motive .i64 (List.length values) (.i64 values) shape)
    (timestamp : ∀ values shape, motive .timestamp (List.length values) (.timestamp values) shape)
    (fixedStr : ∀ width values shape, (∀ v ∈ values, v.length = width.toNat) →
      motive (.fixedStr width) (List.length values) (.fixedStr width values) shape)
    {dtype : DType} {n : Nat} {data : ColumnData} (shape : HasShape dtype n data) :
    motive dtype n data shape := by
  obtain ⟨type, rfl, widths⟩ := shape
  cases data with
  | f64 values =>
    cases dtype <;> simp [matchesDtype] at type
    exact f64 values _
  | i64 values =>
    cases dtype <;> simp [matchesDtype] at type
    exact i64 values _
  | timestamp values =>
    cases dtype <;> simp [matchesDtype] at type
    exact timestamp values _
  | fixedStr width values =>
    cases dtype <;> simp [matchesDtype] at type
    subst type
    exact fixedStr width values _ widths

theorem empty_hasShape (dtype : DType) : (empty dtype).HasShape dtype 0 := by
  constructor <;> cases dtype <;> simp [empty, matchesDtype, ColumnData.rowCount, WidthsOk]

/-- Columns of one type always append. -/
theorem append_of_matches {dtype : DType} {left right : ColumnData}
    (hl : left.matchesDtype dtype) (hr : right.matchesDtype dtype) :
    ∃ both, left.append right = .ok both ∧ both.matchesDtype dtype := by
  cases dtype <;> cases left <;> cases right <;> simp_all [append, matchesDtype]

theorem HasShape.append {dtype : DType} {n m : Nat} {left right both : ColumnData}
    (hl : left.HasShape dtype n) (hr : right.HasShape dtype m)
    (h : left.append right = .ok both) : both.HasShape dtype (n + m) := by
  obtain ⟨tl, rfl, wl⟩ := hl
  obtain ⟨tr, rfl, wr⟩ := hr
  constructor <;> cases dtype <;> cases left <;> cases right <;>
    simp_all [ColumnData.append, matchesDtype] <;> subst h <;>
    simp_all [ColumnData.rowCount, WidthsOk, or_imp]

theorem append_left_cancel {left right right' both : ColumnData} (h : left.append right = .ok both)
    (h' : left.append right' = .ok both) : right = right' := by
  cases left <;> cases right <;> cases right' <;> grind [append, List.append_cancel_left]

end ColumnData

structure RowBatch where
  columns : List (String × ColumnData)
  rowCount : Nat
  deriving DecidableEq, Repr

namespace RowBatch

/-- `RowBatch::empty`. -/
def empty (schema : Schema) : RowBatch where
  columns := schema.columns.map fun column => (column.name, ColumnData.empty column.dtype)
  rowCount := 0

/-- `RowBatch::column`: the first column of that name. -/
def column (b : RowBatch) (name : String) : Option ColumnData :=
  b.columns.findSome? fun (column, data) => if column = name then some data else none

/-- The column loop of `RowBatch::append`. The second component is what `self.columns` holds
afterwards: a failure keeps the columns before it extended. -/
def appendColumns : List (String × ColumnData) → List (String × ColumnData) →
    Except BatchError Unit × List (String × ColumnData)
  | (leftName, left) :: selfColumns, (rightName, right) :: otherColumns =>
    if leftName ≠ rightName then (.error .schemaMismatch, (leftName, left) :: selfColumns)
    else match left.append right with
      | .error e => (.error e, (leftName, left) :: selfColumns)
      | .ok both =>
        let (result, rest) := appendColumns selfColumns otherColumns
        (result, (leftName, both) :: rest)
  | selfColumns, _ => (.ok (), selfColumns)

/-- `RowBatch::append`, with the batch it leaves in `self`. -/
def append (b other : RowBatch) : Except BatchError Unit × RowBatch :=
  if b.columns.length ≠ other.columns.length then (.error .schemaMismatch, b)
  else match appendColumns b.columns other.columns with
    | (.error e, columns) => (.error e, { b with columns })
    | (.ok (), columns) =>
      match checkedAdd b.rowCount other.rowCount with
      | none => (.error .rowCountOverflow, { b with columns })
      | some rowCount => (.ok (), ⟨columns, rowCount⟩)

/-- `RowBatch::take_indices`. -/
def takeIndices {ε : Type} (b : RowBatch) (indices : List Nat) : Outcome ε RowBatch := do
  let columns ← b.columns.mapM fun (name, data) => do
    return (name, ← data.takeIndices indices)
  return ⟨columns, indices.length⟩

/-- One column as the schema wants it. -/
def ColumnOk (n : Nat) (column : ColumnDef) (c : String × ColumnData) : Prop :=
  c.1 = column.name ∧ c.2.HasShape column.dtype n

/-- A column of the name and the type that the schema gives it. -/
def ColumnTyped (column : ColumnDef) (c : String × ColumnData) : Prop :=
  c.1 = column.name ∧ c.2.matchesDtype column.dtype

/-- The schema's columns by name and type, whatever they hold. -/
def Typed (schema : Schema) (b : RowBatch) : Prop :=
  List.Forall₂ ColumnTyped schema.columns b.columns

/-- What the builder guarantees of a batch. -/
def WellFormed (schema : Schema) (b : RowBatch) : Prop :=
  List.Forall₂ (ColumnOk b.rowCount) schema.columns b.columns

namespace WellFormed

variable {schema : Schema} {b : RowBatch}

theorem length_columns (h : b.WellFormed schema) :
    b.columns.length = schema.columns.length := (List.Forall₂.length_eq h).symm

theorem names (h : b.WellFormed schema) : b.columns.map (·.1) = schema.names :=
  Columns.map_eq_of_forall₂ h fun _ _ ok => ok.1

theorem nodup (h : b.WellFormed schema) : (b.columns.map (·.1)).Nodup := by
  rw [h.names]
  exact schema.nodup_names

end WellFormed

end RowBatch

/-- `validate_fixed_str_width`. -/
def validateFixedStrWidth (column : String) : ColumnData → Except BatchError Unit
  | .fixedStr width values =>
    if values.any fun value => value.length ≠ width.toNat then
      .error (.fixedStringWidthMismatch column width)
    else .ok ()
  | _ => .ok ()

/-- A builder: the schema and the columns given so far. -/
structure RowBatchBuilder where
  schema : Schema
  columns : List (String × ColumnData)

namespace RowBatchBuilder

/-- The row count after one more column, by the count of the columns before it. -/
def checkRowCount (column : String) (actual : Nat) : Option Nat → Except BatchError Nat
  | some expected =>
    if expected ≠ actual then .error (.rowCountMismatch column expected actual) else .ok expected
  | none => .ok actual

/-- The loop of `RowBatchBuilder::build` over the schema's columns, with the row count found
so far. -/
def buildColumns (given : List (String × ColumnData)) : List ColumnDef → Option Nat →
    Except BatchError (List (String × ColumnData) × Option Nat)
  | [], rowCount => .ok ([], rowCount)
  | column :: columns, rowCount =>
    match given.find? fun (name, _) => name = column.name with
    | none => .error (.missingColumn column.name)
    | some (_, data) =>
      if ¬ data.matchesDtype column.dtype then
        .error (.columnTypeMismatch column.name column.dtype)
      else do
        validateFixedStrWidth column.name data
        let n ← checkRowCount column.name data.rowCount rowCount
        let (ordered, after) ← buildColumns given columns (some n)
        return ((column.name, data) :: ordered, after)

/-- `RowBatchBuilder::build`. -/
def build (b : RowBatchBuilder) : Except BatchError RowBatch :=
  if b.columns.length ≠ b.schema.columns.length then .error .schemaMismatch
  else do
    let (ordered, rowCount) ← buildColumns b.columns b.schema.columns none
    return ⟨ordered, rowCount.getD 0⟩

theorem validateFixedStrWidth_eq_ok {column : String} {data : ColumnData} :
    validateFixedStrWidth column data = .ok () ↔ data.WidthsOk := by
  cases data <;> simp [validateFixedStrWidth, ColumnData.WidthsOk]

theorem checkRowCount_eq_ok {column : String} {actual n : Nat} {before : Option Nat} :
    checkRowCount column actual before = .ok n ↔ n = actual ∧ ∀ m, before = some m → m = n := by
  cases before <;> simp [checkRowCount] <;> grind

/-- What the loop accepts: every schema column is found, well shaped, with one row count. -/
theorem buildColumns_eq_ok {given ordered : List (String × ColumnData)}
    {columns : List ColumnDef} {before after : Option Nat}
    (h : buildColumns given columns before = .ok (ordered, after)) :
    (∀ n, before = some n → after = some n) ∧ (columns ≠ [] → after.isSome) ∧
      ∀ n, after = some n → List.Forall₂ (RowBatch.ColumnOk n) columns ordered := by
  induction columns generalizing before ordered with
  | nil =>
    cases h
    simp
  | cons column columns ih =>
    simp only [buildColumns] at h
    split at h
    · cases h
    · rename_i name data found
      split at h
      · cases h
      · rename_i matched
        simp only [bind_eq_ok] at h
        obtain ⟨⟨⟩, widths, n, count, ⟨rest, last⟩, loop, done⟩ := h
        obtain ⟨rfl, rfl⟩ := Prod.mk.inj (Except.ok.inj done)
        obtain ⟨keep, -, shapes⟩ := ih loop
        obtain ⟨rfl, agree⟩ := checkRowCount_eq_ok.mp count
        obtain rfl := keep _ rfl
        refine ⟨fun m hm => agree m hm ▸ rfl, fun _ => rfl, fun m hm => ?_⟩
        obtain rfl := Option.some.inj hm
        exact .cons ⟨rfl, by simpa using matched, rfl, validateFixedStrWidth_eq_ok.mp widths⟩
          (shapes _ rfl)

/-- Every batch the builder makes is well formed for its schema. -/
theorem build_wellFormed {b : RowBatchBuilder} {batch : RowBatch} (h : b.build = .ok batch) :
    batch.WellFormed b.schema := by
  unfold build at h
  split at h
  · cases h
  · obtain ⟨⟨ordered, rowCount⟩, loop, done⟩ := bind_eq_ok.mp h
    cases done
    obtain ⟨-, counted, shapes⟩ := buildColumns_eq_ok loop
    obtain ⟨n, rfl⟩ := Option.isSome_iff_exists.mp (counted b.schema.columns_ne)
    exact shapes n rfl

theorem find?_of_nodup {given : List (String × ColumnData)} {c : String × ColumnData}
    (unique : (given.map (·.1)).Nodup) (hc : c ∈ given) :
    given.find? (fun (name, _) => name = c.1) = some c := by
  induction given with
  | nil => cases hc
  | cons first given ih =>
    obtain ⟨fresh, rest⟩ := List.nodup_cons.mp unique
    rcases List.mem_cons.mp hc with rfl | later
    · simp
    · have other : first.1 ≠ c.1 := fun same => fresh (List.mem_map.mpr ⟨c, later, same.symm⟩)
      simpa [other] using ih rest later

/-- The loop takes well-shaped columns as they are given. -/
theorem buildColumns_of_ok {given ordered : List (String × ColumnData)} {columns : List ColumnDef}
    {n : Nat} {before : Option Nat} (unique : (given.map (·.1)).Nodup)
    (ok : List.Forall₂ (RowBatch.ColumnOk n) columns ordered) (within : ∀ c ∈ ordered, c ∈ given)
    (agree : ∀ m, before = some m → m = n) :
    ∃ after, buildColumns given columns before = .ok (ordered, after) ∧
      ∀ m, after = some m → m = n := by
  induction ok generalizing before with
  | nil => exact ⟨before, rfl, agree⟩
  | @cons column c columns ordered okc _ ih =>
    obtain ⟨name, dtype, count, widths⟩ := okc
    obtain ⟨here, later⟩ := List.forall_mem_cons.mp within
    obtain ⟨after, loop, same⟩ : ∃ after, buildColumns given columns (some n) =
        .ok (ordered, after) ∧ ∀ m, after = some m → m = n := ih later (by simp)
    refine ⟨after, ?_, same⟩
    have found := find?_of_nodup unique here
    rw [name] at found
    simp only [buildColumns, found, dtype, not_true, if_false]
    refine bind_eq_ok.mpr ⟨(), validateFixedStrWidth_eq_ok.mpr widths, ?_⟩
    refine bind_eq_ok.mpr ⟨n, checkRowCount_eq_ok.mpr ⟨count.symm, agree⟩, ?_⟩
    refine bind_eq_ok.mpr ⟨(ordered, after), loop, ?_⟩
    rw [← name]
    rfl

/-- A well-formed batch is made from its columns in any order. -/
theorem build_of_perm {schema : Schema} {batch : RowBatch} {given : List (String × ColumnData)}
    (ok : batch.WellFormed schema) (same : batch.columns.Perm given) :
    (⟨schema, given⟩ : RowBatchBuilder).build = .ok batch := by
  have unique : (given.map (·.1)).Nodup := (same.map _).nodup_iff.mp ok.nodup
  obtain ⟨after, loop, counted⟩ : ∃ after, buildColumns given schema.columns none =
      .ok (batch.columns, after) ∧ ∀ m, after = some m → m = batch.rowCount :=
    buildColumns_of_ok unique ok (fun _ h => same.mem_iff.mp h) (by simp)
  obtain ⟨n, rfl⟩ := Option.isSome_iff_exists.mp ((buildColumns_eq_ok loop).2.1 schema.columns_ne)
  obtain rfl := counted n rfl
  have len : given.length = schema.columns.length := same.length_eq.symm.trans ok.length_columns
  rw [build, if_neg (not_not.mpr len)]
  exact bind_eq_ok.mpr ⟨_, loop, rfl⟩

/-- Every well-formed batch is one that the builder makes. -/
theorem build_of_wellFormed {schema : Schema} {batch : RowBatch} (ok : batch.WellFormed schema) :
    (⟨schema, batch.columns⟩ : RowBatchBuilder).build = .ok batch :=
  build_of_perm ok (.refl _)

end RowBatchBuilder

end BypassIo.Db
