import BypassIo.Config.Config
import BypassIo.Db.Schema
import BypassIo.Library.Outcome

/-!
# The schema of a configuration

A configuration validates its `[db.schema]`, and the constructors of the database check the
columns and the schema that a program makes of it. Both accept the same schemas.

The validation compares a column with those before it and counts the timestamp columns; the
constructor collects the names in a set and keeps one index. Each is compared with what an
accepted list of columns looks like.

## Main results

* `validate_eq_ok`, `tableSchema_isOk`: what each of the two accepts.
* `validate_iff_tableSchema`: they accept the same.
-/

namespace BypassIo.Config

/-! ## Validation -/

namespace DbSchemaConfig

/-- The columns that the loop of `validate` accepts after `before`, and its counter then. -/
theorem validateColumns_eq_ok {before columns : List DbColumnConfig} {count count' : Nat} :
    validateColumns before count columns = .ok count' ↔
      (∀ c ∈ columns, c.name ≠ "" ∧ c.dtype ≠ .fixedStr 0) ∧
      (columns.map (·.name)).Nodup ∧ (∀ c ∈ columns, c.name ∉ before.map (·.name)) ∧
      count' = count + columns.countP (·.dtype = .timestamp) := by
  induction columns generalizing before count with
  | nil =>
    simp only [validateColumns, Except.ok.injEq]
    grind
  | cons column columns ih =>
    have seen : (before.any fun c => c.name = column.name) = true ↔
        column.name ∈ before.map (·.name) := by simp
    have counted : (if column.dtype = .timestamp then count + 1 else count) +
        columns.countP (·.dtype = .timestamp) =
          count + (column :: columns).countP (·.dtype = .timestamp) := by
      by_cases ts : column.dtype = .timestamp
      · simp only [ts, List.countP_cons, decide_true, if_true]
        omega
      · simp [ts]
    rw [validateColumns, ite_validation_eq_ok, ite_validation_eq_ok, ite_validation_eq_ok, seen,
      ih, counted]
    simp only [List.map_cons, List.nodup_cons, List.forall_mem_cons, List.map_append, List.map_nil,
      List.mem_append, List.mem_singleton]
    grind

theorem validate_eq_ok {s : DbSchemaConfig} : s.validate = .ok () ↔
    s.name ≠ "" ∧ s.columns ≠ [] ∧ (∀ c ∈ s.columns, c.name ≠ "" ∧ c.dtype ≠ .fixedStr 0) ∧
      (s.columns.map (·.name)).Nodup ∧ s.columns.countP (·.dtype = .timestamp) = 1 := by
  rw [validate, ite_validation_eq_ok, ite_validation_eq_ok, Rust.bind_eq_ok]
  constructor
  · rintro ⟨named, nonempty, n, counted, one⟩
    obtain ⟨each, unique, -, total⟩ := validateColumns_eq_ok.mp counted
    obtain ⟨one, -⟩ := ite_validation_eq_ok.mp one
    refine ⟨named, nonempty, each, unique, ?_⟩
    omega
  · rintro ⟨named, nonempty, each, unique, one⟩
    refine ⟨named, nonempty, 1, validateColumns_eq_ok.mpr ⟨each, unique, by simp, by omega⟩, ?_⟩
    exact ite_validation_eq_ok.mpr ⟨by simp, rfl⟩

end DbSchemaConfig

/-! ## The table schema -/

def DbColumnDType.toDType : DbColumnDType → Db.DType
  | .f64 => .f64
  | .i64 => .i64
  | .timestamp => .timestamp
  | .fixedStr width => .fixedStr width

namespace DbColumnDType

@[simp] theorem toDType_eq_timestamp {dtype : DbColumnDType} :
    dtype.toDType = .timestamp ↔ dtype = .timestamp := by
  cases dtype <;> simp [toDType]

@[simp] theorem toDType_eq_fixedStr {dtype : DbColumnDType} {width : UInt64} :
    dtype.toDType = .fixedStr width ↔ dtype = .fixedStr width := by
  cases dtype <;> simp [toDType]

end DbColumnDType

namespace DbSchemaConfig

/-- The calls that make a table's schema of a configured one. -/
def tableSchema (s : DbSchemaConfig) : Except Db.SchemaError Db.Schema := do
  let columns ← s.columns.mapM fun c => Db.ColumnDef.new c.name c.dtype.toDType
  Db.Schema.new s.name columns

/-- The column that the constructor made of a configured one. -/
def IsColumn (config : DbColumnConfig) (column : Db.ColumnDef) : Prop :=
  column.name = config.name ∧ column.dtype = config.dtype.toDType

theorem newColumn_eq_ok {config : DbColumnConfig} {column : Db.ColumnDef} :
    Db.ColumnDef.new config.name config.dtype.toDType = .ok column ↔
      (config.name ≠ "" ∧ config.dtype ≠ .fixedStr 0) ∧ IsColumn config column := by
  rw [Db.ColumnDef.new_eq_ok, IsColumn, ne_eq (config.dtype.toDType),
    DbColumnDType.toDType_eq_fixedStr]
  tauto

theorem exists_isColumn {config : DbColumnConfig}
    (valid : config.name ≠ "" ∧ config.dtype ≠ .fixedStr 0) :
    ∃ column, Db.ColumnDef.new config.name config.dtype.toDType = .ok column :=
  ⟨⟨config.name, config.dtype.toDType, valid.1, by simpa using valid.2⟩,
    newColumn_eq_ok.mpr ⟨valid, rfl, rfl⟩⟩

section Built

variable {configs : List DbColumnConfig} {columns : List Db.ColumnDef}
  (built : List.Forall₂ IsColumn configs columns)
include built

theorem names_built : columns.map (·.name) = configs.map (·.name) :=
  Columns.map_eq_of_forall₂ built fun _ _ is => is.1

theorem timestamps_built : columns.countP (·.dtype = .timestamp) =
    configs.countP (·.dtype = .timestamp) := by
  induction built with
  | nil => rfl
  | cons is _ ih => simp [List.countP_cons, is.2, ih]

theorem columns_ne_nil_built : columns ≠ [] ↔ configs ≠ [] := by
  cases built <;> simp

end Built

theorem tableSchema_isOk {s : DbSchemaConfig} : (∃ schema, s.tableSchema = .ok schema) ↔
    s.name ≠ "" ∧ s.columns ≠ [] ∧ (∀ c ∈ s.columns, c.name ≠ "" ∧ c.dtype ≠ .fixedStr 0) ∧
      (s.columns.map (·.name)).Nodup ∧ s.columns.countP (·.dtype = .timestamp) = 1 := by
  constructor
  · intro ⟨schema, h⟩
    obtain ⟨columns, made, h⟩ := Rust.bind_eq_ok.mp h
    have made := Rust.mapM_eq_ok_forall₂.mp made
    have built := made.imp fun _ _ h => (newColumn_eq_ok.mp h).2
    obtain ⟨named, nonempty, unique, one⟩ := Db.Schema.new_isOk.mp ⟨schema, h⟩
    refine ⟨named, (columns_ne_nil_built built).mp nonempty, ?_, ?_, ?_⟩
    · intro c hc
      obtain ⟨column, -, h⟩ := Columns.exists_of_forall₂_left made hc
      exact (newColumn_eq_ok.mp h).1
    · rwa [← names_built built]
    · rwa [← timestamps_built built]
  · intro ⟨named, nonempty, each, unique, one⟩
    obtain ⟨columns, made⟩ := Rust.mapM_ok_of_forall fun c hc => exists_isColumn (each c hc)
    have built := (Rust.mapM_eq_ok_forall₂.mp made).imp fun _ _ h => (newColumn_eq_ok.mp h).2
    rw [← names_built built] at unique
    rw [← timestamps_built built] at one
    obtain ⟨schema, h⟩ := Db.Schema.new_isOk.mpr
      ⟨named, (columns_ne_nil_built built).mpr nonempty, unique, one⟩
    exact ⟨schema, Rust.bind_eq_ok.mpr ⟨columns, made, h⟩⟩

/-- The table's schema can be made of a validated schema, and of no other. -/
theorem validate_iff_tableSchema (s : DbSchemaConfig) :
    s.validate = .ok () ↔ ∃ schema, s.tableSchema = .ok schema := by
  rw [validate_eq_ok, tableSchema_isOk]

end DbSchemaConfig

end BypassIo.Config
