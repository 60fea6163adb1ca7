import Mathlib.Data.List.Nodup
import Mathlib.Tactic.Common

/-!
# Table schemas

The column and schema constructors of `schema.rs`. A `ColumnDef` and a `Schema` carry the
facts their constructors check, so later modules never check them again.

`checkColumns` is the single loop of `Schema::new`: it collects the names seen so far and
the index of the timestamp column.
-/

namespace BypassIo.Db

/-- Logical type of a column; the width of a fixed string is a `usize`. -/
inductive DType where
  | f64
  | i64
  | timestamp
  | fixedStr (width : UInt64)
  deriving DecidableEq, Repr

/-- Bytes of one value. -/
def DType.width : DType → Nat
  | .f64 | .i64 | .timestamp => 8
  | .fixedStr width => width.toNat

/-- The types of 8-byte numbers. -/
def DType.isNumber : DType → Bool
  | .f64 | .i64 | .timestamp => true
  | .fixedStr _ => false

inductive SchemaError where
  | emptyTableName
  | emptyColumnName
  | noColumns
  | duplicateColumn (column : String)
  | invalidFixedStringWidth (column : String)
  | missingTimestampColumn
  | multipleTimestampColumns
  deriving DecidableEq, Repr

structure ColumnDef where
  name : String
  dtype : DType
  name_ne : name ≠ ""
  width_ne : dtype ≠ .fixedStr 0

namespace ColumnDef

/-- `ColumnDef::new`. -/
def new (name : String) (dtype : DType) : Except SchemaError ColumnDef :=
  if hn : name = "" then .error .emptyColumnName
  else if hw : dtype = .fixedStr 0 then .error (.invalidFixedStringWidth name)
  else .ok ⟨name, dtype, hn, hw⟩

theorem new_eq_ok {name : String} {dtype : DType} {c : ColumnDef} :
    new name dtype = .ok c ↔ name ≠ "" ∧ dtype ≠ .fixedStr 0 ∧ c.name = name ∧ c.dtype = dtype := by
  constructor
  · intro h
    unfold new at h
    split at h
    · cases h
    · next hn =>
      split at h
      · cases h
      · next hw =>
        obtain rfl := Except.ok.inj h
        exact ⟨hn, hw, rfl, rfl⟩
  · rintro ⟨hn, hw, rfl, rfl⟩
    rw [new, dif_neg hn, dif_neg hw]

/-- Every column definition is one that the constructor accepts. -/
theorem new_self (c : ColumnDef) : new c.name c.dtype = .ok c := by
  simp [new, c.name_ne, c.width_ne]

end ColumnDef

/-- The loop of `Schema::new`, from column `idx` on, with the names `seen` before. -/
def checkColumns : List ColumnDef → Nat → List String → Option Nat →
    Except SchemaError (Option Nat)
  | [], _, _, timestampColumn => .ok timestampColumn
  | column :: columns, idx, seen, timestampColumn =>
    if column.name ∈ seen then .error (.duplicateColumn column.name)
    else if column.dtype = .timestamp then
      if timestampColumn.isSome then .error .multipleTimestampColumns
      else checkColumns columns (idx + 1) (column.name :: seen) (some idx)
    else checkColumns columns (idx + 1) (column.name :: seen) timestampColumn

/-- Column `i` is the only timestamp column, counting from `idx`. -/
def OnlyTimestamp (columns : List ColumnDef) (idx i : Nat) : Prop :=
  idx ≤ i ∧ i < idx + columns.length ∧
    ∀ j column, columns[j]? = some column → (column.dtype = .timestamp ↔ idx + j = i)

/-- The types of the columns say which is the timestamp column. -/
theorem OnlyTimestamp.of_types {columns : List ColumnDef} {i : Nat} (lt : i < columns.length)
    (types : ∀ j, (h : j < columns.length) → (columns[j].dtype = .timestamp ↔ j = i)) :
    OnlyTimestamp columns 0 i := by
  refine ⟨Nat.zero_le i, by omega, fun j column found => ?_⟩
  obtain ⟨h, rfl⟩ := List.getElem?_eq_some_iff.mp found
  rw [types j h, Nat.zero_add]

theorem onlyTimestamp_cons_of_ne {column : ColumnDef} {columns : List ColumnDef} {idx i : Nat}
    (other : column.dtype ≠ .timestamp) :
    OnlyTimestamp (column :: columns) idx i ↔ OnlyTimestamp columns (idx + 1) i := by
  constructor
  · rintro ⟨lo, hi, only⟩
    have skip : idx ≠ i := fun e => other ((only 0 column rfl).mpr (by omega))
    refine ⟨by omega, by simpa [Nat.add_assoc, Nat.add_comm 1] using hi, ?_⟩
    intro j c hc
    rw [only (j + 1) c (by simpa using hc)]
    omega
  · rintro ⟨lo, hi, only⟩
    refine ⟨by omega, by simp; omega, ?_⟩
    rintro (_ | j) c hc
    · obtain rfl : column = c := by simpa using hc
      simp only [other, false_iff]
      omega
    · rw [only j c (by simpa using hc)]
      omega

theorem onlyTimestamp_cons_of_eq {column : ColumnDef} {columns : List ColumnDef} {idx i : Nat}
    (ts : column.dtype = .timestamp) : OnlyTimestamp (column :: columns) idx i ↔
      i = idx ∧ ∀ c ∈ columns, c.dtype ≠ .timestamp := by
  constructor
  · rintro ⟨-, -, only⟩
    have first : idx + 0 = i := (only 0 column rfl).mp ts
    refine ⟨by omega, fun c hc hts => ?_⟩
    obtain ⟨j, hj⟩ := List.mem_iff_getElem?.mp hc
    have := (only (j + 1) c (by simpa using hj)).mp hts
    omega
  · rintro ⟨rfl, rest⟩
    refine ⟨Nat.le_refl _, by simp, ?_⟩
    rintro (_ | j) c hc
    · obtain rfl : column = c := by simpa using hc
      simpa using ts
    · have := rest c (List.mem_of_getElem? (by simpa using hc))
      simp only [this, false_iff]
      omega

/-- There is such a column when there is one timestamp column. -/
theorem exists_onlyTimestamp_iff {columns : List ColumnDef} {idx : Nat} :
    (∃ i, OnlyTimestamp columns idx i) ↔ columns.countP (·.dtype = .timestamp) = 1 := by
  induction columns generalizing idx with
  | nil => simp [OnlyTimestamp]
  | cons column columns ih =>
    by_cases ts : column.dtype = .timestamp
    · simp [onlyTimestamp_cons_of_eq ts, ts, List.countP_eq_zero]
    · simp [onlyTimestamp_cons_of_ne ts, ts, ih]

/-- What an accepted column list looks like, by the timestamp index found before it. -/
theorem checkColumns_eq_ok {columns : List ColumnDef} {idx : Nat} {seen : List String}
    {before after : Option Nat} :
    checkColumns columns idx seen before = .ok after ↔
      (columns.map (·.name)).Nodup ∧ (∀ c ∈ columns, c.name ∉ seen) ∧
      ((after = before ∧ ∀ c ∈ columns, c.dtype ≠ .timestamp) ∨
        before = none ∧ ∃ i, after = some i ∧ OnlyTimestamp columns idx i) := by
  induction columns generalizing idx seen before with
  | nil =>
    simp only [checkColumns, OnlyTimestamp]
    grind
  | cons column columns ih =>
    rw [checkColumns]
    split_ifs with dup ts two
    · simp [dup]
    · obtain ⟨b, rfl⟩ := Option.isSome_iff_exists.mp two
      simp [ts]
    · obtain rfl : before = none := by simpa using two
      rw [ih]
      simp only [onlyTimestamp_cons_of_eq ts]
      grind
    · rw [ih]
      simp only [onlyTimestamp_cons_of_ne ts]
      grind

structure Schema where
  name : String
  columns : List ColumnDef
  timestampColumnIdx : Nat
  name_ne : name ≠ ""
  nodup : (columns.map (·.name)).Nodup
  only_timestamp : OnlyTimestamp columns 0 timestampColumnIdx

namespace Schema

/-- `Schema::new`. -/
def new (name : String) (columns : List ColumnDef) : Except SchemaError Schema :=
  if hname : name = "" then .error .emptyTableName
  else if columns = [] then .error .noColumns
  else match h : checkColumns columns 0 [] none with
    | .error e => .error e
    | .ok none => .error .missingTimestampColumn
    | .ok (some idx) =>
      .ok ⟨name, columns, idx, hname, (checkColumns_eq_ok.mp h).1, by
        obtain ⟨-, -, ⟨none, -⟩ | ⟨-, i, found, only⟩⟩ := checkColumns_eq_ok.mp h
        · cases none
        · cases found
          exact only⟩

variable (s : Schema)

theorem idx_lt : s.timestampColumnIdx < s.columns.length := by
  simpa using s.only_timestamp.2.1

/-- `Schema::timestamp_column`. -/
def timestampColumn : ColumnDef := s.columns.get ⟨s.timestampColumnIdx, s.idx_lt⟩

/-- `Schema::column`. -/
def column (name : String) : Option ColumnDef := s.columns.find? fun c => c.name = name

def names : List String := s.columns.map (·.name)

/-- Every schema is one that the constructor accepts. -/
theorem new_self : new s.name s.columns = .ok s := by
  have check : checkColumns s.columns 0 [] none = .ok (some s.timestampColumnIdx) :=
    checkColumns_eq_ok.mpr ⟨s.nodup, by simp, .inr ⟨rfl, _, rfl, s.only_timestamp⟩⟩
  have nonempty : s.columns ≠ [] := List.ne_nil_of_length_pos (by have := s.idx_lt; omega)
  unfold new
  rw [dif_neg s.name_ne, if_neg nonempty]
  split <;> simp_all

theorem getElem?_timestampColumn :
    s.columns[s.timestampColumnIdx]? = some s.timestampColumn :=
  List.getElem?_eq_getElem s.idx_lt

@[simp] theorem timestampColumn_dtype : s.timestampColumn.dtype = .timestamp :=
  (s.only_timestamp.2.2 _ _ s.getElem?_timestampColumn).mpr (by simp)

theorem timestampColumn_mem : s.timestampColumn ∈ s.columns :=
  List.mem_of_getElem? s.getElem?_timestampColumn

theorem nodup_names : s.names.Nodup := s.nodup

/-- Names are unique, so a name determines its position. -/
theorem idx_unique {i j : Nat} {c c' : ColumnDef} (hi : s.columns[i]? = some c)
    (hj : s.columns[j]? = some c') (same : c.name = c'.name) : i = j := by
  have lt : i < (s.columns.map (·.name)).length := by
    simpa using (List.getElem?_eq_some_iff.mp hi).1
  exact (List.getElem?_inj lt s.nodup).mp (by simp [hi, hj, same])

theorem columns_ne : s.columns ≠ [] := List.ne_nil_of_mem s.timestampColumn_mem

theorem of_new {name : String} {columns : List ColumnDef} (h : new name columns = .ok s) :
    s.name = name ∧ s.columns = columns := by
  unfold new at h
  split_ifs at h
  split at h
  · cases h
  · cases h
  · obtain rfl := Except.ok.inj h
    exact ⟨rfl, rfl⟩

/-- What the constructor accepts. -/
theorem new_isOk {name : String} {columns : List ColumnDef} :
    (∃ s, new name columns = .ok s) ↔ name ≠ "" ∧ columns ≠ [] ∧
      (columns.map (·.name)).Nodup ∧ columns.countP (·.dtype = .timestamp) = 1 := by
  rw [← exists_onlyTimestamp_iff]
  constructor
  · rintro ⟨s, h⟩
    obtain ⟨rfl, rfl⟩ := s.of_new h
    exact ⟨s.name_ne, s.columns_ne, s.nodup, s.timestampColumnIdx, s.only_timestamp⟩
  · rintro ⟨named, -, unique, i, only⟩
    exact ⟨_, new_self ⟨name, columns, i, named, unique, only⟩⟩

end Schema

end BypassIo.Db
