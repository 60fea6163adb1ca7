import Mathlib.Data.List.Count
import Mathlib.Data.List.Perm.Basic
import BypassIo.Db.Batch

/-!
# Building batches

`RowBatch::builder` and the calls of `column`, in any order. `build` looks every column of the
schema up by its name. That no other column is given, and none twice, follows from the two lengths,
because the names of a schema differ.

## Main results

* `RowBatchBuilder.build_eq_ok_iff`: the batches that a builder makes.
* `build_exact`: a batch is built exactly from the columns that the schema asks for, and the order
  of the calls does not matter.
-/

namespace BypassIo.Db
open Octet Rust

/-- `RowBatch::builder`. -/
def RowBatch.builder (schema : Schema) : RowBatchBuilder := ⟨schema, []⟩

/-- What a schema asks of the columns for a batch: each of its names once and no other name, each
column of its type and its width, and columns of one length. -/
structure Complete (schema : Schema) (given : List (String × ColumnData)) : Prop where
  once : ∀ column ∈ schema.columns, (given.map (·.1)).count column.name = 1
  nothingElse : ∀ c ∈ given, c.1 ∈ schema.names
  typed : ∀ column ∈ schema.columns, ∀ c ∈ given, c.1 = column.name →
    c.2.matchesDtype column.dtype
  widths : ∀ c ∈ given, c.2.WidthsOk
  even : ∀ c ∈ given, ∀ c' ∈ given, c.2.rowCount = c'.2.rowCount

namespace RowBatchBuilder

variable {schema : Schema} {given given' ordered : List (String × ColumnData)} {batch : RowBatch}

/-- `RowBatchBuilder::column`. -/
def column (b : RowBatchBuilder) (name : String) (data : ColumnData) : RowBatchBuilder :=
  { b with columns := b.columns ++ [(name, data)] }

/-- Calls of `column`, one after the other. -/
def withColumns (b : RowBatchBuilder) (given : List (String × ColumnData)) : RowBatchBuilder :=
  given.foldl (fun b (name, data) => b.column name data) b

theorem withColumns_eq (b : RowBatchBuilder) (given : List (String × ColumnData)) :
    b.withColumns given = ⟨b.schema, b.columns ++ given⟩ := by
  induction given generalizing b with
  | nil => simp [withColumns]
  | cons c given ih =>
    have step : b.withColumns (c :: given) = (b.column c.1 c.2).withColumns given := rfl
    rw [step, ih]
    simp [column]

/-! ## The columns of a batch -/

/-- The loop returns columns that were given. -/
theorem buildColumns_subset {columns : List ColumnDef} {before after : Option Nat}
    (h : buildColumns given columns before = .ok (ordered, after)) : ordered ⊆ given := by
  induction columns generalizing before ordered with
  | nil =>
    cases h
    exact List.nil_subset given
  | cons column columns ih =>
    simp only [buildColumns] at h
    split at h
    · cases h
    · next name data found =>
      split at h
      · cases h
      · simp only [bind_eq_ok] at h
        obtain ⟨-, -, n, -, ⟨rest, last⟩, loop, done⟩ := h
        obtain ⟨rfl, rfl⟩ := Prod.mk.inj (Except.ok.inj done)
        have same : name = column.name := by simpa using List.find?_some found
        apply List.cons_subset.mpr
        exact ⟨same ▸ List.mem_of_find?_eq_some found, ih loop⟩

/-- A batch of a builder is well formed, and holds the columns given, each once. -/
theorem build_eq_ok_iff : (⟨schema, given⟩ : RowBatchBuilder).build = .ok batch ↔
    batch.WellFormed schema ∧ batch.columns.Perm given := by
  constructor
  · intro built
    have ok := build_wellFormed built
    have distinct := List.Nodup.of_map _ ok.nodup
    refine ⟨ok, ?_⟩
    unfold build at built
    split at built
    · cases built
    · next lengths =>
      obtain ⟨⟨ordered, rowCount⟩, loop, done⟩ := bind_eq_ok.mp built
      obtain rfl := Except.ok.inj done
      -- The names of the schema differ, so as many columns as it has are all of them.
      have count : given.length ≤ ordered.length := by
        have := List.Forall₂.length_eq ok
        simp at lengths this
        omega
      exact (List.subperm_of_subset distinct (buildColumns_subset loop)).perm_of_length_le count
  · intro ⟨ok, same⟩
    exact build_of_perm ok same

/-- The order of the columns does not matter. -/
theorem build_perm (same : given'.Perm given) :
    (⟨schema, given'⟩ : RowBatchBuilder).build.toOption =
      (⟨schema, given⟩ : RowBatchBuilder).build.toOption := by
  have ok_iff (x : Except BatchError RowBatch) (batch : RowBatch) :
      x.toOption = some batch ↔ x = .ok batch := by
    cases x <;> simp [Except.toOption]
  apply Option.ext
  intro batch
  rw [ok_iff, ok_iff, build_eq_ok_iff, build_eq_ok_iff]
  exact and_congr_right fun _ => ⟨fun h => h.trans same, fun h => h.trans same.symm⟩

/-! ## What is asked of the columns -/

theorem complete_of_wellFormed (ok : batch.WellFormed schema) (same : batch.columns.Perm given) :
    Complete schema given := by
  have shaped : ∀ c ∈ given, ∃ column ∈ schema.columns, RowBatch.ColumnOk batch.rowCount column c :=
    fun c h => Columns.exists_of_forall₂_right ok (same.mem_iff.mpr h)
  constructor
  · intro column mem
    have named : column.name ∈ batch.columns.map (·.1) := by
      rw [ok.names]
      exact List.mem_map_of_mem mem
    rw [← (same.map _).count_eq]
    exact List.count_eq_one_of_mem ok.nodup named
  · intro c h
    obtain ⟨column, mem, name, -⟩ := shaped c h
    rw [name]
    exact List.mem_map_of_mem mem
  · intro column mem c h name
    obtain ⟨column', mem', name', shape⟩ := shaped c h
    have : column' = column :=
      List.inj_on_of_nodup_map schema.nodup mem' mem (name'.symm.trans name)
    exact this ▸ shape.dtype
  · intro c h
    obtain ⟨column, -, -, shape⟩ := shaped c h
    exact shape.widths
  · intro c h c' h'
    obtain ⟨column, -, -, shape⟩ := shaped c h
    obtain ⟨column', -, -, shape'⟩ := shaped c' h'
    exact shape.rowCount.trans shape'.rowCount.symm

end RowBatchBuilder

namespace Complete

variable {schema : Schema} {given : List (String × ColumnData)}

/-- The names given are the names of the schema in some order. -/
theorem names (h : Complete schema given) : (given.map (·.1)).Perm schema.names := by
  apply List.perm_iff_count.mpr
  intro name
  by_cases mem : name ∈ schema.names
  · obtain ⟨column, inSchema, rfl⟩ := List.mem_map.mp mem
    rw [h.once column inSchema, List.count_eq_one_of_mem schema.nodup_names mem]
  · have absent : name ∉ given.map (·.1) := fun inGiven => by
      obtain ⟨c, hc, rfl⟩ := List.mem_map.mp inGiven
      exact mem (h.nothingElse c hc)
    rw [List.count_eq_zero_of_not_mem absent, List.count_eq_zero_of_not_mem mem]

/-- The columns can be put in the order of the schema. -/
theorem exists_batch (h : Complete schema given) :
    ∃ batch : RowBatch, batch.WellFormed schema ∧ batch.columns.Perm given := by
  have arranged : Relation.Comp (· = List.map (·.1) ·) List.Perm schema.names given := by
    rw [List.eq_map_comp_perm]
    exact h.names.symm
  obtain ⟨ordered, names, same⟩ := arranged
  have length : schema.columns.length = ordered.length := by
    simpa [Schema.names] using congrArg List.length names
  obtain ⟨first, found⟩ : ∃ first, first ∈ ordered :=
    List.exists_mem_of_length_pos (by
      have := List.length_pos_iff.mpr schema.columns_ne
      omega)
  refine ⟨⟨ordered, first.2.rowCount⟩, ?_, same⟩
  refine Columns.forall₂_of_getElem? length fun i column c inSchema inOrdered => ?_
  have name : c.1 = column.name := by
    have := congrArg (fun names : List String => names[i]?) names
    simpa [Schema.names, inSchema, inOrdered] using this.symm
  have mem : c ∈ given := same.mem_iff.mp (List.mem_of_getElem? inOrdered)
  exact ⟨name, h.typed column (List.mem_of_getElem? inSchema) c mem name,
    h.even c mem first (same.mem_iff.mp found), h.widths c mem⟩

end Complete

/-- A batch is built exactly when the calls give the columns that the schema asks for. It holds
them in the order of the schema, and as many rows as each of them has values. The same calls in
another order give the same batch, or none. -/
theorem build_exact (schema : Schema) (given : List (String × ColumnData)) :
    ((∃ batch, ((RowBatch.builder schema).withColumns given).build = .ok batch) ↔
      Complete schema given) ∧
    (∀ batch, ((RowBatch.builder schema).withColumns given).build = .ok batch →
      batch.columns.map (·.1) = schema.names ∧ batch.columns.Perm given ∧
        ∀ c ∈ given, c.2.rowCount = batch.rowCount) ∧
    ∀ given', given'.Perm given →
      ((RowBatch.builder schema).withColumns given').build.toOption =
        ((RowBatch.builder schema).withColumns given).build.toOption := by
  have calls (given : List (String × ColumnData)) :
      (RowBatch.builder schema).withColumns given = ⟨schema, given⟩ :=
    RowBatchBuilder.withColumns_eq (RowBatch.builder schema) given
  simp only [calls, RowBatchBuilder.build_eq_ok_iff]
  refine ⟨⟨fun ⟨batch, ok, same⟩ => RowBatchBuilder.complete_of_wellFormed ok same,
    fun complete => complete.exists_batch⟩, fun batch ⟨ok, same⟩ => ?_,
    fun given' same => RowBatchBuilder.build_perm same⟩
  refine ⟨ok.names, same, fun c h => ?_⟩
  obtain ⟨column, -, -, shape⟩ := Columns.exists_of_forall₂_right ok (same.mem_iff.mpr h)
  exact shape.rowCount

end BypassIo.Db
