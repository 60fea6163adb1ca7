import BypassIo.Library.PowerLoss
import BypassIo.Db.Open

/-!
# What the table syncs

Of all the calls of `open`, `append`, `flush` and `compact`, only the first one of `flush` is a
sync, and its file is the log. `open` leaves the bytes of the log alone.
-/

namespace BypassIo.Db
open Octet Rust FileSystem Columns

variable {serde : Serde} {root : Path} {P : Call → Prop}

/-- A call of `open`: it syncs nothing and leaves the bytes of the log. -/
def Quiet (root : Path) (c : Call) : Prop := c.Spares (walPath root) ∧ c.NoSync

theorem quiet_of_off {c : Call} (off : ¬ c.Touches (walPath root)) (noSync : c.NoSync) :
    Quiet root c := ⟨fun touches => absurd touches off, noSync⟩

/-! ## Reading -/

section Reading

/-- Looking is allowed. -/
def Looks (P : Call → Prop) : Prop :=
  ∀ p, P (.pathExists p) ∧ P (.read p) ∧ P (.openRead p) ∧ P (.fileLen p)

theorem noSync_looks : Looks Call.NoSync := fun p => by simp [Call.NoSync]

theorem quiet_looks : Looks (Quiet root) := fun p => by
  simp [Quiet, Call.Spares, Call.NoSync, Call.Touches]

variable (look : Looks P)
include look

theorem pathExists_each (path : Path) : (pathExists path).Each P :=
  ⟨(look path).1, fun r => by cases r <;> trivial⟩

theorem readToString_each (path : Path) : (readToString path).Each P := by
  refine (Query.each_io (look path).2.1).bind fun bytes => ?_
  cases fromUtf8 bytes <;> trivial

theorem load_each : (Manifest.load serde root).Each P := by
  refine (pathExists_each look _).bind fun found => ?_
  by_cases h : found
  · simp only [h]
    exact (readToString_each look _).bind fun _ => Query.each_pureStep _
  · simp only [h]
    exact Query.each_pure _

theorem load_segment_each (segment : SegmentRef) :
    (ImmutableSegment.load serde root segment).Each P :=
  ((readToString_each look _).bind fun _ => Query.each_pureStep _).bind fun _ => Query.each_pure _

theorem records_each (path : Path) : (WalReader.records path).Each P :=
  (Query.each_io (look path).2.2.1).bind fun _ => (Query.each_io (look path).2.1).bind fun _ =>
    (Query.each_pureStep _).bind fun _ => Query.each_pure _

theorem readRecords_each {path : Path} (append : P (.openAppend path)) :
    (readRecords path).Each P :=
  (((Query.each_io append).bind fun _ => Query.each_pure _).mapErr).bind fun _ =>
    (records_each look _).mapErr

theorem readBatch_each (segment : ImmutableSegment) (schema : Schema) :
    (segment.readBatch schema).Each P := by
  refine (Query.each_mapM (fun column => ?_) _).bind fun _ => Query.each_pure _
  refine Query.Each.bind ?_ fun _ => Query.each_pure _
  exact (Query.each_pureStep _).bind fun _ =>
    (Query.each_io (look _).2.1).bind fun _ => Query.each_pureStep _

theorem combine_each (schema : Schema) (requested : List UInt64) (sealed : List ImmutableSegment)
    (combined : RowBatch) : (Table.combine schema requested sealed combined).Each P := by
  induction sealed generalizing combined with
  | nil => exact Query.each_pure _
  | cons segment sealed ih =>
    unfold Table.combine
    split
    · refine (readBatch_each look segment schema).bind fun batch => ?_
      rcases combined.append batch with ⟨_ | _, both⟩
      · exact Query.each_throw _
      · exact ih both
    · exact ih combined

end Reading

/-! ## Writing -/

theorem sealBatch_each (schema : Schema) (id : UInt64) (b : RowBatch) :
    (sealBatch serde root schema id b).Each Call.NoSync := by
  refine (Query.each_io (by simp [Call.NoSync])).bind fun _ => (Query.each_pureStep _).bind fun _ =>
    (Query.each_mapM (fun column => ?_) _).bind fun _ => Query.Each.bind ?_ fun _ => Query.each_pure _
  · refine (Query.each_pureStep _).bind fun _ => (Query.each_pureStep _).bind fun data =>
      Query.Each.bind ?_ fun _ => Query.each_pure _
    exact (Query.each_pureStep _).bind fun _ => Query.each_io (by simp [Call.NoSync])
  · exact (Query.each_pureStep _).bind fun _ => Query.each_io (by simp [Call.NoSync])

theorem store_each (m : Manifest) : (m.store serde root).Each (Quiet root) := by
  refine (Query.each_pureStep _).bind fun text => Query.Each.bind ?_ fun _ => ?_
  · refine Query.each_io (quiet_of_off ?_ (by simp [Call.NoSync]))
    rw [join_manifestTmp]
    exact walPath_ne_tmp
  · refine Query.each_io (quiet_of_off ?_ (by simp [Call.NoSync]))
    rw [join_manifestTmp, join_manifest]
    exact wal_not_manifest

/-- `open` syncs nothing and leaves the bytes of the log. -/
theorem openTable_each (schema : Schema) :
    (Table.openTable serde root schema).Each (Quiet root) := by
  have made : ∀ p, Quiet root (.createDirAll p) := fun p => quiet_of_off id (by simp [Call.NoSync])
  have opens : Quiet root (.openAppend (walPath root)) := ⟨fun _ => rfl, by simp [Call.NoSync]⟩
  unfold Table.openTable
  rw [join_wal]
  refine (Query.each_io (made _)).bind fun _ => (Query.each_io (made _)).bind fun _ =>
    (load_each quiet_looks).bind fun m =>
    (Query.each_mapM (load_segment_each quiet_looks) _).bind fun segments =>
    (store_each m).bind fun _ => Query.Each.bind ?_ fun wal =>
    Query.Each.bind ?_ fun batches => ?_
  · exact ((Query.each_io opens).bind fun _ =>
      ((Query.each_io opens).bind fun _ => Query.each_pure _).bind fun _ =>
        (records_each quiet_looks _).bind fun _ => Query.each_pure _).mapErr
  · exact (readRecords_each quiet_looks opens).bind fun _ => Query.each_pureStep _
  · rcases (RowBatch.empty schema).appendAll batches with ⟨_ | _, active⟩
    · exact Query.each_throw _
    · exact Query.each_pure _

theorem WalWriter.append_start (payload : Bytes) (w : WalWriter) :
    (∃ e w', (WalWriter.append payload).start w = .ret (.error e, w')) ∨
      ∃ next, checkedAdd64 w.nextSeqNo 1 = some next ∧ payload.length ≤ u32Max ∧
        ((WalWriter.append payload).start w).Single
          (.append w.path (WalRecord.frame ⟨w.nextSeqNo, payload⟩)) := by
  unfold WalWriter.append
  rw [Method.start_get_bind]
  cases next : checkedAdd64 w.nextSeqNo 1 with
  | none => exact .inl ⟨_, _, rfl⟩
  | some seq =>
    dsimp only
    rw [Method.start_set_bind]
    cases record : WalRecord.encode ⟨w.nextSeqNo, payload⟩ with
    | error e => exact .inl ⟨_, _, rfl⟩
    | ok bytes =>
      obtain ⟨fits, rfl⟩ := WalRecord.encode_eq_ok.mp record
      refine .inr ⟨seq, rfl, fits, _, rfl, ?_⟩
      rintro (e | ⟨⟩) <;> exact ⟨_, rfl⟩

namespace Table

variable {t : Table}

theorem bumpSegmentId_each : bumpSegmentId.Each P := by
  refine Method.each_get_bind fun t => ?_
  cases checkedAdd64 t.manifest.nextSegmentId 1 with
  | none => exact Method.each_throw _
  | some next => exact Method.each_set _

theorem storeManifest_each : (storeManifest serde).Each Call.NoSync :=
  Method.each_get_bind fun _ => Method.each_query (Prog.Each.mono (store_each _) fun _ h => h.2)

/-- What `flush` does after the sync. -/
def sealActive (serde : Serde) (t : Table) : Method Table TableError Unit :=
  if t.active.rowCount = 0 then return
  else do
    let segment ← Method.query
      (sealBatch serde t.path t.schema t.manifest.nextSegmentId t.active)
    bumpSegmentId
    modify fun t => { t with manifest :=
      { t.manifest with sealedSegments := t.manifest.sealedSegments ++ [segmentRef segment] } }
    let records ← Method.query (readRecords t.wal.path)
    modify fun t => { t with manifest :=
      { t.manifest with walRecordsApplied := records.length } }
    storeManifest serde
    modify fun t => { t with sealed := t.sealed ++ [segment], active := .empty t.schema }

theorem sealActive_each (t : Table) : (sealActive serde t).Each Call.NoSync := by
  unfold sealActive
  split
  · exact Method.each_pure _
  · refine (Method.each_query (sealBatch_each _ _ _)).bind fun segment =>
      bumpSegmentId_each.bind fun _ => (Method.each_modify _).bind fun _ =>
      (Method.each_query (readRecords_each noSync_looks ?_)).bind fun records =>
      (Method.each_modify _).bind fun _ => storeManifest_each.bind fun _ => Method.each_modify _
    simp [Call.NoSync]

theorem flush_eq (serde : Serde) : flush serde = (do
    let t ← get
    Method.query (t.wal.sync.mapErr .wal)
    sealActive serde t) := rfl

/-- `flush` begins with a sync of the log, and syncs nothing after it. -/
theorem flush_start (serde : Serde) (t : Table) : ∃ k, (flush serde).start t = .call (.sync t.wal.path) k ∧
    ∀ r, (k r).Each Call.NoSync := by
  rw [flush_eq]
  refine ⟨_, rfl, ?_⟩
  rintro (e | ⟨⟩)
  · trivial
  · exact sealActive_each t t

theorem removeOld_each (oldPaths : List Path) : (removeOld oldPaths).Each Call.NoSync := by
  induction oldPaths with
  | nil => exact Query.each_pure _
  | cons oldPath oldPaths ih =>
    refine (pathExists_each noSync_looks _).bind fun found => ?_
    split
    · exact (Query.each_io (by simp [Call.NoSync])).bind fun _ => ih
    · exact ih

theorem compact_each (ids : List UInt64) : (compact serde ids).Each Call.NoSync := by
  refine Method.each_get_bind fun t => ?_
  split
  · exact Method.each_pure _
  dsimp only
  split
  · exact Method.each_throw _
  refine (Method.each_query (combine_each noSync_looks _ _ _ _)).bind fun combined => ?_
  split
  · exact Method.each_pure _
  refine (Method.each_query (sealBatch_each _ _ _)).bind fun replacement =>
    bumpSegmentId_each.bind fun _ => ?_
  split
  · exact Method.each_throw _
  · exact (Method.each_modify _).bind fun _ => storeManifest_each.bind fun _ =>
      (Method.each_modify _).bind fun _ => Method.each_query (removeOld_each _)

/-! ## Appending -/

theorem appendActive_ends (rows : RowBatch) (t : Table) : ((appendActive rows).start t).Ends := by
  unfold appendActive
  rw [Method.start_get_bind]
  rcases t.active.append rows with ⟨_ | ⟨⟩, active⟩ <;> exact ⟨_, rfl⟩

/-- `append` fails without a call, or its only call adds its record to the log. -/
theorem append_start (rows : RowBatch) (t : Table) :
    (∃ e t', (append rows).start t = .ret (.error e, t')) ∨
      ∃ payload next, Admitted rows t payload next ∧ payload.length ≤ u32Max ∧
        ((append rows).start t).Single
          (.append t.wal.path (WalRecord.frame ⟨t.wal.nextSeqNo, payload⟩)) := by
  unfold append
  rw [Method.start_get_bind]
  cases valid : validateBatchMatchesSchema t.schema rows with
  | error e => exact .inl ⟨_, _, rfl⟩
  | ok u =>
    cases encoded : encodeBatch rows with
    | error e => exact .inl ⟨_, _, rfl⟩
    | ok payload =>
      dsimp only
      rw [Method.start_bind, Method.start_onField]
      rcases WalWriter.append_start payload t.wal with ⟨e, w', failed⟩ | ⟨next, seq, fits, single⟩
      · rw [failed]
        cases e <;> exact .inl ⟨_, _, rfl⟩
      · refine .inr ⟨payload, next, ⟨valid, encoded, seq⟩, fits, ?_⟩
        refine (single.bind fun _ => ⟨_, rfl⟩).bind ?_
        rintro ⟨e | n, t'⟩
        · exact ⟨_, rfl⟩
        · change ((appendActive rows >>= fun _ => pure rows.rowCount).start t').Ends
          rw [Method.start_bind]
          refine (appendActive_ends rows t').bind ?_
          rintro ⟨e | n, t'⟩ <;> exact ⟨_, rfl⟩

theorem append_each (rows : RowBatch) : (append rows).Each Call.NoSync := by
  intro t
  rcases append_start rows t with ⟨e, t', failed⟩ | ⟨payload, next, -, -, single⟩
  · rw [failed]
    trivial
  · exact single.each (by simp [Call.NoSync])

end Table

end BypassIo.Db
