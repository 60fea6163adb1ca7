import BypassIo.Db.Refinement
import BypassIo.Db.Syncs

/-!
# A table stays in its directory

Any use of a directory on a disk with any contents: opened with any schemas, used, failed at any
calls, killed and opened again. The paths that a table writes are made of its root and of names
without a slash, so only two things could lead elsewhere: a path in `manifest.json`, which
`compact` removes, and the file names in a `meta.json`, which are only read. As long as the
manifest found at the start lists paths below `segments`, every later one does, and nothing
outside of the root is created, changed or removed (`contained`).
-/

namespace BypassIo.Db
open Octet Rust FileSystem Columns

variable {serde : Serde} {root : Path} {schema : Schema} {may : Call → Prop} {d₀ d d' : Disk}
  {t t' : Table} {m : Manifest}

/-! ## Inside and outside -/

/-- A path below the directory of the segments. -/
def BelowSegments (root q : Path) : Prop := root ++ ["segments"] <+: q

/-- A path in the table directory that is not the manifest. -/
def InTable (root q : Path) : Prop := root <+: q ∧ ¬ ManifestFile root q

theorem BelowSegments.inTable {q : Path} (h : BelowSegments root q) : InTable root q := by
  refine ⟨(List.prefix_append _ _).trans h, ?_⟩
  rintro (rfl | rfl) <;>
    simp [BelowSegments, manifestTmp, manifestPath, List.prefix_append_right_inj] at h

theorem belowSegments_segmentDir (id : UInt64) : BelowSegments root (segmentDir root id) := by
  simp [BelowSegments, segmentDir, List.prefix_append_right_inj]

theorem InSegment.inTable {id : UInt64} {q : Path} (h : InSegment root id q) : InTable root q := by
  have below : BelowSegments root q := (belowSegments_segmentDir id).trans h
  exact below.inTable

theorem inTable_wal : InTable root (walPath root) := ⟨List.prefix_append _ _, wal_not_manifest⟩

theorem ManifestFile.inside {q : Path} (h : ManifestFile root q) : root <+: q := by
  rcases h with rfl | rfl <;> exact List.prefix_append _ _

/-- The manifest lists paths below the directory of the segments. -/
def Manifest.Local (root : Path) (m : Manifest) : Prop :=
  ∀ ref ∈ m.sealedSegments, BelowSegments root (root.join ref.path)

theorem Manifest.new_local : Manifest.new.Local root := fun _ mem => nomatch mem

/-- Segments are listed under the paths they are sealed in. -/
theorem belowSegments_segmentRef (segment : ImmutableSegment) :
    BelowSegments root (root.join (segmentRef segment).path) := by
  rw [segmentRef, join_toRef]
  exact belowSegments_segmentDir _

/-- The handle keeps paths of the table directory. -/
structure Table.Local (root : Path) (t : Table) : Prop where
  path : t.path = root
  wal : t.wal.path = walPath root
  sealed : ∀ segment ∈ t.sealed, BelowSegments root segment.path
  manifest : t.manifest.Local root

/-- Outside of the root the disk is the one at the start, and its manifest stays inside. -/
structure Contained (serde : Serde) (root : Path) (d₀ d : Disk) : Prop where
  off : d₀.EqOff (root <+: ·) d
  listed : ∀ m, SavedManifest serde root d m → m.Local root

namespace Contained

theorem confined (h : Contained serde root d₀ d) (off : d.EqOff (InTable root) d') :
    Contained serde root d₀ d' where
  off := h.off.trans (off.mono fun _ => And.left)
  listed m saved := by
    refine h.listed m (saved.frame (off.files _ ?_).symm)
    exact fun inside => inside.2 (.inr rfl)

theorem storing (h : Contained serde root d₀ d) (inside : m.Local root)
    (s : Storing serde root m d d') : Contained serde root d₀ d' where
  off := h.off.trans (s.off.mono fun _ => ManifestFile.inside)
  listed m' saved := by
    rcases s.file with same | stored
    · exact h.listed m' (saved.frame same.symm)
    · exact saved.unique stored ▸ inside

/-- A program that stays in the table directory. -/
theorem query {ε α : Type} {p : Query ε α} (h : Contained serde root d₀ d)
    (inside : p.Confined (InTable root)) :
    p.wp may (fun _ => Contained serde root d₀) (Contained serde root d₀) d :=
  Prog.wp_mono (Prog.Confined.wp inside d) (fun _ _ => h.confined) fun _ => h.confined

end Contained

/-! ## Opening -/

theorem looks_touches {K : Path → Prop} : Looks fun c => ∀ q, c.Touches q → K q := fun p => by
  simp [Call.Touches]

theorem readRecords_confined : (readRecords (walPath root)).Confined (InTable root) := by
  refine Prog.Each.confined (readRecords_each looks_touches ?_)
  rintro q rfl
  exact inTable_wal

theorem readToString_strict (path : Path) : (readToString path).Strict := by
  refine (Query.strict_io _ _).bind fun bytes => ?_
  cases fromUtf8 bytes with
  | none => exact Query.strict_throw _
  | some text => exact Query.strict_pure _

/-- A manifest that loads is the new one, or the one in the file: a look-up that fails counts as
absence. -/
theorem load_wp (d : Disk) :
    (Manifest.load serde root).wp may
      (fun r d' => d' = d ∧ ∀ m, r = .ok m → m = .new ∨ SavedManifest serde root d m)
      (fun d' => d' = d) d := by
  have looks : (pathExists (manifestPath root)).ReadOnly :=
    ⟨trivial, fun r => by cases r <;> trivial⟩
  have look : (pathExists (manifestPath root)).wp may (fun _ d' => d' = d) (fun d' => d' = d) d :=
    Prog.ReadOnly.wp looks d
  rw [Manifest.load, join_manifest]
  refine Query.wp_seq look ?_ (fun e d' same => ⟨same, fun m h => by cases h⟩) fun _ h => h
  rintro found d' rfl
  cases found with
  | false => exact ⟨rfl, fun m h => .inl (Except.ok.inj h).symm⟩
  | true =>
    have reads : (readToString (manifestPath root) >>= fun text =>
        Query.pureStep (mapErr .manifest (ofResult (serde.manifest.fromStr text)))).ReadOnly :=
      (readToString_readOnly _).bind fun _ => Query.readOnly_pureStep _
    have strict : (readToString (manifestPath root) >>= fun text =>
        Query.pureStep (mapErr .manifest (ofResult (serde.manifest.fromStr text)))).Strict :=
      (readToString_strict _).bind fun _ => Query.strict_pureStep _
    refine Query.wp_mono (reads.wp strict d') ?_ fun _ h => h
    rintro r d'' ⟨rfl, exec⟩
    refine ⟨rfl, fun m ok => ?_⟩
    obtain ⟨text, d₁, read, parsed⟩ := Query.exec_bind_eq_ok.mp (exec m ok)
    obtain ⟨held, rfl⟩ := readToString_exec_eq_ok.mp read
    exact .inr ⟨text, held, by simpa using parsed⟩

theorem loadSegment_path {segment : ImmutableSegment} {ref : SegmentRef}
    (run : (ImmutableSegment.load serde root ref).exec d = (.ok segment, d')) :
    segment.path = root.join ref.path := by
  obtain ⟨info, d₁, -, done⟩ := Query.exec_bind_eq_ok.mp run
  obtain ⟨rfl, rfl⟩ := Query.exec_pure_eq_ok.mp done
  rfl

/-- The segments of a manifest load from the paths it lists. -/
theorem loadSegments_wp (inside : m.Local root) (d : Disk) :
    (m.sealedSegments.mapM (ImmutableSegment.load serde root)).wp may
      (fun r d' => d' = d ∧ ∀ segments, r = .ok segments →
        ∀ segment ∈ segments, BelowSegments root segment.path)
      (fun d' => d' = d) d := by
  have strict : ∀ ref, (ImmutableSegment.load serde root ref).Strict := fun ref =>
    ((readToString_strict _).bind fun _ => Query.strict_pureStep _).bind fun _ =>
      Query.strict_pure _
  refine Query.wp_mono ((Query.readOnly_mapM load_segment_readOnly _).wp
    (Query.strict_mapM strict _) d) ?_ fun _ h => h
  rintro r d' ⟨rfl, exec⟩
  refine ⟨rfl, fun segments ok segment mem => ?_⟩
  obtain ⟨-, each⟩ := (Query.ReadOnly.exec_mapM_eq_ok load_segment_readOnly).mp (exec segments ok)
  obtain ⟨ref, listed, run⟩ := exists_of_forall₂_right each mem
  rw [loadSegment_path run]
  exact inside ref listed

theorem openWriter_strict (path : Path) : (WalWriter.openWriter path).Strict :=
  (Query.strict_io _ _).bind fun _ => ((Query.strict_io _ _).bind fun _ => Query.strict_pure _).bind
    fun _ => (records_strict _).bind fun _ => Query.strict_pure _

theorem openWriter_confined : (WalWriter.openWriter (walPath root)).Confined (InTable root) := by
  have opens : ∀ q, (Call.openAppend (walPath root)).Touches q → InTable root q := by
    rintro q rfl
    exact inTable_wal
  exact (Query.confined_io opens).bind fun _ =>
    ((Query.confined_io opens).bind fun _ => Query.confined_pure _).bind fun _ =>
      Query.Confined.bind (Prog.Each.confined (records_each looks_touches _)) fun _ =>
        Query.confined_pure _

theorem openWriter_path {path : Path} {wal : WalWriter}
    (run : (WalWriter.openWriter path).exec d = (.ok wal, d')) : wal.path = path := by
  obtain ⟨-, d₁, -, rest⟩ := Query.exec_bind_eq_ok.mp run
  obtain ⟨reader, d₂, -, rest⟩ := Query.exec_bind_eq_ok.mp rest
  obtain ⟨records, d₃, -, done⟩ := Query.exec_bind_eq_ok.mp rest
  obtain ⟨rfl, rfl⟩ := Query.exec_pure_eq_ok.mp done
  rfl

/-- The writer is opened on the log. -/
theorem openWriter_local (h : Contained serde root d₀ d) :
    ((WalWriter.openWriter (walPath root)).mapErr TableError.wal).wp may
      (fun r d' => Contained serde root d₀ d' ∧ ∀ wal, r = .ok wal → wal.path = walPath root)
      (Contained serde root d₀) d := by
  refine Query.wp_mapErr.mpr (Query.wp_mono
    (openWriter_confined.wp (openWriter_strict _) d) ?_ fun _ => h.confined)
  rintro r d' ⟨off, exec⟩
  refine ⟨h.confined off, fun wal ok => ?_⟩
  cases r with
  | error e => cases e <;> cases ok
  | ok found =>
    obtain rfl := Except.ok.inj ok
    exact openWriter_path (exec found rfl)

/-- `open` on any disk whose manifest stays inside. -/
theorem openTable_local (h : Contained serde root d₀ d) :
    (Table.openTable serde root schema).wp may
      (fun r d' => Contained serde root d₀ d' ∧ ∀ t, r = .ok t → t.Local root)
      (Contained serde root d₀) d := by
  have makes : ∀ p, (Query.io TableError.ofIo (.createDirAll p)).Confined (InTable root) :=
    fun p => Query.confined_io fun q hq => nomatch hq
  have failed : ∀ e d', Contained serde root d₀ d' → Contained serde root d₀ d' ∧
      ∀ t, (.error e : Outcome TableError Table) = .ok t → t.Local root :=
    fun e d' h => ⟨h, fun t ok => by cases ok⟩
  rw [openTable_eq]
  refine Query.wp_seq (h.query (makes _)) ?_ failed fun _ h => h
  rintro ⟨⟩ d₁ h₁
  refine Query.wp_seq (h₁.query (makes _)) ?_ failed fun _ h => h
  rintro ⟨⟩ d₂ h₂
  unfold Table.loadTable
  -- The manifest is read, with its segments, and stored again.
  refine Query.wp_seq (load_wp d₂) ?_ (fun e d' same => failed e d' (same.1 ▸ h₂)) ?_
  rotate_left
  · rintro d' rfl
    exact h₂
  rintro m d' ⟨rfl, loaded⟩
  have inside : m.Local root := by
    rcases loaded m rfl with rfl | saved
    · exact Manifest.new_local
    · exact h₂.listed m saved
  refine Query.wp_seq (loadSegments_wp inside d') ?_ (fun e d'' same => failed e d'' (same.1 ▸ h₂)) ?_
  rotate_left
  · rintro d'' rfl
    exact h₂
  rintro segments d'' ⟨rfl, below⟩
  refine Query.wp_seq (store_wp m d'') ?_ (fun e d₃ s => failed e d₃ (h₂.storing inside s.1))
    fun d₃ => h₂.storing inside
  rintro ⟨⟩ d₃ ⟨storing, -⟩
  have h₃ := h₂.storing inside storing
  -- The log is opened and replayed.
  refine Query.wp_seq (openWriter_local h₃) ?_ (fun e d₄ h => failed e d₄ h.1) fun _ h => h
  rintro wal d₄ ⟨h₄, walAt⟩
  have replays : (recoverBatchesAfter schema (walPath root) m.walRecordsApplied).Confined
      (InTable root) := readRecords_confined.bind fun _ => Query.confined_pureStep _
  refine Query.wp_seq (h₄.query replays) ?_ failed fun _ h => h
  intro batches d₅ h₅
  rcases (RowBatch.empty schema).appendAll batches with ⟨_ | _, active⟩
  · exact failed _ _ h₅
  · refine ⟨h₅, fun t ok => ?_⟩
    obtain rfl := Except.ok.inj ok
    exact ⟨rfl, walAt wal rfl, below segments rfl, inside⟩

/-! ## Operations -/

theorem append_wal_local (h : Contained serde root d₀ d) {w : WalWriter}
    (walAt : w.path = walPath root) (payload : Bytes) :
    (WalWriter.append payload).wp may
      (fun _ w' d' => Contained serde root d₀ d' ∧ w'.path = walPath root)
      (Contained serde root d₀) w d := by
  unfold WalWriter.append
  refine Method.wp_get_bind.mpr ?_
  cases checkedAdd64 w.nextSeqNo 1 with
  | none => exact ⟨h, walAt⟩
  | some next =>
    refine Method.wp_set_bind.mpr ?_
    cases WalRecord.encode ⟨w.nextSeqNo, payload⟩ with
    | error e => exact ⟨h, walAt⟩
    | ok encoded =>
      have writes : (Query.io WalError.ofIo (.append w.path encoded)).Confined (InTable root) := by
        refine Query.confined_io ?_
        rintro q rfl
        exact walAt ▸ inTable_wal
      exact Method.wp_query_seq (h.query writes) (fun _ _ h => ⟨h, walAt⟩)
        (fun _ _ h => ⟨h, walAt⟩) fun _ h => h

theorem append_local (h : Contained serde root d₀ d) (inside : t.Local root) (rows : RowBatch) :
    (Table.append rows).wp may (fun _ t' d' => Contained serde root d₀ d' ∧ t'.Local root)
      (Contained serde root d₀) t d := by
  unfold Table.append
  refine Method.wp_get_bind.mpr ?_
  cases validateBatchMatchesSchema t.schema rows with
  | error e => exact ⟨h, inside⟩
  | ok checked =>
    cases encodeBatch rows with
    | error e => exact ⟨h, inside⟩
    | ok payload =>
      have written : ((WalWriter.append payload).onField Table.wal (fun wal t => { t with wal })
          TableError.wal).wp may (fun _ t' d' => Contained serde root d₀ d' ∧ t'.Local root)
          (Contained serde root d₀) t d := by
        refine Method.wp_onField.mpr (Prog.wp_mono (append_wal_local h inside.wal payload) ?_
          fun _ h => h)
        rintro r d' ⟨h', walAt⟩
        exact ⟨h', inside.path, walAt, inside.sealed, inside.manifest⟩
      refine Method.wp_seq written ?_ (fun _ _ _ h => h) fun _ h => h
      rintro seqNo t₁ d₁ ⟨h₁, inside₁⟩
      unfold Table.appendActive
      simp only [bind_assoc]
      refine Method.wp_get_bind.mpr ?_
      have kept : ∀ active, Table.Local root { t₁ with active := active } := fun active =>
        ⟨inside₁.path, inside₁.wal, inside₁.sealed, inside₁.manifest⟩
      rcases t₁.active.append rows with ⟨e | ⟨⟩, active⟩
      · exact ⟨h₁, kept active⟩
      · exact ⟨h₁, kept active⟩

/-- The segment of a batch is sealed below the directory of the segments. -/
theorem sealBatch_local (h : Contained serde root d₀ d) (id : UInt64) (b : RowBatch) :
    (sealBatch serde root schema id b).wp may
      (fun r d' => Contained serde root d₀ d' ∧
        ∀ segment, r = .ok segment → BelowSegments root segment.path)
      (Contained serde root d₀) d := by
  have confined : (sealBatch serde root schema id b).Confined (InTable root) :=
    (sealBatch_confined id b).mono fun _ => InSegment.inTable
  refine Query.wp_mono (confined.wp (sealBatch_strict id b) d) ?_ fun _ => h.confined
  rintro r d' ⟨off, exec⟩
  refine ⟨h.confined off, fun segment ok => ?_⟩
  obtain ⟨-, d₁, -, rest⟩ := Query.exec_bind_eq_ok.mp (exec segment ok)
  obtain ⟨timestamps, d₂, -, rest⟩ := Query.exec_bind_eq_ok.mp rest
  obtain ⟨columns, d₃, -, rest⟩ := Query.exec_bind_eq_ok.mp rest
  obtain ⟨-, d₄, -, done⟩ := Query.exec_bind_eq_ok.mp rest
  obtain ⟨rfl, rfl⟩ := Query.exec_pure_eq_ok.mp done
  rw [join_segments]
  exact belowSegments_segmentDir id

theorem flush_local (h : Contained serde root d₀ d) (inside : t.Local root) :
    (Table.flush serde).wp may (fun _ t' d' => Contained serde root d₀ d' ∧ t'.Local root)
      (Contained serde root d₀) t d := by
  unfold Table.flush
  refine Method.wp_get_bind.mpr ?_
  refine Method.wp_query_seq Table.sync_wp ?_ (fun e d' same => ⟨same ▸ h, inside⟩) ?_
  rotate_left
  · rintro d' rfl
    exact h
  rintro ⟨⟩ d' rfl
  by_cases idle : t.active.rowCount = 0
  · rw [if_pos idle]
    exact ⟨h, inside⟩
  rw [if_neg idle, inside.path]
  refine Method.wp_query_seq (sealBatch_local h _ _) ?_ (fun e d₁ h => ⟨h.1, inside⟩) fun _ h => h
  rintro segment d₁ ⟨h₁, below⟩
  refine Method.wp_seq Table.bumpSegmentId_wp ?_ ?_ fun _ h => h.elim
  rotate_left
  · rintro e t₁ d₂ ⟨rfl, ⟨-, -, rfl⟩ | ⟨failed, -⟩⟩
    · exact ⟨h₁, inside⟩
    · cases failed
  rintro ⟨⟩ t₁ d₂ ⟨rfl, ⟨e, failed, -⟩ | ⟨-, room, rfl⟩⟩
  · cases failed
  have pushed : (t.manifest.push segment).Local root := by
    intro ref mem
    rcases List.mem_append.mp mem with old | new
    · exact inside.manifest ref old
    · obtain rfl := List.mem_singleton.mp new
      exact belowSegments_segmentRef segment
  refine Method.wp_modify_bind.mpr ?_
  rw [inside.wal]
  refine Method.wp_query_seq (h₁.query readRecords_confined) ?_
    (fun e d₃ h => ⟨h, inside.path, inside.wal, inside.sealed, pushed⟩) fun _ h => h
  intro records d₃ h₃
  have advanced : (t.manifest.advance segment records.length).Local root := pushed
  refine Method.wp_modify_bind.mpr ?_
  refine Method.wp_seq (Table.storeManifest_wp inside.path) ?_ ?_ fun d₄ => h₃.storing advanced
  · rintro ⟨⟩ t₂ d₄ ⟨rfl, storing, -⟩
    refine ⟨h₃.storing advanced storing, inside.path, inside.wal, ?_, advanced⟩
    intro s mem
    rcases List.mem_append.mp mem with old | new
    · exact inside.sealed s old
    · obtain rfl := List.mem_singleton.mp new
      exact below s rfl
  · rintro e t₂ d₄ ⟨rfl, storing, -⟩
    exact ⟨h₃.storing advanced storing, inside.path, inside.wal, inside.sealed, advanced⟩

theorem mem_replaceSelected {requested : List UInt64} {replacement segment : ImmutableSegment}
    {insertAt idx : Nat} {sealed : List ImmutableSegment}
    (mem : segment ∈ Table.replaceSelected requested replacement insertAt sealed idx) :
    segment = replacement ∨ segment ∈ sealed := by
  induction sealed generalizing idx with
  | nil => cases mem
  | cons first sealed ih =>
    simp only [Table.replaceSelected, List.mem_append] at mem
    rcases mem with (new | old) | rest
    · split at new
      · exact .inl (List.mem_singleton.mp new)
      · cases new
    · split at old
      · cases old
      · exact .inr (List.mem_singleton.mp old ▸ List.mem_cons_self)
    · exact (ih rest).imp_right (List.mem_cons_of_mem _)

theorem compact_local (h : Contained serde root d₀ d) (inside : t.Local root) (ids : List UInt64) :
    (Table.compact serde ids).wp may (fun _ t' d' => Contained serde root d₀ d' ∧ t'.Local root)
      (Contained serde root d₀) t d := by
  unfold Table.compact
  refine Method.wp_get_bind.mpr ?_
  by_cases none : ids = []
  · rw [if_pos none]
    exact ⟨h, inside⟩
  rw [if_neg none]
  by_cases missing : Table.missingIds ids t.sealed ≠ []
  · rw [if_pos missing]
    exact ⟨h, inside⟩
  rw [if_neg missing]
  have reads : (Table.combine t.schema ids t.sealed (.empty t.schema)).wp may
      (fun _ d' => d' = d) (fun d' => d' = d) d :=
    Prog.ReadOnly.wp (Table.combine_readOnly _ _ _) d
  refine Method.wp_query_seq reads ?_ (fun e d' same => ⟨same ▸ h, inside⟩) ?_
  rotate_left
  · rintro d' rfl
    exact h
  rintro combined d' rfl
  by_cases empty : combined.rowCount = 0
  · rw [if_pos empty]
    exact ⟨h, inside⟩
  rw [if_neg empty, inside.path]
  refine Method.wp_query_seq (sealBatch_local h _ _) ?_ (fun e d₁ h => ⟨h.1, inside⟩) fun _ h => h
  rintro replacement d₁ ⟨h₁, below⟩
  refine Method.wp_seq Table.bumpSegmentId_wp ?_ ?_ fun _ h => h.elim
  rotate_left
  · rintro e t₁ d₂ ⟨rfl, ⟨-, -, rfl⟩ | ⟨failed, -⟩⟩
    · exact ⟨h₁, inside⟩
    · cases failed
  rintro ⟨⟩ t₁ d₂ ⟨rfl, ⟨e, failed, -⟩ | ⟨-, room, rfl⟩⟩
  · cases failed
  cases t.sealed.findIdx? fun segment => segment.id ∈ ids with
  | none => exact ⟨h₁, inside.path, inside.wal, inside.sealed, inside.manifest⟩
  | some insertAt =>
    have relisted : (t.manifest.relist
        (Table.replaceSelected ids replacement insertAt t.sealed 0)).Local root := by
      intro ref mem
      obtain ⟨segment, -, rfl⟩ := List.mem_map.mp mem
      exact belowSegments_segmentRef segment
    refine Method.wp_modify_bind.mpr ?_
    refine Method.wp_seq (Table.storeManifest_wp inside.path) ?_ ?_ fun d₄ => h₁.storing relisted
    rotate_left
    · rintro e t₂ d₄ ⟨rfl, storing, -⟩
      exact ⟨h₁.storing relisted storing, inside.path, inside.wal, inside.sealed, relisted⟩
    rintro ⟨⟩ t₂ d₄ ⟨rfl, storing, -⟩
    have h₄ := h₁.storing relisted storing
    refine Method.wp_modify_bind.mpr (Method.wp_query.mpr ?_)
    -- The old directories are removed: they are below that of the segments.
    have removes : (Table.removeOld ((t.sealed.filter fun segment => segment.id ∈ ids).map
        ImmutableSegment.path)).Confined (InTable root) := by
      refine Table.removeOld_confined fun p hp q hq => ?_
      obtain ⟨segment, mem, rfl⟩ := List.mem_map.mp hp
      have old := inside.sealed segment (List.mem_filter.mp mem).1
      have lower : BelowSegments root q := old.trans hq
      exact lower.inTable
    refine Query.wp_mono (h₄.query removes) (fun r d₅ h₅ => ⟨h₅, inside.path, inside.wal, ?_, relisted⟩)
      fun _ h => h
    intro segment mem
    rcases mem_replaceSelected mem with rfl | old
    · exact below segment rfl
    · exact inside.sealed segment old

/-! ## Any use of a directory -/

section Usage

variable (serde : Serde) (root : Path) (d₀ : Disk)

/-- A directory on the disk `d₀` and what is done to it: it is opened under any schema, used,
dropped, and killed; in each call of the program any system calls may fail. -/
inductive Usage : Disk → Option Table → Prop where
  | start : Usage d₀ none
  | opened {d d' : Disk} {t : Table} (schema : Schema) : Usage d none →
      Prog.Runs (fun _ => True) (Table.openTable serde root schema).run d (.ok t) d' →
      Usage d' (some t)
  | openFailed {d d' : Disk} {e : Fault TableError} (schema : Schema) : Usage d none →
      Prog.Runs (fun _ => True) (Table.openTable serde root schema).run d (.error e) d' →
      Usage d' none
  | openKilled {d d' : Disk} (schema : Schema) : Usage d none →
      Prog.Crashes (Table.openTable serde root schema).run d d' → Usage d' none
  | append {d d' : Disk} {t t' : Table} {r : Outcome TableError Nat} (rows : RowBatch) :
      Usage d (some t) → (Table.append rows).Runs (fun _ => True) t d r t' d' → Usage d' (some t')
  | appendKilled {d d' : Disk} {t : Table} (rows : RowBatch) : Usage d (some t) →
      Prog.Crashes ((Table.append rows).start t) d d' → Usage d' none
  | flush {d d' : Disk} {t t' : Table} {r : Outcome TableError Unit} : Usage d (some t) →
      (Table.flush serde).Runs (fun _ => True) t d r t' d' → Usage d' (some t')
  | flushKilled {d d' : Disk} {t : Table} : Usage d (some t) →
      Prog.Crashes ((Table.flush serde).start t) d d' → Usage d' none
  | compact {d d' : Disk} {t t' : Table} {r : Outcome TableError Unit} (ids : List UInt64) :
      Usage d (some t) → (Table.compact serde ids).Runs (fun _ => True) t d r t' d' →
      Usage d' (some t')
  | compactKilled {d d' : Disk} {t : Table} (ids : List UInt64) : Usage d (some t) →
      Prog.Crashes ((Table.compact serde ids).start t) d d' → Usage d' none
  | dropped {d : Disk} {t : Table} : Usage d (some t) → Usage d none

end Usage

theorem Usage.inv {s : Option Table} (h : Usage serde root d₀ d s)
    (listed : ∀ m, SavedManifest serde root d₀ m → m.Local root) :
    Contained serde root d₀ d ∧ ∀ t, s = some t → t.Local root := by
  induction h with
  | start => exact ⟨⟨.refl _ _, listed⟩, by simp⟩
  | opened schema _ run ih =>
    obtain ⟨contained, inside⟩ := Prog.wp_runs (openTable_local ih.1) run
    refine ⟨contained, ?_⟩
    rintro t ⟨⟩
    exact inside _ rfl
  | openFailed schema _ run ih => exact ⟨(Prog.wp_runs (openTable_local ih.1) run).1, by simp⟩
  | openKilled schema _ crash ih =>
    exact ⟨Prog.wp_crashes (@openTable_local serde root schema NoFaults _ _ ih.1) crash, by simp⟩
  | append rows _ run ih =>
    obtain ⟨contained, inside⟩ := Method.wp_runs (append_local ih.1 (ih.2 _ rfl) rows) run
    refine ⟨contained, ?_⟩
    rintro t ⟨⟩
    exact inside
  | appendKilled rows _ crash ih =>
    have spec := @append_local serde root NoFaults _ _ _ ih.1 (ih.2 _ rfl) rows
    exact ⟨Prog.wp_crashes spec crash, by simp⟩
  | flush _ run ih =>
    obtain ⟨contained, inside⟩ := Method.wp_runs (flush_local ih.1 (ih.2 _ rfl)) run
    refine ⟨contained, ?_⟩
    rintro t ⟨⟩
    exact inside
  | flushKilled _ crash ih =>
    have spec := @flush_local serde root NoFaults _ _ _ ih.1 (ih.2 _ rfl)
    exact ⟨Prog.wp_crashes spec crash, by simp⟩
  | compact ids _ run ih =>
    obtain ⟨contained, inside⟩ := Method.wp_runs (compact_local ih.1 (ih.2 _ rfl) ids) run
    refine ⟨contained, ?_⟩
    rintro t ⟨⟩
    exact inside
  | compactKilled ids _ crash ih =>
    have spec := @compact_local serde root NoFaults _ _ _ ih.1 (ih.2 _ rfl) ids
    exact ⟨Prog.wp_crashes spec crash, by simp⟩
  | dropped _ ih => exact ⟨ih.1, by simp⟩

theorem Fresh.listed (h : Fresh root d) (m : Manifest) (saved : SavedManifest serde root d m) :
    m.Local root := by
  obtain ⟨text, held, -⟩ := saved
  have none := (h (manifestPath root) (List.prefix_append _ _) (by simp [manifestPath])).1
  rw [none] at held
  cases held

end BypassIo.Db
