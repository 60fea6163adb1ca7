import BypassIo.Db.Sealed
import BypassIo.Db.Table

/-!
# The files of a table directory

One specification for each file operation that the methods of a table are made of: finding
and storing the manifest, reading the log again, and sealing. Each one holds whichever
calls fail, and says what an interruption leaves.
-/

namespace BypassIo.Db
open Octet Rust FileSystem Columns

variable {serde : Serde} {root : Path} {schema : Schema} {may : Call → Prop} {d d' : Disk}

/-! ## The manifest -/

/-- The manifest file holds `m`. -/
def SavedManifest (serde : Serde) (root : Path) (d : Disk) (m : Manifest) : Prop :=
  ∃ text, d.files (manifestPath root) = some (asBytes text) ∧ serde.manifest.fromStr text = .ok m

/-- The manifest that `Manifest::load` finds. -/
def FoundManifest (serde : Serde) (root : Path) (d : Disk) (m : Manifest) : Prop :=
  SavedManifest serde root d m ∨
    d.files (manifestPath root) = none ∧ d.dirs (manifestPath root) = false ∧ m = .new

theorem SavedManifest.frame {m : Manifest} (h : SavedManifest serde root d m)
    (same : d'.files (manifestPath root) = d.files (manifestPath root)) :
    SavedManifest serde root d' m := by
  obtain ⟨text, held, parsed⟩ := h
  exact ⟨text, same.trans held, parsed⟩

theorem SavedManifest.unique {m m' : Manifest} (h : SavedManifest serde root d m)
    (h' : SavedManifest serde root d m') : m = m' := by
  obtain ⟨text, held, parsed⟩ := h
  obtain ⟨text', held', parsed'⟩ := h'
  obtain rfl := asBytes_injective (Option.some.inj (held.symm.trans held'))
  exact Except.ok.inj (parsed.symm.trans parsed')

theorem FoundManifest.frame {m : Manifest} (h : FoundManifest serde root d m)
    (same : d'.files (manifestPath root) = d.files (manifestPath root))
    (dirs : d'.dirs (manifestPath root) = d.dirs (manifestPath root)) :
    FoundManifest serde root d' m := by
  rcases h with saved | ⟨absent, dir, new⟩
  · exact .inl (saved.frame same)
  · exact .inr ⟨same.trans absent, dirs.trans dir, new⟩

theorem readToString_exec_eq_ok {path : Path} {text : String} :
    (readToString path).exec d = (.ok text, d') ↔ d.files path = some (asBytes text) ∧ d' = d := by
  constructor
  · intro h
    unfold readToString at h
    obtain ⟨bytes, d₁, read, rest⟩ := Query.exec_bind_eq_ok.mp h
    obtain ⟨held, rfl⟩ := Query.exec_read_eq_ok.mp read
    cases found : fromUtf8 bytes with
    | none =>
      rw [found] at rest
      cases rest
    | some s =>
      rw [found] at rest
      obtain ⟨rfl, rfl⟩ := Query.exec_pure_eq_ok.mp rest
      exact ⟨by rw [held, asBytes_of_fromUtf8 found], rfl⟩
  · rintro ⟨held, rfl⟩
    exact readToString_exec held

theorem pathExists_exec (path : Path) :
    (pathExists path).exec d = (.ok (d.dirs path || (d.files path).isSome), d) := rfl

/-- `Manifest::load` succeeds on the manifest it finds. -/
theorem load_exec_eq_ok {m : Manifest} :
    (Manifest.load serde root).exec d = (.ok m, d') ↔
      FoundManifest serde root d m ∧ d' = d := by
  simp only [Manifest.load, join_manifest]
  rw [Query.exec_bind_ok (pathExists_exec _)]
  cases held : d.files (manifestPath root) with
  | none =>
    cases dir : d.dirs (manifestPath root) with
    | false =>
      simp only [FoundManifest, SavedManifest, held, dir]
      simp [eq_comm]
    | true =>
      simp only [FoundManifest, SavedManifest, held, dir]
      simp [Query.exec_bind_eq_ok, readToString_exec_eq_ok, held]
  | some bytes =>
    simp only [FoundManifest, SavedManifest, held]
    simp [Query.exec_bind_eq_ok, readToString_exec_eq_ok, held]
    grind

theorem load_readOnly : (Manifest.load serde root).ReadOnly := by
  refine Query.ReadOnly.bind (p := pathExists _) ⟨trivial, ?_⟩ fun found => ?_
  · intro r
    cases r <;> trivial
  · by_cases h : found
    · simp only [h]
      exact (readToString_readOnly _).bind fun _ => Query.readOnly_pureStep _
    · simp only [h]
      exact Query.readOnly_pure _

/-- The files a store of the manifest touches. -/
def ManifestFile (root : Path) (q : Path) : Prop := q = manifestTmp root ∨ q = manifestPath root

/-- What an attempt to store `m` leaves: the manifest file is the old one or holds `m`. -/
structure Storing (serde : Serde) (root : Path) (m : Manifest) (d d' : Disk) : Prop where
  off : d.EqOff (ManifestFile root) d'
  dirs : d'.dirs = d.dirs
  file : d'.files (manifestPath root) = d.files (manifestPath root) ∨ SavedManifest serde root d' m

/-- A disk on which only the temporary file has changed. -/
theorem storing_tmp (m : Manifest) (d : Disk) (x : Option Bytes) :
    Storing serde root m d (d.setFile (manifestTmp root) x) where
  off := .setFile (.inl rfl) d x
  dirs := rfl
  file := .inl (Disk.setFile_files_of_ne d x manifestTmp_ne.symm)

theorem Storing.refl (m : Manifest) (d : Disk) : Storing serde root m d d :=
  ⟨.refl _ d, rfl, .inl rfl⟩

/-- The name of the temporary file can be written. -/
theorem hasNul_manifestTmp (root : Path) : (manifestTmp root).hasNul = false := by
  rw [manifestTmp, Path.hasNul_append_singleton]
  decide

/-- The disk after a store of the text. -/
def storedDisk (root : Path) (d : Disk) (text : String) : Disk :=
  (((d.setFile (manifestTmp root) (some (asBytes text))).setFile (manifestTmp root) none).setFile
    (manifestPath root) (some (asBytes text)))

theorem storing_stored (root : Path) {m : Manifest} {text : String}
    (parsed : serde.manifest.fromStr text = .ok m) (d : Disk) :
    Storing serde root m d (storedDisk root d text) ∧
      SavedManifest serde root (storedDisk root d text) m := by
  have saved : SavedManifest serde root (storedDisk root d text) m :=
    ⟨text, Disk.setFile_files_self _ _ _, parsed⟩
  refine ⟨⟨?_, rfl, .inr saved⟩, saved⟩
  exact ((Disk.EqOff.setFile (.inl rfl) d _).trans (.setFile (.inl rfl) _ _)).trans
    (.setFile (.inr rfl) _ _)

theorem store_eq (m : Manifest) (text : String)
    (printed : serde.manifest.toStringPretty m = .ok text) :
    m.store serde root = (do
      Query.io .ofIo (.write (manifestTmp root) (asBytes text))
      Query.io .ofIo (.rename (manifestTmp root) (manifestPath root))) := by
  rw [← join_manifest, ← join_manifestTmp, Manifest.store, printed]
  rfl

/-- Storing the manifest replaces it at once or not at all. -/
theorem store_wp (m : Manifest) (d : Disk) :
    (m.store serde root).wp may
      (fun r d' => Storing serde root m d d' ∧ (r = .ok () → SavedManifest serde root d' m))
      (Storing serde root m d) d := by
  obtain ⟨text, printed, parsed⟩ := serde.manifest.roundTrip m
  obtain ⟨stored, saved⟩ := storing_stored root parsed d
  have written : (Query.io TableError.ofIo (.write (manifestTmp root) (asBytes text))).wp may
      (fun r d' => Storing serde root m d d' ∧
        (r = .ok () → d' = d.setFile (manifestTmp root) (some (asBytes text))))
      (Storing serde root m d) d := by
    have torn : ∀ d', (Call.write (manifestTmp root) (asBytes text)).Torn d d' →
        Storing serde root m d d' := by
      rintro d' (rfl | ⟨-, n, rfl⟩)
      · exact .refl m _
      · exact storing_tmp m d _
    refine Query.wp_io torn ?_ fun e d' _ t => ⟨torn d' t, fun h => by cases h⟩
    by_cases dir : d.dirs (manifestTmp root).dropLast
    · rw [Query.exec_write_eq_ok.mpr ⟨⟨hasNul_manifestTmp root, dir⟩, rfl⟩]
      exact ⟨storing_tmp m d _, fun _ => rfl⟩
    · rw [Query.exec_io, Call.effect, hasNul_manifestTmp, if_neg Bool.false_ne_true, if_neg dir]
      exact ⟨.refl m d, fun h => by cases h⟩
  have moved : (Call.rename (manifestTmp root) (manifestPath root)).effect
      (d.setFile (manifestTmp root) (some (asBytes text))) = (.ok (), storedDisk root d text) := by
    simp [Call.effect, storedDisk]
  have torn : ∀ e, (Call.rename (manifestTmp root) (manifestPath root)).Torn
      (d.setFile (manifestTmp root) (some (asBytes text))) e → Storing serde root m d e := by
    rintro e (rfl | rfl)
    · exact storing_tmp m d _
    · rw [moved]
      exact stored
  rw [store_eq m text printed]
  refine Query.wp_seq written ?_ (fun e d' h => ⟨h.1, fun h => by cases h⟩) fun d' h => h
  rintro ⟨⟩ d' ⟨-, done⟩
  obtain rfl := done rfl
  refine Query.wp_io torn ?_ fun e d'' _ t => ⟨torn d'' t, fun h => by cases h⟩
  rw [Query.exec_io, moved]
  exact ⟨stored, fun _ => saved⟩

theorem store_exec_printed {m : Manifest} {text : String} (dir : d.dirs root = true)
    (printed : serde.manifest.toStringPretty m = .ok text) :
    (m.store serde root).exec d = (.ok (), storedDisk root d text) := by
  have parent : d.dirs (manifestTmp root).dropLast = true := by simpa [manifestTmp] using dir
  have writable := And.intro (hasNul_manifestTmp root) parent
  rw [store_eq m text printed, Query.exec_bind_ok (Query.exec_write_eq_ok.mpr ⟨writable, rfl⟩),
    Query.exec_io_eq_ok]
  simp [Call.effect, storedDisk]

/-- Storing succeeds in an existing directory. -/
theorem store_exec (m : Manifest) (dir : d.dirs root = true) :
    ∃ text, serde.manifest.fromStr text = .ok m ∧
      (m.store serde root).exec d = (.ok (), storedDisk root d text) := by
  obtain ⟨text, printed, parsed⟩ := serde.manifest.roundTrip m
  exact ⟨text, parsed, store_exec_printed dir printed⟩

/-! ## Reading the log again -/

/-- Opening a reader on an existing log changes nothing. -/
theorem openReader_wp {path : Path} {bytes : Bytes} (held : d.files path = some bytes) :
    (WalReader.openReader path).wp may (fun r d' => d' = d ∧ ∀ p, r = .ok p → p = path)
      (fun d' => d' = d) d := by
  have regular : (Call.openAppend path).effect d = (.ok (), d) := by
    simp [Call.effect, held]
  have torn : ∀ d', (Call.openAppend path).Torn d d' → d' = d := by
    rintro d' (rfl | rfl)
    · rfl
    · rw [regular]
  refine Query.wp_seq (R := fun _ d' => d' = d) (D := fun d' => d' = d) ?_ ?_ ?_ fun _ h => h
  · refine Query.wp_io torn ?_ fun e d' _ t => torn d' t
    rw [Query.exec_io, regular]
  · rintro a d' rfl
    exact ⟨rfl, fun p h => (Except.ok.inj h).symm⟩
  · exact fun e d' h => ⟨h, fun p h => by cases h⟩

theorem records_readOnly (path : Path) : (WalReader.records path).ReadOnly :=
  Query.readOnly_io_bind trivial fun _ => Query.readOnly_io_bind trivial fun _ =>
    (Query.readOnly_pureStep _).bind fun _ => Query.readOnly_pure _

theorem records_strict (path : Path) : (WalReader.records path).Strict :=
  (Query.strict_io _ _).bind fun _ => (Query.strict_io _ _).bind fun _ =>
    (Query.strict_pureStep _).bind fun _ => Query.strict_pure _

theorem records_exec_eq_ok {path : Path} {records : List WalRecord} :
    (WalReader.records path).exec d = (.ok records, d') ↔
      d' = d ∧ ∃ bytes tail, d.files path = some bytes ∧ readLog bytes = .ok (records, tail) := by
  unfold WalReader.records
  constructor
  · intro h
    obtain ⟨⟨⟩, d₁, opened, afterOpen⟩ := Query.exec_bind_eq_ok.mp h
    obtain ⟨bytes, d₂, read, afterRead⟩ := Query.exec_bind_eq_ok.mp afterOpen
    obtain ⟨held, rfl⟩ := Query.exec_read_eq_ok.mp read
    obtain ⟨⟨found, tail⟩, log, done⟩ := Query.exec_pureStep_bind_eq_ok.mp afterRead
    obtain ⟨rfl, rfl⟩ := Query.exec_pure_eq_ok.mp done
    have same : d' = d := by
      rw [Query.exec_io_eq_ok, Call.effect] at opened
      split at opened <;> cases opened
      rfl
    exact ⟨same, bytes, tail, same ▸ held, ofResult_eq_ok.mp log⟩
  · rintro ⟨rfl, bytes, tail, held, log⟩
    have opened : (Query.io WalError.ofIo (.openRead path)).exec d' = (.ok (), d') := by
      rw [Query.exec_io_eq_ok, Call.effect, held]
    rw [Query.exec_bind_ok opened, Query.exec_bind_ok (Query.exec_read_eq_ok.mpr ⟨held, rfl⟩), log]
    rfl

/-- Reading an existing log again changes nothing and finds its records. -/
theorem readRecords_wp {path : Path} {bytes : Bytes} (held : d.files path = some bytes) :
    (readRecords path).wp may
      (fun r d' => d' = d ∧ ∀ records, r = .ok records → ∃ tail, readLog bytes = .ok (records, tail))
      (fun d' => d' = d) d := by
  have opened : ((WalReader.openReader path).mapErr TableError.wal).wp may
      (fun r d' => d' = d ∧ ∀ p, r = .ok p → p = path) (fun d' => d' = d) d := by
    refine Query.wp_mapErr.mpr (Query.wp_mono (openReader_wp held) ?_ fun _ h => h)
    rintro (e | p) d' ⟨rfl, same⟩
    · cases e <;> exact ⟨rfl, fun p h => by cases h⟩
    · exact ⟨rfl, fun q h => (Except.ok.inj h) ▸ same p rfl⟩
  refine Query.wp_seq opened ?_ (fun e d' h => ⟨h.1, fun _ h => nomatch h⟩) fun _ h => h
  rintro p d' ⟨rfl, same⟩
  obtain rfl := same p rfl
  refine Query.wp_mono (((records_readOnly p).mapErr).wp (records_strict p).mapErr d') ?_
    fun _ h => h
  rintro r d'' ⟨rfl, exec⟩
  refine ⟨rfl, fun records h => ?_⟩
  have run := exec records h
  obtain ⟨-, bytes', tail, held', log⟩ := records_exec_eq_ok.mp (Query.exec_mapErr_eq_ok.mp run)
  obtain rfl := Option.some.inj (held.symm.trans held')
  exact ⟨tail, log⟩

/-! ## Sealing -/

/-- Sealing touches the new directory alone, and a sealed batch is stored. -/
theorem sealBatch_wp {id : UInt64} {b : RowBatch} (ok : b.WellFormed schema)
    (nonempty : b.rowCount ≠ 0) (d : Disk) :
    (sealBatch serde root schema id b).wp may
      (fun r d' => d.EqOff (InSegment root id) d' ∧ ∀ segment, r = .ok segment →
        Stored serde root schema d' segment b ∧ segment.id = id ∧
          d'.dirs (segmentDir root id) = true ∧ segment.info.columns.map (·.name) = schema.names)
      (fun d' => d.EqOff (InSegment root id) d') d := by
  refine Query.wp_mono ((sealBatch_confined id b).wp (sealBatch_strict id b) d) ?_ fun _ h => h
  rintro r d' ⟨off, exec⟩
  exact ⟨off, fun segment h => sealBatch_exec ok nonempty (exec segment h)⟩

/-! ## Steps on the handle -/

namespace Table

variable {t : Table}

/-- The segment `segment` has been sealed from `b` under the next id. -/
structure NewSegment (serde : Serde) (root : Path) (schema : Schema) (m : Manifest) (b : RowBatch)
    (d : Disk) (segment : ImmutableSegment) : Prop where
  stored : Stored serde root schema d segment b
  id : segment.id = m.nextSegmentId
  room : m.nextSegmentId.toNat + 1 < 2 ^ 64
  dir : d.dirs (segmentDir root m.nextSegmentId) = true
  names : segment.info.columns.map (·.name) = schema.names

theorem bumpSegmentId_wp :
    bumpSegmentId.wp may
      (fun r t' d' => d' = d ∧ ((∃ e, r = .error e ∧ t' = t) ∨
        r = .ok () ∧ t.manifest.nextSegmentId.toNat + 1 < 2 ^ 64 ∧
        t' = { t with manifest :=
          { t.manifest with nextSegmentId := t.manifest.nextSegmentId + 1 } }))
      (fun _ => False) t d := by
  unfold bumpSegmentId
  refine Method.wp_get_bind.mpr ?_
  cases found : checkedAdd64 t.manifest.nextSegmentId 1 with
  | none => exact ⟨rfl, .inl ⟨_, rfl, rfl⟩⟩
  | some next =>
    obtain ⟨room, rfl⟩ := checkedAdd64_eq_some.mp found
    exact ⟨rfl, .inr ⟨rfl, room, rfl⟩⟩

theorem storeManifest_wp (path : t.path = root) :
    (storeManifest serde).wp may
      (fun r t' d' => t' = t ∧ Storing serde root t.manifest d d' ∧
        (r = .ok () → SavedManifest serde root d' t.manifest))
      (Storing serde root t.manifest d) t d := by
  unfold storeManifest
  refine Method.wp_get_bind.mpr (Method.wp_query.mpr ?_)
  rw [path]
  exact Query.wp_mono (store_wp t.manifest d) (fun _ _ h => ⟨rfl, h⟩) fun _ h => h

/-- A synchronised log is the same log. -/
theorem sync_wp : (t.wal.sync.mapErr TableError.wal).wp may (fun _ d' => d' = d) (fun d' => d' = d)
    d := Query.wp_mapErr.mpr (Query.wp_io (fun _ t => t) rfl fun _ _ _ t => t)

/-- What `flush` and `compact` may write: the directory of the next segment and the manifest. -/
def Owned (root : Path) (id : UInt64) (q : Path) : Prop := InSegment root id q ∨ ManifestFile root q

theorem owned {id : UInt64} {m : Manifest} {d₀ : Disk} (off : d₀.EqOff (InSegment root id) d)
    (s : Storing serde root m d d') : d₀.EqOff (Owned root id) d' :=
  (off.mono fun _ => .inl).trans (s.off.mono fun _ => .inr)

/-- After a store attempt the sealed segment is still there. -/
theorem NewSegment.storing {m stored : Manifest} {b : RowBatch} {segment : ImmutableSegment}
    (h : NewSegment serde root schema m b d segment) (s : Storing serde root stored d d') :
    NewSegment serde root schema m b d' segment := by
  refine { h with
    stored := h.stored.frame fun q hq => s.off.files q ?_
    dir := s.off.dirs _ ?_ h.dir }
  · rintro (rfl | rfl)
    · exact manifestTmp_not_inSegment _ hq
    · exact manifestPath_not_inSegment _ hq
  · rintro (tmp | file)
    · exact manifestTmp_not_inSegment m.nextSegmentId (by rw [InSegment, tmp])
    · exact manifestPath_not_inSegment m.nextSegmentId (by rw [InSegment, file])

end Table

end BypassIo.Db
