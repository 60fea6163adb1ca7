import BypassIo.Db.Json
import BypassIo.Db.Progress
import BypassIo.Db.ScanTable

/-!
# Runs of a table

`Life` is a directory over its whole life: opened, used, dropped, killed inside a call and
opened again. `Reach` is the part of it without kills. The ghost component is the log of
acknowledged batches. `Life.inv` shows that an open table is always `Clean`: memory and
disk agree with the log and with each other.
-/

namespace BypassIo.Db
open Octet Rust FileSystem Columns

/-- No file and no directory below the root. -/
def Fresh (root : Path) (d : Disk) : Prop :=
  ∀ q, root <+: q → q ≠ root → d.files q = none ∧ d.dirs q = false

section Relations

variable (serde : Serde) (root : Path) (schema : Schema)

/-- A directory with the handle that is open on it, and the batches acknowledged so far. -/
inductive Life : Disk → Option Table → List RowBatch → Prop where
  | fresh {d} : Fresh root d → Life d none []
  | opened {d d' t log} : Life d none log →
      (Table.openTable serde root schema).exec d = (.ok t, d') → Life d' (some t) log
  | openKilled {d d' log} : Life d none log →
      Prog.Crashes (Table.openTable serde root schema).run d d' → Life d' none log
  | append {d d' t t' log b n} : Life d (some t) log → Built b →
      (Table.append b).exec t d = ((.ok n, t'), d') → Life d' (some t') (log ++ [b])
  | flush {d d' t t' log} : Life d (some t) log →
      (Table.flush serde).exec t d = ((.ok (), t'), d') → Life d' (some t') log
  | flushKilled {d d' t log} : Life d (some t) log →
      Prog.Crashes ((Table.flush serde).start t) d d' → Life d' none log
  | compact {d d' t t' log} (ids : List UInt64) : Life d (some t) log →
      (Table.compact serde ids).exec t d = ((.ok (), t'), d') → Life d' (some t') log
  | compactKilled {d d' t log} (ids : List UInt64) : Life d (some t) log →
      Prog.Crashes ((Table.compact serde ids).start t) d d' → Life d' none log
  | dropped {d t log} : Life d (some t) log → Life d none log

/-- A table reached by successful operations, with the batches appended to it. -/
inductive Reach : Disk → Table → List RowBatch → Prop where
  | opened {d d' t} : Fresh root d →
      (Table.openTable serde root schema).exec d = (.ok t, d') → Reach d' t []
  | append {d d' t t' log b n} : Reach d t log → Built b →
      (Table.append b).exec t d = ((.ok n, t'), d') → Reach d' t' (log ++ [b])
  | flush {d d' t t' log} : Reach d t log →
      (Table.flush serde).exec t d = ((.ok (), t'), d') → Reach d' t' log
  | compact {d d' t t' log} (ids : List UInt64) : Reach d t log →
      (Table.compact serde ids).exec t d = ((.ok (), t'), d') → Reach d' t' log
  | reopened {d d' t t' log} : Reach d t log →
      (Table.openTable serde root schema).exec d = (.ok t', d') → Reach d' t' log

end Relations

variable {serde : Serde} {root : Path} {schema : Schema} {d d' : Disk} {t t' : Table}
  {log : List RowBatch}

theorem Reach.life (h : Reach serde root schema d t log) : Life serde root schema d (some t) log := by
  induction h with
  | opened fresh run => exact .opened (.fresh fresh) run
  | append _ built run ih => exact .append ih built run
  | flush _ run ih => exact .flush ih run
  | compact ids _ run ih => exact .compact ids ih run
  | reopened _ run ih => exact .opened (.dropped ih) run

/-! ## The invariant of an open table -/

/-- An open table whose manifest is the stored one and lists exactly what it has sealed. -/
structure Clean (serde : Serde) (root : Path) (schema : Schema) (d : Disk) (t : Table)
    (log : List RowBatch) (segs : Segments) : Prop where
  handle : Handle serde root schema d t log t.manifest.walRecordsApplied segs
  lists : Lists serde root schema d log t.manifest segs
  saved : SavedManifest serde root d t.manifest

theorem Fresh.durable (h : Fresh root d) : Durable serde root schema d [] := by
  have wal := (h (walPath root) (List.prefix_append _ _) (by simp [walPath])).1
  have manifest := h (manifestPath root) (List.prefix_append _ _) (by simp [manifestPath])
  refine ⟨⟨by simp, ⟨[], .nil, ?_⟩, ?_⟩, .new, [], .inr ⟨manifest.1, manifest.2, rfl⟩, rfl, ?_⟩
  · simp [walBytes, wal]
  · simp [walBytes, wal]
  · exact ⟨by simp [AllStored], by simp, by simp, Nat.le_refl _, by simp [Segments.rows, logRows]⟩

namespace Clean

variable {segs : Segments}

theorem synced (h : Clean serde root schema d t log segs) :
    Synced serde root schema d t.manifest log t.manifest.walRecordsApplied segs := ⟨h.lists, rfl⟩

/-- Opening a durable disk. -/
theorem opened {m : Manifest} (holdsLog : HoldsLog root schema d log)
    (found : FoundManifest serde root d m) (lists : Lists serde root schema d log m segs) :
    ∃ t d', (Table.openTable serde root schema).exec d = (.ok t, d') ∧ t.manifest = m ∧
      Clean serde root schema d' t log segs := by
  obtain ⟨t, run, manifest, saved, lists, handle⟩ :=
    Query.wp_exec (openTable_wp ⟨holdsLog, found, lists⟩)
  subst manifest
  exact ⟨t, _, Prod.ext run rfl, rfl, handle, lists, saved⟩

theorem append {b : RowBatch} {n : Nat} (h : Clean serde root schema d t log segs)
    (built : Built b) (run : (Table.append b).exec t d = ((.ok n, t'), d')) :
    Clean serde root schema d' t' (log ++ [b]) segs := by
  have handle := h.handle.append built run
  have manifest := (Table.append_keeps run).1
  have frame := Table.append_frame run
  rw [congrArg WalWriter.path h.handle.wal] at frame
  rw [← manifest] at handle
  refine ⟨handle, ?_, ?_⟩ <;> rw [manifest]
  · exact (h.lists.frame fun id q hq => frame q (segment_ne_wal hq)).extend _
  · exact h.saved.frame (frame _ walPath_ne_manifest.symm)

/-- A flush does nothing, or it seals the active batch behind the other segments. -/
theorem flush_cases (h : Clean serde root schema d t log segs)
    (run : (Table.flush serde).exec t d = ((.ok (), t'), d')) :
    (t.active.rowCount = 0 ∧ t' = t ∧ d' = d) ∨
      ∃ segment, Clean serde root schema d' t' log (segs ++ [(segment, t.active)]) ∧
        t'.manifest = t.manifest.advance segment log.length ∧
        Table.NewSegment serde root schema t.manifest t.active d' segment ∧
        d.EqOff (Table.Owned root t.manifest.nextSegmentId) d' := by
  have ended := Method.wp_exec (h.handle.flush_wp NoFaults)
  rw [run] at ended
  rcases ended with idle | _ | _ | _ | ⟨some_row, eqOff, new, saved⟩
  · exact .inl ⟨idle, rfl, rfl⟩
  · have lists := (h.handle.lists_advance h.synced eqOff new).lists
    exact .inr ⟨_, ⟨h.handle.flushed h.synced eqOff new saved, lists, saved⟩, rfl, new, eqOff⟩

/-- A compaction does nothing, or one new segment stands for the requested ones. -/
theorem compact_cases {ids : List UInt64} (h : Clean serde root schema d t log segs)
    (run : (Table.compact serde ids).exec t d = ((.ok (), t'), d')) :
    (ids = [] ∧ t' = t ∧ d' = d) ∨
      ∃ new : ImmutableSegment × RowBatch,
        Clean serde root schema d' t' log (segs.replace ids new) ∧
        new.2.rows = (segs.selected ids).rows ∧ t'.active = t.active := by
  have ended := Method.wp_exec (h.handle.compact_wp NoFaults ids)
  rw [run] at ended
  rcases ended with idle | _ | _ | ⟨nonempty, eqOff, replaced, saved⟩
  · exact .inl ⟨idle, rfl, rfl⟩
  · have lists := (h.handle.lists_relist rfl eqOff replaced).lists
    have committed := h.handle.committed rfl eqOff replaced saved
    obtain ⟨new, -, rows, -, rfl⟩ := replaced
    exact .inr ⟨new, ⟨committed, lists, saved⟩, rows, rfl⟩

theorem flush (h : Clean serde root schema d t log segs)
    (run : (Table.flush serde).exec t d = ((.ok (), t'), d')) :
    ∃ segs', Clean serde root schema d' t' log segs' := by
  rcases h.flush_cases run with ⟨-, rfl, rfl⟩ | ⟨segment, flushed, -⟩
  · exact ⟨segs, h⟩
  · exact ⟨_, flushed⟩

theorem compact {ids : List UInt64} (h : Clean serde root schema d t log segs)
    (run : (Table.compact serde ids).exec t d = ((.ok (), t'), d')) :
    ∃ segs', Clean serde root schema d' t' log segs' := by
  rcases h.compact_cases run with ⟨-, rfl, rfl⟩ | ⟨new, compacted, -⟩
  · exact ⟨segs, h⟩
  · exact ⟨_, compacted⟩

end Clean

/-- What holds over the life of a directory: an open table is clean, a closed one durable. -/
theorem Life.inv {s : Option Table} (h : Life serde root schema d s log) :
    match s with
    | some t => ∃ segs, Clean serde root schema d t log segs
    | none => Durable serde root schema d log := by
  induction h with
  | fresh fresh => exact fresh.durable
  | opened _ run ih =>
    obtain ⟨holdsLog, m, segs, found, lists⟩ := ih
    obtain ⟨t, d', exec, -, clean⟩ := Clean.opened holdsLog found lists
    obtain ⟨rfl, rfl⟩ : t = _ ∧ d' = _ := by simpa using exec.symm.trans run
    exact ⟨segs, clean⟩
  | openKilled _ crash ih =>
    obtain ⟨holdsLog, m, segs, found, lists⟩ := ih
    exact (Prog.wp_crashes (openTable_wp ⟨holdsLog, found, lists⟩) crash).durable
  | append _ built run ih =>
    obtain ⟨segs, clean⟩ := ih
    exact ⟨segs, clean.append built run⟩
  | flush _ run ih =>
    obtain ⟨segs, clean⟩ := ih
    exact clean.flush run
  | flushKilled _ crash ih =>
    obtain ⟨segs, clean⟩ := ih
    exact clean.handle.flushCrash (fun _ => clean.synced)
      (Prog.wp_crashes (clean.handle.flush_wp NoFaults) crash)
  | compact ids _ run ih =>
    obtain ⟨segs, clean⟩ := ih
    exact clean.compact run
  | compactKilled ids _ crash ih =>
    obtain ⟨segs, clean⟩ := ih
    exact clean.handle.compactCrash (fun _ => rfl)
      (Prog.wp_crashes (clean.handle.compact_wp NoFaults ids) crash)
  | dropped _ ih =>
    obtain ⟨segs, clean⟩ := ih
    exact clean.handle.durable

theorem Reach.clean (h : Reach serde root schema d t log) :
    ∃ segs, Clean serde root schema d t log segs := h.life.inv

/-- A directory where nothing has been opened yet opens as an empty table. -/
theorem Fresh.opens (serde : Serde) (schema : Schema) (h : Fresh root d) :
    ∃ t d', (Table.openTable serde root schema).exec d = (.ok t, d') ∧ t.manifest = .new ∧
      Clean serde root schema d' t [] [] := by
  have durable : Durable serde root schema d [] := h.durable
  have manifest := h (manifestPath root) (List.prefix_append _ _) (by simp [manifestPath])
  refine Clean.opened durable.holdsLog (.inr ⟨manifest.1, manifest.2, rfl⟩) ⟨rfl, ?_⟩
  exact ⟨by simp [AllStored], by simp, by simp, Nat.le_refl _, by simp [Segments.rows, logRows]⟩

def emptyDisk : Disk := ⟨fun _ => none, fun _ => false⟩

theorem emptyDisk_fresh (root : Path) : Fresh root emptyDisk := fun _ _ _ => ⟨rfl, rfl⟩

/-! ## Batches sealed one by one -/

/-- A batch that fits any log of a thousand such batches. -/
structure Small (schema : Schema) (b : RowBatch) : Prop where
  built : Built b
  wellFormed : b.WellFormed schema
  nonempty : b.rowCount ≠ 0
  encoded : ∃ payload, encodeBatch b = .ok payload ∧ payload.length ≤ 1000

theorem length_frames_le {records : List WalRecord} (small : ∀ b ∈ log, Small schema b)
    (logged : List.Forall₂ Logged log records) :
    (frames records).length ≤ log.length * (headerLen + 1000 + trailerLen) := by
  induction logged with
  | nil => simp
  | @cons b r log records here _ ih =>
    obtain ⟨payload, encoded, size⟩ := (small b List.mem_cons_self).encoded
    obtain rfl : r.payload = payload := Except.ok.inj (here.1.symm.trans encoded)
    have rest := ih fun b hb => small b (List.mem_cons_of_mem _ hb)
    rw [frames_cons, List.length_append, WalRecord.length_frame, List.length_cons, Nat.add_mul]
    omega

/-- A clean table takes one more small batch. -/
theorem Clean.append_small {segs : Segments} {b : RowBatch}
    (h : Clean serde root schema d t log segs) (small : ∀ b ∈ log, Small schema b)
    (few : log.length ≤ 1000) (ok : Small schema b) :
    ∃ t' d', (Table.append b).exec t d = ((.ok b.rowCount, t'), d') := by
  obtain ⟨payload, encoded, size⟩ := ok.encoded
  obtain ⟨records, logged, bytes⟩ := h.handle.holdsLog.records
  have short := length_frames_le small logged
  rw [← bytes] at short
  apply h.handle.append_succeeds ok.wellFormed encoded
  · exact size.trans (by decide)
  · omega
  · have total := Nat.mul_le_mul_right (headerLen + 1000 + trailerLen) few
    unfold headerLen trailerLen maxFileLen at *
    omega

/-- Small batches, each appended and flushed: every one is a segment of its own, in order. -/
theorem sealed_one_by_one (serde : Serde) (root : Path) (names : schema.Nameable)
    (small : ∀ b ∈ log, Small schema b) (few : log.length ≤ 1000) :
    ∃ d t segs, Reach serde root schema d t log ∧ Clean serde root schema d t log segs ∧
      t.manifest.nextSegmentId = UInt64.ofNat (log.length + 1) ∧
      t.manifest.walRecordsApplied = log.length ∧
      segs.map (fun s => (s.1.id, s.2.rows)) =
        (log.zipIdx 1).map (fun b => (UInt64.ofNat b.2, b.1.rows)) ∧
      ∀ s ∈ segs, d.dirs (segmentDir root s.1.id) = true := by
  induction log using List.reverseRecOn with
  | nil =>
    obtain ⟨t, d, opened, new, clean⟩ := (emptyDisk_fresh root).opens serde schema
    exact ⟨d, t, [], .opened (emptyDisk_fresh root) opened, clean, by rw [new]; rfl,
      by rw [new]; rfl, rfl, by simp⟩
  | append_singleton log b ih =>
    rw [List.length_append, List.length_singleton] at few
    have before : ∀ b ∈ log, Small schema b := fun b hb => small b (List.mem_append_left _ hb)
    have ok := small b (by simp)
    obtain ⟨d, t, segs, reach, clean, next, applied, pairs, dirs⟩ := ih before (by omega)
    obtain ⟨t₁, d₁, appended⟩ := clean.append_small before (by omega) ok
    have clean₁ := clean.append ok.built appended
    have manifest := (Table.append_keeps appended).1
    have off := Table.append_eqOff appended
    rw [congrArg WalWriter.path clean.handle.wal] at off
    have active : t₁.active.rows = b.rows := by
      rw [clean₁.handle.activeOk.2, manifest, applied]
      simp [logRows]
    have some_row : t₁.active.rowCount ≠ 0 := by
      intro zero
      rw [clean₁.handle.activeOk.1.rows_eq_nil.mpr zero] at active
      exact ok.nonempty (ok.wellFormed.rows_eq_nil.mp active.symm)
    have size : t₁.manifest.nextSegmentId.toNat = log.length + 1 := by
      rw [manifest, next]
      exact UInt64.toNat_ofNat_of_lt' (by simp [UInt64.size]; omega)
    obtain ⟨t₂, d₂, flushed⟩ := clean₁.handle.flush_succeeds names (by omega)
    rcases clean₁.flush_cases flushed with ⟨idle, -⟩ | ⟨segment, clean₂, advanced, new, owned⟩
    · exact absurd idle some_row
    refine ⟨d₂, t₂, _, .flush (.append reach ok.built appended) flushed, clean₂, ?_, ?_, ?_, ?_⟩
    · rw [advanced, List.length_append]
      change t₁.manifest.nextSegmentId + 1 = _
      rw [manifest, next]
      simp
    · rw [advanced]
      rfl
    · rw [List.map_append, pairs, List.zipIdx_append, List.map_append]
      simp [active, new.id, manifest, next, UInt64.add_comm]
    · intro s hs
      rcases List.mem_append.mp hs with old | added
      · have lt := clean₁.handle.holds.below s old
        refine owned.dirs _ ?_ (off.dirs _ (segment_ne_wal (List.prefix_refl _)) (dirs s old))
        rintro (inside | file)
        · rw [inSegment_unique (List.prefix_refl _) inside] at lt
          exact UInt64.lt_irrefl _ lt
        · exact segment_not_manifest (List.prefix_refl _) file
      · obtain rfl := List.mem_singleton.mp added
        rw [new.id]
        exact new.dir

/-- Some of the segments of small batches are compacted. -/
theorem compacted_one_by_one (serde : Serde) (root : Path) (names : schema.Nameable)
    (small : ∀ b ∈ log, Small schema b) (few : log.length ≤ 1000) (ids : List UInt64)
    (known : ∀ id ∈ ids, ∃ i < log.length, id = UInt64.ofNat (1 + i)) :
    ∃ d t segs t' d', Reach serde root schema d t log ∧ Clean serde root schema d t log segs ∧
      segs.map (fun s => (s.1.id, s.2.rows)) =
        (log.zipIdx 1).map (fun b => (UInt64.ofNat b.2, b.1.rows)) ∧
      (Table.compact serde ids).exec t d = ((.ok (), t'), d') := by
  obtain ⟨d, t, segs, reach, clean, next, -, pairs, dirs⟩ :=
    sealed_one_by_one serde root names small few
  have fits := clean.handle.fits.mono (Nat.le_add_right segs.rowCount _)
  have present : ∀ id ∈ ids, ∃ s ∈ segs.map Prod.fst, s.id = id := by
    intro id mem
    obtain ⟨i, lt, rfl⟩ := known id mem
    have same := congrArg (·[i]?) pairs
    simp only [List.getElem?_map, List.getElem?_zipIdx, List.getElem?_eq_getElem lt,
      Option.map_some] at same
    obtain ⟨s, hs, pair⟩ := Option.map_eq_some_iff.mp same
    exact ⟨s.1, List.mem_map_of_mem (List.mem_of_getElem? hs), congrArg Prod.fst pair⟩
  obtain ⟨t', d', run⟩ := Table.compact_succeeds clean.handle.path clean.handle.schema_eq
    clean.handle.sealed (clean.handle.holds.stored.read fits ids) fits names clean.handle.rootDir
    (by rw [next, UInt64.toNat_ofNat_of_lt' (by simp [UInt64.size]; omega)]; omega)
    clean.handle.holds.below present dirs
  exact ⟨d, t, segs, t', d', reach, clean, pairs, run⟩

/-! ## A small table -/

/-- A table of timestamps. -/
def tickSchema : Schema where
  name := "ticks"
  columns := [tsColumn]
  timestampColumnIdx := 0
  name_ne := by decide
  nodup := by decide
  only_timestamp := .of_types (by decide) (by decide)

def tick : RowBatch := ⟨[("ts", .timestamp [7])], 1⟩

theorem tick_built : Built tick := ⟨⟨tickSchema, tick.columns⟩, rfl⟩

theorem tick_wellFormed : tick.WellFormed tickSchema :=
  RowBatchBuilder.build_wellFormed (b := ⟨tickSchema, tick.columns⟩) rfl

theorem tickSchema_nameable : tickSchema.Nameable := by
  intro column hc
  obtain rfl := List.mem_singleton.mp hc
  exact ⟨by decide, "ts.col", by decide⟩

/-- A run that opens the table and appends one row. -/
theorem tick_appended (serde : Serde) (root : Path) :
    ∃ d t, Reach serde root tickSchema d t [tick] ∧ t.manifest = .new ∧ t.active.rowCount = 1 := by
  obtain ⟨t, d, opened, new, clean⟩ := (emptyDisk_fresh root).opens serde tickSchema
  obtain ⟨payload, encoded, size⟩ :
      ∃ payload, encodeBatch tick = .ok payload ∧ payload.length ≤ 64 := ⟨_, rfl, by decide⟩
  have none_yet : walBytes root d = [] := by
    obtain ⟨records, logged, bytes⟩ := clean.handle.holdsLog.records
    cases logged
    exact bytes
  obtain ⟨t', d', appended⟩ := clean.handle.append_succeeds tick_wellFormed encoded
    (by unfold u32Max; omega) (by simp)
    (by rw [none_yet, List.length_nil]; unfold maxFileLen headerLen trailerLen; omega)
  have reach : Reach serde root tickSchema d' t' [tick] :=
    .append (.opened (emptyDisk_fresh root) opened) tick_built appended
  have manifest := (Table.append_keeps appended).1.trans new
  obtain ⟨segs, clean'⟩ := reach.clean
  obtain ⟨ok, rows⟩ := clean'.handle.activeOk
  refine ⟨d', t', reach, manifest, ?_⟩
  rw [← ok.length_rows, rows, manifest]
  rfl

/-- A run that opens the table, appends one row, flushes and opens again. -/
theorem tick_reopened (serde : Serde) (root : Path) :
    ∃ d t, Reach serde root tickSchema d t [tick] := by
  obtain ⟨d, t, reach, new, -⟩ := tick_appended serde root
  obtain ⟨segs, clean⟩ := reach.clean
  obtain ⟨t', d', flushed⟩ := clean.handle.flush_succeeds tickSchema_nameable
    (by rw [new]; decide)
  have reach' : Reach serde root tickSchema d' t' [tick] := .flush reach flushed
  obtain ⟨segs', clean'⟩ := reach'.clean
  obtain ⟨t'', d'', opened, -⟩ :=
    Clean.opened clean'.handle.holdsLog (.inl clean'.saved) clean'.lists
  exact ⟨d'', t'', .reopened reach' opened⟩

end BypassIo.Db
