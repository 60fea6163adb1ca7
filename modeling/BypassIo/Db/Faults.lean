import BypassIo.Db.Load
import BypassIo.Db.Reopen

/-!
# Flushes and compactions that fail

In a `Faulty` run any call inside `flush` and `compact` may fail, and the handle is used
further. Both operations change the manifest in memory before they store it, so a failed one
can leave a handle out of step, and a later one can store that manifest: a retried flush
seals the active rows twice (`flush_retried`). `faults_recovered` shows that nothing is lost
or doubled as long as no operation starts on a handle that is out of step in the way that
matters to it (`Safe`).
-/

namespace BypassIo.Db
open Octet Rust FileSystem Columns

inductive Op where
  | append (rows : RowBatch)
  | flush
  | compact (segmentIds : List UInt64)
  | reopen

/-- Rows of the segments that the manifest in memory lists. -/
def Table.listedRows (t : Table) : Nat := (t.manifest.sealedSegments.map (·.rowCount)).sum

/-- Rows of the segments that scans read. -/
def Table.sealedRows (t : Table) : Nat := (t.sealed.map (·.info.rowCount)).sum

/-- Rows that a replay from the boundary in memory finds in the log. -/
def Table.unsealedRows (d : Disk) (t : Table) : Nat :=
  match (recoverBatchesAfter t.schema t.wal.path t.manifest.walRecordsApplied).exec d with
  | (.ok batches, _) => (batches.map (·.rowCount)).sum
  | (.error _, _) => 0

/-- A flush with rows starts with as many rows listed as sealed; a compaction of known
segments starts with a boundary behind which the log holds as many rows as are active. -/
def Safe (d : Disk) (t : Table) : Op → Prop
  | .append _ | .reopen => True
  | .flush => t.active.rowCount = 0 ∨ t.listedRows = t.sealedRows
  | .compact segmentIds => segmentIds = [] ∨ Table.missingIds segmentIds t.sealed ≠ [] ∨
      Table.unsealedRows d t = t.active.rowCount

section Relation

variable (serde : Serde) (root : Path) (schema : Schema) (allowed : Disk → Table → Op → Prop)

/-- A run of allowed operations in which any call inside `flush` and `compact` may fail. -/
inductive Faulty : Disk → Table → List RowBatch → Prop where
  | opened {d d' t} : Fresh root d →
      (Table.openTable serde root schema).exec d = (.ok t, d') → Faulty d' t []
  | append {d d' t t' log b n} : Faulty d t log → allowed d t (.append b) → Built b →
      (Table.append b).exec t d = ((.ok n, t'), d') → Faulty d' t' (log ++ [b])
  | flush {d d' t t' log r} : Faulty d t log → allowed d t .flush →
      (Table.flush serde).Runs (fun _ => True) t d r t' d' → Faulty d' t' log
  | compact {d d' t t' log r} (ids : List UInt64) : Faulty d t log → allowed d t (.compact ids) →
      (Table.compact serde ids).Runs (fun _ => True) t d r t' d' → Faulty d' t' log
  | reopened {d d' t t' log} : Faulty d t log → allowed d t .reopen →
      (Table.openTable serde root schema).exec d = (.ok t', d') → Faulty d' t' log

end Relation

variable {serde : Serde} {root : Path} {schema : Schema} {d d' : Disk} {t t' : Table}
  {log : List RowBatch} {k : Nat} {segs listed : Segments}

/-! ## Handles that can be out of step -/

/-- Rows of the log behind the boundary in memory. -/
def Table.behind (t : Table) (log : List RowBatch) : Nat :=
  ((log.drop t.manifest.walRecordsApplied).map (·.rowCount)).sum

/-- How far the manifest in memory can be from what the handle has sealed. -/
inductive InStep (serde : Serde) (root : Path) (schema : Schema) (d : Disk) (t : Table)
    (log : List RowBatch) (k : Nat) : Prop where
  /-- It lists the sealed rows, in these segments or in others. -/
  | synced {listed : Segments} : Synced serde root schema d t.manifest log k listed →
      InStep serde root schema d t log k
  /-- A failed flush has listed the active rows. -/
  | pushed : t.manifest.walRecordsApplied = k → t.listedRows ≠ t.sealedRows →
      InStep serde root schema d t log k
  /-- A failed flush has listed the active rows and moved the boundary past them. -/
  | advanced : t.manifest.walRecordsApplied ≤ log.length → t.listedRows ≠ t.sealedRows →
      t.behind log < t.active.rowCount → InStep serde root schema d t log k

namespace Handle

/-- The replay from the boundary in memory. -/
theorem unsealedRows (h : Handle serde root schema d t log k segs) :
    Table.unsealedRows d t = t.behind log := by
  have walAt : t.wal.path = walPath root := congrArg WalWriter.path h.wal
  obtain ⟨bytes, held⟩ := Option.isSome_iff_exists.mp h.walFile
  obtain ⟨records, read, logged⟩ := h.holdsLog.readLog
  rw [walBytes, held, Option.getD_some] at read
  have opened : ((WalReader.openReader (walPath root)).mapErr TableError.wal).exec d =
      (.ok (walPath root), d) := by
    refine Query.exec_mapErr_eq_ok.mpr (Query.exec_bind_eq_ok.mpr ⟨(), d, ?_, rfl⟩)
    rw [Query.exec_io_eq_ok, Call.effect, held]
  have found : (readRecords (walPath root)).exec d = (.ok records, d) := by
    rw [readRecords, Query.exec_bind_ok opened]
    exact Query.exec_mapErr_eq_ok.mpr (records_exec_eq_ok.mpr ⟨rfl, bytes, [], held, read⟩)
  have decoded := decode_of_logged
    (fun b hb => h.holdsLog.wellFormed b (List.mem_of_mem_drop hb))
    (List.forall₂_drop t.manifest.walRecordsApplied logged)
  rw [Table.unsealedRows, h.schema_eq, walAt, recoverBatchesAfter, Query.exec_bind_ok found,
    decoded]
  rfl

/-- A handle whose boundary has not moved has its active rows behind it. -/
theorem behind_eq (h : Handle serde root schema d t log k segs)
    (boundary : t.manifest.walRecordsApplied = k) : t.behind log = t.active.rowCount := by
  rw [h.rowCount_active, Table.behind, boundary]

/-- A handle on a disk where only the next segment has changed. -/
theorem off_segment (h : Handle serde root schema d t log k segs)
    (eqOff : d.EqOff (InSegment root t.manifest.nextSegmentId) d') :
    Handle serde root schema d' t log k segs := by
  have owned : d.EqOff (Table.Owned root t.manifest.nextSegmentId) d' :=
    eqOff.mono fun _ => .inl
  exact h.off owned (fun _ lt => lt)
    (h.off_saved owned (eqOff.files _ (manifestPath_not_inSegment _)))

end Handle

namespace InStep

theorem off_segment (s : InStep serde root schema d t log k)
    (eqOff : d.EqOff (InSegment root t.manifest.nextSegmentId) d') :
    InStep serde root schema d' t log k := by
  cases s with
  | synced synced =>
    exact .synced ⟨synced.lists.off (UInt64.le_refl _) (eqOff.mono fun _ => .inl), synced.boundary⟩
  | pushed boundary ne => exact .pushed boundary ne
  | advanced le ne few => exact .advanced le ne few

theorem listedRows_push (m : Manifest) (segment : ImmutableSegment) :
    ((m.push segment).sealedSegments.map (·.rowCount)).sum =
      (m.sealedSegments.map (·.rowCount)).sum + segment.info.rowCount := by
  simp [Manifest.push, segmentRef, SegmentMeta.toRef]

/-- A flush that starts in step leaves a handle that is in step or known not to be. -/
theorem flush (h : Handle serde root schema d t log k segs) (s : InStep serde root schema d t log k)
    {r : Outcome TableError Unit} (safe : Safe d t .flush)
    (ended : Table.Flushed serde root schema log.length t d r t' d') :
    ∃ k' segs', Handle serde root schema d' t' log k' segs' ∧ InStep serde root schema d' t' log k' := by
  -- Once a segment has been sealed some rows are active, and the handle is synced.
  have started : ∀ {d₁ segment}, Table.NewSegment serde root schema t.manifest t.active d₁ segment →
      t.listedRows = t.sealedRows ∧ ∃ listed, Synced serde root schema d t.manifest log k listed := by
    intro d₁ segment new
    have equal := safe.resolve_left new.stored.nonempty
    cases s with
    | synced synced => exact ⟨equal, _, synced⟩
    | pushed _ ne => exact absurd equal ne
    | advanced _ ne => exact absurd equal ne
  -- A pushed segment makes the manifest list more rows than are sealed.
  have more : ∀ {d₁ segment} {m : Manifest},
      Table.NewSegment serde root schema t.manifest t.active d₁ segment →
      m.sealedSegments = (t.manifest.push segment).sealedSegments →
      Table.listedRows { t with manifest := m } ≠ Table.sealedRows { t with manifest := m } := by
    intro d₁ segment m new same
    have equal := (started new).1
    have some_row := new.stored.nonempty
    have count := new.stored.rowCount
    simp only [Table.listedRows, Table.sealedRows] at equal ⊢
    rw [same, listedRows_push, count]
    omega
  cases ended with
  | idle => exact ⟨k, segs, h, s⟩
  | untouched eqOff => exact ⟨k, segs, h.off_segment eqOff, s.off_segment eqOff⟩
  | pushed eqOff new =>
    obtain ⟨listed, synced⟩ := (started new).2
    refine ⟨k, segs, ?_, .pushed synced.boundary (more new rfl)⟩
    exact h.pushed (eqOff.mono fun _ => .inl) (eqOff.files _ (manifestPath_not_inSegment _))
      new.room rfl
  | advanced eqOff new file =>
    obtain ⟨listed, synced⟩ := (started new).2
    refine ⟨k, segs, h.advanced synced eqOff new file, .advanced (Nat.le_refl _) (more new rfl) ?_⟩
    have some_row := new.stored.nonempty
    simp only [Table.behind, Manifest.advance, List.drop_length]
    exact Nat.pos_of_ne_zero some_row
  | done _ eqOff new saved =>
    obtain ⟨listed, synced⟩ := (started new).2
    exact ⟨_, _, h.flushed synced eqOff new saved, .synced (h.lists_advance synced eqOff new)⟩

/-- A compaction that starts behind its boundary leaves a handle in step. -/
theorem compact {ids : List UInt64} (h : Handle serde root schema d t log k segs)
    (s : InStep serde root schema d t log k) {r : Outcome TableError Unit}
    (boundary : t.manifest.walRecordsApplied = k)
    (ended : Table.Compacted serde root schema ids segs t d r t' d') :
    ∃ segs', Handle serde root schema d' t' log k segs' ∧ InStep serde root schema d' t' log k := by
  cases ended with
  | idle => exact ⟨segs, h, s⟩
  | untouched _ eqOff => exact ⟨segs, h.off_segment eqOff, s.off_segment eqOff⟩
  | relisted _ eqOff replaced file =>
    exact ⟨segs, h.relisted boundary eqOff replaced file,
      .synced (h.lists_relist boundary (Handle.widen eqOff) replaced)⟩
  | committed _ eqOff replaced saved =>
    exact ⟨_, h.committed boundary eqOff replaced saved,
      .synced (h.lists_relist boundary eqOff replaced)⟩

/-- A boundary with all active rows behind it has not moved. -/
theorem boundary_of_behind (s : InStep serde root schema d t log k)
    (behind : t.behind log = t.active.rowCount) : t.manifest.walRecordsApplied = k := by
  cases s with
  | synced synced => exact synced.boundary
  | pushed boundary => exact boundary
  | advanced _ _ few => omega

end InStep

/-- A clean table lists what it has sealed, and its boundary is where its active rows begin. -/
theorem Clean.safe (h : Clean serde root schema d t log segs) (op : Op) : Safe d t op := by
  cases op with
  | append | reopen => trivial
  | flush =>
    refine .inr ?_
    rw [Table.listedRows, Table.sealedRows, h.lists.refs, h.handle.sealed, List.map_map,
      List.map_map]
    rfl
  | compact ids => exact .inr (.inr (h.handle.unsealedRows.trans (h.handle.behind_eq rfl)))

/-! ## Runs -/

/-- A run without failures is a faulty run of every operation that clean tables may take. -/
theorem Reach.faulty {allowed : Disk → Table → Op → Prop} (h : Reach serde root schema d t log)
    (all : ∀ d t log segs op, Clean serde root schema d t log segs → allowed d t op) :
    Faulty serde root schema allowed d t log := by
  have allow : ∀ {d t log}, Reach serde root schema d t log → ∀ op, allowed d t op := by
    intro d t log reach op
    obtain ⟨segs, clean⟩ := reach.clean
    exact all _ _ _ _ op clean
  induction h with
  | opened fresh run => exact .opened fresh run
  | append before built run ih => exact .append ih (allow before _) built run
  | flush before run ih => exact .flush ih (allow before _) (Method.runs_of_exec run)
  | compact ids before run ih => exact .compact ids ih (allow before _) (Method.runs_of_exec run)
  | reopened before run ih => exact .reopened ih (allow before _) run

theorem compact_idle_runs {r : Outcome TableError Unit} {may : Call → Prop}
    (run : (Table.compact serde []).Runs may t d r t' d') : t' = t ∧ d' = d := by
  cases run
  exact ⟨rfl, rfl⟩

/-- A compaction that names an unknown segment makes no call. -/
theorem compact_unknown_runs {ids : List UInt64} {r : Outcome TableError Unit} {may : Call → Prop}
    (unknown : Table.missingIds ids t.sealed ≠ [])
    (run : (Table.compact serde ids).Runs may t d r t' d') : t' = t ∧ d' = d := by
  have some_id : ids ≠ [] := by
    rintro rfl
    simp [Table.missingIds] at unknown
  have refused : ∃ e, (Table.compact serde ids).start t = Prog.ret (.error e, t) := by
    unfold Table.compact
    rw [Method.start_bind, Method.start_get, Prog.ret_bind]
    dsimp only
    rw [if_neg some_id, if_pos unknown]
    exact ⟨_, rfl⟩
  obtain ⟨e, refused⟩ := refused
  rw [Method.Runs, refused] at run
  cases run
  exact ⟨rfl, rfl⟩

theorem Clean.inStep (h : Clean serde root schema d t log segs) :
    ∃ k segs, Handle serde root schema d t log k segs ∧ InStep serde root schema d t log k :=
  ⟨_, segs, h.handle, .synced h.synced⟩

/-- An append keeps how far the manifest is from the sealed rows. -/
theorem InStep.append (h : Handle serde root schema d t log k segs)
    (s : InStep serde root schema d t log k) {b : RowBatch} {n : Nat} (built : Built b)
    (run : (Table.append b).exec t d = ((.ok n, t'), d')) :
    Handle serde root schema d' t' (log ++ [b]) k segs ∧
      InStep serde root schema d' t' (log ++ [b]) k := by
  have after := h.append built run
  obtain ⟨manifest, sealed⟩ := Table.append_keeps run
  have frame := Table.append_frame run
  rw [congrArg WalWriter.path h.wal] at frame
  have rows : t'.listedRows = t.listedRows ∧ t'.sealedRows = t.sealedRows := by
    simp [Table.listedRows, Table.sealedRows, manifest, sealed]
  refine ⟨after, ?_⟩
  cases s with
  | @synced listed synced =>
    have synced' : Synced serde root schema d' t.manifest (log ++ [b]) k listed := by
      refine ⟨?_, synced.boundary⟩
      exact (synced.lists.frame fun id q hq => frame q (segment_ne_wal hq)).extend _
    exact .synced (manifest ▸ synced')
  | pushed boundary ne =>
    exact .pushed (manifest ▸ boundary) (by rwa [rows.1, rows.2])
  | advanced le ne few =>
    refine .advanced ?_ (by rwa [rows.1, rows.2]) ?_
    · rw [manifest, List.length_append]
      omega
    · rw [after.rowCount_active, Table.behind, manifest, List.drop_append_of_le_length le,
        List.drop_append_of_le_length h.holds.boundary, List.map_append, List.sum_append,
        List.map_append, List.sum_append, ← h.rowCount_active]
      exact Nat.add_lt_add_right few _

/-- What every safe run keeps. -/
theorem Faulty.inv (h : Faulty serde root schema Safe d t log) :
    ∃ k segs, Handle serde root schema d t log k segs ∧ InStep serde root schema d t log k := by
  induction h with
  | opened fresh run =>
    obtain ⟨t, d', exec, -, opened⟩ := fresh.opens serde schema
    obtain ⟨rfl, rfl⟩ : t = _ ∧ d' = _ := by simpa using exec.symm.trans run
    exact opened.inStep
  | append _ _ built run ih =>
    obtain ⟨k, segs, handle, step⟩ := ih
    exact ⟨k, segs, step.append handle built run⟩
  | flush _ safe run ih =>
    obtain ⟨k, segs, handle, step⟩ := ih
    exact step.flush handle safe (Method.wp_runs (handle.flush_wp _) run)
  | compact ids _ safe run ih =>
    obtain ⟨k, segs, handle, step⟩ := ih
    rcases safe with rfl | unknown | behind
    · obtain ⟨rfl, rfl⟩ := compact_idle_runs run
      exact ⟨k, segs, handle, step⟩
    · obtain ⟨rfl, rfl⟩ := compact_unknown_runs unknown run
      exact ⟨k, segs, handle, step⟩
    · have boundary := step.boundary_of_behind (handle.unsealedRows.symm.trans behind)
      obtain ⟨segs', after⟩ :=
        step.compact handle boundary (Method.wp_runs (handle.compact_wp _ ids) run)
      exact ⟨k, segs', after⟩
  | reopened _ _ run ih =>
    obtain ⟨k, segs, handle, -⟩ := ih
    obtain ⟨holdsLog, m, listed, found, lists⟩ := handle.durable
    obtain ⟨t, d', exec, -, opened⟩ := Clean.opened holdsLog found lists
    obtain ⟨rfl, rfl⟩ : t = _ ∧ d' = _ := by simpa using exec.symm.trans run
    exact opened.inStep

/-- Whatever fails in safe operations, scans return every acknowledged row once, at once and
after a reopening. -/
theorem faults_recovered (h : Faulty serde root schema Safe d t log) :
    ScansLog schema d t log ∧
      ∃ t' d', (Table.openTable serde root schema).exec d = (.ok t', d') ∧
        ScansLog schema d' t' log := by
  obtain ⟨k, segs, handle, -⟩ := h.inv
  exact ⟨handle.scansLog, handle.durable.opens⟩

/-- A flush fails at its manifest, and the row is still found once. -/
theorem faults_recovered_ticks :
    ∃ d t d' t', Reach jsonSerde ["db"] tickSchema d t [tick] ∧
      (Table.flush jsonSerde).Runs (fun _ => True) t d (.error (.error (.ofIo .device))) t' d' ∧
      ScansLog tickSchema d' t' [tick] := by
  obtain ⟨d, t, reach, new, one⟩ := tick_appended jsonSerde ["db"]
  obtain ⟨segs, clean⟩ := reach.clean
  obtain ⟨segment, d', -, -, failed⟩ :=
    clean.handle.flush_fails tickSchema_nameable (by omega) (by rw [new]; decide)
  have run := Prog.Runs.mono failed fun _ _ => trivial
  have before := reach.faulty fun _ _ _ _ op clean => clean.safe op
  have after := Faulty.flush before (clean.safe .flush) run
  exact ⟨d, t, d', _, reach, run, (faults_recovered after).1⟩

/-! ## A retried flush -/

/-- The flush of a clean table fails at its manifest, and is tried again with success. The
table that is then opened has the active rows twice. -/
theorem flush_retried (h : Clean serde root schema d t log segs) (names : schema.Nameable)
    (some_row : t.active.rowCount ≠ 0) (room : t.manifest.nextSegmentId.toNat + 2 < 2 ^ 64)
    (fits : Fits schema (segs.rowCount + t.active.rowCount + t.active.rowCount)) :
    ∃ t₁ d₁ t₂ d₂ t₃ d₃ segs₃,
      (Table.flush serde).Runs (fun c => ∃ b, c = .write (manifestTmp root) b) t d
        (.error (.error (.ofIo .device))) t₁ d₁ ∧
      (Table.flush serde).exec t₁ d₁ = ((.ok (), t₂), d₂) ∧
      (Table.openTable serde root schema).exec d₂ = (.ok t₃, d₃) ∧
      Readable serde root schema d₃ t₃ segs₃ ∧
      segs₃.rows ++ t₃.active.rows = segs.rows ++ t.active.rows ++ t.active.rows := by
  obtain ⟨first, d₁, new₁, off₁, failed⟩ := h.handle.flush_fails names some_row (by omega)
  have owned₁ : d.EqOff (Table.Owned root t.manifest.nextSegmentId) d₁ := off₁.mono fun _ => .inl
  have handle₁ := h.handle.advanced h.synced owned₁ new₁
    (.inl (off₁.files _ (manifestPath_not_inSegment _)))
  have next : (t.manifest.nextSegmentId + 1).toNat = t.manifest.nextSegmentId.toNat + 1 := by
    rw [UInt64.toNat_add, UInt64.toNat_one]
    omega
  obtain ⟨t₂, d₂, retried⟩ := handle₁.flush_succeeds names (by
    change (t.manifest.nextSegmentId + 1).toNat + 1 < _
    omega)
  have ended := Method.wp_exec (handle₁.flush_wp NoFaults)
  rw [retried] at ended
  obtain idle | _ | _ | _ | ⟨-, off₂, new₂, saved⟩ := ended
  · exact absurd idle some_row
  rename_i second
  -- Both segments are on the disk, and the stored manifest lists both.
  have firstLt : first.id < t.manifest.nextSegmentId + 1 := by
    rw [new₁.id]
    exact self_lt_next new₁.room
  have stored₁ : Stored serde root schema d₂ first t.active :=
    new₁.stored.frame fun q hq => inSegment_off firstLt off₂ hq
  have old : AllStored serde root schema d₂ segs := by
    refine ((h.lists.holds.off (UInt64.le_refl _) owned₁).off ?_ off₂).stored
    exact UInt64.le_of_lt (self_lt_next new₁.room)
  have stored : AllStored serde root schema d₂
      (segs ++ [(first, t.active), (second, t.active)]) := by
    intro s hs
    simp only [List.mem_append, List.mem_cons, List.not_mem_nil, or_false] at hs
    rcases hs with before | rfl | rfl
    · exact old s before
    · exact stored₁
    · exact new₂.stored
  have refs : ((t.manifest.advance first log.length).advance second log.length).sealedSegments =
      (segs ++ [(first, t.active), (second, t.active)]).map fun s => segmentRef s.1 := by
    simp [Manifest.advance, Manifest.push, h.lists.refs]
  obtain ⟨t₃, d₃, opened, schema_eq, sealed, stored₃, active, rows⟩ :=
    opens_listed (handle₁.off_holdsLog off₂) (.inl saved) refs stored
  have none_active : t₃.active.rows = [] := by
    rw [rows]
    simp [Manifest.advance, logRows]
  refine ⟨_, d₁, _, d₂, t₃, d₃, _, failed, retried, opened,
    ⟨schema_eq, sealed, stored₃, active, ?_⟩, ?_⟩
  · rw [active.rows_eq_nil.mp none_active]
    simpa [Segments.rowCount, Nat.add_assoc] using fits
  · rw [none_active]
    simp [Segments.rows]

/-- One failing call in one flush, and a row is there twice. -/
theorem flush_retried_ticks :
    ∃ d t, Faulty jsonSerde ["db"] tickSchema (fun _ _ _ => True) d t [tick] ∧
      ¬ ScansLog tickSchema d t [tick] := by
  obtain ⟨d, t, reach, new, one⟩ := tick_appended jsonSerde ["db"]
  obtain ⟨segs, clean⟩ := reach.clean
  have none_sealed : segs = [] := by
    have refs := clean.lists.refs
    rw [new] at refs
    simpa [Manifest.new] using refs.symm
  subst none_sealed
  obtain ⟨t₁, d₁, t₂, d₂, t₃, d₃, segs₃, failed, retried, opened, readable, twice⟩ :=
    flush_retried clean tickSchema_nameable (by omega) (by rw [new]; decide) (by
      rw [one]
      intro column hc
      obtain rfl := List.mem_singleton.mp hc
      decide)
  refine ⟨d₃, t₃, ?_, fun scans => ?_⟩
  · have before := reach.faulty fun _ _ _ _ _ _ => trivial
    have run₁ := Faulty.flush before trivial (Prog.Runs.mono failed fun _ _ => trivial)
    have run₂ := Faulty.flush run₁ trivial (Method.runs_of_exec retried)
    exact .reopened run₂ trivial opened
  · obtain ⟨r, run, collected⟩ := readable.scanTimeRange ⟨true, true⟩ 0 10
    obtain ⟨r', run', -, once⟩ := scans ⟨true, true⟩ 0 10
    obtain rfl : r = r' := Except.ok.inj (Prod.mk.inj (run.symm.trans run')).1
    have active := clean.handle.activeOk.2
    rw [new] at active
    rw [collected.rows, twice, active] at once
    exact absurd once (by decide)

end BypassIo.Db
