import BypassIo.Db.Load
import BypassIo.Db.Reopen
import BypassIo.Db.Syncs

/-!
# Power losses

`Powered` is a directory over its whole life on a machine whose power may fail at any time.
Only the log is ever synced, so a loss may take a segment and leave the manifest that lists
it (`flush_loses_segment`). The rows that a flush has acknowledged survive when each loss
leaves the manifest and the segments of one moment, and cuts the log between records
(`power_loss_recovered`).
-/

namespace BypassIo.Db
open Octet Rust FileSystem Columns

/-! ## Runs with power losses -/

/-- `d` has the manifest of one moment with the files of its segments, and the log of one
moment without some of its last bytes. -/
structure OneMoment (root : Path) (v : Volatile) (d : Disk) : Prop where
  manifest : ∃ x, v.past x ∧ d.files (manifestPath root) = x.files (manifestPath root) ∧
    d.dirs (manifestPath root) = x.dirs (manifestPath root) ∧
    ∀ id q c, InSegment root id q → x.files q = some c → d.files q = some c
  log : ∃ x, v.past x ∧ walBytes root d <+: walBytes root x

/-- Whether a table is open; `cut` stands for an append that was killed. -/
inductive Standing
  | closed
  | opened (t : Table)
  | cut

section Relation

variable (serde : Serde) (root : Path) (schema : Schema)

/-- A directory over its life, with the batches in its log and those that a flush has
acknowledged. An operation that is left was killed or its handle was given up after it. Each
loss leaves one moment, and a log that is cut is cut between records. -/
inductive Powered : Volatile → Standing → List RowBatch → List RowBatch → Prop where
  | fresh {d} : Fresh root d → Powered (.booted d) .closed [] []
  | opened {v w t log flushed} : Powered v .closed log flushed →
      (Table.openTable serde root schema).run.onVolatile v = (.ok t, w) →
      Powered w (.opened t) log flushed
  | openLeft {v w log flushed} : Powered v .closed log flushed →
      (Table.openTable serde root schema).run.Reaches v w → Powered w .closed log flushed
  | append {v w t t' log flushed b n} : Powered v (.opened t) log flushed → Built b →
      ((Table.append b).start t).onVolatile v = ((.ok n, t'), w) →
      Powered w (.opened t') (log ++ [b]) flushed
  -- The kill leaves a file that is not too long, as any disk does.
  | appendKilled {v w t log flushed b} : Powered v (.opened t) log flushed →
      b.WellFormed schema → Prog.Stops ((Table.append b).start t) v w →
      (walBytes root w.now).length ≤ maxFileLen → Powered w .cut (log ++ [b]) flushed
  | flush {v w t t' log flushed} : Powered v (.opened t) log flushed →
      ((Table.flush serde).start t).onVolatile v = ((.ok (), t'), w) →
      Powered w (.opened t') log log
  | flushLeft {v w t log flushed} : Powered v (.opened t) log flushed →
      ((Table.flush serde).start t).Reaches v w → Powered w .closed log flushed
  | compact {v w t t' log flushed} (ids : List UInt64) : Powered v (.opened t) log flushed →
      ((Table.compact serde ids).start t).onVolatile v = ((.ok (), t'), w) →
      Powered w (.opened t') log flushed
  | compactLeft {v w t log flushed} (ids : List UInt64) : Powered v (.opened t) log flushed →
      ((Table.compact serde ids).start t).Reaches v w → Powered w .closed log flushed
  | dropped {v t log flushed} : Powered v (.opened t) log flushed → Powered v .closed log flushed
  | uncut {v log flushed records} : Powered v .cut log flushed →
      readLog (walBytes root v.now) = .ok (records, []) →
      Powered v .closed (log.take records.length) flushed
  | powerLoss {v s log flushed d records} : Powered v s log flushed → v.Loses d →
      OneMoment root v d → readLog (walBytes root d) = .ok (records, []) →
      Powered (.booted d) .closed (log.take records.length) flushed

end Relation

variable {serde : Serde} {root : Path} {schema : Schema} {v w : Volatile} {t t' : Table}
  {log flushed : List RowBatch} {records : List WalRecord} {k : ℕ} {d x : Disk}

/-! ## Listed batches -/

/-- The manifest of `x` lists segments that hold at most the first `k` batches. -/
def Listed (serde : Serde) (root : Path) (schema : Schema) (log : List RowBatch) (k : ℕ)
    (x : Disk) : Prop :=
  ∃ m segs, FoundManifest serde root x m ∧ Lists serde root schema x log m segs ∧
    m.walRecordsApplied ≤ k

theorem Durable.listed (h : Durable serde root schema x log) :
    Listed serde root schema log log.length x := by
  obtain ⟨-, m, segs, found, lists⟩ := h
  exact ⟨m, segs, found, lists, lists.holds.boundary⟩

namespace Listed

variable {log' : List RowBatch} {k' : ℕ}

theorem mono (h : Listed serde root schema log k x) (le : k ≤ k') :
    Listed serde root schema log k' x := by
  obtain ⟨m, segs, found, lists, applied⟩ := h
  exact ⟨m, segs, found, lists, applied.trans le⟩

/-- Another log with the same first `k` batches. -/
theorem congr (h : Listed serde root schema log k x) (le : k ≤ log'.length)
    (same : log'.take k = log.take k) : Listed serde root schema log' k x := by
  obtain ⟨m, segs, found, ⟨refs, holds⟩, applied⟩ := h
  have first : log'.take m.walRecordsApplied = log.take m.walRecordsApplied := by
    rw [← min_eq_left applied, ← List.take_take, ← List.take_take, same]
  refine ⟨m, segs, found, ⟨refs, { holds with boundary := applied.trans le, rows := ?_ }⟩, applied⟩
  rw [first]
  exact holds.rows

theorem keep (h : Listed serde root schema log k x)
    (file : d.files (manifestPath root) = x.files (manifestPath root))
    (dir : d.dirs (manifestPath root) = x.dirs (manifestPath root))
    (kept : ∀ id q c, InSegment root id q → x.files q = some c → d.files q = some c) :
    Listed serde root schema log k d := by
  obtain ⟨m, segs, found, lists, applied⟩ := h
  exact ⟨m, segs, found.frame file dir, lists.keep kept, applied⟩

end Listed

/-! ## What survives -/

/-- The first `k` records are safe and all that any past manifest needs, and the log has only
grown. -/
structure Held (serde : Serde) (root : Path) (schema : Schema) (v : Volatile)
    (log : List RowBatch) (records : List WalRecord) (k : ℕ) : Prop where
  sound : v.Sound
  wellFormed : ∀ b ∈ log, b.WellFormed schema
  logged : List.Forall₂ Logged log records
  listed : ∀ x, v.past x → Listed serde root schema log k x
  within : ∀ x, v.past x → walBytes root x <+: walBytes root v.now
  whole : walBytes root v.now <+: frames records
  size : (walBytes root v.now).length ≤ maxFileLen
  safe : v.safe (walPath root) (frames (records.take k))
  boundary : k ≤ log.length

namespace Held

variable {α : Type} {p : Prog α}

theorem kept (h : Held serde root schema v log records k) :
    frames (records.take k) <+: walBytes root v.now := h.sound.safe _ _ h.safe

theorem holdsLog (h : Held serde root schema v log records k)
    (all : walBytes root v.now = frames records) : HoldsLog root schema v.now log :=
  ⟨h.wellFormed, ⟨records, h.logged, all⟩, h.size⟩

theorem durable (h : Held serde root schema v log records k)
    (all : walBytes root v.now = frames records) : Durable serde root schema v.now log := by
  obtain ⟨m, segs, found, lists, -⟩ := h.listed _ h.sound.past
  exact ⟨h.holdsLog all, m, segs, found, lists⟩

/-- A program after which the log holds what it held, or more. -/
theorem reach (h : Held serde root schema v log records k) (reach : p.Reaches v w)
    (moments : ∀ x, Prog.During p v.now x →
      Listed serde root schema log k x ∧ walBytes root v.now <+: walBytes root x)
    (within : ∀ x, w.past x → walBytes root x <+: walBytes root w.now)
    (whole : walBytes root w.now <+: frames records)
    (size : (walBytes root w.now).length ≤ maxFileLen) :
    Held serde root schema w log records k where
  sound := reach.sound h.sound
  wellFormed := h.wellFormed
  logged := h.logged
  listed x past := (reach.past past).elim (h.listed x) fun during => (moments x during).1
  within := within
  whole := whole
  size := size
  safe := reach.safe h.safe fun x during => h.kept.trans (moments x during).2
  boundary := h.boundary

/-- A program that leaves the log alone. -/
theorem still (h : Held serde root schema v log records k) (reach : p.Reaches v w)
    (moments : ∀ x, Prog.During p v.now x →
      Listed serde root schema log k x ∧ walBytes root x = walBytes root v.now) :
    Held serde root schema w log records k ∧ walBytes root w.now = walBytes root v.now := by
  have same := (moments w.now reach.during).2
  refine ⟨h.reach reach ?_ ?_ (same ▸ h.whole) (same ▸ h.size), same⟩
  · intro x during
    obtain ⟨listed, bytes⟩ := moments x during
    exact ⟨listed, bytes ▸ List.prefix_refl _⟩
  · intro x past
    rw [same]
    rcases reach.past past with old | during
    · exact h.within x old
    · rw [(moments x during).2]

/-- After a sync all records are safe. -/
theorem synced (h : Held serde root schema v log records k)
    (all : walBytes root v.now = frames records) :
    Held serde root schema (v.after (.sync (walPath root))) log records log.length := by
  have past : ∀ x, (v.after (.sync (walPath root))).past x → v.past x := by
    rintro x (old | rfl | rfl)
    · exact old
    · exact h.sound.past
    · exact h.sound.past
  refine ⟨Volatile.sound_after _ _, h.wellFormed, h.logged, fun x hx => ?_, fun x hx => ?_, h.whole,
    h.size, .inr ⟨rfl, ?_⟩, Nat.le_refl _⟩
  · exact (h.listed x (past x hx)).mono h.boundary
  · exact h.within x (past x hx)
  · rw [h.logged.length_eq, List.take_length, ← all]
    exact List.prefix_refl _

/-- One more batch that has not been written yet. -/
theorem extend (h : Held serde root schema v log records k) {b : RowBatch} {r : WalRecord}
    (ok : b.WellFormed schema) (logged : Logged b r) :
    Held serde root schema v (log ++ [b]) (records ++ [r]) k := by
  have length := h.logged.length_eq
  have more : k ≤ (log ++ [b]).length := h.boundary.trans (by simp)
  refine { h with wellFormed := ?_, logged := ?_, listed := fun x past => ?_, whole := ?_,
                  safe := ?_, boundary := more }
  · simpa [or_imp, forall_and] using ⟨h.wellFormed, ok⟩
  · exact List.rel_append h.logged (.cons logged .nil)
  · exact (h.listed x past).congr more (List.take_append_of_le_length h.boundary)
  · exact h.whole.trans (frames_mono (List.prefix_append _ _))
  · rw [List.take_append_of_le_length (length ▸ h.boundary)]
    exact h.safe

/-- A log that has been cut between records. -/
theorem recut {rs : List WalRecord} (h : Held serde root schema v log records k) (sound : w.Sound)
    (listed : ∀ x, w.past x → Listed serde root schema log k x)
    (within : ∀ x, w.past x → walBytes root x <+: walBytes root w.now)
    (part : walBytes root w.now <+: walBytes root v.now)
    (safe : w.safe (walPath root) (frames (records.take k)))
    (read : readLog (walBytes root w.now) = .ok (rs, [])) :
    Held serde root schema w (log.take rs.length) rs k ∧ walBytes root w.now = frames rs ∧
      (log.take rs.length).take k = log.take k := by
  obtain ⟨fit, bytes, -⟩ := readLog_eq_ok.mp read
  rw [List.append_nil] at bytes
  have fits := fit_of_logged h.logged
  have length := h.logged.length_eq
  -- The records left are the first ones, and among them are those that are safe.
  have first : rs <+: records := prefix_of_frames fit fits (bytes ▸ part.trans h.whole)
  have needed : records.take k <+: rs :=
    prefix_of_frames (fun r hr => fits r (List.mem_of_mem_take hr)) fit
      (bytes ▸ sound.safe _ _ safe)
  have le : k ≤ rs.length := by
    have := needed.length_le
    rw [List.length_take, ← length, min_eq_left h.boundary] at this
    exact this
  have some_left : k ≤ (log.take rs.length).length := by
    rw [List.length_take]
    exact le_min le h.boundary
  have same : (log.take rs.length).take k = log.take k := by
    rw [List.take_take, min_eq_left le]
  refine ⟨⟨sound, fun b hb => h.wellFormed b (List.mem_of_mem_take hb), ?_, ?_, within, ?_, ?_, ?_,
    some_left⟩, bytes, same⟩
  · have front := List.forall₂_take rs.length h.logged
    rwa [← List.prefix_iff_eq_take.mp first] at front
  · exact fun x past => (listed x past).congr some_left same
  · rw [bytes]
  · exact part.length_le.trans h.size
  · obtain ⟨rest, rfl⟩ := first
    rwa [List.take_append_of_le_length le] at safe

end Held

/-! ## The moments of an operation -/

theorem Held.open_moments (h : Held serde root schema v log records k)
    (all : walBytes root v.now = frames records)
    (during : Prog.During (Table.openTable serde root schema).run v.now x) :
    Listed serde root schema log k x ∧ walBytes root x = walBytes root v.now := by
  obtain ⟨m, segs, found, lists, applied⟩ := h.listed _ h.sound.past
  have opens := openTable_wp ⟨h.holdsLog all, found, lists⟩
  refine ⟨?_, ((openTable_each schema).mono fun _ quiet => quiet.1).bytes during⟩
  rcases during with crash | rfl
  · have keeps := Prog.wp_crashes opens crash
    exact ⟨m, segs, keeps.found, keeps.lists, applied⟩
  · obtain ⟨t, -, -, saved, lists, -⟩ := Query.wp_exec opens
    exact ⟨m, segs, .inl saved, lists, applied⟩

namespace Clean

variable {segs : Segments}

theorem flush_moments (h : Clean serde root schema d t log segs)
    (during : Prog.During ((Table.flush serde).start t) d x) :
    Listed serde root schema log log.length x ∧ walBytes root x = walBytes root d := by
  have crash : Table.FlushCrash serde root schema log.length t d x := by
    rcases during with crash | rfl
    · exact Prog.wp_crashes (h.handle.flush_wp NoFaults) crash
    · exact (Method.wp_exec (h.handle.flush_wp NoFaults)).crash
  refine ⟨(h.handle.flushCrash (fun _ => h.synced) crash).listed, ?_⟩
  exact congrArg (·.getD []) (crash.1.files _ (walPath_not_owned _))

/-- The boundary stays where it is. -/
theorem compact_moments (h : Clean serde root schema d t log segs) (ids : List UInt64)
    (applied : t.manifest.walRecordsApplied ≤ k)
    (during : Prog.During ((Table.compact serde ids).start t) d x) :
    Listed serde root schema log k x ∧ walBytes root x = walBytes root d := by
  have crash : Table.CompactCrash serde root schema ids segs t d x := by
    rcases during with crash | rfl
    · exact Prog.wp_crashes (h.handle.compact_wp NoFaults ids) crash
    · exact (Method.wp_exec (h.handle.compact_wp NoFaults ids)).crash
  cases crash with
  | before eqOff same =>
    refine ⟨⟨_, segs, .inl (h.saved.frame same), h.lists.off (UInt64.le_refl _) eqOff, applied⟩, ?_⟩
    exact congrArg (·.getD []) (eqOff.files _ (walPath_not_owned _))
  | after _ eqOff replaced saved =>
    refine ⟨⟨_, _, .inl saved, (h.handle.lists_relist rfl eqOff replaced).lists, applied⟩, ?_⟩
    exact congrArg (·.getD []) (eqOff.files _
      (Handle.compactOwned_off (fun _ => walPath_not_inSegment _) (walPath_not_owned _)))

/-- The manifest in memory is the one on disk. -/
theorem applied_le (h : Clean serde root schema d t log segs)
    (listed : Listed serde root schema log k d) : t.manifest.walRecordsApplied ≤ k := by
  obtain ⟨m, segs', saved | ⟨absent, -⟩, -, applied⟩ := listed
  · rwa [h.saved.unique saved]
  · obtain ⟨text, held, -⟩ := h.saved
    rw [absent] at held
    cases held

end Clean

/-! ## Appends -/

/-- An append only adds to the log. -/
theorem appended_moment {f : Bytes} (moment : (Call.append (walPath root) f).Moments d x) :
    (∀ q, q ≠ walPath root → x.files q = d.files q) ∧ x.dirs = d.dirs ∧
      ∃ n, walBytes root x = walBytes root d ++ f.take n := by
  rcases Call.append_moments moment with rfl | ⟨held, n, found, rfl⟩
  · exact ⟨fun _ _ => rfl, rfl, 0, by simp⟩
  · refine ⟨fun q ne => Disk.setFile_files_of_ne _ _ ne, rfl, n, ?_⟩
    simp [walBytes, found]

theorem Held.append {α : Type} {p : Prog α} {b : RowBatch} {r : WalRecord}
    (h : Held serde root schema v log records k) (all : walBytes root v.now = frames records)
    (ok : b.WellFormed schema) (logged : Logged b r)
    (single : p.Single (.append (walPath root) r.frame)) (reach : p.Reaches v w)
    (within : ∀ x, w.past x → walBytes root x <+: walBytes root w.now)
    (size : (walBytes root w.now).length ≤ maxFileLen) :
    Held serde root schema w (log ++ [b]) (records ++ [r]) k := by
  have before := h.extend ok logged
  refine before.reach reach (fun x during => ?_) within ?_ size
  · obtain ⟨files, dirs, n, bytes⟩ := appended_moment (single.during during)
    refine ⟨(before.listed _ h.sound.past).keep (files _ walPath_ne_manifest.symm)
      (congrFun dirs _) ?_, bytes ▸ List.prefix_append _ _⟩
    exact fun id q c inside held => (files q (segment_ne_wal inside)).trans held
  · obtain ⟨-, -, n, bytes⟩ := appended_moment (single.during reach.during)
    rw [bytes, all, frames_append, List.prefix_append_right_inj]
    simpa using List.take_prefix n r.frame

/-- An append that ended well. -/
theorem Held.append_done {b : RowBatch} {n : ℕ} {segs : Segments}
    (h : Held serde root schema v log records k) (all : walBytes root v.now = frames records)
    (clean : Clean serde root schema v.now t log segs) (built : Built b)
    (run : ((Table.append b).start t).onVolatile v = ((.ok n, t'), w)) :
    ∃ r, Held serde root schema w (log ++ [b]) (records ++ [r]) k ∧
      walBytes root w.now = frames (records ++ [r]) ∧
      Clean serde root schema w.now t' (log ++ [b]) segs := by
  have exec := Prog.exec_of_onVolatile run
  have after := clean.append built exec
  have path : t.wal.path = walPath root := congrArg WalWriter.path clean.handle.wal
  have ended := Table.append_exec b t v.now
  rw [show (Table.append b).exec t v.now = _ from exec] at ended
  obtain _ | _ | _ | _ | ⟨admitted, written, -⟩ := ended
  obtain ⟨held, found, fits, -, disk⟩ := written
  change w.now = _ at disk
  rcases Table.append_start b t with ⟨e, t₁, failed⟩ | ⟨payload, next, admitted', -, single⟩
  · rw [failed] at run
    cases run
  obtain rfl := Except.ok.inj (admitted'.encoded.symm.trans admitted.encoded)
  rw [path] at single found disk
  have bytes : walBytes root w.now =
      walBytes root v.now ++ (WalRecord.frame ⟨t.wal.nextSeqNo, payload⟩) := by
    simp [walBytes, found, disk]
  have reach := Prog.reaches_of_onVolatile run
  refine ⟨⟨t.wal.nextSeqNo, payload⟩, h.append all (after.handle.holdsLog.wellFormed b (by simp))
    ⟨admitted.encoded, fits⟩ single reach (fun x past => ?_) after.handle.holdsLog.size, ?_, after⟩
  · rw [bytes]
    rcases reach.past past with old | during
    · exact (h.within x old).trans (List.prefix_append _ _)
    · obtain ⟨-, -, n, part⟩ := appended_moment (single.during during)
      rw [part, List.prefix_append_right_inj]
      exact List.take_prefix n _
  · rw [bytes, all, frames_append]
    simp

/-- An append that was killed. -/
theorem Held.append_killed {b : RowBatch} (h : Held serde root schema v log records k)
    (all : walBytes root v.now = frames records) (path : t.wal.path = walPath root)
    (ok : b.WellFormed schema) (stops : Prog.Stops ((Table.append b).start t) v w)
    (size : (walBytes root w.now).length ≤ maxFileLen) :
    ∃ r, Held serde root schema w (log ++ [b]) (records ++ [r]) k := by
  rcases Table.append_start b t with ⟨e, t₁, failed⟩ | ⟨payload, next, admitted, fits, single⟩
  · rw [failed] at stops
    cases stops
  rw [path] at single
  have reach : Prog.Reaches _ v w := .inl stops
  refine ⟨⟨t.wal.nextSeqNo, payload⟩, h.append all ok ⟨admitted.encoded, fits⟩ single reach
    (fun x past => ?_) size⟩
  rw [single.stops stops] at past
  rcases past with old | rfl
  · obtain ⟨-, -, n, bytes⟩ := appended_moment (single.during reach.during)
    rw [bytes]
    exact (h.within x old).trans (List.prefix_append _ _)
  · exact List.prefix_refl _

/-! ## Runs -/

/-- A closed directory holds the whole log; an open table is clean on it. -/
def Stands (serde : Serde) (root : Path) (schema : Schema) (v : Volatile) (log : List RowBatch)
    (records : List WalRecord) : Standing → Prop
  | .closed => walBytes root v.now = frames records
  | .opened t => walBytes root v.now = frames records ∧
      ∃ segs, Clean serde root schema v.now t log segs
  | .cut => True

theorem Fresh.held (h : Fresh root d) : Held serde root schema (.booted d) [] [] 0 := by
  have durable : Durable serde root schema d [] := h.durable
  have none : walBytes root d = [] := by
    obtain ⟨records, logged, bytes⟩ := durable.holdsLog.records
    cases logged
    exact bytes
  refine ⟨Volatile.sound_booted d, by simp, .nil, ?_, ?_, ?_, durable.holdsLog.size,
    List.nil_prefix, Nat.le_refl _⟩
  · rintro x rfl
    exact durable.listed
  · rintro x rfl
    exact List.prefix_refl _
  · exact none ▸ List.nil_prefix

/-- Once `flush` has synced the log. -/
theorem Held.flush_synced {segs : Segments} {k' : Except IoError Unit → Prog _}
    (h : Held serde root schema v log records k) (all : walBytes root v.now = frames records)
    (clean : Clean serde root schema v.now t log segs)
    (start : (Table.flush serde).start t = .call (.sync t.wal.path) k')
    (rest : (k' (.ok ())).Reaches (v.after (.sync t.wal.path)) w) :
    Held serde root schema w log records log.length ∧ walBytes root w.now = walBytes root v.now := by
  rw [congrArg WalWriter.path clean.handle.wal] at start rest
  refine (h.synced all).still rest fun x during => clean.flush_moments ?_
  rw [start]
  exact Prog.during_call during

/-- A flush that was killed, in its sync or after it. -/
theorem Held.flush_left {segs : Segments} (h : Held serde root schema v log records k)
    (all : walBytes root v.now = frames records) (clean : Clean serde root schema v.now t log segs)
    (reach : ((Table.flush serde).start t).Reaches v w) :
    ∃ k', k ≤ k' ∧ Held serde root schema w log records k' ∧
      walBytes root w.now = walBytes root v.now := by
  obtain ⟨k', start, -⟩ := Table.flush_start serde t
  rw [start] at reach
  rcases reach.cases with ⟨d, torn, rfl⟩ | rest
  · have syncing : (Prog.call (.sync t.wal.path) fun _ => .ret ()).Reaches v (v.pass (· = d) d) :=
      .inl (.here torn)
    refine ⟨k, Nat.le_refl _, h.still syncing fun x during => ?_⟩
    have single : (Prog.call (.sync t.wal.path) fun _ => .ret ()).Single (.sync t.wal.path) :=
      ⟨_, rfl, fun _ => ⟨_, rfl⟩⟩
    rcases single.during during with rfl | rfl <;> exact ⟨h.listed _ h.sound.past, rfl⟩
  · exact ⟨log.length, h.boundary, h.flush_synced all clean start rest⟩

/-- What holds in every run. -/
theorem Powered.held {s : Standing} (h : Powered serde root schema v s log flushed) :
    ∃ records k, Held serde root schema v log records k ∧ flushed <+: log.take k ∧
      Stands serde root schema v log records s := by
  induction h with
  | fresh fresh =>
    have held : Held serde root schema _ [] [] 0 := fresh.held
    exact ⟨[], 0, held, List.nil_prefix, List.prefix_nil.mp held.whole⟩
  | opened _ run ih =>
    obtain ⟨records, k, held, kept, all⟩ := ih
    obtain ⟨after, same⟩ := held.still (Prog.reaches_of_onVolatile run) fun x =>
      held.open_moments all
    refine ⟨records, k, after, kept, same.trans all, ?_⟩
    obtain ⟨holdsLog, m, segs, found, lists⟩ := held.durable all
    obtain ⟨t, d', exec, -, clean⟩ := Clean.opened holdsLog found lists
    obtain ⟨rfl, rfl⟩ : t = _ ∧ d' = _ := by
      simpa using exec.symm.trans (Prog.exec_of_onVolatile run)
    exact ⟨segs, clean⟩
  | openLeft _ reach ih =>
    obtain ⟨records, k, held, kept, all⟩ := ih
    obtain ⟨after, same⟩ := held.still reach fun x => held.open_moments all
    exact ⟨records, k, after, kept, same.trans all⟩
  | append _ built run ih =>
    obtain ⟨records, k, held, kept, all, segs, clean⟩ := ih
    obtain ⟨r, after, all', clean'⟩ := held.append_done all clean built run
    refine ⟨_, k, after, ?_, all', segs, clean'⟩
    rwa [List.take_append_of_le_length held.boundary]
  | appendKilled _ ok stops size ih =>
    obtain ⟨records, k, held, kept, all, segs, clean⟩ := ih
    obtain ⟨r, after⟩ :=
      held.append_killed all (congrArg WalWriter.path clean.handle.wal) ok stops size
    refine ⟨_, k, after, ?_, trivial⟩
    rwa [List.take_append_of_le_length held.boundary]
  | @flush v w t t' log _ _ run ih =>
    obtain ⟨records, k, held, -, all, segs, clean⟩ := ih
    have flushed := clean.flush (Prog.exec_of_onVolatile run)
    obtain ⟨k', start, -⟩ := Table.flush_start serde t
    rw [start] at run
    obtain ⟨after, same⟩ := held.flush_synced all clean start (Prog.reaches_of_onVolatile run)
    exact ⟨records, log.length, after, by simp, same.trans all, flushed⟩
  | flushLeft _ reach ih =>
    obtain ⟨records, k, held, kept, all, segs, clean⟩ := ih
    obtain ⟨k', le, after, same⟩ := held.flush_left all clean reach
    exact ⟨records, k', after, kept.trans (List.take_prefix_take_left le), same.trans all⟩
  | compact ids _ run ih =>
    obtain ⟨records, k, held, kept, all, segs, clean⟩ := ih
    have applied := clean.applied_le (held.listed _ held.sound.past)
    obtain ⟨after, same⟩ := held.still (Prog.reaches_of_onVolatile run) fun x =>
      clean.compact_moments ids applied
    exact ⟨records, k, after, kept, same.trans all, clean.compact (Prog.exec_of_onVolatile run)⟩
  | compactLeft ids _ reach ih =>
    obtain ⟨records, k, held, kept, all, segs, clean⟩ := ih
    have applied := clean.applied_le (held.listed _ held.sound.past)
    obtain ⟨after, same⟩ := held.still reach fun x => clean.compact_moments ids applied
    exact ⟨records, k, after, kept, same.trans all⟩
  | dropped _ ih =>
    obtain ⟨records, k, held, kept, all, -⟩ := ih
    exact ⟨records, k, held, kept, all⟩
  | uncut _ read ih =>
    obtain ⟨records, k, held, kept, -⟩ := ih
    obtain ⟨after, all, same⟩ := held.recut held.sound held.listed held.within
      (List.prefix_refl _) held.safe read
    exact ⟨_, k, after, same ▸ kept, all⟩
  | @powerLoss v s log flushed d _ _ loses one read ih =>
    obtain ⟨records, k, held, kept, -⟩ := ih
    obtain ⟨x, past, file, dir, segments⟩ := one.manifest
    obtain ⟨y, earlier, part⟩ := one.log
    have listed := (held.listed x past).keep file dir segments
    obtain ⟨after, all, same⟩ := held.recut (Volatile.sound_booted d)
      (by rintro _ rfl; exact listed) (by rintro _ rfl; exact List.prefix_refl _)
      (part.trans (held.within y earlier)) (loses.safe _ _ held.safe) read
    exact ⟨_, k, after, same ▸ kept, all⟩

/-! ## What a loss may take -/

/-- Nothing but the log is ever safe. -/
theorem Powered.unsynced {s : Standing} {q : Path} (h : Powered serde root schema v s log flushed)
    (ne : q ≠ walPath root) : v.Unsynced q := by
  have noSync : ∀ c : Call, c.NoSync → c ≠ .sync q := fun c none => none q
  have flushing : ∀ {v t log flushed}, Powered serde root schema v (.opened t) log flushed →
      ((Table.flush serde).start t).Each (· ≠ .sync q) := by
    intro v t log flushed before
    obtain ⟨-, -, -, -, -, segs, clean⟩ := before.held
    obtain ⟨k', start, each⟩ := Table.flush_start serde t
    rw [start, congrArg WalWriter.path clean.handle.wal]
    refine ⟨fun same => ?_, fun r => (each r).mono noSync⟩
    cases same
    exact ne rfl
  induction h with
  | fresh | powerLoss => exact Volatile.unsynced_booted _ _
  | opened _ run ih =>
    exact ((openTable_each schema).mono fun c quiet => noSync c quiet.2).unsynced ih
      (Prog.reaches_of_onVolatile run)
  | openLeft _ reach ih =>
    exact ((openTable_each schema).mono fun c quiet => noSync c quiet.2).unsynced ih reach
  | append _ _ run ih =>
    exact ((Table.append_each _ _).mono noSync).unsynced ih (Prog.reaches_of_onVolatile run)
  | appendKilled _ _ stops _ ih => exact ((Table.append_each _ _).mono noSync).unsynced ih (.inl stops)
  | flush before run ih => exact (flushing before).unsynced ih (Prog.reaches_of_onVolatile run)
  | flushLeft before reach ih => exact (flushing before).unsynced ih reach
  | compact ids _ run ih =>
    exact ((Table.compact_each ids _).mono noSync).unsynced ih (Prog.reaches_of_onVolatile run)
  | compactLeft ids _ reach ih => exact ((Table.compact_each ids _).mono noSync).unsynced ih reach
  | dropped _ ih => exact ih
  | uncut _ _ ih => exact ih

/-- A table without power losses is a run in which nothing was on the disk at the start. -/
theorem Reach.powered (h : Reach serde root schema d t log) :
    ∃ v flushed, v.now = d ∧ (∃ x, v.past x ∧ Fresh root x) ∧
      Powered serde root schema v (.opened t) log flushed := by
  have step : ∀ {α : Type} {p : Prog α} {v : Volatile} {a : α} {d' : Disk}, p.exec v.now = (a, d') →
      (∃ x, v.past x ∧ Fresh root x) →
      ∃ w, p.onVolatile v = (a, w) ∧ w.now = d' ∧ ∃ x, w.past x ∧ Fresh root x := by
    rintro α p v a d' run ⟨x, past, fresh⟩
    obtain ⟨w, run, now⟩ := Prog.onVolatile_of_exec run
    exact ⟨w, run, now, x, (Prog.reaches_of_onVolatile run).past_mono past, fresh⟩
  induction h with
  | @opened d _ _ fresh run =>
    obtain ⟨w, run, now, start⟩ := step (v := .booted d) run ⟨_, rfl, fresh⟩
    exact ⟨w, [], now, start, .opened (.fresh fresh) run⟩
  | append _ built run ih =>
    obtain ⟨v, flushed, rfl, start, before⟩ := ih
    obtain ⟨w, run, now, start⟩ := step run start
    exact ⟨w, flushed, now, start, .append before built run⟩
  | flush _ run ih =>
    obtain ⟨v, flushed, rfl, start, before⟩ := ih
    obtain ⟨w, run, now, start⟩ := step run start
    exact ⟨w, _, now, start, .flush before run⟩
  | compact ids _ run ih =>
    obtain ⟨v, flushed, rfl, start, before⟩ := ih
    obtain ⟨w, run, now, start⟩ := step run start
    exact ⟨w, flushed, now, start, .compact ids before run⟩
  | reopened _ run ih =>
    obtain ⟨v, flushed, rfl, start, before⟩ := ih
    obtain ⟨w, run, now, start⟩ := step run start
    exact ⟨w, flushed, now, start, .opened (.dropped before) run⟩

/-- A loss may take all segments and leave the manifest, and then the table does not open. -/
theorem Powered.loses_segments (h : Powered serde root schema v (.opened t) log flushed)
    (past : v.past x) (fresh : Fresh root x) (some_segment : t.sealed ≠ []) :
    ∃ d, v.Loses d ∧ ∀ t' d', (Table.openTable serde root schema).exec d ≠ (.ok t', d') := by
  obtain ⟨records, k, held, -, -, segs, clean⟩ := h.held
  have outside : ∀ {q : Path} {name : String}, q = root ++ name :: [] → name ≠ "segments" →
      ¬ root ++ ["segments"] <+: q := by
    rintro q name rfl ne below
    rw [List.prefix_append_right_inj, List.cons_prefix_cons] at below
    exact ne below.1.symm
  refine ⟨v.now.removeTree (root ++ ["segments"]), Volatile.loses_part held.sound.past ?_ ?_ ?_, ?_⟩
  · intro q c file
    simp only [Disk.removeTree] at file
    split at file
    · cases file
    · exact file
  · intro q dir
    simp only [Disk.removeTree] at dir
    split at dir
    · cases dir
    · exact dir
  · intro q b safe
    by_cases below : root ++ ["segments"] <+: q
    · -- The file was not there at the start, and it has not been synced.
      have inside : root <+: q := (List.prefix_append _ _).trans below
      have other : q ≠ root := by
        rintro rfl
        simpa using below.length_le
      have notLog : q ≠ walPath root := by
        rintro rfl
        simp [walPath] at below
      have lost := h.unsynced notLog b safe x past
      rw [Disk.bytes, (fresh q inside other).1, Option.getD_none, List.prefix_nil] at lost
      exact lost ▸ List.nil_prefix
    · have same : (v.now.removeTree (root ++ ["segments"])).bytes q = v.now.bytes q := by
        rw [Disk.bytes, Disk.removeTree_files_of_not _ below, Disk.bytes]
      exact same ▸ held.sound.safe q b safe
  · intro t' d' opened
    obtain ⟨text, records', batches, loads, -⟩ := openTable_exec_eq_ok.mp opened
    have manifest : (v.now.removeTree (root ++ ["segments"])).files (manifestPath root) =
        v.now.files (manifestPath root) :=
      Disk.removeTree_files_of_not _ (outside rfl (by decide))
    have saved := clean.saved.frame manifest
    have same : t'.manifest = t.manifest := by
      rcases loads.found with found | ⟨absent, -⟩
      · exact found.unique saved
      · obtain ⟨text, held, -⟩ := saved
        rw [absent] at held
        cases held
    -- The metadata of the first segment is gone.
    have loaded := loads.sealed
    rw [same, clean.lists.refs] at loaded
    cases segs with
    | nil => exact some_segment clean.handle.sealed
    | cons s segs =>
      obtain ⟨first, -, ⟨path, text, found, -⟩, -⟩ := List.forall₂_cons_left_iff.mp loaded
      have below : root ++ ["segments"] <+: first.path ++ ["meta.json"] := by
        rw [path.trans (join_toRef root s.1.info), segmentDir]
        simp [List.prefix_append_right_inj]
      rw [Disk.removeTree_files_of_prefix _ below] at found
      cases found

/-- A run that appends one row to an empty directory and flushes it. -/
theorem tick_flushed : ∃ u v t t' flushed,
    Powered jsonSerde ["db"] tickSchema u (.opened t) [tick] flushed ∧
      ((Table.flush jsonSerde).start t).onVolatile u = ((.ok (), t'), v) ∧
      (∃ x, v.past x ∧ Fresh ["db"] x) ∧ t'.sealed ≠ [] := by
  obtain ⟨d, t, reach, new, one⟩ := tick_appended jsonSerde ["db"]
  obtain ⟨u, flushed, rfl, ⟨x, past, fresh⟩, powered⟩ := reach.powered
  obtain ⟨segs, clean⟩ := reach.clean
  obtain ⟨t', d', exec⟩ := clean.handle.flush_succeeds tickSchema_nameable (by rw [new]; decide)
  obtain ⟨v, run, -⟩ := Prog.onVolatile_of_exec exec
  refine ⟨u, v, t, t', flushed, powered, run,
    ⟨x, (Prog.reaches_of_onVolatile run).past_mono past, fresh⟩, ?_⟩
  rcases clean.flush_cases exec with ⟨idle, -⟩ | ⟨segment, clean', -⟩
  · omega
  · rw [clean'.handle.sealed]
    simp

/-! ## Flushed rows -/

/-- After any power loss and any kill between records, a directory opens with its log, to
which every flushed batch belongs. -/
theorem power_loss_recovered {s : Standing} (h : Powered serde root schema v s log flushed)
    (settled : s ≠ .cut) :
    flushed <+: log ∧ Durable serde root schema v.now log ∧
      ∃ t d', (Table.openTable serde root schema).exec v.now = (.ok t, d') ∧
        ScansLog schema d' t log := by
  obtain ⟨records, k, held, kept, stands⟩ := h.held
  have all : walBytes root v.now = frames records := by
    cases s with
    | closed => exact stands
    | opened t => exact stands.1
    | cut => exact absurd rfl settled
  exact ⟨kept.trans (List.take_prefix _ _), held.durable all, (held.durable all).opens⟩

/-- The power fails inside the flush: its manifest and its segment are lost. -/
theorem power_loss_recovered_ticks : ∃ v t d,
    Powered jsonSerde ["db"] tickSchema v (.opened t) [tick] [tick] ∧ v.Loses d ∧
      ∃ t' d', (Table.openTable jsonSerde ["db"] tickSchema).exec d = (.ok t', d') ∧
        ScansLog tickSchema d' t' [tick] := by
  obtain ⟨u, v, t, t', flushed, before, run, -⟩ := tick_flushed
  have after := Powered.flush before run
  have reach := Prog.reaches_of_onVolatile run
  obtain ⟨records, k, held, -, all, segs, clean⟩ := before.held
  have log : walBytes ["db"] v.now = walBytes ["db"] u.now := (clean.flush_moments reach.during).2
  have past : v.past u.now := reach.past_mono held.sound.past
  obtain ⟨records', k', held', -⟩ := after.held
  have loses : v.Loses u.now := by
    refine Volatile.loses_part past (fun _ _ h => h) (fun _ h => h) fun q b safe => ?_
    by_cases here : q = walPath ["db"]
    · subst here
      have kept := held'.sound.safe _ b safe
      change b <+: walBytes ["db"] v.now at kept
      rwa [log] at kept
    · exact after.unsynced here b safe _ past
  obtain ⟨found, read, logged⟩ := (held.holdsLog all).readLog
  have lost := Powered.powerLoss after loses
    ⟨⟨u.now, past, rfl, rfl, fun _ _ _ _ h => h⟩, u.now, past, List.prefix_refl _⟩ read
  rw [← logged.length_eq, List.take_length] at lost
  exact ⟨v, t', u.now, after, loses, (power_loss_recovered lost (by simp)).2.2⟩

/-- The flush is acknowledged, and the power loss takes its segment and leaves its manifest. -/
theorem flush_loses_segment : ∃ v t d,
    Powered jsonSerde ["db"] tickSchema v (.opened t) [tick] [tick] ∧ v.Loses d ∧
      ∀ t' d', (Table.openTable jsonSerde ["db"] tickSchema).exec d ≠ (.ok t', d') := by
  obtain ⟨u, v, t, t', flushed, before, run, ⟨x, past, fresh⟩, some_segment⟩ := tick_flushed
  have after := Powered.flush before run
  obtain ⟨d, loses, lost⟩ := after.loses_segments past fresh some_segment
  exact ⟨v, t', d, after, loses, lost⟩

end BypassIo.Db
