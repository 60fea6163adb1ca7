import BypassIo.Db.Compact
import BypassIo.Db.Flush

/-!
# What a table holds

The ghost state of a table is its log: the batches acknowledged so far, in order.
`HoldsLog` ties it to the log file, `Lists` to a manifest and its segments, `Durable` to
the disk alone, and `Handle` to an open table. The files and the lists of a table may move
in several ways; the log says which rows they hold.
-/

namespace BypassIo.Db
open Octet Rust FileSystem Columns

variable {serde : Serde} {root : Path} {schema : Schema} {d d' : Disk} {log : List RowBatch}

/-- The rows of a log. -/
def logRows (log : List RowBatch) : List Row := log.flatMap RowBatch.rows

@[simp] theorem logRows_append (front back : List RowBatch) :
    logRows (front ++ back) = logRows front ++ logRows back := List.flatMap_append

theorem logRows_take_drop (log : List RowBatch) (k : Nat) :
    logRows (log.take k) ++ logRows (log.drop k) = logRows log := by
  rw [← logRows_append, List.take_append_drop]

/-! ## The log file -/

def walBytes (root : Path) (d : Disk) : Bytes := (d.files (walPath root)).getD []

/-- One batch as one record. -/
def Logged (b : RowBatch) (r : WalRecord) : Prop :=
  encodeBatch b = .ok r.payload ∧ r.payload.length ≤ u32Max

/-- The log file holds one record for each batch. -/
structure HoldsLog (root : Path) (schema : Schema) (d : Disk) (log : List RowBatch) : Prop where
  wellFormed : ∀ b ∈ log, b.WellFormed schema
  records : ∃ records, List.Forall₂ Logged log records ∧ walBytes root d = frames records
  size : (walBytes root d).length ≤ maxFileLen

theorem fit_of_logged {records : List WalRecord} (h : List.Forall₂ Logged log records) :
    Fit records := by
  intro r hr
  obtain ⟨b, -, logged⟩ := exists_of_forall₂_right h hr
  exact logged.2

theorem decode_of_logged {records : List WalRecord} (ok : ∀ b ∈ log, b.WellFormed schema)
    (h : List.Forall₂ Logged log records) :
    (records.mapM fun record => decodeBatch schema record.payload) = .ok log := by
  refine mapM_eq_ok_forall₂.mpr (List.Forall₂.flip ?_)
  induction h with
  | nil => exact .nil
  | cons logged _ ih =>
    refine .cons ?_ (ih fun b hb => ok b (List.mem_cons_of_mem _ hb))
    exact decodeBatch_encodeBatch (ok _ List.mem_cons_self) logged.1 logged.2

/-- The bytes of a log bound the bytes of its columns. -/
theorem width_le_frames {records : List WalRecord} (ok : ∀ b ∈ log, b.WellFormed schema)
    (h : List.Forall₂ Logged log records) {column : ColumnDef} (hc : column ∈ schema.columns) :
    (log.map (·.rowCount)).sum * column.dtype.width ≤ (frames records).length := by
  induction h with
  | nil => simp
  | cons logged _ ih =>
    have here := width_le_of_encodeBatch (ok _ List.mem_cons_self) logged.1 hc
    have rest := ih fun b hb => ok b (List.mem_cons_of_mem _ hb)
    simp only [List.map_cons, List.sum_cons, frames_cons, List.length_append,
      WalRecord.length_frame, Nat.add_mul]
    omega

namespace HoldsLog

theorem frame (h : HoldsLog root schema d log)
    (same : d'.files (walPath root) = d.files (walPath root)) : HoldsLog root schema d' log := by
  have bytes : walBytes root d' = walBytes root d := congrArg (·.getD []) same
  refine ⟨h.wellFormed, ?_, ?_⟩ <;> rw [bytes]
  · exact h.records
  · exact h.size

/-- The log reads back as one record for each batch. -/
theorem readLog (h : HoldsLog root schema d log) :
    ∃ records, readLog (walBytes root d) = .ok (records, []) ∧ List.Forall₂ Logged log records := by
  obtain ⟨records, logged, bytes⟩ := h.records
  exact ⟨records, by rw [bytes, readLog_whole (fit_of_logged logged)], logged⟩

/-- All rows of the log together still fit every file. -/
theorem fits (h : HoldsLog root schema d log) : Fits schema (log.map (·.rowCount)).sum := by
  intro column hc
  obtain ⟨records, logged, bytes⟩ := h.records
  have size := h.size
  rw [bytes] at size
  exact (width_le_frames h.wellFormed logged hc).trans size

theorem length_rows (h : HoldsLog root schema d log) :
    (logRows log).length = (log.map (·.rowCount)).sum := by
  rw [logRows, List.length_flatMap]
  exact congrArg List.sum (List.map_congr_left fun b hb => (h.wellFormed b hb).length_rows)

/-- Replaying the log from any boundary. -/
theorem replay (h : HoldsLog root schema d log) (k : Nat) :
    ∃ active, (RowBatch.empty schema).appendAll (log.drop k) = (.ok (), active) ∧
      active.WellFormed schema ∧ active.rows = logRows (log.drop k) := by
  have part : ((log.drop k).map RowBatch.rowCount).sum ≤ (log.map RowBatch.rowCount).sum := by
    have split := congrArg (fun batches => (batches.map RowBatch.rowCount).sum)
      (List.take_append_drop k log)
    simp only [List.map_append, List.sum_append] at split
    omega
  obtain ⟨active, loop, ok, rows⟩ := (RowBatch.empty_wellFormed schema).appendAll
    (fun b hb => h.wellFormed b (List.mem_of_mem_drop hb))
    (by simpa [RowBatch.empty] using part.trans h.fits.usize)
  exact ⟨active, loop, ok, by simpa [logRows] using rows⟩

end HoldsLog

/-! ## Segments and manifests -/

/-- Segments with ids below `next` that hold the rows of the first `k` batches. -/
structure Represents (serde : Serde) (root : Path) (schema : Schema) (d : Disk)
    (log : List RowBatch) (k : Nat) (next : UInt64) (segs : Segments) : Prop where
  stored : AllStored serde root schema d segs
  nodup : (segs.map (·.1.id)).Nodup
  below : ∀ s ∈ segs, s.1.id < next
  boundary : k ≤ log.length
  rows : segs.rows.Perm (logRows (log.take k))

/-- The manifest `m` lists `segs`, which hold the batches before its boundary. -/
structure Lists (serde : Serde) (root : Path) (schema : Schema) (d : Disk)
    (log : List RowBatch) (m : Manifest) (segs : Segments) : Prop where
  refs : m.sealedSegments = segs.map fun s => segmentRef s.1
  holds : Represents serde root schema d log m.walRecordsApplied m.nextSegmentId segs

/-- The disk alone holds the log. -/
structure Durable (serde : Serde) (root : Path) (schema : Schema) (d : Disk)
    (log : List RowBatch) : Prop where
  holdsLog : HoldsLog root schema d log
  found : ∃ m segs, FoundManifest serde root d m ∧ Lists serde root schema d log m segs

/-- The disk holds the log, and its manifest is `m`, which lists `segs`. -/
structure Keeps (serde : Serde) (root : Path) (schema : Schema) (d : Disk) (log : List RowBatch)
    (m : Manifest) (segs : Segments) : Prop where
  holdsLog : HoldsLog root schema d log
  found : FoundManifest serde root d m
  lists : Lists serde root schema d log m segs

theorem Keeps.durable {m : Manifest} {segs : Segments} (h : Keeps serde root schema d log m segs) :
    Durable serde root schema d log := ⟨h.holdsLog, m, segs, h.found, h.lists⟩

theorem lt_next {a n : UInt64} (h : a < n) (room : n.toNat + 1 < 2 ^ 64) : a < n + 1 := by
  rw [UInt64.lt_iff_toNat_lt] at h ⊢
  have := UInt64.toNat_add n 1
  simp only [UInt64.toNat_one] at this
  omega

theorem self_lt_next {n : UInt64} (room : n.toNat + 1 < 2 ^ 64) : n < n + 1 := by
  rw [UInt64.lt_iff_toNat_lt]
  have := UInt64.toNat_add n 1
  simp only [UInt64.toNat_one] at this
  omega

theorem length_segRows {segs : Segments} (stored : AllStored serde root schema d segs) :
    segs.rows.length = segs.rowCount := by
  rw [Segments.rows, List.length_flatMap]
  exact congrArg List.sum (List.map_congr_left fun s hs => (stored s hs).wellFormed.length_rows)

/-- Writes to a later segment and to the manifest leave a segment alone. -/
theorem inSegment_off {id next : UInt64} (lt : id < next) (eqOff : d.EqOff (Table.Owned root next) d')
    {q : Path} (hq : InSegment root id q) : d'.files q = d.files q := by
  refine eqOff.files q ?_
  rintro (new | rfl | rfl)
  · rw [inSegment_unique hq new] at lt
    exact UInt64.lt_irrefl _ lt
  · exact manifestTmp_not_inSegment _ hq
  · exact manifestPath_not_inSegment _ hq

namespace Represents

variable {k : Nat} {next : UInt64} {segs : Segments}

theorem keep (h : Represents serde root schema d log k next segs)
    (kept : ∀ id q c, InSegment root id q → d.files q = some c → d'.files q = some c) :
    Represents serde root schema d' log k next segs :=
  { h with stored := fun s hs => (h.stored s hs).keep (kept s.1.id) }

theorem frame (h : Represents serde root schema d log k next segs)
    (same : ∀ s ∈ segs, ∀ q, InSegment root s.1.id q → d'.files q = d.files q) :
    Represents serde root schema d' log k next segs :=
  { h with stored := fun s hs => (h.stored s hs).frame (same s hs) }

/-- Writes to the next segment, the manifest and the log leave the segments alone. -/
theorem off {id : UInt64} (h : Represents serde root schema d log k next segs)
    (le : next ≤ id) (eqOff : d.EqOff (Table.Owned root id) d') :
    Represents serde root schema d' log k next segs :=
  h.frame fun s hs _ hq => inSegment_off (UInt64.lt_of_lt_of_le (h.below s hs) le) eqOff hq

theorem mono {next' : UInt64} (h : Represents serde root schema d log k next segs)
    (le : ∀ id, id < next → id < next') : Represents serde root schema d log k next' segs :=
  { h with below := fun s hs => le _ (h.below s hs) }

/-- A longer log has the same first batches. -/
theorem extend (h : Represents serde root schema d log k next segs) (more : List RowBatch) :
    Represents serde root schema d (log ++ more) k next segs := by
  refine { h with boundary := h.boundary.trans (by simp), rows := ?_ }
  rw [List.take_append_of_le_length h.boundary]
  exact h.rows

theorem rowCount (h : Represents serde root schema d log k next segs) :
    segs.rowCount = (logRows (log.take k)).length := by
  rw [← length_segRows h.stored, h.rows.length_eq]

theorem fits (h : Represents serde root schema d log k next segs)
    (holds : HoldsLog root schema d log) : Fits schema segs.rowCount := by
  refine holds.fits.mono ?_
  rw [h.rowCount, ← holds.length_rows, ← logRows_take_drop log k, List.length_append]
  exact Nat.le_add_right _ _

/-- The unsealed batches sealed as one more segment. -/
theorem push {active : RowBatch} {new : ImmutableSegment}
    (h : Represents serde root schema d log k next segs) (stored : Stored serde root schema d new active)
    (id : new.id = next) (room : next.toNat + 1 < 2 ^ 64)
    (rows : active.rows = logRows (log.drop k)) :
    Represents serde root schema d log log.length (next + 1) (segs ++ [(new, active)]) where
  stored := by
    intro s hs
    rcases List.mem_append.mp hs with old | added
    · exact h.stored s old
    · obtain rfl := List.mem_singleton.mp added
      exact stored
  nodup := by
    rw [List.map_append, List.nodup_append]
    refine ⟨h.nodup, by simp, ?_⟩
    rintro a ha b hb rfl
    obtain ⟨s, hs, rfl⟩ := List.mem_map.mp ha
    have lt := h.below s hs
    rw [show s.1.id = next by simpa [id] using hb] at lt
    exact UInt64.lt_irrefl _ lt
  below := by
    intro s hs
    rcases List.mem_append.mp hs with old | added
    · exact lt_next (h.below s old) room
    · obtain rfl := List.mem_singleton.mp added
      rw [id]
      exact self_lt_next room
  boundary := Nat.le_refl _
  rows := by
    rw [List.take_length, ← logRows_take_drop log k]
    simpa [Segments.rows, rows] using h.rows.append_right (logRows (log.drop k))

/-- Requested segments merged into one. -/
theorem merge {requested : List UInt64} {new : ImmutableSegment × RowBatch} {segs' : Segments}
    (h : Represents serde root schema d log k next segs)
    (kept : AllStored serde root schema d' (segs.kept requested))
    (stored : Stored serde root schema d' new.1 new.2) (id : new.1.id = next)
    (room : next.toNat + 1 < 2 ^ 64) (rows : new.2.rows = (segs.selected requested).rows)
    (perm : segs'.Perm (new :: segs.kept requested)) :
    Represents serde root schema d' log k (next + 1) segs' where
  stored := by
    intro s hs
    rcases List.mem_cons.mp (perm.mem_iff.mp hs) with rfl | old
    · exact stored
    · exact kept s old
  nodup := by
    rw [(perm.map _).nodup_iff, List.map_cons, List.nodup_cons]
    refine ⟨?_, h.nodup.sublist (List.filter_sublist.map _)⟩
    rw [id]
    intro mem
    obtain ⟨s, hs, same⟩ := List.mem_map.mp mem
    have lt := h.below s (List.mem_filter.mp hs).1
    rw [same] at lt
    exact UInt64.lt_irrefl _ lt
  below := by
    intro s hs
    rcases List.mem_cons.mp (perm.mem_iff.mp hs) with rfl | old
    · rw [id]
      exact self_lt_next room
    · exact lt_next (h.below s (List.mem_filter.mp old).1) room
  boundary := h.boundary
  rows := by
    refine (Segments.rows_perm perm).trans (List.Perm.trans ?_ h.rows)
    refine List.Perm.trans ?_ (Segments.rows_perm (Segments.selected_kept_perm segs requested))
    simp only [Segments.rows, List.flatMap_cons, List.flatMap_append]
    rw [rows, Segments.rows]

end Represents

end BypassIo.Db
