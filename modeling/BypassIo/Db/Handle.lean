import BypassIo.Db.Contents

/-!
# Open tables

`Handle` is the invariant of an open table: what it keeps in memory and what the disk
holds, both by the same log. Each ending of `flush` and `compact` is followed by a handle
again, and each disk that a kill leaves is still durable.
-/

namespace BypassIo.Db
open Octet Rust FileSystem Columns

/-- The open table `t`: `segs` is what it has sealed, the first `k` batches of the log. -/
structure Handle (serde : Serde) (root : Path) (schema : Schema) (d : Disk) (t : Table)
    (log : List RowBatch) (k : Nat) (segs : Segments) : Prop where
  path : t.path = root
  schema_eq : t.schema = schema
  rootDir : d.dirs root = true
  walFile : (d.files (walPath root)).isSome = true
  holdsLog : HoldsLog root schema d log
  saved : ∃ m listed, SavedManifest serde root d m ∧ Lists serde root schema d log m listed ∧
    m.nextSegmentId ≤ t.manifest.nextSegmentId
  wal : t.wal = ⟨walPath root, UInt64.ofNat log.length⟩
  sealed : t.sealed = segs.map Prod.fst
  holds : Represents serde root schema d log k t.manifest.nextSegmentId segs
  active : (RowBatch.empty schema).appendAll (log.drop k) = (.ok (), t.active)

/-- The manifest in memory lists segments for the boundary of the handle. -/
structure Synced (serde : Serde) (root : Path) (schema : Schema) (d : Disk) (m : Manifest)
    (log : List RowBatch) (k : Nat) (listed : Segments) : Prop where
  lists : Lists serde root schema d log m listed
  boundary : m.walRecordsApplied = k

variable {serde : Serde} {root : Path} {schema : Schema} {d d' : Disk} {log : List RowBatch}
  {t t' : Table} {k : Nat} {segs listed : Segments}

theorem Lists.off {m : Manifest} {id : UInt64} (h : Lists serde root schema d log m listed)
    (le : m.nextSegmentId ≤ id) (eqOff : d.EqOff (Table.Owned root id) d') :
    Lists serde root schema d' log m listed := ⟨h.refs, h.holds.off le eqOff⟩

/-! ## Disks that a flush or a compaction leaves -/

theorem walPath_not_owned (id : UInt64) : ¬ Table.Owned root id (walPath root) := by
  rintro (inside | tmp | manifest)
  · exact walPath_not_inSegment _ inside
  · exact walPath_ne_tmp tmp
  · exact walPath_ne_manifest manifest

theorem root_not_owned (id : UInt64) : ¬ Table.Owned root id root := by
  rintro (inside | tmp | manifest)
  · have := List.IsPrefix.length_le inside
    simp [segmentDir] at this
  · have := congrArg List.length tmp
    simp [manifestTmp] at this
  · have := congrArg List.length manifest
    simp [manifestPath] at this

namespace Handle

theorem activeOk (h : Handle serde root schema d t log k segs) :
    t.active.WellFormed schema ∧ t.active.rows = logRows (log.drop k) := by
  obtain ⟨active, loop, ok, rows⟩ := h.holdsLog.replay k
  obtain rfl : active = t.active := (Prod.mk.inj (loop.symm.trans h.active)).2
  exact ⟨ok, rows⟩

/-- Sealed and active rows are the rows of the log. -/
theorem rows (h : Handle serde root schema d t log k segs) :
    (segs.rows ++ t.active.rows).Perm (logRows log) := by
  rw [h.activeOk.2, ← logRows_take_drop log k]
  exact h.holds.rows.append_right _

theorem rowCount_active (h : Handle serde root schema d t log k segs) :
    t.active.rowCount = ((log.drop k).map (·.rowCount)).sum := by
  obtain ⟨ok, rows⟩ := h.activeOk
  rw [← ok.length_rows, rows, logRows, List.length_flatMap]
  refine congrArg List.sum (List.map_congr_left fun b hb => ?_)
  exact (h.holdsLog.wellFormed b (List.mem_of_mem_drop hb)).length_rows

theorem fits (h : Handle serde root schema d t log k segs) :
    Fits schema (segs.rowCount + t.active.rowCount) := by
  refine h.holdsLog.fits.mono (Nat.le_of_eq ?_)
  rw [← h.holdsLog.length_rows, ← h.rows.length_eq, List.length_append,
    length_segRows h.holds.stored, h.activeOk.1.length_rows]

theorem durable (h : Handle serde root schema d t log k segs) : Durable serde root schema d log := by
  obtain ⟨m, listed, saved, lists, -⟩ := h.saved
  exact ⟨h.holdsLog, m, listed, .inl saved, lists⟩

/-- The log is still there when only owned files have changed. -/
theorem off_holdsLog (h : Handle serde root schema d t log k segs)
    (eqOff : d.EqOff (Table.Owned root t.manifest.nextSegmentId) d') :
    HoldsLog root schema d' log := h.holdsLog.frame (eqOff.files _ (walPath_not_owned _))

/-- The saved manifest is still there when its file has not changed. -/
theorem off_saved (h : Handle serde root schema d t log k segs)
    (eqOff : d.EqOff (Table.Owned root t.manifest.nextSegmentId) d')
    (file : d'.files (manifestPath root) = d.files (manifestPath root)) :
    ∃ m listed, SavedManifest serde root d' m ∧ Lists serde root schema d' log m listed ∧
      m.nextSegmentId ≤ t.manifest.nextSegmentId := by
  obtain ⟨m, listed, saved, lists, le⟩ := h.saved
  exact ⟨m, listed, saved.frame file, lists.off le eqOff, le⟩

/-- The handle on a disk where only owned files have changed, with another manifest in memory. -/
theorem off (h : Handle serde root schema d t log k segs) {m : Manifest}
    (eqOff : d.EqOff (Table.Owned root t.manifest.nextSegmentId) d')
    (grows : ∀ id, id < t.manifest.nextSegmentId → id < m.nextSegmentId)
    (saved : ∃ m' listed, SavedManifest serde root d' m' ∧
      Lists serde root schema d' log m' listed ∧ m'.nextSegmentId ≤ m.nextSegmentId) :
    Handle serde root schema d' { t with manifest := m } log k segs where
  path := h.path
  schema_eq := h.schema_eq
  rootDir := eqOff.dirs _ (root_not_owned _) h.rootDir
  walFile := by
    rw [eqOff.files _ (walPath_not_owned _)]
    exact h.walFile
  holdsLog := h.off_holdsLog eqOff
  saved := saved
  wal := h.wal
  sealed := h.sealed
  holds := (h.holds.off (UInt64.le_refl _) eqOff).mono grows
  active := h.active

/-! ## Flushing -/

section Flush

variable {segment : ImmutableSegment}

/-- The specification of `flush` on a handle. -/
theorem flush_wp (may : Call → Prop) (h : Handle serde root schema d t log k segs) :
    (Table.flush serde).wp may (Table.Flushed serde root schema log.length t d)
      (Table.FlushCrash serde root schema log.length t d) t d := by
  obtain ⟨records, read, logged⟩ := h.holdsLog.readLog
  obtain ⟨bytes, held⟩ := Option.isSome_iff_exists.mp h.walFile
  rw [walBytes, held, Option.getD_some] at read
  rw [logged.length_eq]
  exact Table.flush_wp h.path h.schema_eq (congrArg WalWriter.path h.wal) held read h.activeOk.1

theorem le_next {a n : UInt64} (h : a ≤ n) (room : n.toNat + 1 < 2 ^ 64) : a ≤ n + 1 := by
  rcases UInt64.lt_or_eq_of_le h with lt | rfl
  · exact UInt64.le_of_lt (lt_next lt room)
  · exact UInt64.le_of_lt (self_lt_next room)

/-- The manifest with the new segment lists the whole log. -/
theorem lists_advance (h : Handle serde root schema d t log k segs)
    (synced : Synced serde root schema d t.manifest log k listed)
    (eqOff : d.EqOff (Table.Owned root t.manifest.nextSegmentId) d')
    (new : Table.NewSegment serde root schema t.manifest t.active d' segment) :
    Synced serde root schema d' (t.manifest.advance segment log.length) log log.length
      (listed ++ [(segment, t.active)]) := by
  have old := synced.lists.off (UInt64.le_refl _) eqOff
  have holds := old.holds
  rw [synced.boundary] at holds
  refine ⟨⟨?_, holds.push new.stored new.id new.room h.activeOk.2⟩, rfl⟩
  simp [Manifest.advance, Manifest.push, old.refs]

/-- A failed flush that has listed its segment in memory. -/
theorem pushed (h : Handle serde root schema d t log k segs) {m : Manifest}
    (eqOff : d.EqOff (Table.Owned root t.manifest.nextSegmentId) d')
    (file : d'.files (manifestPath root) = d.files (manifestPath root))
    (room : t.manifest.nextSegmentId.toNat + 1 < 2 ^ 64)
    (next : m.nextSegmentId = t.manifest.nextSegmentId + 1) :
    Handle serde root schema d' { t with manifest := m } log k segs := by
  obtain ⟨saved, listed, hsaved, lists, le⟩ := h.off_saved eqOff file
  refine h.off eqOff (fun id lt => next ▸ lt_next lt room) ⟨saved, listed, hsaved, lists, ?_⟩
  rw [next]
  exact le_next le room

/-- A failed flush whose manifest may have reached the disk. -/
theorem advanced (h : Handle serde root schema d t log k segs)
    (synced : Synced serde root schema d t.manifest log k listed)
    (eqOff : d.EqOff (Table.Owned root t.manifest.nextSegmentId) d')
    (new : Table.NewSegment serde root schema t.manifest t.active d' segment)
    (file : d'.files (manifestPath root) = d.files (manifestPath root) ∨
      SavedManifest serde root d' (t.manifest.advance segment log.length)) :
    Handle serde root schema d'
      { t with manifest := t.manifest.advance segment log.length } log k segs := by
  rcases file with same | saved
  · exact h.pushed eqOff same new.room rfl
  · exact h.off eqOff (fun id lt => lt_next lt new.room)
      ⟨_, _, saved, (h.lists_advance synced eqOff new).lists, UInt64.le_refl _⟩

/-- A finished flush. -/
theorem flushed (h : Handle serde root schema d t log k segs)
    (synced : Synced serde root schema d t.manifest log k listed)
    (eqOff : d.EqOff (Table.Owned root t.manifest.nextSegmentId) d')
    (new : Table.NewSegment serde root schema t.manifest t.active d' segment)
    (saved : SavedManifest serde root d' (t.manifest.advance segment log.length)) :
    Handle serde root schema d'
      { t with
        manifest := t.manifest.advance segment log.length
        sealed := t.sealed ++ [segment]
        active := .empty t.schema } log log.length (segs ++ [(segment, t.active)]) where
  path := h.path
  schema_eq := h.schema_eq
  rootDir := eqOff.dirs _ (root_not_owned _) h.rootDir
  walFile := by
    rw [eqOff.files _ (walPath_not_owned _)]
    exact h.walFile
  holdsLog := h.off_holdsLog eqOff
  saved := ⟨_, _, saved, (h.lists_advance synced eqOff new).lists, UInt64.le_refl _⟩
  wal := h.wal
  sealed := by simp [h.sealed]
  holds := (h.holds.off (UInt64.le_refl _) eqOff).push new.stored new.id new.room h.activeOk.2
  active := by
    rw [List.drop_length, h.schema_eq]
    rfl

/-- A kill inside a flush. -/
theorem flushCrash (h : Handle serde root schema d t log k segs)
    (synced : t.active.rowCount ≠ 0 → Synced serde root schema d t.manifest log k listed)
    (crash : Table.FlushCrash serde root schema log.length t d d') :
    Durable serde root schema d' log := by
  obtain ⟨eqOff, same | ⟨segment, some_row, new, saved⟩⟩ := crash
  · obtain ⟨m, listed, hsaved, lists, -⟩ := h.off_saved eqOff same
    exact ⟨h.off_holdsLog eqOff, m, listed, .inl hsaved, lists⟩
  · exact ⟨h.off_holdsLog eqOff, _, _, .inl saved,
      (h.lists_advance (synced some_row) eqOff new).lists⟩

end Flush

/-! ## Compacting -/

section Compact

variable {requested : List UInt64} {segs' : Segments}

/-- The specification of `compact` on a handle. -/
theorem compact_wp (may : Call → Prop) (h : Handle serde root schema d t log k segs)
    (ids : List UInt64) :
    (Table.compact serde ids).wp may (Table.Compacted serde root schema ids segs t d)
      (Table.CompactCrash serde root schema ids segs t d) t d :=
  have fits := h.fits.mono (Nat.le_add_right segs.rowCount _)
  Table.compact_wp h.path h.schema_eq h.sealed (h.holds.stored.read fits ids) h.holds.below fits.usize

theorem compactOwned_off {q : Path} (h : ∀ id, ¬ InSegment root id q)
    (notOwned : ¬ Table.Owned root t.manifest.nextSegmentId q) :
    ¬ Table.CompactOwned root requested segs t q := by
  rintro (own | ⟨s, -, inside⟩)
  · exact notOwned own
  · exact h _ inside

theorem root_not_inSegment (id : UInt64) : ¬ InSegment root id root := fun inside =>
  root_not_owned id (.inl inside)

/-- A compaction leaves the segments that stay alone. -/
theorem kept_off (h : Handle serde root schema d t log k segs)
    (eqOff : d.EqOff (Table.CompactOwned root requested segs t) d') :
    AllStored serde root schema d' (segs.kept requested) := by
  intro s hs
  obtain ⟨mem, stays⟩ := List.mem_filter.mp hs
  refine (h.holds.stored s mem).frame fun q hq => eqOff.files q ?_
  rintro ((new | rfl | rfl) | ⟨old, hold, inside⟩)
  · have lt := h.holds.below s mem
    rw [inSegment_unique hq new] at lt
    exact UInt64.lt_irrefl _ lt
  · exact manifestTmp_not_inSegment _ hq
  · exact manifestPath_not_inSegment _ hq
  · rw [inSegment_unique hq inside] at stays
    have chosen := (List.mem_filter.mp hold).2
    simp_all

/-- The relisted manifest lists the new segments. -/
theorem lists_relist (h : Handle serde root schema d t log k segs)
    (boundary : t.manifest.walRecordsApplied = k)
    (eqOff : d.EqOff (Table.CompactOwned root requested segs t) d')
    (replaced : Table.Replaced serde root schema requested segs t segs' d') :
    Synced serde root schema d' (t.manifest.relist (segs'.map Prod.fst)) log k segs' := by
  obtain ⟨new, sealed, rows, perm, -⟩ := replaced
  have holds := h.holds.merge (h.kept_off eqOff) sealed.stored sealed.id sealed.room rows perm
  rw [← boundary] at holds
  exact ⟨⟨by simp [Manifest.relist], holds⟩, boundary⟩

theorem widen (eqOff : d.EqOff (Table.Owned root t.manifest.nextSegmentId) d') :
    d.EqOff (Table.CompactOwned root requested segs t) d' := eqOff.mono fun _ => .inl

/-- A failed compaction that has listed its replacement in memory. -/
theorem relisted (h : Handle serde root schema d t log k segs)
    (boundary : t.manifest.walRecordsApplied = k)
    (eqOff : d.EqOff (Table.Owned root t.manifest.nextSegmentId) d')
    (replaced : Table.Replaced serde root schema requested segs t segs' d')
    (file : d'.files (manifestPath root) = d.files (manifestPath root) ∨
      SavedManifest serde root d' (t.manifest.relist (segs'.map Prod.fst))) :
    Handle serde root schema d'
      { t with manifest := t.manifest.relist (segs'.map Prod.fst) } log k segs := by
  have room := replaced.choose_spec.1.room
  rcases file with same | saved
  · exact h.pushed eqOff same room rfl
  · exact h.off eqOff (fun id lt => lt_next lt room)
      ⟨_, _, saved, (h.lists_relist boundary (widen eqOff) replaced).lists, UInt64.le_refl _⟩

/-- A compaction that has stored its manifest. -/
theorem committed (h : Handle serde root schema d t log k segs)
    (boundary : t.manifest.walRecordsApplied = k)
    (eqOff : d.EqOff (Table.CompactOwned root requested segs t) d')
    (replaced : Table.Replaced serde root schema requested segs t segs' d')
    (saved : SavedManifest serde root d' (t.manifest.relist (segs'.map Prod.fst))) :
    Handle serde root schema d'
      { t with
        manifest := t.manifest.relist (segs'.map Prod.fst)
        sealed := segs'.map Prod.fst } log k segs' := by
  have synced := h.lists_relist boundary eqOff replaced
  have wal := eqOff.files (walPath root)
    (compactOwned_off (fun _ => walPath_not_inSegment _) (walPath_not_owned _))
  have holds := synced.lists.holds
  rw [synced.boundary] at holds
  exact
    { path := h.path
      schema_eq := h.schema_eq
      rootDir := eqOff.dirs _ (compactOwned_off root_not_inSegment (root_not_owned _)) h.rootDir
      walFile := by
        rw [wal]
        exact h.walFile
      holdsLog := h.holdsLog.frame wal
      saved := ⟨_, _, saved, synced.lists, UInt64.le_refl _⟩
      wal := h.wal
      sealed := rfl
      holds := holds
      active := h.active }

/-- A kill inside a compaction. -/
theorem compactCrash (h : Handle serde root schema d t log k segs)
    (boundary : requested ≠ [] → t.manifest.walRecordsApplied = k)
    (crash : Table.CompactCrash serde root schema requested segs t d d') :
    Durable serde root schema d' log := by
  rcases crash with ⟨eqOff, same⟩ | ⟨nonempty, eqOff, replaced, saved⟩
  · obtain ⟨m, listed, hsaved, lists, -⟩ := h.off_saved eqOff same
    exact ⟨h.off_holdsLog eqOff, m, listed, .inl hsaved, lists⟩
  · have wal := eqOff.files (walPath root)
      (compactOwned_off (fun _ => walPath_not_inSegment _) (walPath_not_owned _))
    exact ⟨h.holdsLog.frame wal, _, _, .inl saved,
      (h.lists_relist (boundary nonempty) eqOff replaced).lists⟩

end Compact

end Handle

end BypassIo.Db
