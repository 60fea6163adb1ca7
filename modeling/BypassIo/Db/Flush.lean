import BypassIo.Db.Directory

/-!
# What a flush does

`Flushed` lists the five ways in which `flush` can end, one for each stage at which it can
fail; `FlushCrash` what a kill leaves on disk. `flush_wp` shows that there are no others.
-/

namespace BypassIo.Db
open Octet Rust FileSystem Columns

/-- The manifest once the new segment is pushed. -/
def Manifest.push (m : Manifest) (segment : ImmutableSegment) : Manifest :=
  { m with
    nextSegmentId := m.nextSegmentId + 1
    sealedSegments := m.sealedSegments ++ [segmentRef segment] }

/-- The manifest once the boundary of the log has moved as well. -/
def Manifest.advance (m : Manifest) (segment : ImmutableSegment) (records : Nat) : Manifest :=
  { m.push segment with walRecordsApplied := records }

namespace Table

section Flush

variable (serde : Serde) (root : Path) (schema : Schema) (records : Nat) (t : Table) (d : Disk)

/-- How `flush` ends on a log of `records` records: the result, the handle, the disk. -/
inductive Flushed : Outcome TableError Unit → Table → Disk → Prop where
  /-- No row is active. -/
  | idle : t.active.rowCount = 0 → Flushed (.ok ()) t d
  /-- It failed before it changed the manifest in memory. -/
  | untouched {e d'} : d.EqOff (InSegment root t.manifest.nextSegmentId) d' →
      Flushed (.error e) t d'
  /-- It failed with the segment listed in memory. -/
  | pushed {e d' segment} : d.EqOff (InSegment root t.manifest.nextSegmentId) d' →
      NewSegment serde root schema t.manifest t.active d' segment →
      Flushed (.error e) { t with manifest := t.manifest.push segment } d'
  /-- It failed with the segment listed and the boundary moved in memory. -/
  | advanced {e d' segment} : d.EqOff (Owned root t.manifest.nextSegmentId) d' →
      NewSegment serde root schema t.manifest t.active d' segment →
      d'.files (manifestPath root) = d.files (manifestPath root) ∨
        SavedManifest serde root d' (t.manifest.advance segment records) →
      Flushed (.error e) { t with manifest := t.manifest.advance segment records } d'
  | done {d' segment} : t.active.rowCount ≠ 0 →
      d.EqOff (Owned root t.manifest.nextSegmentId) d' →
      NewSegment serde root schema t.manifest t.active d' segment →
      SavedManifest serde root d' (t.manifest.advance segment records) →
      Flushed (.ok ())
        { t with
          manifest := t.manifest.advance segment records
          sealed := t.sealed ++ [segment]
          active := .empty t.schema } d'

/-- What a kill inside `flush` leaves: the old manifest, or the new one and its segment. -/
def FlushCrash (d' : Disk) : Prop :=
  d.EqOff (Owned root t.manifest.nextSegmentId) d' ∧
    (d'.files (manifestPath root) = d.files (manifestPath root) ∨
      ∃ segment, t.active.rowCount ≠ 0 ∧
        NewSegment serde root schema t.manifest t.active d' segment ∧
        SavedManifest serde root d' (t.manifest.advance segment records))

end Flush

variable {serde : Serde} {root : Path} {schema : Schema} {may : Call → Prop} {t : Table}
  {d : Disk}

/-- However `flush` ends, a kill can leave the same disk. -/
theorem Flushed.crash {records : Nat} {r : Outcome TableError Unit} {t' : Table} {d' : Disk}
    (h : Flushed serde root schema records t d r t' d') :
    FlushCrash serde root schema records t d d' := by
  have apart : ¬ InSegment root t.manifest.nextSegmentId (manifestPath root) :=
    manifestPath_not_inSegment _
  cases h with
  | idle => exact ⟨.refl _ _, .inl rfl⟩
  | untouched eqOff | pushed eqOff => exact ⟨eqOff.mono fun _ => .inl, .inl (eqOff.files _ apart)⟩
  | advanced eqOff new file =>
    exact ⟨eqOff, file.imp_right fun saved => ⟨_, new.stored.nonempty, new, saved⟩⟩
  | done some_row eqOff new saved => exact ⟨eqOff, .inr ⟨_, some_row, new, saved⟩⟩

theorem flush_wp {bytes tail : Bytes} {records : List WalRecord} (path : t.path = root)
    (sch : t.schema = schema) (walAt : t.wal.path = walPath root)
    (held : d.files (walPath root) = some bytes) (log : readLog bytes = .ok (records, tail))
    (ok : t.active.WellFormed schema) :
    (flush serde).wp may (Flushed serde root schema records.length t d)
      (FlushCrash serde root schema records.length t d) t d := by
  have crash_seal : ∀ d', d.EqOff (InSegment root t.manifest.nextSegmentId) d' →
      FlushCrash serde root schema records.length t d d' := fun d' off =>
    ⟨off.mono fun _ => .inl, .inl (off.files _ (manifestPath_not_inSegment _))⟩
  unfold flush
  refine Method.wp_get_bind.mpr ?_
  refine Method.wp_query_seq sync_wp ?_ ?_ ?_
  rotate_left
  · rintro e d' rfl
    exact .untouched (.refl _ _)
  · rintro d' rfl
    exact crash_seal _ (.refl _ _)
  rintro ⟨⟩ d' rfl
  by_cases idle : t.active.rowCount = 0
  · rw [if_pos idle]
    exact .idle idle
  rw [if_neg idle, path, sch]
  -- The segment of the next id is written.
  refine Method.wp_query_seq (sealBatch_wp ok idle d') ?_ (fun e d₁ h => .untouched h.1) crash_seal
  rintro segment d₁ ⟨off, sealed⟩
  obtain ⟨stored, named, dir, names⟩ := sealed segment rfl
  refine Method.wp_seq bumpSegmentId_wp ?_ ?_ fun _ h => h.elim
  rotate_left
  · rintro e t₁ d₂ ⟨rfl, ⟨-, -, rfl⟩ | ⟨failed, -⟩⟩
    · exact .untouched off
    · cases failed
  rintro ⟨⟩ t₁ d₂ ⟨rfl, ⟨e, failed, -⟩ | ⟨-, room, rfl⟩⟩
  · cases failed
  have new : NewSegment serde root schema t.manifest t.active d₂ segment :=
    ⟨stored, named, room, dir, names⟩
  have held₂ : d₂.files (walPath root) = some bytes :=
    (off.files _ (walPath_not_inSegment _)).trans held
  refine Method.wp_modify_bind.mpr ?_
  -- The log is read again.
  rw [walAt]
  refine Method.wp_query_seq (readRecords_wp held₂) ?_ ?_ ?_
  rotate_left
  · rintro e d₃ ⟨rfl, -⟩
    exact .pushed off new
  · rintro d₃ rfl
    exact crash_seal _ off
  rintro found d₃ ⟨rfl, read⟩
  obtain ⟨tail', log'⟩ := read found rfl
  obtain ⟨rfl, -⟩ := Prod.mk.inj (Except.ok.inj (log.symm.trans log'))
  refine Method.wp_modify_bind.mpr ?_
  -- The manifest is stored.
  refine Method.wp_seq (storeManifest_wp path) ?_ ?_ ?_
  · rintro ⟨⟩ t₂ d₄ ⟨rfl, storing, saved⟩
    exact .done idle (owned off storing) (new.storing storing) (saved rfl)
  · rintro e t₂ d₄ ⟨rfl, storing, -⟩
    refine .advanced (owned off storing) (new.storing storing) ?_
    rw [← off.files _ (manifestPath_not_inSegment _)]
    exact storing.file
  · intro d₄ storing
    refine ⟨owned off storing, ?_⟩
    rw [← off.files _ (manifestPath_not_inSegment _)]
    exact storing.file.imp id fun saved => ⟨segment, idle, new.storing storing, saved⟩

end Table

end BypassIo.Db
