import BypassIo.Db.Load
import BypassIo.Db.Order
import BypassIo.Db.Project

/-!
# Compaction under another schema

`open` compares the schema it is given with no segment, and the reads of a compaction look at
the column files alone. So a compaction on a handle of the schema `S'` writes a segment with
the columns of `S'` only and removes the segments of `S` it was made from. `compact_under`
says when a table of `S` survives that.
-/

namespace BypassIo.Db
open Octet Rust FileSystem Columns

variable {serde : Serde} {root : Path} {S S' : Schema} {d d' d₁ d₂ : Disk} {t t₁ t₂ : Table}
  {log : List RowBatch} {segs : Segments} {ids : List UInt64}

/-! ## Opening with another schema -/

theorem FoundManifest.unique {m m' : Manifest} (h : FoundManifest serde root d m)
    (h' : FoundManifest serde root d m') : m = m' := by
  have same := (load_exec_eq_ok.mpr ⟨h, rfl⟩).symm.trans (load_exec_eq_ok.mpr ⟨h', rfl⟩)
  exact Except.ok.inj (Prod.mk.inj same).1

/-- The handle of another schema has the same manifest and the same segments, and the disk is
as clean as it was. -/
theorem Clean.opened_other (h : Clean serde root S d t log segs)
    (opened : (Table.openTable serde root S').exec d = (.ok t₁, d₁)) :
    (t₁.path = root ∧ t₁.schema = S' ∧ t₁.manifest = t.manifest ∧ t₁.sealed = t.sealed) ∧
      Clean serde root S d₁ t log segs := by
  obtain ⟨text, records, batches, loads, rfl⟩ := openTable_exec_eq_ok.mp opened
  have manifest := loads.found.unique (.inl h.saved)
  have sealed : t₁.sealed = t.sealed := by
    have here := loadSegments_exec_eq_ok.mpr ⟨rfl, loads.sealed⟩
    have there := loadSegments_exec_eq_ok.mpr ⟨rfl, h.lists.holds.stored.loadedFrom⟩
    rw [manifest, h.lists.refs] at here
    rw [h.handle.sealed]
    exact Except.ok.inj (Prod.mk.inj (here.symm.trans there)).1
  refine ⟨⟨loads.path, loads.schema_eq, manifest, sealed⟩, ?_⟩
  obtain ⟨t', d', run, same, clean⟩ := Clean.opened h.handle.holdsLog (.inl h.saved) h.lists
  obtain rfl := h.unique clean same
  obtain ⟨text', _, _, loads', rfl⟩ := openTable_exec_eq_ok.mp run
  have printed := loads.printed
  rw [manifest, loads'.printed] at printed
  rwa [← Except.ok.inj printed]

/-! ## Reading under another schema -/

/-- The batch that a segment reads as. -/
def reading (d : Disk) (schema : Schema) (segment : ImmutableSegment) : RowBatch :=
  match ((segment.readBatch schema).exec d).1 with
  | .ok b => b
  | .error _ => .empty schema

theorem reading_eq {segment : ImmutableSegment} {b : RowBatch}
    (h : (segment.readBatch S).exec d = (.ok b, d')) : reading d S segment = b := by
  rw [reading, h]

/-- The segments with what they read as. -/
def Segments.reread (segs : Segments) (schema : Schema) (d : Disk) : Segments :=
  segs.map fun s => (s.1, reading d schema s.1)

namespace Segments

@[simp] theorem reread_fst (segs : Segments) (schema : Schema) (d : Disk) :
    (segs.reread schema d).map Prod.fst = segs.map Prod.fst := by
  simp [reread, Function.comp_def]

theorem selected_reread (segs : Segments) (schema : Schema) (d : Disk) (ids : List UInt64) :
    (segs.reread schema d).selected ids = (segs.selected ids).reread schema d := by
  simp [reread, selected, List.filter_map, Function.comp_def]

theorem kept_congr {segs segs' : Segments} (same : segs.map Prod.fst = segs'.map Prod.fst) :
    (segs.kept ids).map Prod.fst = (segs'.kept ids).map Prod.fst := by
  have filtered := congrArg (List.filter fun s => s.id ∉ ids) same
  rwa [List.filter_map, List.filter_map] at filtered

/-- Which segments a replacement lists does not depend on what they hold. -/
theorem replace_congr {segs segs' : Segments} {new new' : ImmutableSegment × RowBatch}
    (same : segs.map Prod.fst = segs'.map Prod.fst) (same_new : new.1 = new'.1) :
    (segs.replace ids new).map Prod.fst = (segs'.replace ids new').map Prod.fst := by
  induction segs generalizing segs' with
  | nil =>
    obtain rfl : segs' = [] := by simpa using same.symm
    rfl
  | cons s segs ih =>
    obtain _ | ⟨s', segs'⟩ := segs'
    · cases same
    · obtain ⟨head, tail⟩ := List.cons.inj same
      rw [replace, replace, head]
      split
      · rw [List.map_cons, List.map_cons, same_new, kept_congr tail]
      · rw [List.map_cons, List.map_cons, head, ih tail]

theorem mem_replace {segs : Segments} {new s : ImmutableSegment × RowBatch}
    (h : s ∈ segs.replace ids new) : s = new ∨ s ∈ segs.kept ids := by
  induction segs with
  | nil => cases h
  | cons s' segs ih =>
    rw [replace] at h
    rw [kept_cons]
    split at h
    · rename_i chosen
      rw [if_pos chosen]
      exact List.mem_cons.mp h
    · rename_i other
      rw [if_neg other]
      rcases List.mem_cons.mp h with rfl | later
      · exact .inr List.mem_cons_self
      · exact (ih later).imp_right (List.mem_cons_of_mem _)

end Segments

/-- A compaction has read the requested segments. -/
theorem combine_reads {sealed : List ImmutableSegment} {combined b : RowBatch}
    (h : (Table.combine S ids sealed combined).exec d = (.ok b, d')) :
    ∀ s ∈ sealed, s.id ∈ ids → ∃ batch, (s.readBatch S).exec d = (.ok batch, d) := by
  induction sealed generalizing combined with
  | nil => simp
  | cons segment sealed ih =>
    rw [Table.combine] at h
    split at h
    · obtain ⟨batch, d₁, read, rest⟩ := Query.exec_bind_eq_ok.mp h
      have same := (readBatch_readOnly segment S).exec_snd d
      rw [read] at same
      obtain rfl : d₁ = d := same
      rcases both : combined.append batch with ⟨e | ⟨⟨⟩⟩, all⟩
      · rw [both] at rest
        cases rest
      · rw [both] at rest
        rw [List.forall_mem_cons]
        exact ⟨fun _ => ⟨batch, read⟩, ih rest⟩
    · rename_i other
      rw [List.forall_mem_cons]
      exact ⟨fun chosen => absurd chosen other, ih h⟩

theorem compact_reads (some_id : ids ≠ [])
    (run : (Table.compact serde ids).exec t d = ((.ok (), t'), d')) :
    ∃ b d', (Table.combine t.schema ids t.sealed (.empty t.schema)).exec d = (.ok b, d') := by
  unfold Table.compact at run
  rw [Method.exec_get_bind] at run
  dsimp only at run
  rw [if_neg some_id] at run
  split at run
  · cases run
  · rcases read : (Table.combine t.schema ids t.sealed (.empty t.schema)).exec d with ⟨e | b, d₁⟩
    · have failed : (Method.query (Table.combine t.schema ids t.sealed (.empty t.schema))).exec t d =
          ((.error e, t), d₁) := by rw [Method.exec_query, read]
      rw [Method.exec_bind_error failed] at run
      cases run
    · exact ⟨b, d₁, rfl⟩

/-- The segments of a clean table, read under another schema as far as they are requested. -/
theorem Clean.reread (h : Clean serde root S d t log segs)
    (reads : ∀ s ∈ segs, s.1.id ∈ ids → ∃ b, (s.1.readBatch S').exec d = (.ok b, d)) :
    AllRead root S' d ids (segs.reread S' d) := by
  rw [AllRead, Segments.reread, List.forall_mem_map]
  intro s hs
  have stored := h.handle.holds.stored s hs
  refine ⟨stored.path, fun chosen => ?_⟩
  obtain ⟨b, read⟩ := reads s hs chosen
  have part := Segments.rowCount_le hs
  have fits := h.handle.fits.mono (part.trans (Nat.le_add_right segs.rowCount _))
  obtain ⟨ok, count⟩ := readBatch_wellFormed read (by rw [stored.rowCount]; exact fits.rowCount)
  rw [reading_eq read]
  refine ⟨ok, ?_, read⟩
  rw [count, stored.rowCount]
  exact stored.nonempty

/-- Read under another schema there are no more rows. -/
theorem Clean.rowCount_reread_le (h : Clean serde root S d t log segs) :
    (segs.reread S' d).rowCount ≤ segs.rowCount := by
  rw [Segments.rowCount, Segments.reread, List.map_map]
  apply List.sum_le_sum
  intro s hs
  rw [Function.comp_apply, reading]
  split
  · rename_i b read
    have stored := h.handle.holds.stored s hs
    have exec := Prod.ext (x := (s.1.readBatch S').exec d) (y := (.ok b, _)) read rfl
    rw [(readBatch_exec_eq_ok exec).2, stored.rowCount]
  · exact Nat.zero_le _

/-! ## What the compaction leaves -/

/-- The requested segments of the clean table `t` are replaced by `new`, of the schema `S'`. -/
structure Recompacted (serde : Serde) (root : Path) (S' : Schema) (ids : List UInt64)
    (segs : Segments) (t : Table) (d d' : Disk) (new : ImmutableSegment × RowBatch) : Prop where
  sealed : Table.NewSegment serde root S' t.manifest new.2 d' new.1
  reads : AllRead root S' d ids (segs.reread S' d)
  rows : new.2.rows = ((segs.selected ids).reread S' d).rows
  saved : SavedManifest serde root d' (t.manifest.relist ((segs.replace ids new).map Prod.fst))
  off : d.EqOff (Table.CompactOwned root ids segs t) d'

theorem Clean.recompacted (h : Clean serde root S d t log segs) (path : t₁.path = root)
    (schema_eq : t₁.schema = S') (manifest : t₁.manifest = t.manifest) (sealed : t₁.sealed = t.sealed)
    (run : (Table.compact serde ids).exec t₁ d = ((.ok (), t₂), d₂)) :
    (ids = [] ∧ d₂ = d) ∨ ∃ new, Recompacted serde root S' ids segs t d d₂ new := by
  by_cases some_id : ids = []
  · subst some_id
    have idle : (Table.compact serde []).exec t₁ d = ((.ok (), t₁), d) := rfl
    rw [idle] at run
    exact .inl ⟨rfl, (Prod.mk.inj run).2.symm⟩
  have listed : t₁.sealed = (segs.reread S' d).map Prod.fst := by
    rw [sealed, h.handle.sealed, Segments.reread_fst]
  obtain ⟨b, d', combined⟩ := compact_reads some_id run
  have reads : AllRead root S' d ids (segs.reread S' d) := h.reread fun s hs chosen => by
    have found := combine_reads combined s.1 (by
      rw [sealed, h.handle.sealed]
      exact List.mem_map_of_mem hs) chosen
    rwa [schema_eq] at found
  have below : ∀ s ∈ segs.reread S' d, s.1.id < t₁.manifest.nextSegmentId := by
    rw [manifest, Segments.reread, List.forall_mem_map]
    exact h.handle.holds.below
  have room : segs.rowCount ≤ usizeMax :=
    (h.handle.fits.mono (Nat.le_add_right segs.rowCount _)).usize
  have spec : (Table.compact serde ids).wp NoFaults
      (Table.Compacted serde root S' ids (segs.reread S' d) t₁ d) _ t₁ d :=
    Table.compact_wp path schema_eq listed reads below (h.rowCount_reread_le.trans room)
  have ended := Method.wp_exec spec
  rw [run] at ended
  rcases ended with idle | _ | _ | ⟨-, eqOff, ⟨new, sealedNew, rows, -, rfl⟩, saved⟩
  · exact absurd idle some_id
  rw [Segments.replace_congr (segs.reread_fst S' d) rfl] at saved
  refine .inr ⟨new, ⟨manifest ▸ sealedNew, reads, ?_, manifest ▸ saved, ?_⟩⟩
  · rw [rows, Segments.selected_reread]
  · refine eqOff.mono fun q => Or.imp (fun own => manifest ▸ own) ?_
    rintro ⟨s, hs, inside⟩
    rw [Segments.selected_reread] at hs
    obtain ⟨old, listed, rfl⟩ := List.mem_map.mp hs
    exact ⟨old, listed, inside⟩

namespace Recompacted

variable {new : ImmutableSegment × RowBatch}

theorem holdsLog (h : Recompacted serde root S' ids segs t d d' new)
    (clean : Clean serde root S d t log segs) : HoldsLog root S d' log :=
  clean.handle.holdsLog.frame (h.off.files _ (Handle.compactOwned_off
    (fun _ => walPath_not_inSegment _) (walPath_not_owned _)))

/-- All listed segments load, the new one as well. -/
theorem loadedFrom (h : Recompacted serde root S' ids segs t d d' new)
    (clean : Clean serde root S d t log segs) :
    List.Forall₂ (LoadedFrom serde root d')
      (t.manifest.relist ((segs.replace ids new).map Prod.fst)).sealedSegments
      ((segs.replace ids new).map Prod.fst) := by
  have kept := clean.handle.kept_off h.off
  rw [Manifest.relist, List.forall₂_map_left_iff, List.forall₂_same, List.forall_mem_map]
  intro s hs
  rcases Segments.mem_replace hs with rfl | old
  · exact h.sealed.stored.loadedFrom
  · exact (kept s old).loadedFrom

/-- The disk opens under the old schema, whatever columns the new segment has. -/
theorem opens (h : Recompacted serde root S' ids segs t d d' new)
    (clean : Clean serde root S d t log segs) :
    ∃ t₃ text, (Table.openTable serde root S).exec d' = (.ok t₃, openedDisk root d' text) ∧
      t₃.schema = S ∧ t₃.sealed = (segs.replace ids new).map Prod.fst ∧
      t₃.active.WellFormed S ∧ t₃.active.rows = t.active.rows := by
  obtain ⟨t₃, text, run, schema_eq, sealed, ok, rows⟩ :=
    opens_loaded (h.holdsLog clean) (.inl h.saved) (h.loadedFrom clean)
  exact ⟨t₃, text, run, schema_eq, sealed, ok, rows.trans clean.handle.activeOk.2.symm⟩

/-- With all columns of `S` the new segment holds the rows of the requested ones. -/
theorem rows_project (h : Recompacted serde root S' ids segs t d d' new)
    (clean : Clean serde root S d t log segs) (covers : S.columns ⊆ S'.columns) :
    (new.2.project S' S).rows = (segs.selected ids).rows := by
  rw [h.sealed.stored.wellFormed.rows_project covers, h.rows, Segments.rows, Segments.rows,
    Segments.reread, List.flatMap_map, List.map_flatMap]
  apply List.flatMap_congr
  intro s hs
  obtain ⟨mem, chosen⟩ := List.mem_filter.mp hs
  obtain ⟨ok, -, read⟩ := (h.reads _ (List.mem_map_of_mem mem)).2 (of_decide_eq_true chosen)
  have part := Segments.rowCount_le mem
  rw [← ok.rows_project covers, project_readBatch (clean.handle.holds.stored s mem)
    (clean.handle.fits.mono (part.trans (Nat.le_add_right _ _))) covers read]

/-- Some segment is requested. -/
theorem some_id (h : Recompacted serde root S' ids segs t d d' new) :
    ∃ s ∈ segs, s.1.id ∈ ids := by
  have some_row : new.2.rows ≠ [] := fun none =>
    h.sealed.stored.nonempty (h.sealed.stored.wellFormed.rows_eq_nil.mp none)
  rw [h.rows] at some_row
  by_contra none
  have empty : segs.selected ids = [] := by
    rw [Segments.selected, List.filter_eq_nil_iff]
    intro s hs
    simpa using fun chosen => none ⟨s, hs, chosen⟩
  rw [empty] at some_row
  exact some_row rfl

/-- A compaction with all columns of `S` leaves a clean table of `S`. -/
theorem clean (h : Recompacted serde root S' ids segs t d d' new)
    (clean : Clean serde root S d t log segs) (covers : S.columns ⊆ S'.columns) :
    ∃ t₃ d₃ segs₃, (Table.openTable serde root S).exec d' = (.ok t₃, d₃) ∧
      Clean serde root S d₃ t₃ log segs₃ := by
  obtain ⟨picked, hpicked⟩ : ∃ p : ImmutableSegment × RowBatch, p = (new.1, new.2.project S' S) :=
    ⟨_, rfl⟩
  have same : (segs.replace ids new).map Prod.fst = (segs.replace ids picked).map Prod.fst :=
    Segments.replace_congr rfl (by rw [hpicked])
  have stored : Stored serde root S d' picked.1 picked.2 := by
    rw [hpicked]
    exact h.sealed.stored.project covers
  have rows : picked.2.rows = (segs.selected ids).rows := by
    rw [hpicked]
    exact h.rows_project clean covers
  have id : picked.1.id = t.manifest.nextSegmentId := by
    rw [hpicked]
    exact h.sealed.id
  have holds := clean.handle.holds.merge (clean.handle.kept_off h.off) stored id h.sealed.room rows
    (Segments.replace_perm picked h.some_id)
  have saved := h.saved
  rw [same] at saved
  obtain ⟨t₃, d₃, run, -, clean₃⟩ := Clean.opened (h.holdsLog clean) (.inl saved)
    ⟨by simp [Manifest.relist], holds⟩
  exact ⟨t₃, d₃, _, run, clean₃⟩

end Recompacted

/-! ## Segments that no scan reads -/

/-- Some time range reaches the segment. -/
def ImmutableSegment.seen (segment : ImmutableSegment) : Bool :=
  segment.overlapsTimeRange Int64.minValue Int64.maxValue

theorem seen_of_overlaps {segment : ImmutableSegment} {start last : Int64}
    (h : segment.overlapsTimeRange start last = true) : segment.seen = true := by
  unfold ImmutableSegment.seen ImmutableSegment.overlapsTimeRange at *
  split at h
  · rename_i minTs maxTs least greatest
    simp only [Bool.and_eq_true, decide_eq_true_eq] at h ⊢
    exact ⟨Int64.minValue_le _, Int64.lt_of_lt_of_le h.2 (Int64.le_maxValue last)⟩
  · cases h

/-- Segments that are not seen change no scan. -/
theorem foldlM_scanSegment_seen {features : Features} {start last : Int64}
    (sealed : List ImmutableSegment) (output : ScanResult) :
    sealed.foldlM (Table.scanSegment features S start last) output =
      (sealed.filter ImmutableSegment.seen).foldlM
        (Table.scanSegment features S start last) output := by
  induction sealed generalizing output with
  | nil => rfl
  | cons segment sealed ih =>
    cases seen : segment.seen with
    | true =>
      rw [List.filter_cons_of_pos seen, List.foldlM_cons, List.foldlM_cons]
      exact congrArg _ (funext ih)
    | false =>
      have apart : ¬ segment.overlapsTimeRange start last = true := fun overlaps => by
        rw [seen_of_overlaps overlaps] at seen
        cases seen
      have skip : Table.scanSegment features S start last output segment = pure output := by
        rw [Table.scanSegment, if_pos apart]
      rw [List.filter_cons_of_neg (by simp [seen]), List.foldlM_cons, skip, pure_bind, ih]

theorem scanTimeRange_seen {features : Features} {start last : Int64}
    {sealed : List ImmutableSegment}
    (same : t.sealed.filter ImmutableSegment.seen = sealed.filter ImmutableSegment.seen) :
    t.scanTimeRange features start last =
      { t with sealed := sealed }.scanTimeRange features start last := by
  unfold Table.scanTimeRange
  rw [foldlM_scanSegment_seen t.sealed, same, ← foldlM_scanSegment_seen sealed]

/-- A stored segment is seen when one of its rows is visible. -/
theorem Stored.seen_eq_false {segment : ImmutableSegment} {b : RowBatch}
    (h : Stored serde root S d segment b) :
    segment.seen = false ↔ b.rows.filter (visible S) = [] := by
  constructor
  · exact no_rows_of_not_overlaps h
  · intro none
    obtain ⟨timestamps, times, bounds⟩ := h.exactBounds
    obtain ⟨lo, memLo, least, -⟩ := bounds.least
    obtain ⟨hi, -, greatest, -⟩ := bounds.greatest
    obtain ⟨timestamps', found, times', -⟩ := timestamps_of_wellFormed h.wellFormed
    obtain rfl := Except.ok.inj (times'.symm.trans times)
    have late : ¬ lo < Int64.maxValue := by
      intro early
      have cell : some (Cell.timestamp lo) ∈ b.rows.map (·[S.timestampColumnIdx]?) := by
        rw [h.wellFormed.rows_column S.getElem?_timestampColumn found]
        exact List.mem_map_of_mem (List.mem_map_of_mem memLo)
      obtain ⟨row, mem, at_idx⟩ := List.mem_map.mp cell
      have shown : visible S row = true := by
        simp [visible, inTime, at_idx, Cell.inTime, inRange, early, Int64.minValue_le]
      rw [List.filter_eq_nil_iff] at none
      exact none row mem shown
    simp [ImmutableSegment.seen, ImmutableSegment.overlapsTimeRange, least, greatest, late]

/-! ## What a scan asks of the columns -/

theorem dtypeMeta_injective {a b : DType} (h : dtypeMeta a = dtypeMeta b) : a = b := by
  cases a <;> cases b <;> simp_all [dtypeMeta]

/-- A column that maps is a column of the schema the segment was sealed under. -/
theorem mem_of_mapColumn {segment : ImmutableSegment} {b : RowBatch} {column : ColumnDef}
    {mapped : MappedColumn} (stored : Stored serde root S' d segment b)
    (names : segment.info.columns.map (·.name) = S'.names)
    (run : (segment.mapColumn column.name column.dtype).exec d = (.ok mapped, d')) :
    column ∈ S'.columns := by
  unfold ImmutableSegment.mapColumn at run
  obtain ⟨cm, listed, run⟩ := Query.exec_pureStep_bind_eq_ok.mp run
  obtain ⟨⟨⟩, valid, -⟩ := Query.exec_pureStep_bind_eq_ok.mp run
  have found := ImmutableSegment.metaColumn_eq_ok.mp listed
  have named : cm.name = column.name := by simpa using List.find?_some found
  have known : column.name ∈ S'.names := by
    rw [← names, ← named]
    exact List.mem_map_of_mem (List.mem_of_find?_eq_some found)
  obtain ⟨c, mem, same_name⟩ := List.mem_map.mp known
  obtain ⟨cm', listed', -, dtype, -⟩ := stored.columns c mem
  rw [same_name] at listed'
  obtain rfl := Option.some.inj (found.symm.trans listed')
  have typed : dtypeMeta column.dtype = dtypeMeta c.dtype := by
    rw [← dtype]
    have checked := ofResult_eq_ok.mp valid
    unfold validateColumnMeta at checked
    dsimp only at checked
    split at checked
    · cases checked
    · rename_i good
      simp only [ne_eq, not_or, not_not] at good
      exact Prod.ext good.1.symm good.2.symm
  have type := dtypeMeta_injective typed
  obtain ⟨name, dtype, _, _⟩ := column
  obtain ⟨name', dtype', _, _⟩ := c
  simp only at same_name type
  subst same_name type
  exact mem

theorem scanColumn_readOnly (segment : ImmutableSegment) (map : MappedColumn)
    (column : ColumnDef) : (Table.scanColumn S segment map column).ReadOnly := by
  unfold Table.scanColumn
  split
  · exact Query.readOnly_pure _
  · exact (mapColumn_readOnly _ _ _).bind fun _ => Query.readOnly_pure _

theorem scanSegment_readOnly (S : Schema) (features : Features) (start last : Int64)
    (output : ScanResult) (segment : ImmutableSegment) :
    (Table.scanSegment features S start last output segment).ReadOnly := by
  unfold Table.scanSegment
  split
  · exact Query.readOnly_pure _
  · refine (mapColumn_readOnly _ _ _).bind fun map => (Query.readOnly_pureStep _).bind fun _ => ?_
    dsimp only
    split
    · exact Query.readOnly_pure _
    · exact (Query.readOnly_mapM (scanColumn_readOnly segment map) _).bind fun _ =>
        Query.readOnly_pureStep _

/-- A scan that reads a row of the segment asks for all columns. -/
theorem covers_of_scanSegment {features : Features} {segment : ImmutableSegment} {b : RowBatch}
    {output out : ScanResult} (stored : Stored serde root S' d segment b)
    (names : segment.info.columns.map (·.name) = S'.names) (fits : b.rowCount * 8 ≤ maxFileLen)
    (seen : segment.seen = true)
    (run : (Table.scanSegment features S Int64.minValue Int64.maxValue output segment).exec d =
      (.ok out, d')) : S.columns ⊆ S'.columns := by
  unfold Table.scanSegment at run
  rw [← ImmutableSegment.seen, if_neg (not_not.mpr seen)] at run
  obtain ⟨timestampMap, d₁, map, rest⟩ := Query.exec_bind_eq_ok.mp run
  have mem := mem_of_mapColumn stored names map
  have time := Schema.timestampColumn_of_mem mem S.timestampColumn_dtype
  obtain ⟨timestamps, found, -, -⟩ := timestamps_of_wellFormed stored.wellFormed
  have same := positions_timestamps stored.wellFormed found Int64.minValue Int64.maxValue
  rw [time] at found
  have whole := mapColumn_exec stored mem (by simpa [DType.width] using fits) found
  obtain ⟨mapped, rfl⟩ := Prod.mk.inj (map.symm.trans whole)
  obtain rfl := Except.ok.inj mapped
  -- Some row is selected, so all columns are mapped.
  have indices : rangeFilterI64Mapped features ⟨S.timestampColumn.name, S.timestampColumn.dtype,
      b.rowCount, valueBytes (.timestamp timestamps)⟩ Int64.minValue Int64.maxValue =
      .ok (positions (inRange Int64.minValue Int64.maxValue) timestamps) :=
    Simd.rangeFilterI64Bytes_eq timestamps _ _
  have some_row : positions (inRange Int64.minValue Int64.maxValue) timestamps ≠ [] := by
    intro none
    rw [same] at none
    have shown : b.rows.filter (visible S') = [] := by
      rw [visible, ← gather_positions, none, gather_nil]
    rw [stored.seen_eq_false.mpr shown] at seen
    cases seen
  rw [indices, ofResult_ok, mapErr_ok, Query.exec_bind_ok (Query.exec_pureStep _ _)] at rest
  dsimp only at rest
  rw [if_neg fun empty => some_row ((RowSelection.isEmpty_fromIndices _ _).mp empty)] at rest
  obtain ⟨columns, d₂, loop, -⟩ := Query.exec_bind_eq_ok.mp rest
  obtain ⟨-, each⟩ := (Query.ReadOnly.exec_mapM_eq_ok (scanColumn_readOnly segment _)).mp loop
  intro column hc
  obtain ⟨out, -, scanned⟩ := exists_of_forall₂_left each hc
  unfold Table.scanColumn at scanned
  split at scanned
  · rename_i name
    obtain ⟨i, hi⟩ := List.mem_iff_getElem?.mp hc
    have here := S.idx_unique hi S.getElem?_timestampColumn name
    rw [here, S.getElem?_timestampColumn] at hi
    exact Option.some.inj hi ▸ mem
  · obtain ⟨mapped, d₃, map, -⟩ := Query.exec_bind_eq_ok.mp scanned
    exact mem_of_mapColumn stored names map

/-- A scan that succeeds has read each of its segments. -/
theorem scanSegment_of_foldlM {features : Features} {start last : Int64}
    {sealed : List ImmutableSegment} {output out : ScanResult}
    (run : (sealed.foldlM (Table.scanSegment features S start last) output).exec d = (.ok out, d'))
    {segment : ImmutableSegment} (mem : segment ∈ sealed) :
    ∃ before after,
      (Table.scanSegment features S start last before segment).exec d = (.ok after, d) := by
  induction sealed generalizing output with
  | nil => cases mem
  | cons s sealed ih =>
    rw [List.foldlM_cons] at run
    obtain ⟨mid, d₁, first, rest⟩ := Query.exec_bind_eq_ok.mp run
    have same := (scanSegment_readOnly S features start last output s).exec_snd d
    rw [first] at same
    obtain rfl : d₁ = d := same
    rcases List.mem_cons.mp mem with rfl | later
    · exact ⟨output, mid, first⟩
    · exact ih rest later

/-! ## When the rows survive -/

/-- For every time range the same rows, each as often. -/
def SameRows (d : Disk) (t : Table) (d' : Disk) (t' : Table) : Prop :=
  ∀ features start last, ∃ r r', (t.scanTimeRange features start last).exec d = (.ok r, d) ∧
    (t'.scanTimeRange features start last).exec d' = (.ok r', d') ∧
    (r'.toBatch.rows : Multiset Row) = r.toBatch.rows

/-- No row of a requested segment is in any time range, whichever of the schemas it is read by. -/
def Unseen (d : Disk) (schemas : List Schema) (ids : List UInt64)
    (sealed : List ImmutableSegment) : Prop :=
  ∀ segment ∈ sealed, segment.id ∈ ids → ∀ schema ∈ schemas, ∀ b d',
    (segment.readBatch schema).exec d = (.ok b, d') → ∀ row ∈ b.rows, visible schema row = false

/-- Tables that hold the same log have the same rows. -/
theorem ScansLog.sameRows {d₃ : Disk} {t₃ : Table} (h : ScansLog S d t log)
    (h' : ScansLog S d₃ t₃ log) : SameRows d t d₃ t₃ := by
  intro features start last
  obtain ⟨r, run, -, rows⟩ := h features start last
  obtain ⟨r', run', -, rows'⟩ := h' features start last
  exact ⟨r, r', run, run', rows'.trans rows.symm⟩

namespace Recompacted

variable {new : ImmutableSegment × RowBatch}

/-- The segments that are seen, when the new one is not, are among those that stay. -/
theorem seen_replace (unseen : new.1.seen = false) (segs : Segments) :
    ((segs.replace ids new).map Prod.fst).filter ImmutableSegment.seen =
      ((segs.kept ids).map Prod.fst).filter ImmutableSegment.seen := by
  induction segs with
  | nil => rfl
  | cons s segs ih =>
    rw [Segments.replace, Segments.kept_cons]
    split
    · rw [List.map_cons, List.filter_cons_of_neg (by simp [unseen])]
    · rw [List.map_cons, List.map_cons, List.filter_cons, List.filter_cons, ih]

/-- Nothing of the requested segments is seen when none of their rows is visible. -/
theorem seen_kept (unseen : ∀ s ∈ segs, s.1.id ∈ ids → s.1.seen = false) :
    (segs.map Prod.fst).filter ImmutableSegment.seen =
      ((segs.kept ids).map Prod.fst).filter ImmutableSegment.seen := by
  induction segs with
  | nil => rfl
  | cons s segs ih =>
    obtain ⟨here, rest⟩ := List.forall_mem_cons.mp unseen
    rw [Segments.kept_cons]
    split
    · rename_i chosen
      rw [List.map_cons, List.filter_cons_of_neg (by simp [here chosen]), ih rest]
    · rw [List.map_cons, List.map_cons, List.filter_cons, List.filter_cons, ih rest]

/-- The segments that stay are readable before the compaction ... -/
theorem readable_before (clean : Clean serde root S d t log segs) (ids : List UInt64) :
    Readable serde root S d { t with sealed := (segs.kept ids).map Prod.fst } (segs.kept ids) := by
  have fewer : (segs.kept ids).rowCount ≤ segs.rowCount :=
    (List.filter_sublist.map _).sum_le_sum fun _ _ => Nat.zero_le _
  exact ⟨clean.handle.schema_eq, rfl, fun s hs => clean.handle.holds.stored s (List.mem_filter.mp hs).1,
    clean.handle.activeOk.1, clean.handle.fits.mono (Nat.add_le_add_right fewer _)⟩

/-- ... and after it, by a handle with as many active rows. -/
theorem readable_after (h : Recompacted serde root S' ids segs t d d' new)
    (clean : Clean serde root S d t log segs) {t₃ : Table} (text : String) (schema_eq : t₃.schema = S)
    (ok : t₃.active.WellFormed S) (active : t₃.active.rows = t.active.rows) :
    Readable serde root S (openedDisk root d' text)
      { t₃ with sealed := (segs.kept ids).map Prod.fst } (segs.kept ids) := by
  have same : t₃.active = t.active := ok.eq_of_rows clean.handle.activeOk.1 active
  have fits := (readable_before clean ids).fits
  refine ⟨schema_eq, rfl, fun s hs => (clean.handle.kept_off h.off s hs).opened text, ok, ?_⟩
  rwa [← same] at fits

/-- What the new segment holds fits a file. -/
theorem rowCount_le (h : Recompacted serde root S' ids segs t d d' new)
    (clean : Clean serde root S d t log segs) : new.2.rowCount ≤ segs.rowCount := by
  have few := h.reads.length_selected_le
  rw [Segments.selected_reread, ← h.rows, h.sealed.stored.wellFormed.length_rows] at few
  exact few.trans clean.rowCount_reread_le

/-- Reading a requested segment by either schema. -/
theorem read (h : Recompacted serde root S' ids segs t d d' new)
    (clean : Clean serde root S d t log segs) {s : ImmutableSegment × RowBatch} (hs : s ∈ segs)
    (chosen : s.1.id ∈ ids) : (s.1.readBatch S).exec d = (.ok s.2, d) ∧
      (s.1.readBatch S').exec d = (.ok (reading d S' s.1), d) := by
  have part := Segments.rowCount_le hs
  refine ⟨readBatch_exec (clean.handle.holds.stored s hs)
    (clean.handle.fits.mono (part.trans (Nat.le_add_right _ _))), ?_⟩
  exact ((h.reads _ (List.mem_map_of_mem hs)).2 chosen).2.2

/-- Once the table scans over the whole time range, an unseen replacement or all columns. -/
theorem covers_or_unseen (h : Recompacted serde root S' ids segs t d d' new)
    (clean : Clean serde root S d t log segs) {t₃ : Table} {text : String} (schema_eq : t₃.schema = S)
    (sealed : t₃.sealed = (segs.replace ids new).map Prod.fst) {features : Features}
    {r : ScanResult} {d₃ : Disk} (run : (t₃.scanTimeRange features Int64.minValue
      Int64.maxValue).exec (openedDisk root d' text) = (.ok r, d₃)) :
    S.columns ⊆ S'.columns ∨ new.1.seen = false := by
  rw [or_iff_not_imp_right, Bool.not_eq_false]
  intro seen
  unfold Table.scanTimeRange at run
  rw [schema_eq, sealed] at run
  obtain ⟨out, d₄, fold, -⟩ := Query.exec_bind_eq_ok.mp run
  have mem : new.1 ∈ (segs.replace ids new).map Prod.fst :=
    List.mem_map_of_mem ((Segments.replace_perm new h.some_id).mem_iff.mpr List.mem_cons_self)
  obtain ⟨before, after, step⟩ := scanSegment_of_foldlM fold mem
  have fits := (clean.handle.fits.mono (Nat.le_add_right segs.rowCount _)).mono (h.rowCount_le clean)
  exact covers_of_scanSegment (h.sealed.stored.opened text) h.sealed.names fits.rowCount seen step

/-- If the replacement is unseen and the rows are the same, no requested row was visible. -/
theorem none_visible {t₀ : Table} {d₀ : Disk} (clean₀ : Clean serde root S d₀ t₀ log segs)
    {t₃ : Table} {d₃ : Disk} (sealed : t₃.sealed = (segs.replace ids new).map Prod.fst)
    (unseen : new.1.seen = false)
    (readable : Readable serde root S d₃ { t₃ with sealed := (segs.kept ids).map Prod.fst }
      (segs.kept ids)) (active : t₃.active.rows = t₀.active.rows) (same : SameRows d₀ t₀ d₃ t₃) :
    (segs.selected ids).rows.filter (visible S) = [] := by
  obtain ⟨r, r', run, run', rows⟩ := same ⟨true, true⟩ Int64.minValue Int64.maxValue
  obtain ⟨q, exec, found⟩ :=
    clean₀.handle.readable.scanTimeRange ⟨true, true⟩ Int64.minValue Int64.maxValue
  obtain ⟨q', exec', found'⟩ := readable.scanTimeRange ⟨true, true⟩ Int64.minValue Int64.maxValue
  have seen : t₃.sealed.filter ImmutableSegment.seen =
      ((segs.kept ids).map Prod.fst).filter ImmutableSegment.seen := by
    rw [sealed, seen_replace unseen]
  rw [← scanTimeRange_seen seen] at exec'
  obtain rfl : q = r := Except.ok.inj (Prod.mk.inj (exec.symm.trans run)).1
  obtain rfl : q' = r' := Except.ok.inj (Prod.mk.inj (exec'.symm.trans run')).1
  rw [found.rows, found'.rows, Multiset.coe_eq_coe] at rows
  have count := rows.length_eq
  have parts := ((Segments.rows_perm (Segments.selected_kept_perm segs ids)).filter
    (visible S)).length_eq
  rw [Segments.rows, List.flatMap_append, List.filter_append, List.length_append] at parts
  simp only [List.filter_append, List.length_append, active] at count
  rw [← List.length_eq_zero_iff]
  change ((segs.kept ids).rows.filter (visible S)).length + _ =
    (segs.rows.filter (visible S)).length + _ at count
  change ((segs.selected ids).rows.filter (visible S)).length +
    ((segs.kept ids).rows.filter (visible S)).length = _ at parts
  omega

end Recompacted

/-- `compact_under` for a clean table. -/
theorem Clean.compacted_under (clean₀ : Clean serde root S d t log segs)
    (opened : (Table.openTable serde root S').exec d = (.ok t₁, d₁))
    (run : (Table.compact serde ids).exec t₁ d₁ = ((.ok (), t₂), d₂)) :
    (∃ t₃ d₃, (Table.openTable serde root S).exec d₂ = (.ok t₃, d₃) ∧ SameRows d t d₃ t₃) ↔
      ids = [] ∨ S.columns ⊆ S'.columns ∨ Unseen d₁ [S, S'] ids t₁.sealed := by
  obtain ⟨⟨path, schema_eq, manifest, sealed⟩, clean⟩ := clean₀.opened_other opened
  have before := clean₀.handle.scansLog
  rcases clean.recompacted path schema_eq manifest sealed run with ⟨rfl, rfl⟩ | ⟨new, h⟩
  · refine iff_of_true ?_ (.inl rfl)
    obtain ⟨t₃, d₃, reopened, after⟩ := clean.handle.durable.opens
    exact ⟨t₃, d₃, reopened, before.sameRows after⟩
  obtain ⟨t₃, text, reopened, schema₃, sealed₃, ok, active⟩ := h.opens clean
  have readable := h.readable_after clean text schema₃ ok active
  constructor
  · rintro ⟨t₄, d₄, again, same⟩
    obtain ⟨rfl, rfl⟩ : t₃ = t₄ ∧ openedDisk root d₂ text = d₄ := by
      simpa using reopened.symm.trans again
    obtain ⟨-, r, -, scan, -⟩ := same ⟨true, true⟩ Int64.minValue Int64.maxValue
    rcases h.covers_or_unseen clean schema₃ sealed₃ scan with covers | unseen
    · exact .inr (.inl covers)
    have lost := Recompacted.none_visible clean₀ sealed₃ unseen readable active same
    refine .inr (.inr ?_)
    rw [Unseen, sealed, clean.handle.sealed, List.forall_mem_map]
    intro s hs chosen schema either b d' found row hrow
    have mem : s ∈ segs.selected ids := List.mem_filter.mpr ⟨hs, by simpa using chosen⟩
    obtain ⟨read, read'⟩ := h.read clean hs chosen
    simp only [List.mem_cons, List.not_mem_nil, or_false] at either
    rcases either with rfl | rfl
    · obtain rfl : s.2 = b := Except.ok.inj (Prod.mk.inj (read.symm.trans found)).1
      rw [List.filter_eq_nil_iff] at lost
      exact Bool.eq_false_iff.mpr (lost row (List.mem_flatMap.mpr ⟨s, mem, hrow⟩))
    · obtain rfl : reading d₁ schema s.1 = b := Except.ok.inj (Prod.mk.inj (read'.symm.trans found)).1
      have none := h.sealed.stored.seen_eq_false.mp unseen
      rw [List.filter_eq_nil_iff, h.rows] at none
      exact Bool.eq_false_iff.mpr (none row
        (List.mem_flatMap.mpr ⟨_, List.mem_map_of_mem mem, hrow⟩))
  · rintro (rfl | covers | unseen)
    · obtain ⟨s, -, mem⟩ := h.some_id
      cases mem
    · obtain ⟨t₄, d₄, segs₄, again, after⟩ := h.clean clean covers
      exact ⟨t₄, d₄, again, before.sameRows after.handle.scansLog⟩
    · refine ⟨t₃, _, reopened, ?_⟩
      rw [Unseen, sealed, clean.handle.sealed, List.forall_mem_map] at unseen
      have hidden : ∀ s ∈ segs, s.1.id ∈ ids → s.1.seen = false := by
        intro s hs chosen
        rw [(clean.handle.holds.stored s hs).seen_eq_false, List.filter_eq_nil_iff]
        intro row hrow
        rw [unseen s hs chosen S (by simp) s.2 d₁ (h.read clean hs chosen).1 row hrow]
        simp
      have hidden_new : new.1.seen = false := by
        rw [h.sealed.stored.seen_eq_false, List.filter_eq_nil_iff, h.rows]
        intro row hrow
        obtain ⟨s, hs, inside⟩ := List.mem_flatMap.mp hrow
        obtain ⟨old, mem, rfl⟩ := List.mem_map.mp hs
        obtain ⟨listed, chosen⟩ := List.mem_filter.mp mem
        have requested := of_decide_eq_true chosen
        rw [unseen old listed requested S' (by simp) _ d₁ (h.read clean listed requested).2 row inside]
        simp
      intro features start last
      have left := Recompacted.seen_kept hidden
      rw [← clean₀.handle.sealed] at left
      have right : t₃.sealed.filter ImmutableSegment.seen =
          ((segs.kept ids).map Prod.fst).filter ImmutableSegment.seen := by
        rw [sealed₃, Recompacted.seen_replace hidden_new]
      obtain ⟨r, exec, found⟩ :=
        (Recompacted.readable_before clean₀ ids).scanTimeRange features start last
      obtain ⟨r', exec', found'⟩ := readable.scanTimeRange features start last
      rw [← scanTimeRange_seen left] at exec
      rw [← scanTimeRange_seen right] at exec'
      refine ⟨r, r', exec, exec', ?_⟩
      rw [found.rows, found'.rows]
      change (((segs.kept ids).rows ++ t₃.active.rows).filter _ : Multiset Row) = _
      rw [active]

/-- A compaction by a handle of the schema `S'` keeps the rows of a table of `S` exactly if it has
nothing to do, `S'` has all columns of `S`, or no scan could return a requested row. -/
theorem compact_under (h : Life serde root S d (some t) log)
    (opened : (Table.openTable serde root S').exec d = (.ok t₁, d₁))
    (run : (Table.compact serde ids).exec t₁ d₁ = ((.ok (), t₂), d₂)) :
    (∃ t₃ d₃, (Table.openTable serde root S).exec d₂ = (.ok t₃, d₃) ∧ SameRows d t d₃ t₃) ↔
      ids = [] ∨ S.columns ⊆ S'.columns ∨ Unseen d₁ [S, S'] ids t₁.sealed := by
  obtain ⟨segs, clean⟩ := h.inv
  exact clean.compacted_under opened run

/-! ## Compacting with fewer columns -/

/-- A table without unsealed rows opens under every schema. -/
theorem Clean.opens_under (h : Clean serde root S d t log segs)
    (applied : t.manifest.walRecordsApplied = log.length) (S' : Schema) :
    ∃ t₁ text, (Table.openTable serde root S').exec d = (.ok t₁, openedDisk root d text) := by
  obtain ⟨text, printed, -⟩ := serde.manifest.roundTrip t.manifest
  obtain ⟨records, read, logged⟩ := h.handle.holdsLog.readLog
  have none_left : records.drop t.manifest.walRecordsApplied = [] := by
    rw [applied, logged.length_eq, List.drop_length]
  have loaded := h.lists.holds.stored.loadedFrom
  rw [← h.lists.refs] at loaded
  refine ⟨⟨root, S', .empty S', segs.map Prod.fst, t.manifest,
    ⟨walPath root, UInt64.ofNat records.length⟩⟩, text,
    openTable_exec_eq_ok.mpr ⟨text, records, [], ?_, rfl⟩⟩
  exact ⟨rfl, rfl, .inl h.saved, loaded, printed, ⟨[], read⟩, by rw [none_left]; rfl, rfl, rfl⟩

theorem openedDisk_dirs {q : Path} {text : String} (h : d.dirs q = true) :
    (openedDisk root d text).dirs q = true := by
  simp [openedDisk, prepared, h]

/-- A compaction by a schema with fewer columns succeeds. -/
theorem Clean.compacts_under (h : Clean serde root S d t log segs)
    (applied : t.manifest.walRecordsApplied = log.length) (fewer : S'.columns ⊆ S.columns)
    (names : S'.Nameable) (room : t.manifest.nextSegmentId.toNat + 1 < 2 ^ 64)
    (present : ∀ id ∈ ids, ∃ s ∈ segs.map Prod.fst, s.id = id)
    (dirs : ∀ s ∈ segs, d.dirs (segmentDir root s.1.id) = true) :
    ∃ t₁ d₁ t₂ d₂, (Table.openTable serde root S').exec d = (.ok t₁, d₁) ∧
      (Table.compact serde ids).exec t₁ d₁ = ((.ok (), t₂), d₂) := by
  obtain ⟨t₁, text, opened⟩ := h.opens_under applied S'
  obtain ⟨⟨path, schema_eq, manifest, sealed⟩, clean⟩ := h.opened_other opened
  obtain ⟨picked, hpicked⟩ : ∃ picked : Segments,
      picked = segs.map fun s => (s.1, s.2.project S S') := ⟨_, rfl⟩
  have same : picked.map Prod.fst = segs.map Prod.fst := by simp [hpicked, Function.comp_def]
  have stored : AllStored serde root S' (openedDisk root d text) picked := by
    rw [hpicked, AllStored, List.forall_mem_map]
    exact fun s hs => (clean.handle.holds.stored s hs).project fewer
  have fits : Fits S' picked.rowCount := by
    have count : picked.rowCount = segs.rowCount := by
      rw [hpicked, Segments.rowCount, List.map_map]
      rfl
    rw [count]
    exact fun c hc => h.handle.fits.mono (Nat.le_add_right segs.rowCount _) c (fewer hc)
  have below : ∀ s ∈ picked, s.1.id < t₁.manifest.nextSegmentId := by
    rw [hpicked, List.forall_mem_map, manifest]
    exact h.handle.holds.below
  have removable : ∀ s ∈ picked, (openedDisk root d text).dirs (segmentDir root s.1.id) = true := by
    rw [hpicked, List.forall_mem_map]
    exact fun s hs => openedDisk_dirs (dirs s hs)
  obtain ⟨t₂, d₂, run⟩ := Table.compact_succeeds path schema_eq
    (by rw [sealed, h.handle.sealed, same]) (stored.read fits ids) fits names clean.handle.rootDir
    (by rwa [manifest]) below (by rwa [same]) removable
  exact ⟨t₁, _, t₂, d₂, opened, run⟩

/-! ## A table with a second column -/

def vColumn : ColumnDef := ⟨"v", .i64, by decide, by decide⟩

@[simp] theorem vColumn_dtype : vColumn.dtype = .i64 := rfl

/-- A table of timestamps with a number. -/
def pairSchema : Schema where
  name := "pairs"
  columns := [tsColumn, vColumn]
  timestampColumnIdx := 0
  name_ne := by decide
  nodup := by decide
  only_timestamp := .of_types (by decide) (by decide)

/-- The columns the other way round. -/
def swappedSchema : Schema where
  name := "pairs"
  columns := [vColumn, tsColumn]
  timestampColumnIdx := 1
  name_ne := by decide
  nodup := by decide
  only_timestamp := .of_types (by decide) (by decide)

def pair : RowBatch := ⟨[("ts", .timestamp [1]), ("v", .i64 [10])], 1⟩

theorem pair_small : Small pairSchema pair where
  built := ⟨⟨pairSchema, pair.columns⟩, rfl⟩
  wellFormed := RowBatchBuilder.build_wellFormed (b := ⟨pairSchema, pair.columns⟩) rfl
  nonempty := Nat.one_ne_zero
  encoded := ⟨_, rfl, by decide⟩

theorem nameable_pair {schema : Schema} (few : schema.columns ⊆ pairSchema.columns) :
    schema.Nameable := by
  intro column hc
  have mem := few hc
  simp only [pairSchema, List.mem_cons, List.not_mem_nil, or_false] at mem
  rcases mem with rfl | rfl
  · exact ⟨by decide, "ts.col", by decide⟩
  · exact ⟨by decide, "v.col", by decide⟩

/-- The only segment of a table is compacted by a schema with some of its columns. -/
theorem pair_compacted (serde : Serde) (root : Path) (few : S'.columns ⊆ pairSchema.columns) :
    ∃ d t segs t₁ d₁ t₂ d₂, Life serde root pairSchema d (some t) [pair] ∧
      Clean serde root pairSchema d t [pair] segs ∧
      segs.map (fun s => (s.1.id, s.2.rows)) = [(1, pair.rows)] ∧
      (Table.openTable serde root S').exec d = (.ok t₁, d₁) ∧
      (Table.compact serde [1]).exec t₁ d₁ = ((.ok (), t₂), d₂) := by
  have small : ∀ b ∈ [pair], Small pairSchema b := by simp [pair_small]
  obtain ⟨d, t, segs, reach, clean, next, applied, pairs, dirs⟩ := sealed_one_by_one serde root
    (nameable_pair (List.Subset.refl pairSchema.columns)) small (by decide)
  have present : ∀ id ∈ [(1 : UInt64)], ∃ s ∈ segs.map Prod.fst, s.id = id := by
    intro id mem
    obtain rfl := List.mem_singleton.mp mem
    obtain ⟨s, hs, same⟩ : ∃ s ∈ segs, (s.1.id, s.2.rows) = ((1 : UInt64), pair.rows) := by
      rw [← List.mem_map, pairs]
      exact List.mem_singleton_self _
    exact ⟨s.1, List.mem_map_of_mem hs, congrArg Prod.fst same⟩
  obtain ⟨t₁, d₁, t₂, d₂, opened, run⟩ :=
    clean.compacts_under applied few (nameable_pair few) (by rw [next]; decide) present dirs
  exact ⟨d, t, segs, t₁, d₁, t₂, d₂, reach.life, clean, pairs, opened, run⟩

theorem compact_under_swapped : ∃ d t t₁ d₁ t₂ d₂ t₃ d₃,
    Life jsonSerde ["db"] pairSchema d (some t) [pair] ∧
      (Table.openTable jsonSerde ["db"] swappedSchema).exec d = (.ok t₁, d₁) ∧
      (Table.compact jsonSerde [1]).exec t₁ d₁ = ((.ok (), t₂), d₂) ∧
      (Table.openTable jsonSerde ["db"] pairSchema).exec d₂ = (.ok t₃, d₃) ∧ SameRows d t d₃ t₃ := by
  have all : pairSchema.columns ⊆ swappedSchema.columns ∧
      swappedSchema.columns ⊆ pairSchema.columns := by simp [pairSchema, swappedSchema]
  obtain ⟨d, t, segs, t₁, d₁, t₂, d₂, life, -, -, opened, run⟩ :=
    pair_compacted jsonSerde ["db"] all.2
  obtain ⟨t₃, d₃, reopened, same⟩ := (compact_under life opened run).mpr (.inr (.inl all.1))
  exact ⟨d, t, t₁, d₁, t₂, d₂, t₃, d₃, life, opened, run, reopened, same⟩

/-- A compaction by the schema of the timestamps alone loses the numbers. -/
theorem compact_drops_column : ∃ d t t₁ d₁ t₂ d₂,
    Life jsonSerde ["db"] pairSchema d (some t) [pair] ∧
      (Table.openTable jsonSerde ["db"] tickSchema).exec d = (.ok t₁, d₁) ∧
      (Table.compact jsonSerde [1]).exec t₁ d₁ = ((.ok (), t₂), d₂) ∧
      ¬ ∃ t₃ d₃, (Table.openTable jsonSerde ["db"] pairSchema).exec d₂ = (.ok t₃, d₃) ∧
        SameRows d t d₃ t₃ := by
  have few : tickSchema.columns ⊆ pairSchema.columns := by simp [pairSchema, tickSchema]
  obtain ⟨d, t, segs, t₁, d₁, t₂, d₂, life, clean, pairs, opened, run⟩ :=
    pair_compacted jsonSerde ["db"] few
  refine ⟨d, t, t₁, d₁, t₂, d₂, life, opened, run, ?_⟩
  rw [clean.compacted_under opened run]
  obtain ⟨⟨-, -, -, sealed⟩, clean₁⟩ := clean.opened_other opened
  rintro (none | covers | unseen)
  · cases none
  · simp only [pairSchema, tickSchema, List.cons_subset, List.mem_singleton] at covers
    cases congrArg ColumnDef.dtype covers.2.1
  · obtain ⟨s, hs, same⟩ : ∃ s ∈ segs, (s.1.id, s.2.rows) = ((1 : UInt64), pair.rows) := by
      rw [← List.mem_map, pairs]
      exact List.mem_singleton_self _
    obtain ⟨id, rows⟩ := Prod.mk.inj same
    have part := Segments.rowCount_le hs
    have read := readBatch_exec (clean₁.handle.holds.stored s hs)
      (clean₁.handle.fits.mono (part.trans (Nat.le_add_right _ _)))
    rw [Unseen, sealed, clean.handle.sealed, List.forall_mem_map] at unseen
    have hidden := unseen s hs (by rw [id]; simp) pairSchema (by simp) s.2 d₁ read
      [.timestamp 1, .i64 10] (by rw [rows]; decide)
    exact absurd hidden (by decide)

end BypassIo.Db
