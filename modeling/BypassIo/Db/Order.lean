import BypassIo.Db.Reopen
import Mathlib.Data.List.TakeWhile

/-!
# The order of scans

A scan lists its rows in the order of the segments. A compaction puts the rows of all
requested segments where the first of them stood, so it moves them past the segments
between (`compact_reorders`). `compact_keeps_order` says when no scan sees the difference:
the visible rows from the first requested segment on are the same list when those of the
requested segments are taken first (`InOrder`). Adjacent segments always are.
-/

namespace BypassIo.Db
open Octet Rust FileSystem Columns

variable {serde : Serde} {root : Path} {schema : Schema} {d d' : Disk} {t t' : Table}
  {log log' : List RowBatch} {segs segs' : Segments} {ids : List UInt64}

/-! ## Rows that scans can return -/

/-- A row in some time range: every range ends before the last timestamp. -/
def visible (schema : Schema) : Row → Bool := inTime schema Int64.minValue Int64.maxValue

theorem visible_of_inTime {start last : Int64} {row : Row}
    (h : inTime schema start last row = true) : visible schema row = true := by
  unfold visible inTime at *
  cases found : row[schema.timestampColumnIdx]? with
  | none => simp [found] at h
  | some cell =>
    rw [found, Option.any_some] at h
    cases cell with
    | timestamp ts =>
      simp only [Cell.inTime, inRange, Bool.and_eq_true, decide_eq_true_eq, Option.any_some] at h ⊢
      exact ⟨Int64.minValue_le ts, Int64.lt_of_lt_of_le h.2 (Int64.le_maxValue last)⟩
    | _ => cases h

/-- The rows of a range are among the visible rows. -/
theorem filter_inTime_congr {rows rows' : List Row}
    (same : rows'.filter (visible schema) = rows.filter (visible schema)) (start last : Int64) :
    rows'.filter (inTime schema start last) = rows.filter (inTime schema start last) := by
  have narrow : ∀ rows : List Row, rows.filter (inTime schema start last) =
      (rows.filter (visible schema)).filter (inTime schema start last) := by
    intro rows
    rw [List.filter_filter]
    apply List.filter_congr
    intro row _
    cases inside : inTime schema start last row with
    | false => rfl
    | true => simp [visible_of_inTime inside]
  rw [narrow rows', narrow rows, same]

/-- For every time range the same rows in the same order. -/
def SameScans (d : Disk) (t : Table) (d' : Disk) (t' : Table) : Prop :=
  ∀ features start last, ∃ r r', (t.scanTimeRange features start last).exec d = (.ok r, d) ∧
    (t'.scanTimeRange features start last).exec d' = (.ok r', d') ∧
    r'.toBatch.rows = r.toBatch.rows

/-- Tables with the same active rows scan alike when their segments show the same rows. -/
theorem Readable.sameScans (h : Readable serde root schema d t segs)
    (h' : Readable serde root schema d' t' segs') (active : t'.active = t.active) :
    SameScans d t d' t' ↔
      segs'.rows.filter (visible schema) = segs.rows.filter (visible schema) := by
  constructor
  · intro same
    obtain ⟨r, r', run, run', rows⟩ := same ⟨true, true⟩ Int64.minValue Int64.maxValue
    obtain ⟨q, exec, found⟩ := h.scanTimeRange ⟨true, true⟩ Int64.minValue Int64.maxValue
    obtain ⟨q', exec', found'⟩ := h'.scanTimeRange ⟨true, true⟩ Int64.minValue Int64.maxValue
    obtain rfl : q = r := Except.ok.inj (Prod.mk.inj (exec.symm.trans run)).1
    obtain rfl : q' = r' := Except.ok.inj (Prod.mk.inj (exec'.symm.trans run')).1
    rw [found.rows, found'.rows, active, List.filter_append, List.filter_append] at rows
    exact List.append_cancel_right rows
  · intro same features start last
    obtain ⟨r, run, found⟩ := h.scanTimeRange features start last
    obtain ⟨r', run', found'⟩ := h'.scanTimeRange features start last
    refine ⟨r, r', run, run', ?_⟩
    rw [found.rows, found'.rows, active]
    apply filter_inTime_congr
    rw [List.filter_append, List.filter_append, same]

/-! ## Where the requested rows go -/

/-- From the first requested segment on, the rows of the requested segments can be taken first. -/
def InOrder (ids : List UInt64) (shown : List (UInt64 × List Row)) : Prop :=
  let affected := shown.dropWhile fun s => s.1 ∉ ids
  (affected.filter (fun s => s.1 ∈ ids) ++ affected.filter fun s => s.1 ∉ ids).flatMap Prod.snd =
    affected.flatMap Prod.snd

instance (ids : List UInt64) (shown : List (UInt64 × List Row)) : Decidable (InOrder ids shown) :=
  inferInstanceAs (Decidable (_ = _))

/-- The sealed segments, which hold `batches`: their ids and their visible rows. -/
def Table.shown (t : Table) (batches : List RowBatch) : List (UInt64 × List Row) :=
  t.sealed.zipWith (fun segment batch => (segment.id, batch.rows.filter (visible t.schema))) batches

namespace Segments

/-- The ids with the rows that pass. -/
def shown (segs : Segments) (p : Row → Bool) : List (UInt64 × List Row) :=
  segs.map fun s => (s.1.id, s.2.rows.filter p)

theorem flatMap_shown (segs : Segments) (p : Row → Bool) :
    (segs.shown p).flatMap Prod.snd = segs.rows.filter p := by
  rw [shown, List.flatMap_map, rows, List.filter_flatMap]

theorem filter_shown (segs : Segments) (p : Row → Bool) (ids : List UInt64) :
    (segs.shown p).filter (fun s => s.1 ∈ ids) = (segs.selected ids).shown p ∧
      (segs.shown p).filter (fun s => s.1 ∉ ids) = (segs.kept ids).shown p := by
  simp [shown, selected, kept, List.filter_map, Function.comp_def]

/-- Replacing the requested segments leaves the rows in order exactly if they were `InOrder`. -/
theorem rows_replace {new : ImmutableSegment × RowBatch} (p : Row → Bool)
    (rows : new.2.rows = (segs.selected ids).rows) :
    (segs.replace ids new).rows.filter p = segs.rows.filter p ↔ InOrder ids (segs.shown p) := by
  induction segs with
  | nil => simp [InOrder, replace, shown]
  | cons s segs ih =>
    by_cases chosen : s.1.id ∈ ids
    · have whole : (shown (s :: segs) p).dropWhile (fun s => s.1 ∉ ids) = shown (s :: segs) p := by
        simp [shown, chosen]
      obtain ⟨selected_shown, kept_shown⟩ := filter_shown (s :: segs) p ids
      rw [InOrder, whole, selected_shown, kept_shown, List.flatMap_append, flatMap_shown,
        flatMap_shown, flatMap_shown, replace, if_pos chosen, kept_cons, if_pos chosen, ← rows]
      simp [Segments.rows]
    · have later := ih (by rw [rows, selected_cons, if_neg chosen])
      have skip : InOrder ids (shown (s :: segs) p) ↔ InOrder ids (shown segs p) := by
        simp [InOrder, shown, chosen]
      rw [skip, ← later, replace, if_neg chosen]
      simp [Segments.rows]

end Segments

/-- Without a requested segment nothing moves. -/
theorem inOrder_of_none {shown : List (UInt64 × List Row)} (none : ∀ s ∈ shown, s.1 ∉ ids) :
    InOrder ids shown := by
  have skip : shown.dropWhile (fun s => s.1 ∉ ids) = [] := by
    rw [List.dropWhile_eq_nil_iff]
    intro s hs
    simpa using none s hs
  rw [InOrder, skip]
  rfl

/-- Adjacent segments can be compacted, wherever they stand. -/
theorem inOrder_of_adjacent {front chosen back : List (UInt64 × List Row)}
    (before : ∀ s ∈ front, s.1 ∉ ids) (there : ∀ s ∈ chosen, s.1 ∈ ids)
    (behind : ∀ s ∈ back, s.1 ∉ ids) : InOrder ids (front ++ (chosen ++ back)) := by
  have skip : (front ++ (chosen ++ back)).dropWhile (fun s => s.1 ∉ ids) =
      (chosen ++ back).dropWhile fun s => s.1 ∉ ids := by
    apply List.dropWhile_append_of_pos
    intro s hs
    simpa using before s hs
  rw [InOrder, skip, ← InOrder]
  cases chosen with
  | nil => exact inOrder_of_none behind
  | cons s chosen =>
    have whole : (s :: chosen ++ back).dropWhile (fun s => s.1 ∉ ids) = s :: chosen ++ back :=
      List.dropWhile_cons_of_neg (by simpa using there s List.mem_cons_self)
    have all : (s :: chosen).filter (fun s => s.1 ∈ ids) = s :: chosen := by
      rw [List.filter_eq_self]
      intro s hs
      simpa using there s hs
    have rest : back.filter (fun s => s.1 ∉ ids) = back := by
      rw [List.filter_eq_self]
      intro s hs
      simpa using behind s hs
    have no_more : back.filter (fun s => s.1 ∈ ids) = [] := by
      rw [List.filter_eq_nil_iff]
      intro s hs
      simpa using behind s hs
    have none_other : (s :: chosen).filter (fun s => s.1 ∉ ids) = [] := by
      rw [List.filter_eq_nil_iff]
      intro s hs
      simpa using there s hs
    rw [InOrder, whole, List.filter_append, all, no_more, List.filter_append, none_other, rest,
      List.append_nil, List.nil_append]

/-! ## The compaction -/

/-- A clean table shows its segments. -/
theorem Clean.shown (h : Clean serde root schema d t log segs) :
    t.shown (segs.map Prod.snd) = segs.shown (visible schema) := by
  rw [Table.shown, h.handle.sealed, h.handle.schema_eq, List.zipWith_map, Segments.shown]
  simp [List.zipWith_self]

/-- The scans of clean tables with the same active rows. -/
theorem Clean.sameScans (h : Clean serde root schema d t log segs)
    (h' : Clean serde root schema d' t' log' segs') (active : t'.active = t.active) :
    SameScans d t d' t' ↔
      segs'.rows.filter (visible schema) = segs.rows.filter (visible schema) :=
  h.handle.readable.sameScans h'.handle.readable active

/-- Scans of a clean table are the same after a compaction exactly if the rows are `InOrder`. -/
theorem Clean.sameScans_compact (h : Clean serde root schema d t log segs)
    (run : (Table.compact serde ids).exec t d = ((.ok (), t'), d')) :
    ∃ segs', Clean serde root schema d' t' log segs' ∧ t'.active = t.active ∧
      (SameScans d t d' t' ↔ InOrder ids (segs.shown (visible schema))) := by
  rcases h.compact_cases run with ⟨rfl, rfl, rfl⟩ | ⟨new, compacted, rows, active⟩
  · refine ⟨segs, h, rfl, iff_of_true ((h.sameScans h rfl).mpr rfl) ?_⟩
    exact inOrder_of_none fun s _ => List.not_mem_nil
  · refine ⟨_, compacted, active, ?_⟩
    rw [h.sameScans compacted active, Segments.rows_replace _ rows]

/-- A compaction keeps the scan order, at once and after a reopening, exactly if the visible rows
of the requested segments can be taken first. -/
theorem compact_keeps_order (h : Reach serde root schema d t log)
    (run : (Table.compact serde ids).exec t d = ((.ok (), t'), d')) :
    ∃ batches, t.readSealed.exec d = (.ok batches, d) ∧
      ((SameScans d t d' t' ∧ ∃ t'' d'', (Table.openTable serde root schema).exec d' = (.ok t'', d'') ∧
        SameScans d t d'' t'') ↔ InOrder ids (t.shown batches)) := by
  obtain ⟨segs, clean⟩ := h.clean
  obtain ⟨segs', after, active, same⟩ := clean.sameScans_compact run
  refine ⟨_, readSealed_exec clean, ?_⟩
  rw [clean.shown, ← same]
  refine ⟨And.left, fun kept => ⟨kept, ?_⟩⟩
  obtain ⟨t'', d'', opened, manifest, reopened⟩ :=
    Clean.opened after.handle.holdsLog (.inl after.saved) after.lists
  obtain rfl := after.unique reopened manifest
  exact ⟨_, d'', opened, (clean.sameScans reopened active).mpr ((clean.sameScans after active).mp kept)⟩

/-- A compaction of adjacent segments keeps the scan order, wherever they stand. -/
theorem compact_adjacent (h : Reach serde root schema d t log)
    (run : (Table.compact serde ids).exec t d = ((.ok (), t'), d')) {front chosen back : List UInt64}
    (listed : t.sealed.map ImmutableSegment.id = front ++ (chosen ++ back))
    (before : ∀ id ∈ front, id ∉ ids) (there : ∀ id ∈ chosen, id ∈ ids)
    (behind : ∀ id ∈ back, id ∉ ids) : SameScans d t d' t' := by
  obtain ⟨segs, clean⟩ := h.clean
  obtain ⟨segs', -, -, same⟩ := clean.sameScans_compact run
  apply same.mpr
  have split_ids : (segs.shown (visible schema)).map Prod.fst = front ++ (chosen ++ back) := by
    rw [← listed, clean.handle.sealed, Segments.shown, List.map_map, List.map_map]
    rfl
  obtain ⟨first, rest, shown, rfl, others⟩ := List.map_eq_append_iff.mp split_ids
  obtain ⟨middle, last, rfl, rfl, rfl⟩ := List.map_eq_append_iff.mp others
  rw [shown]
  rw [List.forall_mem_map] at before there behind
  exact inOrder_of_adjacent before there behind

/-! ## Three rows in three segments -/

def tickAt (ts : Int64) : RowBatch := ⟨[("ts", .timestamp [ts])], 1⟩

theorem tickAt_small (ts : Int64) : Small tickSchema (tickAt ts) where
  built := ⟨⟨tickSchema, (tickAt ts).columns⟩, rfl⟩
  wellFormed := RowBatchBuilder.build_wellFormed (b := ⟨tickSchema, (tickAt ts).columns⟩) rfl
  nonempty := Nat.one_ne_zero
  encoded := ⟨_, rfl, by simp [tickAt]; decide⟩

/-- What the segments of single timestamps show. -/
theorem shown_ticks {times : List Int64} {segs : Segments}
    (pairs : segs.map (fun s => (s.1.id, s.2.rows)) =
      ((times.map tickAt).zipIdx 1).map fun b => (UInt64.ofNat b.2, b.1.rows)) :
    segs.shown (visible tickSchema) = ((times.map tickAt).zipIdx 1).map fun b =>
      (UInt64.ofNat b.2, b.1.rows.filter (visible tickSchema)) := by
  have through := congrArg (List.map fun s => (s.1, s.2.filter (visible tickSchema))) pairs
  simpa only [List.map_map, Function.comp_def, Segments.shown] using through

/-- The first and the last of three segments are compacted: the row between comes last. -/
theorem compact_reorders : ∃ d t t' d',
    Reach jsonSerde ["db"] tickSchema d t [tickAt 1, tickAt 2, tickAt 3] ∧
      (Table.compact jsonSerde [1, 3]).exec t d = ((.ok (), t'), d') ∧ ¬ SameScans d t d' t' := by
  have small : ∀ b ∈ [1, 2, 3].map tickAt, Small tickSchema b := by
    simp [tickAt_small]
  obtain ⟨d, t, segs, t', d', reach, clean, pairs, run⟩ := compacted_one_by_one
    jsonSerde ["db"] tickSchema_nameable small (by decide) [1, 3]
    (List.forall_mem_cons.mpr
      ⟨⟨0, by decide, rfl⟩, List.forall_mem_singleton.mpr ⟨2, by decide, rfl⟩⟩)
  obtain ⟨segs', -, -, same⟩ := clean.sameScans_compact run
  refine ⟨d, t, t', d', reach, run, ?_⟩
  rw [same, shown_ticks pairs]
  decide

/-- All three segments, or the last two, can be compacted. -/
theorem compact_keeps_order_ticks : ∃ d t t' d',
    Reach jsonSerde ["db"] tickSchema d t [tickAt 1, tickAt 2, tickAt 3] ∧
      (Table.compact jsonSerde [2, 3]).exec t d = ((.ok (), t'), d') ∧ SameScans d t d' t' := by
  have small : ∀ b ∈ [1, 2, 3].map tickAt, Small tickSchema b := by
    simp [tickAt_small]
  obtain ⟨d, t, segs, t', d', reach, clean, pairs, run⟩ := compacted_one_by_one
    jsonSerde ["db"] tickSchema_nameable small (by decide) [2, 3]
    (List.forall_mem_cons.mpr
      ⟨⟨1, by decide, rfl⟩, List.forall_mem_singleton.mpr ⟨2, by decide, rfl⟩⟩)
  obtain ⟨batches, read, kept⟩ := compact_keeps_order reach run
  obtain rfl : segs.map Prod.snd = batches := by
    have again := (readSealed_exec clean).symm.trans read
    exact Except.ok.inj (Prod.mk.inj again).1
  refine ⟨d, t, t', d', reach, run, (kept.mpr ?_).1⟩
  rw [clean.shown, shown_ticks pairs]
  decide

end BypassIo.Db
