import BypassIo.Db.Directory
import Mathlib.Algebra.Order.BigOperators.Group.List

/-!
# What a compaction does

`combine_exec` gives the rows of the replacement, `replaceSelected_eq` the new list of
segments. `Compacted` lists the ways in which `compact` can end, `CompactCrash` what a kill
leaves; `compact_wp` shows that there are no others. Old directories are removed only once
the stored manifest no longer lists them.
-/

namespace BypassIo.Db
open Octet Rust FileSystem Columns

variable {serde : Serde} {root : Path} {schema : Schema} {may : Call → Prop} {d : Disk}

/-- A sealed segment with the batch its files hold. -/
abbrev Segments := List (ImmutableSegment × RowBatch)

namespace Segments

/-- The rows of all segments, in order. -/
def rows (segs : Segments) : List Row := segs.flatMap (·.2.rows)

def rowCount (segs : Segments) : Nat := (segs.map (·.2.rowCount)).sum

theorem rowCount_le {segs : Segments} {s : ImmutableSegment × RowBatch} (hs : s ∈ segs) :
    s.2.rowCount ≤ segs.rowCount :=
  List.single_le_sum (fun _ _ => Nat.zero_le _) _
    (List.mem_map_of_mem (f := fun s => s.2.rowCount) hs)

/-- The segments whose id is requested. -/
def selected (segs : Segments) (requested : List UInt64) : Segments :=
  segs.filter (·.1.id ∈ requested)

/-- The segments that stay. -/
def kept (segs : Segments) (requested : List UInt64) : Segments :=
  segs.filter fun s => s.1.id ∉ requested

theorem kept_cons (s : ImmutableSegment × RowBatch) (segs : Segments) (requested : List UInt64) :
    kept (s :: segs) requested =
      if s.1.id ∈ requested then segs.kept requested else s :: segs.kept requested := by
  split <;> simp_all [kept]

theorem selected_cons (s : ImmutableSegment × RowBatch) (segs : Segments)
    (requested : List UInt64) :
    selected (s :: segs) requested =
      if s.1.id ∈ requested then s :: segs.selected requested else segs.selected requested := by
  split <;> simp_all [selected]

/-- The new segment stands where the first requested one stood. -/
def replace (requested : List UInt64) (new : ImmutableSegment × RowBatch) : Segments → Segments
  | [] => []
  | s :: segs =>
    if s.1.id ∈ requested then new :: kept segs requested else s :: replace requested new segs

theorem replace_perm {requested : List UInt64} (new : ImmutableSegment × RowBatch) {segs : Segments}
    (some_id : ∃ s ∈ segs, s.1.id ∈ requested) :
    (replace requested new segs).Perm (new :: segs.kept requested) := by
  induction segs with
  | nil => simp at some_id
  | cons s segs ih =>
    rw [replace, kept_cons]
    by_cases chosen : s.1.id ∈ requested
    · rw [if_pos chosen, if_pos chosen]
    · rw [if_neg chosen, if_neg chosen]
      have later : ∃ s ∈ segs, s.1.id ∈ requested := by
        obtain ⟨s', mem, hs'⟩ := some_id
        rcases List.mem_cons.mp mem with rfl | mem
        · exact absurd hs' chosen
        · exact ⟨s', mem, hs'⟩
      exact ((ih later).cons s).trans (List.Perm.swap new s _)

theorem rows_perm {segs segs' : Segments} (h : segs.Perm segs') : segs.rows.Perm segs'.rows :=
  h.flatMap_right _

/-- Every row is in a selected segment or in one that stays. -/
theorem selected_kept_perm (segs : Segments) (requested : List UInt64) :
    (segs.selected requested ++ segs.kept requested).Perm segs := by
  have split := List.filter_append_perm (fun s : ImmutableSegment × RowBatch =>
    decide (s.1.id ∈ requested)) segs
  simpa [selected, kept] using split

end Segments

/-- Every listed segment is stored. -/
def AllStored (serde : Serde) (root : Path) (schema : Schema) (d : Disk) (segs : Segments) : Prop :=
  ∀ s ∈ segs, Stored serde root schema d s.1 s.2

/-- Every segment has its own directory, and the requested ones read as their batches. -/
def AllRead (root : Path) (schema : Schema) (d : Disk) (requested : List UInt64)
    (segs : Segments) : Prop :=
  ∀ s ∈ segs, s.1.path = segmentDir root s.1.id ∧
    (s.1.id ∈ requested → s.2.WellFormed schema ∧ s.2.rowCount ≠ 0 ∧
      (s.1.readBatch schema).exec d = (.ok s.2, d))

theorem AllStored.read {segs : Segments} (stored : AllStored serde root schema d segs)
    (fits : Fits schema segs.rowCount) (requested : List UInt64) :
    AllRead root schema d requested segs := by
  intro s hs
  have here := stored s hs
  have read := readBatch_exec here (fits.mono (Segments.rowCount_le hs))
  exact ⟨here.path, fun _ => ⟨here.wellFormed, here.nonempty, read⟩⟩

/-- The requested segments have at most all rows. -/
theorem AllRead.length_selected_le {requested : List UInt64} {segs : Segments}
    (reads : AllRead root schema d requested segs) :
    (segs.selected requested).rows.length ≤ segs.rowCount := by
  have counts : (segs.selected requested).rows.length = (segs.selected requested).rowCount := by
    rw [Segments.rows, List.length_flatMap]
    refine congrArg List.sum (List.map_congr_left fun s hs => ?_)
    obtain ⟨mem, chosen⟩ := List.mem_filter.mp hs
    exact ((reads s mem).2 (of_decide_eq_true chosen)).1.length_rows
  rw [counts]
  exact (List.filter_sublist.map _).sum_le_sum fun _ _ => Nat.zero_le _

namespace Table

/-! ## The loops -/

theorem combine_readOnly (requested : List UInt64) (sealed : List ImmutableSegment)
    (combined : RowBatch) : (combine schema requested sealed combined).ReadOnly := by
  induction sealed generalizing combined with
  | nil => exact Query.readOnly_pure _
  | cons segment sealed ih =>
    rw [combine]
    split
    · refine (readBatch_readOnly segment schema).bind fun batch => ?_
      rcases combined.append batch with ⟨_ | _, both⟩
      · exact Query.readOnly_throw _
      · exact ih both
    · exact ih combined

theorem combine_strict (requested : List UInt64) (sealed : List ImmutableSegment)
    (combined : RowBatch) : (combine schema requested sealed combined).Strict := by
  induction sealed generalizing combined with
  | nil => exact Query.strict_pure _
  | cons segment sealed ih =>
    rw [combine]
    split
    · refine (readBatch_strict segment schema).bind fun batch => ?_
      rcases combined.append batch with ⟨_ | _, both⟩
      · exact Query.strict_throw _
      · exact ih both
    · exact ih combined

/-- The read loop gathers the rows of the requested segments. -/
theorem combine_exec (requested : List UInt64) {segs : Segments} {combined : RowBatch}
    (reads : AllRead root schema d requested segs) (ok : combined.WellFormed schema)
    (room : combined.rowCount + segs.rowCount ≤ usizeMax) :
    ∃ b, (combine schema requested (segs.map Prod.fst) combined).exec d = (.ok b, d) ∧
      b.WellFormed schema ∧ b.rows = combined.rows ++ (segs.selected requested).rows := by
  induction segs generalizing combined with
  | nil => exact ⟨combined, rfl, ok, by simp [Segments.selected, Segments.rows]⟩
  | cons s segs ih =>
    simp only [Segments.rowCount, List.map_cons, List.sum_cons] at room
    obtain ⟨-, here⟩ := reads s List.mem_cons_self
    have later : AllRead root schema d requested segs :=
      fun s hs => reads s (List.mem_cons_of_mem _ hs)
    simp only [List.map_cons, combine]
    by_cases chosen : s.1.id ∈ requested
    · obtain ⟨okHere, -, read⟩ := here chosen
      obtain ⟨both, happ, okBoth, rows, count⟩ := ok.append okHere (by omega)
      obtain ⟨b, run, okb, all⟩ := ih later okBoth (by
        simp only [count, Segments.rowCount]
        omega)
      refine ⟨b, ?_, okb, ?_⟩
      · rw [if_pos chosen, Query.exec_bind_ok read, happ]
        exact run
      · rw [all, rows, Segments.selected_cons, if_pos chosen]
        simp [Segments.rows]
    · obtain ⟨b, run, okb, all⟩ := ih later ok (by
        simp only [Segments.rowCount]
        omega)
      refine ⟨b, by rwa [if_neg chosen], okb, ?_⟩
      rw [all, Segments.selected_cons, if_neg chosen]

/-- Behind the insertion point only the segments that stay are left. -/
theorem replaceSelected_behind {requested : List UInt64} {replacement : ImmutableSegment}
    {insertAt idx : Nat} (behind : insertAt < idx) (segs : Segments) :
    replaceSelected requested replacement insertAt (segs.map Prod.fst) idx =
      (segs.kept requested).map Prod.fst := by
  induction segs generalizing idx with
  | nil => rfl
  | cons s segs ih =>
    have other : idx ≠ insertAt := by omega
    have tail := ih (by omega : insertAt < idx + 1)
    simp only [List.map_cons, replaceSelected, if_neg other, tail, Segments.kept_cons]
    split <;> rfl

/-- The second loop puts the replacement at the first requested segment. -/
theorem replaceSelected_eq {requested : List UInt64} {segs : Segments} {at' : Nat} (idx : Nat)
    (new : ImmutableSegment × RowBatch)
    (found : (segs.map Prod.fst).findIdx? (fun s => s.id ∈ requested) = some at') :
    replaceSelected requested new.1 (idx + at') (segs.map Prod.fst) idx =
      (segs.replace requested new).map Prod.fst := by
  induction segs generalizing at' idx with
  | nil => simp at found
  | cons s segs ih =>
    rw [Segments.replace]
    by_cases chosen : s.1.id ∈ requested
    · obtain rfl : at' = 0 := by simpa [List.findIdx?_cons, chosen] using found.symm
      rw [if_pos chosen]
      simp [replaceSelected, chosen, replaceSelected_behind (Nat.lt_succ_self idx)]
    · obtain ⟨at', rfl, found'⟩ : ∃ j, at' = j + 1 ∧
          (segs.map Prod.fst).findIdx? (fun s => s.id ∈ requested) = some j := by
        simp only [List.map_cons, List.findIdx?_cons, chosen] at found
        obtain ⟨j, hj, rfl⟩ := Option.map_eq_some_iff.mp found
        exact ⟨j, rfl, hj⟩
      have tail := ih (idx + 1) found'
      have other : ¬ idx = idx + at' + 1 := by omega
      rw [Nat.add_right_comm] at tail
      rw [if_neg chosen]
      simp only [List.map_cons, replaceSelected, ← Nat.add_assoc, tail, chosen, other]
      rfl

/-- No id is missing when each is the id of some segment. -/
theorem missingIds_eq_nil {requested : List UInt64} {sealed : List ImmutableSegment} :
    missingIds requested sealed = [] ↔ ∀ id ∈ requested, ∃ s ∈ sealed, s.id = id := by
  constructor
  · intro h id mem
    by_contra absent
    have missing : id ∈ missingIds requested sealed := by
      simp only [missingIds, List.mem_mergeSort, List.mem_dedup, List.mem_filter, mem]
      grind
    rw [h] at missing
    cases missing
  · intro present
    apply List.eq_nil_iff_forall_not_mem.mpr
    intro id mem
    simp only [missingIds, List.mem_mergeSort, List.mem_dedup, List.mem_filter] at mem
    obtain ⟨s, listed, same⟩ := present id mem.1
    grind

theorem removeOld_confined {K : Path → Prop} {oldPaths : List Path}
    (inside : ∀ p ∈ oldPaths, ∀ q, p <+: q → K q) : (removeOld oldPaths).Confined K := by
  induction oldPaths with
  | nil => exact Query.confined_pure _
  | cons oldPath oldPaths ih =>
    have rest := ih fun p hp => inside p (List.mem_cons_of_mem _ hp)
    have look : (pathExists oldPath).Confined K :=
      ⟨fun _ hq => hq.elim, fun r => by cases r <;> trivial⟩
    refine look.bind fun found => ?_
    split
    · exact Query.Confined.bind
        (Query.confined_io fun q hq => inside oldPath List.mem_cons_self q hq) fun _ => rest
    · exact rest

/-! ## The whole operation -/

end Table

/-- The manifest that lists the new segments. -/
def Manifest.relist (m : Manifest) (newSealed : List ImmutableSegment) : Manifest :=
  { m with
    nextSegmentId := m.nextSegmentId + 1
    sealedSegments := newSealed.map segmentRef }

namespace Table

section Compact

variable (serde : Serde) (root : Path) (schema : Schema) (requested : List UInt64)
  (segs : Segments) (t : Table) (d : Disk)

/-- `segs'` has one new segment for the requested ones of `segs`. -/
def Replaced (segs' : Segments) (d' : Disk) : Prop :=
  ∃ new : ImmutableSegment × RowBatch,
    NewSegment serde root schema t.manifest new.2 d' new.1 ∧
    new.2.rows = (segs.selected requested).rows ∧ segs'.Perm (new :: segs.kept requested) ∧
    segs' = segs.replace requested new

/-- What `compact` may write or remove. -/
def CompactOwned (q : Path) : Prop :=
  Owned root t.manifest.nextSegmentId q ∨ ∃ s ∈ segs.selected requested, InSegment root s.1.id q

/-- How `compact` ends: the result, the handle, the disk. -/
inductive Compacted : Outcome TableError Unit → Table → Disk → Prop where
  /-- No id is requested. -/
  | idle : requested = [] → Compacted (.ok ()) t d
  /-- It failed before it changed the manifest in memory. -/
  | untouched {e d'} : requested ≠ [] → d.EqOff (InSegment root t.manifest.nextSegmentId) d' →
      Compacted (.error e) t d'
  /-- It failed to store the manifest that lists the replacement. -/
  | relisted {e d' segs'} : requested ≠ [] → d.EqOff (Owned root t.manifest.nextSegmentId) d' →
      Replaced serde root schema requested segs t segs' d' →
      d'.files (manifestPath root) = d.files (manifestPath root) ∨
        SavedManifest serde root d' (t.manifest.relist (segs'.map Prod.fst)) →
      Compacted (.error e) { t with manifest := t.manifest.relist (segs'.map Prod.fst) } d'
  /-- The manifest is stored; old directories may still be there. -/
  | committed {r d' segs'} : requested ≠ [] → d.EqOff (CompactOwned root requested segs t) d' →
      Replaced serde root schema requested segs t segs' d' →
      SavedManifest serde root d' (t.manifest.relist (segs'.map Prod.fst)) →
      Compacted r
        { t with
          manifest := t.manifest.relist (segs'.map Prod.fst)
          sealed := segs'.map Prod.fst } d'

/-- What a kill inside `compact` leaves. -/
inductive CompactCrash : Disk → Prop where
  | before {d'} : d.EqOff (Owned root t.manifest.nextSegmentId) d' →
      d'.files (manifestPath root) = d.files (manifestPath root) → CompactCrash d'
  | after {d' segs'} : requested ≠ [] → d.EqOff (CompactOwned root requested segs t) d' →
      Replaced serde root schema requested segs t segs' d' →
      SavedManifest serde root d' (t.manifest.relist (segs'.map Prod.fst)) → CompactCrash d'

end Compact

variable {t : Table} {segs : Segments} {requested : List UInt64}

/-- However `compact` ends, a kill can leave the same disk. -/
theorem Compacted.crash {r : Outcome TableError Unit} {t' : Table} {d' : Disk}
    (h : Compacted serde root schema requested segs t d r t' d') :
    CompactCrash serde root schema requested segs t d d' := by
  cases h with
  | idle => exact .before (.refl _ _) rfl
  | untouched _ eqOff =>
    exact .before (eqOff.mono fun _ => .inl) (eqOff.files _ (manifestPath_not_inSegment _))
  | relisted nonempty eqOff replaced file =>
    rcases file with same | saved
    · exact .before eqOff same
    · exact .after nonempty (eqOff.mono fun _ => .inl) replaced saved
  | committed nonempty eqOff replaced saved => exact .after nonempty eqOff replaced saved

/-- The directories of the requested segments. -/
def OldDirectories (root : Path) (requested : List UInt64) (segs : Segments) (q : Path) : Prop :=
  ∃ s ∈ segs.selected requested, InSegment root s.1.id q

theorem removeOld_selected_confined (reads : AllRead root schema d requested segs) :
    (removeOld (((segs.map Prod.fst).filter fun s => s.id ∈ requested).map
      ImmutableSegment.path)).Confined (OldDirectories root requested segs) := by
  refine removeOld_confined fun p hp q hq => ?_
  obtain ⟨segment, mem, rfl⟩ := List.mem_map.mp hp
  obtain ⟨listed, chosen⟩ := List.mem_filter.mp mem
  obtain ⟨s, hs, rfl⟩ := List.mem_map.mp listed
  refine ⟨s, List.mem_filter.mpr ⟨hs, chosen⟩, ?_⟩
  rwa [(reads s hs).1] at hq

/-- The replacement is not in the directories of the requested segments. -/
theorem Replaced.removed {segs' : Segments} {d' : Disk}
    (h : Replaced serde root schema requested segs t segs' d)
    (below : ∀ s ∈ segs, s.1.id < t.manifest.nextSegmentId)
    (removed : d.EqOff (OldDirectories root requested segs) d') :
    Replaced serde root schema requested segs t segs' d' := by
  obtain ⟨new, there, rows, perm, replace⟩ := h
  have apart : ∀ q, InSegment root t.manifest.nextSegmentId q →
      ¬ OldDirectories root requested segs q := by
    rintro q hq ⟨s, hs, old⟩
    have lt := below s (List.mem_filter.mp hs).1
    rw [inSegment_unique old hq] at lt
    exact absurd lt (UInt64.lt_irrefl _)
  have still : NewSegment serde root schema t.manifest new.2 d' new.1 :=
    { there with
      stored := there.stored.frame fun q hq => removed.files q (apart q (there.id ▸ hq))
      dir := removed.dirs _ (apart _ (List.prefix_refl _)) there.dir }
  exact ⟨new, still, rows, perm, replace⟩

/-- The requested rows are some rows. -/
theorem selected_nonempty (reads : AllRead root schema d requested segs)
    (nonempty : requested ≠ [])
    (present : ∀ id ∈ requested, ∃ s ∈ segs.map Prod.fst, s.id = id) :
    (segs.selected requested).rows ≠ [] ∧ (∃ s ∈ segs, s.1.id ∈ requested) ∧
      ∃ i, (segs.map Prod.fst).findIdx? (fun s => s.id ∈ requested) = some i := by
  obtain ⟨id, hid⟩ := List.exists_mem_of_ne_nil _ nonempty
  obtain ⟨segment, hmem, rfl⟩ := present id hid
  obtain ⟨s, hs, rfl⟩ := List.mem_map.mp hmem
  refine ⟨fun none => ?_, ⟨s, hs, hid⟩, ?_⟩
  · obtain ⟨-, here⟩ := reads s hs
    obtain ⟨ok, some_row, -⟩ := here hid
    have chosen : s ∈ segs.selected requested := List.mem_filter.mpr ⟨hs, by simpa using hid⟩
    exact some_row (ok.rows_eq_nil.mp (List.flatMap_eq_nil_iff.mp none s chosen))
  · rw [← Option.isSome_iff_exists, List.findIdx?_isSome, List.any_eq_true]
    exact ⟨s.1, hmem, by simpa using hid⟩

theorem compact_wp (path : t.path = root) (sch : t.schema = schema)
    (sealed : t.sealed = segs.map Prod.fst) (reads : AllRead root schema d requested segs)
    (below : ∀ s ∈ segs, s.1.id < t.manifest.nextSegmentId) (room : segs.rowCount ≤ usizeMax) :
    (compact serde requested).wp may (Compacted serde root schema requested segs t d)
      (CompactCrash serde root schema requested segs t d) t d := by
  have crash_seal : ∀ d', d.EqOff (InSegment root t.manifest.nextSegmentId) d' →
      CompactCrash serde root schema requested segs t d d' := fun d' off =>
    .before (off.mono fun _ => .inl) (off.files _ (manifestPath_not_inSegment _))
  unfold compact
  refine Method.wp_get_bind.mpr ?_
  by_cases idle : requested = []
  · rw [if_pos idle]
    exact .idle idle
  rw [if_neg idle]
  by_cases missing : missingIds requested t.sealed = []
  swap
  · rw [if_pos missing]
    exact .untouched idle (.refl _ _)
  rw [if_neg (not_not.mpr missing), path, sch, sealed]
  have present := missingIds_eq_nil.mp missing
  rw [sealed] at present
  obtain ⟨some_row, some_id, at', found⟩ := selected_nonempty reads idle present
  -- The requested batches are read.
  obtain ⟨b, run, ok, rows⟩ := combine_exec requested reads
    (RowBatch.empty_wellFormed schema) (by simpa [RowBatch.empty] using room)
  rw [RowBatch.rows_empty, List.nil_append] at rows
  refine Method.wp_query_seq ((combine_readOnly _ _ _).wp (combine_strict _ _ _) d) ?_ ?_ ?_
  rotate_left
  · rintro e d' ⟨rfl, -⟩
    exact .untouched idle (.refl _ _)
  · rintro d' rfl
    exact crash_seal _ (.refl _ _)
  rintro combined d' ⟨rfl, exec⟩
  obtain rfl : combined = b := by
    have same := (exec combined rfl).symm.trans run
    exact Except.ok.inj (Prod.mk.inj same).1
  have nonempty : combined.rowCount ≠ 0 := fun zero =>
    some_row (rows ▸ ok.rows_eq_nil.mpr zero)
  rw [if_neg nonempty]
  -- The replacement is written.
  refine Method.wp_query_seq (sealBatch_wp ok nonempty d') ?_
    (fun e d₁ h => .untouched idle h.1) crash_seal
  rintro replacement d₁ ⟨off, wrote⟩
  obtain ⟨storedNew, named, newDir, names⟩ := wrote replacement rfl
  refine Method.wp_seq bumpSegmentId_wp ?_ ?_ fun _ h => h.elim
  rotate_left
  · rintro e t₁ d₂ ⟨rfl, ⟨-, -, rfl⟩ | ⟨failed, -⟩⟩
    · exact .untouched idle off
    · cases failed
  rintro ⟨⟩ t₁ d₂ ⟨rfl, ⟨e, failed, -⟩ | ⟨-, roomId, rfl⟩⟩
  · cases failed
  have new : NewSegment serde root schema t.manifest combined d₂ replacement :=
    ⟨storedNew, named, roomId, newDir, names⟩
  have newSealed := replaceSelected_eq 0 (replacement, combined) found
  have perm := Segments.replace_perm (replacement, combined) some_id
  obtain ⟨segs', hsegs⟩ : ∃ segs', segs' = segs.replace requested (replacement, combined) := ⟨_, rfl⟩
  rw [← hsegs] at perm
  rw [Nat.zero_add, ← hsegs] at newSealed
  simp only [found, newSealed]
  refine Method.wp_modify_bind.mpr ?_
  have replaced : ∀ d₃, Storing serde root (t.manifest.relist (segs'.map Prod.fst)) d₂ d₃ →
      Replaced serde root schema requested segs t segs' d₃ := fun d₃ storing =>
    ⟨_, new.storing storing, rows, perm, hsegs⟩
  have widen : ∀ d₃, Storing serde root (t.manifest.relist (segs'.map Prod.fst)) d₂ d₃ →
      d'.EqOff (CompactOwned root requested segs t) d₃ := fun d₃ storing =>
    (owned off storing).mono fun _ => .inl
  have file := off.files _ (manifestPath_not_inSegment t.manifest.nextSegmentId)
  -- The manifest is stored.
  refine Method.wp_seq (storeManifest_wp path) ?_ ?_ ?_
  rotate_left
  · rintro e t₂ d₃ ⟨rfl, storing, -⟩
    exact .relisted idle (owned off storing) (replaced d₃ storing) (file ▸ storing.file)
  · intro d₃ storing
    rcases storing.file with same | saved
    · exact .before (owned off storing) (same.trans file)
    · exact .after idle (widen d₃ storing) (replaced d₃ storing) saved
  rintro ⟨⟩ t₂ d₃ ⟨rfl, storing, saved⟩
  refine Method.wp_modify_bind.mpr (Method.wp_query.mpr ?_)
  -- The old directories are removed; they are not those the new manifest lists.
  have after : ∀ d₄, d₃.EqOff (OldDirectories root requested segs) d₄ →
      d'.EqOff (CompactOwned root requested segs t) d₄ ∧
        Replaced serde root schema requested segs t segs' d₄ ∧
        SavedManifest serde root d₄ (t.manifest.relist (segs'.map Prod.fst)) := by
    intro d₄ removed
    refine ⟨(widen d₃ storing).trans (removed.mono fun _ => .inr),
      (replaced d₃ storing).removed below removed, (saved rfl).frame (removed.files _ ?_)⟩
    rintro ⟨s, -, inside⟩
    exact manifestPath_not_inSegment _ inside
  refine Prog.wp_mono (Prog.Confined.wp (removeOld_selected_confined reads) d₃) ?_ ?_
  · intro r d₄ removed
    obtain ⟨off', replaced', saved'⟩ := after d₄ removed
    exact .committed idle off' replaced' saved'
  · intro d₄ removed
    obtain ⟨off', replaced', saved'⟩ := after d₄ removed
    exact .after idle off' replaced' saved'

end Table

end BypassIo.Db
