import BypassIo.Db.Decoded
import BypassIo.Db.ReadPaths
import BypassIo.Db.ScanTable
import Mathlib.Data.List.Count
import Mathlib.Data.List.Perm.Subperm
import Mathlib.Data.List.Sort

/-!
# Taking rows of a scan result again and again

`take_indices` compresses the rows it takes of a mapped chunk against the number of rows
selected before, not against the rows of the column. Where it takes everything of a chunk that
holds the first rows of a longer column, it calls the selection `All`, and the `f64` filters
then run over the whole file.

## Main results

* `take_kept`: the rows taken of chunks cover their columns where they say so, unless they are
  all rows of a prefix.
* `scanTimeRange_intact`: a scan of any files returns columns of one length.
* `narrowed_filtersByRow`: what the filters find after any number of careful steps.
-/

namespace BypassIo.Db
open Octet Rust Columns FileSystem

/-! ## Ascending indices -/

/-- Ascending positions that pick out 0, 1, … of a list as long are all of them, in order. -/
theorem eq_range_of_gather {xs locals : List Nat} (sorted : locals.Pairwise (· ≤ ·))
    (lt : ∀ l ∈ locals, l < xs.length) (all : gather xs locals = List.range xs.length) :
    locals = List.range xs.length ∧ xs = List.range xs.length := by
  have long : locals.length = xs.length := by
    rw [← length_gather lt, all, List.length_range]
  have distinct : locals.Nodup := by
    have nodup : (gather xs locals).Nodup := all ▸ List.nodup_range
    refine List.Pairwise.imp_of_mem (fun {l l'} hl _ apart same => ?_)
      (List.pairwise_filterMap.mp nodup)
    subst same
    have found := List.getElem?_eq_getElem (lt l hl)
    exact apart _ found _ found rfl
  have inside : locals ⊆ List.range xs.length := fun l hl => List.mem_range.mpr (lt l hl)
  have perm : locals.Perm (List.range xs.length) := by
    apply (distinct.subperm inside).perm_of_length_le
    simp [long]
  have same : locals = List.range xs.length := by
    refine perm.eq_of_pairwise' sorted ?_
    exact List.pairwise_lt_range.imp Nat.le_of_lt
  refine ⟨same, ?_⟩
  rw [same, gather_range] at all
  exact all

/-- An index lies in the chunk it is located in, behind the chunks before it. -/
theorem locate_eq_some {g base chunkIdx k l : Nat} {lengths : List Nat}
    (fits : base + lengths.sum ≤ usizeMax) (h : locate g lengths base chunkIdx = some (k, l)) :
    ∃ i len, k = chunkIdx + i ∧ lengths[i]? = some len ∧ l < len ∧
      g = base + (lengths.take i).sum + l := by
  induction lengths generalizing base chunkIdx with
  | nil => cases h
  | cons len lengths ih =>
    rw [List.sum_cons] at fits
    have last : saturatingAdd base len = base + len := Nat.min_eq_left (by omega)
    rw [locate, last] at h
    split at h
    · rename_i inside
      obtain ⟨rfl, rfl⟩ := Prod.mk.inj (Option.some.inj h)
      exact ⟨0, len, rfl, rfl, by omega, by simp; omega⟩
    · obtain ⟨i, len', rfl, found, lt, rfl⟩ := ih (by omega) h
      refine ⟨i + 1, len', by omega, by simpa using found, lt, ?_⟩
      rw [List.take_succ_cons, List.sum_cons]
      omega

/-! ## Chunks -/

namespace Chunk

variable {α ε : Type} {read : MappedColumn → Nat → Option α} {dtype : DType}
variable {chunk taken : Chunk α} {chunks : List (Chunk α)} {indices locals : List Nat}

/-- A selection of all rows has as many as its column. -/
def Covers : Chunk α → Prop
  | .owned _ => True
  | .mapped s => ∀ len, s.rows = .all len → len = s.column.rowCount

/-- The chunk holds the first rows of a column, but not all of them. -/
def Prefix : Chunk α → Prop
  | .owned _ => False
  | .mapped s =>
    0 < s.rows.len ∧ s.rows.iter = List.range s.rows.len ∧ s.rows.len ≠ s.column.rowCount

/-- The row of the column at which chunk `k` starts. -/
def start (chunks : List (Chunk α)) (k : Nat) : Nat := ((chunks.take k).map rowCount).sum

/-- The indices do not take every row, once, of a chunk that is a prefix of its column. -/
def Careful (chunks : List (Chunk α)) (indices : List Nat) : Prop :=
  ∀ (k : Nat) chunk, chunks[k]? = some chunk → chunk.Prefix →
    ∃ l < chunk.rowCount, indices.count (start chunks k + l) ≠ 1

theorem careful_of_not_prefix (h : ∀ c ∈ chunks, ¬ c.Prefix) : Careful chunks indices :=
  fun _ chunk found first => absurd first (h chunk (List.mem_of_getElem? found))

/-- The chunk can be read, its file is as long as the rows of its column, and a selection of
all rows covers them. -/
structure Kept (read : MappedColumn → Nat → Option α) (dtype : DType) (chunk : Chunk α) :
    Prop where
  sound : chunk.Sound read
  backed : ∀ s, chunk = .mapped s → s.column.dtype = dtype ∧
    checkedMul s.column.rowCount dtype.width = some s.column.mmap.length
  covers : chunk.Covers

theorem kept_owned (values : List α) : (Chunk.owned values).Kept read dtype :=
  ⟨rfl, nofun, trivial⟩

/-- Rows selected of a column, compressed against its own number of rows. -/
theorem kept_mapped {column : MappedColumn}
    (sound : (Chunk.mapped ⟨column, .fromIndices indices column.rowCount⟩).Sound read)
    (type : column.dtype = dtype)
    (size : checkedMul column.rowCount dtype.width = some column.mmap.length) :
    (Chunk.mapped ⟨column, .fromIndices indices column.rowCount⟩).Kept read dtype := by
  refine ⟨sound, ?_, fun len whole => ?_⟩
  · rintro _ ⟨⟩
    exact ⟨type, size⟩
  · obtain ⟨-, rfl⟩ := RowSelection.fromIndices_eq_all.mp whole
    rfl

/-- Rows taken of a chunk in ascending order cover the column if they are all of it, unless
they are all rows of a prefix. -/
theorem takeLocal_kept (kept : chunk.Kept read dtype) (sorted : locals.Pairwise (· ≤ ·))
    (nonempty : locals ≠ []) (lt : ∀ l ∈ locals, l < chunk.rowCount)
    (careful : chunk.Prefix → locals ≠ List.range chunk.rowCount)
    (h : chunk.takeLocal locals = (.ok taken : Outcome ε (Chunk α))) : taken.Kept read dtype := by
  obtain ⟨taken', htaken, values⟩ := takeLocal_ok (ε := ε) kept.sound lt
  obtain rfl : taken' = taken := Except.ok.inj (htaken.symm.trans h)
  have count : (taken'.values read).length = locals.length := by
    rw [values]
    refine length_gather fun l hl => ?_
    rw [show (chunk.values read).length = chunk.rowCount from kept.sound]
    exact lt l hl
  cases chunk with
  | owned vs =>
    obtain ⟨vs', -, done⟩ := bind_eq_ok.mp h
    obtain rfl := Except.ok.inj done
    exact kept_owned vs'
  | mapped s =>
    obtain rfl := Except.ok.inj h
    have picked : locals.filterMap s.rows.indexAt = gather s.rows.iter locals :=
      List.filterMap_congr fun l _ => s.rows.indexAt_eq l
    have within : ∀ l ∈ locals, l < s.rows.iter.length := fun l hl => by
      rw [RowSelection.length_iter]
      exact lt l hl
    refine ⟨?_, ?_, ?_⟩
    · rw [Sound, count, rowCount, RowSelection.takeLocalIndices, RowSelection.len_fromIndices,
        picked, length_gather within]
    · rintro _ ⟨⟩
      exact kept.backed s rfl
    · intro len whole
      rw [RowSelection.takeLocalIndices, picked, RowSelection.fromIndices_eq_all,
        ← RowSelection.length_iter] at whole
      obtain ⟨everything, rfl⟩ := whole
      obtain ⟨all, first⟩ := eq_range_of_gather sorted within everything
      rw [RowSelection.length_iter] at all first ⊢
      by_contra short
      obtain ⟨l₀, hl₀⟩ := List.exists_mem_of_ne_nil locals nonempty
      have some_row : 0 < s.rows.len := Nat.zero_lt_of_lt (lt l₀ hl₀)
      exact careful ⟨some_row, first, short⟩ all

/-- An index is located in the chunk that has it. -/
theorem of_locate {i k l : Nat} (fits : (chunks.map rowCount).sum ≤ usizeMax)
    (h : locate i (chunks.map rowCount) 0 0 = some (k, l)) :
    (∃ c, chunks[k]? = some c ∧ l < c.rowCount) ∧ i = start chunks k + l := by
  obtain ⟨j, len, rfl, at_, lt, rfl⟩ := locate_eq_some (by omega) h
  rw [List.getElem?_map, Option.map_eq_some_iff] at at_
  obtain ⟨c, hc, rfl⟩ := at_
  refine ⟨⟨c, by simpa using hc, lt⟩, ?_⟩
  simp [start, List.map_take]

/-- A chunk ends where a later one starts, or before. -/
theorem start_le {k k' : Nat} (found : chunks[k]? = some chunk) (later : k < k') :
    start chunks k + chunk.rowCount ≤ start chunks k' := by
  have next : start chunks k + chunk.rowCount = start chunks (k + 1) := by
    simp [start, List.take_add_one, found]
  obtain ⟨n, rfl⟩ := Nat.exists_eq_add_of_le later
  have longer : chunks.take (k.succ + n) = chunks.take (k + 1) ++ (chunks.drop (k + 1)).take n :=
    List.take_add
  rw [next]
  unfold start
  rw [longer, List.map_append, List.sum_append]
  exact Nat.le_add_right _ _

/-- The chunks of ascending indices ascend. -/
theorem chunk_le {i i' k k' l l' : Nat} (fits : (chunks.map rowCount).sum ≤ usizeMax)
    (le : i ≤ i') (h : locate i (chunks.map rowCount) 0 0 = some (k, l))
    (h' : locate i' (chunks.map rowCount) 0 0 = some (k', l')) : k ≤ k' := by
  obtain ⟨-, rfl⟩ := of_locate fits h
  obtain ⟨⟨c, found, lt⟩, rfl⟩ := of_locate fits h'
  by_contra before
  have := start_le found (Nat.lt_of_not_le before)
  omega

theorem pushGroup_pairwise {groups : List (Nat × List Nat)} {k l : Nat}
    (h : groups.Pairwise (·.1 < ·.1)) (le : ∀ g ∈ groups, g.1 ≤ k) :
    (pushGroup groups k l).Pairwise (·.1 < ·.1) ∧ ∀ g ∈ pushGroup groups k l, g.1 ≤ k := by
  unfold pushGroup
  split
  · rename_i none
    obtain rfl := List.getLast?_eq_none_iff.mp none
    simp
  · rename_i lastChunk values last
    obtain ⟨front, rfl⟩ := List.getLast?_eq_some_iff.mp last
    obtain ⟨fronts, -, below⟩ := List.pairwise_append.mp h
    have last_le : lastChunk ≤ k := le (lastChunk, values) (by simp)
    split
    · rename_i same
      subst same
      rw [List.dropLast_concat]
      refine ⟨List.pairwise_append.mpr ⟨fronts, List.pairwise_singleton _ _, ?_⟩, ?_⟩
      · simpa using below
      · simpa [or_imp, forall_and] using le
    · rename_i ne
      refine ⟨List.pairwise_append.mpr ⟨h, List.pairwise_singleton _ _, ?_⟩, ?_⟩
      · intro g hg new hnew
        obtain rfl := List.mem_singleton.mp hnew
        have last_lt : lastChunk < k := Nat.lt_of_le_of_ne last_le ne
        obtain hg | hg := List.mem_append.mp hg
        · exact (below g hg _ List.mem_cons_self).trans last_lt
        · exact (List.mem_singleton.mp hg) ▸ last_lt
      · intro g hg
        obtain hg | hg := List.mem_append.mp hg
        · exact le g hg
        · exact (List.mem_singleton.mp hg) ▸ Nat.le_refl k

/-- Ascending indices are in one group for every chunk. -/
theorem groups_pairwise (fits : (chunks.map rowCount).sum ≤ usizeMax)
    (sorted : indices.Pairwise (· ≤ ·)) :
    (groupIndicesByChunk indices (chunks.map rowCount)).Pairwise (·.1 < ·.1) := by
  have general : ∀ groups : List (Nat × List Nat), groups.Pairwise (·.1 < ·.1) →
      (∀ g ∈ groups, ∀ i ∈ indices, ∀ k l, locate i (chunks.map rowCount) 0 0 = some (k, l) →
        g.1 ≤ k) →
      (indices.foldl (addIndex (chunks.map rowCount)) groups).Pairwise (·.1 < ·.1) := by
    induction indices with
    | nil => exact fun groups h _ => h
    | cons i indices ih =>
      obtain ⟨least, sorted⟩ := List.pairwise_cons.mp sorted
      intro groups h le
      rw [List.foldl_cons, addIndex]
      cases loc : locate i (chunks.map rowCount) 0 0 with
      | none => exact ih sorted groups h fun g hg j hj => le g hg j (List.mem_cons_of_mem _ hj)
      | some found =>
        obtain ⟨k, l⟩ := found
        obtain ⟨pushed, upto⟩ := pushGroup_pairwise (l := l) h
          fun g hg => le g hg i List.mem_cons_self k l loc
        refine ih sorted _ pushed fun g hg j hj k' l' loc' => ?_
        exact (upto g hg).trans (chunk_le fits (least j hj) loc loc')
  exact general [] .nil (by simp)

/-- The pairs of one group, where every chunk has one. -/
theorem count_pairs {groups : List (Nat × List Nat)} {group : Nat × List Nat} {l : Nat}
    (h : groups.Pairwise (·.1 < ·.1)) (mem : group ∈ groups) :
    (pairs groups).count (group.1, l) = group.2.count l := by
  have same : ∀ values : List Nat, (values.map (group.1, ·)).count (group.1, l) = values.count l :=
    fun values => List.count_map_of_injective values _ (Prod.mk_right_injective _) l
  have other : ∀ g : Nat × List Nat, g.1 ≠ group.1 →
      (g.2.map (g.1, ·)).count (group.1, l) = 0 := by
    intro g ne
    refine List.count_eq_zero.mpr fun hg => ne ?_
    obtain ⟨_, -, eq⟩ := List.mem_map.mp hg
    exact (Prod.mk.inj eq).1
  induction groups with
  | nil => cases mem
  | cons g groups ih =>
    obtain ⟨first, rest⟩ := List.pairwise_cons.mp h
    have split_ : pairs (g :: groups) = g.2.map (g.1, ·) ++ pairs groups := rfl
    rw [split_, List.count_append]
    obtain rfl | later := List.mem_cons.mp mem
    · have none : (pairs groups).count (group.1, l) = 0 := by
        refine List.count_eq_zero.mpr fun hp => ?_
        obtain ⟨g, hg, hp⟩ := List.mem_flatMap.mp hp
        exact absurd (List.count_pos_iff.mpr hp) (by simp [other g (first g hg).ne'])
      rw [same, none, Nat.add_zero]
    · rw [other g (first group later).ne, ih rest later, Nat.zero_add]

/-- The local indices of a group lie in its chunk, and are the indices there in their order. -/
theorem group_sorted {group : Nat × List Nat} (fits : (chunks.map rowCount).sum ≤ usizeMax)
    (sorted : indices.Pairwise (· ≤ ·)) (found : chunks[group.1]? = some chunk)
    (mem : group ∈ groupIndicesByChunk indices (chunks.map rowCount)) :
    group.2.Pairwise (· ≤ ·) ∧ ∀ l ∈ group.2, l < chunk.rowCount ∧
      indices.count (start chunks group.1 + l) = group.2.count l := by
  have part : (group.2.map (group.1, ·)).Sublist
      (indices.filterMap (locate · (chunks.map rowCount) 0 0)) := by
    rw [← pairs_groupIndicesByChunk]
    exact List.sublist_flatten_of_mem (List.mem_map_of_mem mem)
  constructor
  · have ordered : (indices.filterMap (locate · (chunks.map rowCount) 0 0)).Pairwise
        fun p q => p.1 = q.1 → p.2 ≤ q.2 := by
      refine List.pairwise_filterMap.mpr (sorted.imp fun {i j} le => ?_)
      rintro ⟨k, l⟩ hi ⟨k', l'⟩ hj same
      obtain rfl : k = k' := same
      obtain ⟨-, rfl⟩ := of_locate fits hi
      obtain ⟨-, rfl⟩ := of_locate fits hj
      exact Nat.le_of_add_le_add_left le
    exact (List.pairwise_map.mp (ordered.sublist part)).imp fun le => le rfl
  · intro l hl
    obtain ⟨i, hi, loc⟩ := List.mem_filterMap.mp (part.subset (List.mem_map_of_mem hl))
    obtain ⟨⟨c, hc, lt⟩, rfl⟩ := of_locate fits loc
    obtain rfl := Option.some.inj (hc.symm.trans found)
    refine ⟨lt, ?_⟩
    rw [← count_pairs (groups_pairwise fits sorted) mem, pairs_groupIndicesByChunk,
      List.count_filterMap]
    refine List.countP_congr fun j _ => ?_
    constructor
    · intro same
      rw [eq_of_beq same, loc]
      exact beq_self_eq_true _
    · intro located
      exact beq_iff_eq.mpr (of_locate fits (eq_of_beq located)).2

theorem length_flatten_of_sound (sound : ∀ c ∈ chunks, c.Sound read) :
    (flatten read chunks).length = (chunks.map rowCount).sum := by
  rw [flatten, List.length_flatMap]
  exact congrArg List.sum (List.map_congr_left sound)

/-- Careful indices keep every chunk. -/
theorem take_kept {out : List (Chunk α)} (kept : ∀ c ∈ chunks, c.Kept read dtype)
    (fits : (flatten read chunks).length ≤ usizeMax) (sorted : indices.Pairwise (· ≤ ·))
    (careful : Careful chunks indices)
    (h : take chunks indices = (.ok out : Outcome ε (List (Chunk α)))) :
    ∀ c ∈ out, c.Kept read dtype := by
  rw [length_flatten_of_sound fun c hc => (kept c hc).sound] at fits
  intro taken htaken
  obtain ⟨group, mem, took⟩ := exists_of_forall₂_right (mapM_eq_ok_forall₂.mp h) htaken
  obtain ⟨chunk, found, took⟩ := bind_eq_ok.mp took
  have found : chunks[group.1]? = some chunk := by
    unfold index at found
    split at found <;> cases found
    assumption
  obtain ⟨ascending, inside⟩ := group_sorted fits sorted found mem
  refine takeLocal_kept (kept chunk (List.mem_of_getElem? found)) ascending
    (ne_nil_of_mem_groupIndicesByChunk _ mem) (fun l hl => (inside l hl).1) ?_ took
  intro first all
  obtain ⟨l, lt, more⟩ := careful _ _ found first
  have hl : l ∈ group.2 := all ▸ List.mem_range.mpr lt
  refine more ((inside l hl).2.trans ?_)
  rw [all] at hl ⊢
  exact List.count_eq_one_of_mem List.nodup_range hl

/-- The whole-file filter sees no row outside a kept chunk. -/
theorem Kept.whole {chunk : F64Chunk} (kept : chunk.Kept MappedColumn.f64Value .f64) :
    chunk.Whole := by
  cases chunk with
  | owned values => trivial
  | mapped s =>
    intro identity
    obtain ⟨len, all⟩ := RowSelection.isIdentity_eq_true.mp identity
    obtain rfl := kept.covers len all
    obtain ⟨type, size⟩ := kept.backed s rfl
    obtain ⟨-, data, shape, bytes, holds⟩ := MappedColumn.exists_holds s.column.name (by decide) size
    obtain ⟨matching, count, -⟩ := shape
    cases data <;> simp [ColumnData.matchesDtype] at matching
    rename_i held
    have column : s.column = ⟨s.column.name, .f64, s.column.rowCount, s.column.mmap⟩ := by
      rw [← type]
    have reads : s.column.f64Value = (held[·]?) := by
      rw [column]
      exact funext holds
    constructor
    · rw [(checkedMul_eq_some.mp size).2]
      exact Nat.mul_mod_left _ 8
    · rw [values, all, RowSelection.iter_eq, reads, bytes]
      simp only [← count]
      exact (gather_range held).trans (map_u64Of_chunksExact held).symm

end Chunk

/-! ## Columns -/

namespace ScanColumn

def Kept : ScanColumn → Prop
  | .f64 chunks => ∀ c ∈ chunks, c.Kept MappedColumn.f64Value .f64
  | .i64 chunks => ∀ c ∈ chunks, c.Kept MappedColumn.i64Value .i64
  | .timestamp chunks => ∀ c ∈ chunks, c.Kept MappedColumn.i64Value .timestamp
  | .fixedStr width chunks => ∀ c ∈ chunks, c.Kept MappedColumn.fixedStrValue (.fixedStr width)

def Covers : ScanColumn → Prop
  | .f64 chunks => ∀ c ∈ chunks, c.Covers
  | .i64 chunks | .timestamp chunks => ∀ c ∈ chunks, c.Covers
  | .fixedStr _ chunks => ∀ c ∈ chunks, c.Covers

def Careful (indices : List Nat) : ScanColumn → Prop
  | .f64 chunks => Chunk.Careful chunks indices
  | .i64 chunks | .timestamp chunks => Chunk.Careful chunks indices
  | .fixedStr _ chunks => Chunk.Careful chunks indices

variable {column l r : ScanColumn} {n m : Nat}

/-- A kept column of `n` rows. -/
structure Intact (n : Nat) (column : ScanColumn) : Prop where
  kept : column.Kept
  count : column.flatten.rowCount = n

theorem Kept.sound (h : column.Kept) : column.Sound := by
  cases column with
  | f64 chunks => exact fun c hc => ⟨(h c hc).sound, (h c hc).whole⟩
  | i64 chunks | timestamp chunks | fixedStr width chunks => exact fun c hc => (h c hc).sound

theorem Kept.covers (h : column.Kept) : column.Covers := by
  cases column <;> exact fun c hc => (h c hc).covers

theorem intact_empty (dtype : DType) : (empty dtype).Intact 0 := by
  cases dtype <;> exact ⟨by simp [empty, Kept], rfl⟩

theorem intact_ofData (data : ColumnData) : (ofData data).Intact data.rowCount := by
  refine ⟨?_, by rw [flatten_ofData]⟩
  cases data <;> simp [ofData, Kept, Chunk.kept_owned]

/-- Appended columns have the chunks of both. -/
theorem append_intact {both : ScanColumn} (hl : l.Intact n) (hr : r.Intact m)
    (h : l.append r = .ok both) : both.Intact (n + m) := by
  obtain ⟨keptL, rfl⟩ := hl
  obtain ⟨keptR, rfl⟩ := hr
  cases l <;> cases r <;> simp only [append, reduceCtorEq] at h
  case fixedStr.fixedStr lw ls rw rs =>
    split at h <;> cases h
    rename_i same
    subst same
    refine ⟨fun c hc => (List.mem_append.mp hc).elim (keptL c) (keptR c), ?_⟩
    simp [flatten, ColumnData.rowCount]
  all_goals
    cases h
    refine ⟨fun c hc => (List.mem_append.mp hc).elim (keptL c) (keptR c), ?_⟩
    simp [flatten, ColumnData.rowCount]

theorem rowCount_taken {ε : Type} {data taken : ColumnData} {indices : List Nat}
    (h : data.takeIndices indices = (.ok taken : Outcome ε ColumnData)) :
    taken.rowCount = indices.length := by
  cases data
  all_goals
    obtain ⟨values, picked, done⟩ := bind_eq_ok.mp h
    cases done
    exact (mapM_eq_ok_forall₂.mp picked).length_eq.symm

/-- A column mapped from a file as long as its rows, with ascending rows of it selected. -/
theorem fromMapped_intact {mapped : MappedColumn} {indices : List Nat}
    (width : mapped.dtype ≠ .fixedStr 0)
    (size : checkedMul mapped.rowCount mapped.dtype.width = some mapped.mmap.length)
    (lt : ∀ i ∈ indices, i < mapped.rowCount) :
    (fromMapped mapped (.fromIndices indices mapped.rowCount)).Intact indices.length := by
  obtain ⟨name, dtype, n, bytes⟩ := mapped
  obtain ⟨fits, data, shape, rfl, -⟩ := MappedColumn.exists_holds name width size
  obtain ⟨sound, taken⟩ := fromMapped_ok name shape fits (DType.width_pos width) lt
  refine ⟨?_, rowCount_taken taken⟩
  cases dtype with
  | f64 =>
    have readable := (sound _ List.mem_cons_self).1
    exact List.forall_mem_singleton.mpr (Chunk.kept_mapped readable rfl size)
  | i64 | timestamp | fixedStr w =>
    have readable := sound _ List.mem_cons_self
    exact List.forall_mem_singleton.mpr (Chunk.kept_mapped readable rfl size)

/-- Careful indices keep a column. -/
theorem takeIndices_intact {ε : Type} {taken : ScanColumn} {indices : List Nat}
    (h : column.Intact n) (fits : n ≤ usizeMax) (sorted : indices.Pairwise (· ≤ ·))
    (lt : ∀ i ∈ indices, i < n) (careful : column.Careful indices)
    (took : column.takeIndices indices = (.ok taken : Outcome ε ScanColumn)) :
    taken.Intact indices.length := by
  obtain ⟨kept, rfl⟩ := h
  obtain ⟨taken', took', flat⟩ := takeIndices_ok (ε := ε) kept.sound fits lt
  obtain rfl : taken' = taken := Except.ok.inj (took'.symm.trans took)
  refine ⟨?_, rowCount_taken flat⟩
  cases column
  all_goals
    obtain ⟨chunks, each, done⟩ := bind_eq_ok.mp took
    cases done
    exact Chunk.take_kept kept fits sorted careful each

end ScanColumn

/-! ## Results -/

namespace ScanResult

variable {r out : ScanResult} {n : Nat} {indices : List Nat}

/-- The indices are careful in every column. -/
def Careful (r : ScanResult) (indices : List Nat) : Prop :=
  ∀ c ∈ r.columns, c.2.Careful indices

/-- Every column is kept and has the rows of the result. -/
structure Intact (r : ScanResult) : Prop where
  fits : r.rowCount ≤ usizeMax
  columns : ∀ c ∈ r.columns, c.2.Intact r.rowCount

theorem intact_empty (schema : Schema) : (empty schema).Intact := by
  refine ⟨Nat.zero_le _, ?_⟩
  simp only [empty, List.forall_mem_map]
  exact fun column _ => ScanColumn.intact_empty column.dtype

theorem intact_ofBatch {b : RowBatch} (even : ∀ c ∈ b.columns, c.2.rowCount = b.rowCount) :
    ∀ c ∈ (fromBatch b).columns, c.2.Intact b.rowCount := by
  simp only [fromBatch, List.forall_mem_map]
  intro c hc
  rw [← even c hc]
  exact ScanColumn.intact_ofData c.2

theorem appendLoop_intact {incoming existing both : List (String × ScanColumn)} {m count : Nat}
    (hi : ∀ c ∈ incoming, c.2.Intact m) (he : ∀ c ∈ existing, c.2.Intact n)
    (h : appendLoop incoming existing = .ok (both, count)) :
    count ≤ existing.length ∧ (count = existing.length → ∀ c ∈ both, c.2.Intact (n + m)) := by
  induction incoming generalizing existing both count with
  | nil =>
    cases h
    exact ⟨Nat.zero_le _, fun none => by simp [List.length_eq_zero_iff.mp none.symm]⟩
  | cons i incoming ih =>
    obtain _ | ⟨e, existing⟩ := existing
    · cases h
      exact ⟨Nat.zero_le _, fun _ => by simp⟩
    · rw [appendLoop] at h
      split at h
      · cases h
      · obtain ⟨column, appended, h⟩ := bind_eq_ok.mp h
        obtain ⟨⟨rest, others⟩, loop, done⟩ := bind_eq_ok.mp h
        cases done
        obtain ⟨few, all⟩ := ih (fun c hc => hi c (List.mem_cons_of_mem _ hc))
          (fun c hc => he c (List.mem_cons_of_mem _ hc)) loop
        refine ⟨Nat.succ_le_succ few, fun full => List.forall_mem_cons.mpr ⟨?_, ?_⟩⟩
        · exact ScanColumn.append_intact (he e List.mem_cons_self) (hi i List.mem_cons_self) appended
        · exact all (Nat.succ.inj full)

/-- `append_columns` adds the rows of intact columns. -/
theorem appendColumns_intact {columns : List (String × ScanColumn)} (hr : r.Intact)
    (hn : ∀ c ∈ columns, c.2.Intact n) (h : r.appendColumns columns n = .ok out) : out.Intact := by
  obtain ⟨⟨appended, count⟩, loop, h⟩ := bind_eq_ok.mp h
  obtain ⟨-, all⟩ := appendLoop_intact hn hr.columns loop
  dsimp only at h
  split at h
  · cases h
  · rename_i full
    split at h <;> cases h
    rename_i total sum
    obtain ⟨fits, rfl⟩ := checkedAdd_eq_some.mp sum
    exact ⟨fits, all (not_not.mp full)⟩

/-- Careful indices keep a result. -/
theorem takeIndices_intact {ε : Type} (h : r.Intact) (sorted : indices.Pairwise (· ≤ ·))
    (lt : ∀ i ∈ indices, i < r.rowCount) (few : indices.length ≤ usizeMax)
    (careful : r.Careful indices)
    (took : r.takeIndices indices = (.ok out : Outcome ε ScanResult)) : out.Intact := by
  obtain ⟨columns, each, done⟩ := bind_eq_ok.mp took
  cases done
  refine ⟨few, fun c hc => ?_⟩
  obtain ⟨c₀, mem, took⟩ := exists_of_forall₂_right (mapM_eq_ok_forall₂.mp each) hc
  obtain ⟨column, taken, done⟩ := bind_eq_ok.mp took
  cases done
  exact ScanColumn.takeIndices_intact (h.columns c₀ mem) h.fits sorted lt (careful c₀ mem) taken

end ScanResult

/-! ## Scanning any files -/

section Scan

variable {d d' : Disk} {segment : ImmutableSegment} {schema : Schema} {features : Features}
variable {r out : ScanResult} {start last : Int64}

/-- A column maps to a file as long as the rows of the segment. -/
structure Maps (segment : ImmutableSegment) (column : ColumnDef) (mapped : MappedColumn) : Prop where
  dtype : mapped.dtype = column.dtype
  rows : mapped.rowCount = segment.info.rowCount
  size : checkedMul mapped.rowCount mapped.dtype.width = some mapped.mmap.length

theorem mapColumn_maps {column : ColumnDef} {mapped : MappedColumn}
    (h : (segment.mapColumn column.name column.dtype).exec d = (.ok mapped, d')) :
    d' = d ∧ Maps segment column mapped := by
  obtain ⟨same, -, bytes, listed, rfl⟩ := mapColumn_eq_ok.mp h
  exact ⟨same, rfl, rfl, listed.size⟩

/-- The timestamps that the filter finds are rows of the column. -/
theorem rangeFilterI64Mapped_lt {mapped : MappedColumn} {indices : List Nat}
    (type : mapped.dtype = .timestamp)
    (size : checkedMul mapped.rowCount mapped.dtype.width = some mapped.mmap.length)
    (h : rangeFilterI64Mapped features mapped start last = .ok indices) :
    ∀ i ∈ indices, i < mapped.rowCount := by
  rw [type] at size
  obtain ⟨-, data, shape, bytes, -⟩ := MappedColumn.exists_holds mapped.name (by decide) size
  obtain ⟨matching, count, -⟩ := shape
  cases data <;> simp [ColumnData.matchesDtype] at matching
  rename_i values
  rw [rangeFilterI64Mapped, bytes] at h
  obtain rfl := Except.ok.inj ((Simd.rangeFilterI64Bytes_eq values start last).symm.trans h)
  rw [← count]
  exact positions_lt

/-- Taking rows of a batch leaves columns of one length. -/
theorem even_taken {ε : Type} {b taken : RowBatch} {indices : List Nat}
    (h : b.takeIndices indices = (.ok taken : Outcome ε RowBatch)) :
    ∀ c ∈ taken.columns, c.2.rowCount = taken.rowCount := by
  obtain ⟨columns, each, done⟩ := bind_eq_ok.mp h
  cases done
  intro c hc
  obtain ⟨c₀, -, took⟩ := exists_of_forall₂_right (mapM_eq_ok_forall₂.mp each) hc
  obtain ⟨data, gathered, done⟩ := bind_eq_ok.mp took
  cases done
  exact ScanColumn.rowCount_taken gathered

/-- Every column that the scan maps has the rows of the segment. -/
theorem scanColumns_maps {timestampMap : MappedColumn}
    (timestamps : Maps segment schema.timestampColumn timestampMap) {columns : List ColumnDef}
    {mapped : List (String × MappedColumn)}
    (h : (columns.mapM (Table.scanColumn schema segment timestampMap)).exec d = (.ok mapped, d')) :
    ∀ m ∈ mapped, ∃ column, Maps segment column m.2 := by
  induction columns generalizing d d' mapped with
  | nil =>
    obtain ⟨rfl, -⟩ := Query.exec_pure_eq_ok.mp h
    simp
  | cons column columns ih =>
    rw [List.mapM_cons] at h
    obtain ⟨m, d₁, first, h⟩ := Query.exec_bind_eq_ok.mp h
    obtain ⟨rest, d₂, later, h⟩ := Query.exec_bind_eq_ok.mp h
    obtain ⟨rfl, -⟩ := Query.exec_pure_eq_ok.mp h
    refine List.forall_mem_cons.mpr ⟨?_, ih later⟩
    unfold Table.scanColumn at first
    split at first
    · obtain ⟨rfl, -⟩ := Query.exec_pure_eq_ok.mp first
      exact ⟨_, timestamps⟩
    · obtain ⟨column', d₃, here, first⟩ := Query.exec_bind_eq_ok.mp first
      obtain ⟨rfl, -⟩ := Query.exec_pure_eq_ok.mp first
      exact ⟨column, (mapColumn_maps here).2⟩

/-- One turn of the segment loop, on any disk. -/
theorem scanSegment_intact (hr : r.Intact)
    (h : (Table.scanSegment features schema start last r segment).exec d = (.ok out, d')) :
    out.Intact := by
  unfold Table.scanSegment at h
  split at h
  · obtain ⟨rfl, -⟩ := Query.exec_pure_eq_ok.mp h
    exact hr
  · obtain ⟨timestampMap, d₁, mapped, h⟩ := Query.exec_bind_eq_ok.mp h
    obtain ⟨-, timestamps⟩ := mapColumn_maps mapped
    obtain ⟨indices, filtered, h⟩ := Query.exec_pureStep_bind_eq_ok.mp h
    dsimp only at h
    split at h
    · obtain ⟨rfl, -⟩ := Query.exec_pure_eq_ok.mp h
      exact hr
    · obtain ⟨columns, d₂, all, h⟩ := Query.exec_bind_eq_ok.mp h
      have maps := scanColumns_maps timestamps all
      have appended := (Prod.mk.inj h).1
      rw [mapErr_eq_ok, ofResult_eq_ok] at appended
      rw [mapErr_eq_ok, ofResult_eq_ok] at filtered
      have lt := timestamps.rows ▸ rangeFilterI64Mapped_lt
        (timestamps.dtype.trans schema.timestampColumn_dtype) timestamps.size filtered
      refine ScanResult.appendColumns_intact hr ?_ appended
      simp only [List.forall_mem_map, RowSelection.len_fromIndices]
      intro m hm
      obtain ⟨column, dtype, rows, size⟩ := maps m hm
      rw [timestamps.rows, ← rows]
      exact ScanColumn.fromMapped_intact (dtype ▸ column.width_ne) size (rows ▸ lt)

/-- A scan that returns, on any disk, returns columns of one length whose selections cover no
less than they say. -/
theorem scanTimeRange_intact {t : Table}
    (h : (t.scanTimeRange features start last).exec d = (.ok r, d')) : r.Intact := by
  obtain ⟨output, d₁, segments, h⟩ := Query.exec_bind_eq_ok.mp h
  obtain ⟨active, filtered, h⟩ := Query.exec_pureStep_bind_eq_ok.mp h
  have appended := (Prod.mk.inj h).1
  rw [mapErr_eq_ok, ofResult_eq_ok] at appended
  have loop : ∀ (sealed : List ImmutableSegment) (before after : ScanResult) (d d' : Disk),
      before.Intact → (sealed.foldlM (Table.scanSegment features t.schema start last)
        before).exec d = (.ok after, d') → after.Intact := by
    intro sealed
    induction sealed with
    | nil =>
      intro before after d d' ok run
      obtain ⟨rfl, -⟩ := Query.exec_pure_eq_ok.mp run
      exact ok
    | cons segment sealed ih =>
      intro before after d d' ok run
      rw [List.foldlM_cons] at run
      obtain ⟨next, d₁, turn, run⟩ := Query.exec_bind_eq_ok.mp run
      exact ih next after d₁ d' (scanSegment_intact ok turn) run
  have scanned := loop _ _ _ _ _ (ScanResult.intact_empty t.schema) segments
  obtain ⟨timestamps, -, taken⟩ := bind_eq_ok.mp filtered
  exact ScanResult.appendColumns_intact scanned (ScanResult.intact_ofBatch (even_taken taken)) appended

end Scan

/-! ## Runs -/

/-- The results of a scan or of a batch, with rows taken of them any number of times. The rows
may be those that `filter_scan_indices` found, which leaves the result as it is. -/
inductive Narrowed (allowed : ScanResult → List Nat → Prop) : ScanResult → Prop
  | batch {b : RowBatch} (even : ∀ c ∈ b.columns, c.2.rowCount = b.rowCount)
      (fits : b.rowCount ≤ usizeMax) : Narrowed allowed (.fromBatch b)
  | scanned {t : Table} {features : Features} {start last : Int64} {d d' : Disk} {r : ScanResult}
      (scan : (t.scanTimeRange features start last).exec d = (.ok r, d')) : Narrowed allowed r
  | taken {r r' : ScanResult} {indices : List Nat} (before : Narrowed allowed r)
      (sorted : indices.Pairwise (· ≤ ·)) (lt : ∀ i ∈ indices, i < r.rowCount)
      (few : indices.length ≤ usizeMax) (ok : allowed r indices)
      (took : r.takeIndices indices = (.ok r' : Outcome TableError ScanResult)) :
      Narrowed allowed r'

/-- Every filter finds the rows that pass row by row, and a mapped selection of all rows covers
its column. -/
structure ScanResult.FiltersByRow (r : ScanResult) : Prop where
  filtered : ∀ (features : Features) (p : ColumnPredicate) column, p.HintsAgree →
    r.column p.column = some column →
    filterScanIndices features r p = .ok (testRows r column p)
  covers : ∀ c ∈ r.columns, c.2.Covers

theorem ScanResult.Intact.filtersByRow {r : ScanResult} (h : r.Intact) : r.FiltersByRow := by
  have sound : r.Sound := fun c hc => (h.columns c hc).kept.sound
  constructor
  · intro features p column agree found
    obtain ⟨c, mem, rfl⟩ := ScanResult.mem_of_column found
    have count := (h.columns c mem).count
    rw [filterScanIndices, found]
    exact congrArg Except.ok ((filterColumn_eq features agree (sound c mem) count).trans
      (testRows_eq p (sound c mem) count).symm)
  · exact fun c hc => (h.columns c hc).kept.covers

theorem Narrowed.intact {r : ScanResult} (h : Narrowed ScanResult.Careful r) : r.Intact := by
  induction h with
  | batch even fits => exact ⟨fits, ScanResult.intact_ofBatch even⟩
  | scanned scan => exact scanTimeRange_intact scan
  | taken _ sorted lt few careful took ih =>
    exact ScanResult.takeIndices_intact ih sorted lt few careful took

/-- Where no step takes all rows of a mapped chunk that is a prefix of its column, every filter
of every result finds the rows that pass. -/
theorem narrowed_filtersByRow {r : ScanResult} (h : Narrowed ScanResult.Careful r) :
    r.FiltersByRow :=
  h.intact.filtersByRow

/-! ### Two quotes -/

def twoTimes : MappedColumn := ⟨"ts", .timestamp, 2, i64Bytes 1 ++ i64Bytes 2⟩

/-- The prices 1 and 2. -/
def twoPrices : MappedColumn :=
  ⟨"px", .f64, 2, u64Bytes 0x3ff0000000000000 ++ u64Bytes 0x4000000000000000⟩

/-- The files of a segment with two quotes. -/
def twoQuotes : Disk :=
  ((⟨fun _ => none, fun _ => true⟩ : Disk).setFile ["ts.col"] (some twoTimes.mmap)).setFile
    ["px.col"] (some twoPrices.mmap)

def quoteTable : Table where
  path := []
  schema := quoteSchema
  active := .empty quoteSchema
  sealed := [{
    path := []
    info := {
      id := 1
      rowCount := 2
      minTs := some 1
      maxTs := some 2
      columns := [⟨"ts", "Timestamp", none, "ts.col"⟩, ⟨"px", "F64", none, "px.col"⟩] } }]
  manifest := Manifest.new
  wal := ⟨[], 0⟩

/-- Rows of the two files. -/
def quoteRows (rows : RowSelection) : ScanResult :=
  .ofMapped [("ts", twoTimes), ("px", twoPrices)] rows

/-- `GtPredicate::new("px", 0.0)`, on prices. -/
def abovePredicate : ColumnPredicate := ⟨"px", none, some 0, (F64.gt · 0), fun _ => false, fun _ => false⟩

theorem abovePredicate_agrees : abovePredicate.HintsAgree := by
  constructor
  · rintro min max ⟨⟩
  · rintro _ ⟨⟩ v
    rfl

/-- Both quotes are scanned, then the second is taken. -/
theorem narrowed_filtersByRow_second : Narrowed ScanResult.Careful (quoteRows (.range 1 1)) ∧
    filterScanIndices ⟨false, false⟩ (quoteRows (.range 1 1)) abovePredicate = .ok [0] := by
  have scan : ∃ r, (quoteTable.scanTimeRange ⟨false, false⟩ 1 3).exec twoQuotes = (.ok r, twoQuotes) ∧
      r = ⟨[("ts", .timestamp [.mapped ⟨twoTimes, .all 2⟩, .owned []]),
        ("px", .f64 [.mapped ⟨twoPrices, .all 2⟩, .owned []])], 2⟩ := ⟨_, rfl, rfl⟩
  obtain ⟨r, scan, rfl⟩ := scan
  have run : Narrowed ScanResult.Careful (quoteRows (.range 1 1)) := by
    refine .taken (.scanned scan) (List.pairwise_singleton _ 1) (by simp) (by decide) ?_ rfl
    simp only [ScanResult.Careful, List.forall_mem_cons, List.not_mem_nil, false_imp_iff,
      forall_true_iff, and_true]
    constructor
    all_goals exact Chunk.careful_of_not_prefix (by simp [Chunk.Prefix, RowSelection.len, twoTimes, twoPrices])
  exact ⟨run, (narrowed_filtersByRow run).filtered _ _ _ abovePredicate_agrees rfl⟩

/-- The first quote is scanned and taken again: its selection becomes `All`, and the filter
finds a row behind it. -/
theorem whole_file_filter_escapes :
    ¬ ∀ r, Narrowed (fun _ _ => True) r → r.FiltersByRow := by
  intro right
  have scan : ∃ r, (quoteTable.scanTimeRange ⟨false, false⟩ 1 2).exec twoQuotes = (.ok r, twoQuotes) ∧
      r.rowCount = 1 ∧ r.takeIndices [0] = (.ok (quoteRows (.all 1)) : Outcome TableError ScanResult) :=
    ⟨_, rfl, rfl, rfl⟩
  obtain ⟨r, scan, one, took⟩ := scan
  have run : Narrowed (fun _ _ => True) (quoteRows (.all 1)) :=
    .taken (.scanned scan) (by simp) (by simp [one]) (by decide) trivial took
  have filtered := (right _ run).filtered ⟨false, false⟩ _ _ abovePredicate_agrees rfl
  have outside : filterScanIndices ⟨false, false⟩ (quoteRows (.all 1)) abovePredicate = .ok [0, 1] := rfl
  have inside : testRows (quoteRows (.all 1)) (.f64 [.mapped ⟨twoPrices, .all 1⟩]) abovePredicate = [0] := rfl
  rw [outside] at filtered
  have := (Except.ok.inj filtered).trans inside
  simp at this

end BypassIo.Db
