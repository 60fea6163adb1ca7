import BypassIo.Db.Scan
import BypassIo.Db.Sealed

/-!
# Chunked columns as plain columns

Every operation on chunks is an operation on the flattened column: appending concatenates,
`take_indices` gathers, `value_at` looks up, and the filters, with or without the vector
kernels, find the positions of their test.
-/

namespace BypassIo.Db
open Octet Rust Columns FileSystem

/-! ## Row selections -/

namespace RowSelection

theorem iter_eq (s : RowSelection) : s.iter = match s with
    | .all len => List.range len
    | .range start len => (List.range len).map (start + ·)
    | .indices rows => rows := by
  cases s with
  | all len =>
    have keep : ∀ i ∈ List.range len, (RowSelection.all len).indexAt i = some i := fun i hi => by
      simp [indexAt, List.mem_range.mp hi]
    rw [iter, RowSelection.len, List.filterMap_congr keep, List.filterMap_some]
  | range start len =>
    have shift : ∀ i ∈ List.range len,
        (RowSelection.range start len).indexAt i = some (start + i) := fun i hi => by
      simp [indexAt, List.mem_range.mp hi]
    rw [iter, RowSelection.len, List.filterMap_congr shift]
    exact congrFun List.filterMap_eq_map' _
  | indices rows => exact gather_range rows

@[simp] theorem length_iter (s : RowSelection) : s.iter.length = s.len := by
  rw [iter_eq]
  cases s <;> simp [len]

/-- The selection at a position. -/
theorem indexAt_eq (s : RowSelection) (k : Nat) : s.indexAt k = s.iter[k]? := by
  rw [iter_eq]
  cases s with
  | all len => by_cases h : k < len <;> simp [indexAt, h]
  | range start len => by_cases h : k < len <;> simp [indexAt, h]
  | indices rows => rfl

/-- Compressing a selection does not change it. -/
@[simp] theorem iter_fromIndices (indices : List Nat) (n : Nat) :
    (fromIndices indices n).iter = indices := by
  unfold fromIndices
  split
  · rename_i whole
    rw [iter_eq, whole.2]
  · split
    · rfl
    · rename_i first rest _
      split
      · rename_i run
        rw [iter_eq]
        apply List.ext_getElem?
        rintro (_ | k)
        · simp
        · by_cases hk : k < rest.length
          · have member : (rest[k], k) ∈ rest.zipIdx := by
              simp [List.mem_iff_getElem?, hk]
            have value := List.all_eq_true.mp run _ member
            simp only [decide_eq_true_eq] at value
            simp [hk, value]
            omega
          · have past : rest.length ≤ k := by omega
            simp [past]
      · rw [iter_eq]

@[simp] theorem len_fromIndices (indices : List Nat) (n : Nat) :
    (fromIndices indices n).len = indices.length := by
  rw [← length_iter, iter_fromIndices]

theorem isEmpty_fromIndices (indices : List Nat) (n : Nat) :
    (fromIndices indices n).isEmpty = true ↔ indices = [] := by
  simp [isEmpty]

/-- Only a full selection is compressed to the identity. -/
theorem fromIndices_eq_all {indices : List Nat} {n len : Nat} :
    fromIndices indices n = .all len ↔ indices = List.range n ∧ len = n := by
  unfold fromIndices
  constructor
  · intro h
    split at h
    · rename_i whole
      exact ⟨whole.2, (RowSelection.all.inj h).symm⟩
    · split at h
      · cases h
      · split at h <;> cases h
  · rintro ⟨rfl, rfl⟩
    simp

theorem isIdentity_eq_true {s : RowSelection} : s.isIdentity = true ↔ ∃ len, s = .all len := by
  cases s <;> simp [isIdentity]

end RowSelection

/-! ## Chunks -/

namespace Chunk

variable {α : Type} {read : MappedColumn → Nat → Option α}

/-- Every selected row of the chunk can be read. -/
def Sound (read : MappedColumn → Nat → Option α) (chunk : Chunk α) : Prop :=
  (chunk.values read).length = chunk.rowCount

@[simp] theorem flatten_cons (c : Chunk α) (chunks : List (Chunk α)) :
    flatten read (c :: chunks) = c.values read ++ flatten read chunks := rfl

theorem flatten_singleton (c : Chunk α) : flatten read [c] = c.values read :=
  List.append_nil _

@[simp] theorem flatten_append (xs ys : List (Chunk α)) :
    flatten read (xs ++ ys) = flatten read xs ++ flatten read ys := List.flatMap_append

/-- One value of a sound mapped chunk. -/
theorem getElem?_values_mapped {s : MappedSelection} (h : (Chunk.mapped s).Sound read) (k : Nat) :
    ((Chunk.mapped s).values read)[k]? = (s.rows.indexAt k).bind (read s.column) := by
  have full : (s.rows.iter.filterMap (read s.column)).length = s.rows.iter.length := by
    rw [RowSelection.length_iter]
    exact h
  rw [values, getElem?_filterMap full, RowSelection.indexAt_eq]

/-- `value_at` looks up the flattened column. -/
theorem valueAt_eq {chunks : List (Chunk α)} (h : ∀ c ∈ chunks, c.Sound read) (k : Nat) :
    valueAt read chunks k = (flatten read chunks)[k]? := by
  induction chunks generalizing k with
  | nil => rfl
  | cons c chunks ih =>
    have tail := ih fun c hc => h c (List.mem_cons_of_mem _ hc)
    have head : (c.values read).length = c.rowCount := h c List.mem_cons_self
    rw [valueAt.eq_def, flatten_cons]
    dsimp only
    by_cases inside : k < c.rowCount
    · rw [if_pos inside, List.getElem?_append_left (by omega)]
      cases c with
      | owned vs => rfl
      | mapped s => exact (getElem?_values_mapped (h _ List.mem_cons_self) k).symm
    · rw [if_neg inside, List.getElem?_append_right (by omega), head, tail]

end Chunk

/-! ### Grouping -/

/-- Finding the chunk of an index: the position in the chunk is the position behind it. -/
theorem locate_eq {α : Type} (pieces : List (List α)) (g base chunkIdx : Nat) (lo : base ≤ g)
    (fits : base + pieces.flatten.length ≤ usizeMax) :
    (g - base < pieces.flatten.length →
      ∃ c l piece, locate g (pieces.map List.length) base chunkIdx = some (chunkIdx + c, l) ∧
        pieces[c]? = some piece ∧ l < piece.length ∧
        pieces.flatten[g - base]? = piece[l]?) ∧
    (pieces.flatten.length ≤ g - base →
      locate g (pieces.map List.length) base chunkIdx = none) := by
  induction pieces generalizing base chunkIdx with
  | nil => simp [locate]
  | cons piece pieces ih =>
    simp only [List.flatten_cons, List.length_append] at fits
    have last : saturatingAdd base piece.length = base + piece.length :=
      Nat.min_eq_left (by omega)
    rw [List.map_cons, locate, last, List.flatten_cons, List.length_append]
    by_cases inside : g < base + piece.length
    · rw [if_pos ⟨lo, inside⟩]
      refine ⟨fun _ => ⟨0, g - base, piece, rfl, rfl, by omega, ?_⟩, fun past => by omega⟩
      rw [List.getElem?_append_left (by omega)]
    · rw [if_neg fun both => inside both.2]
      obtain ⟨found, missing⟩ := ih (base + piece.length) (chunkIdx + 1) (by omega) (by omega)
      refine ⟨fun hlt => ?_, fun past => missing (by omega)⟩
      obtain ⟨c, l, piece', loc, at_, lt, same⟩ := found (by omega)
      refine ⟨c + 1, l, piece', by rw [loc, Nat.add_assoc, Nat.add_comm 1], by simpa using at_, lt, ?_⟩
      rw [List.getElem?_append_right (by omega), ← same]
      congr 1
      omega

/-- The pairs that a list of groups stands for. -/
def pairs (groups : List (Nat × List Nat)) : List (Nat × Nat) :=
  groups.flatMap fun (chunkIdx, localIndices) => localIndices.map (chunkIdx, ·)

theorem pairs_pushGroup (groups : List (Nat × List Nat)) (c l : Nat) :
    pairs (pushGroup groups c l) = pairs groups ++ [(c, l)] := by
  unfold pushGroup
  split
  · simp [pairs]
  · rename_i lastChunk values last
    have split_ : groups = groups.dropLast ++ [(lastChunk, values)] := by
      rw [List.dropLast_append_getLast? _ last]
    split
    · rename_i same
      subst same
      conv_rhs => rw [split_]
      simp [pairs]
    · simp [pairs]

theorem pairs_groupIndicesByChunk (indices lengths : List Nat) :
    pairs (groupIndicesByChunk indices lengths) = indices.filterMap (locate · lengths 0 0) := by
  have general : ∀ groups, pairs (indices.foldl (addIndex lengths) groups) =
      pairs groups ++ indices.filterMap (locate · lengths 0 0) := by
    induction indices with
    | nil => simp
    | cons g indices ih =>
      intro groups
      rw [List.foldl_cons, ih, List.filterMap_cons, addIndex]
      cases locate g lengths 0 0 with
      | none => rfl
      | some found => simp [pairs_pushGroup]
  exact general []

theorem ne_nil_of_mem_pushGroup {groups : List (Nat × List Nat)} {c l : Nat}
    (h : ∀ g ∈ groups, g.2 ≠ []) : ∀ g ∈ pushGroup groups c l, g.2 ≠ [] := by
  unfold pushGroup
  split
  · simpa [or_imp, forall_and] using h
  · split
    · intro g hg
      rw [List.mem_append, List.mem_singleton] at hg
      obtain front | rfl := hg
      · exact h g (List.dropLast_subset _ front)
      · simp
    · simpa [or_imp, forall_and] using h

/-- No group is empty. -/
theorem ne_nil_of_mem_groupIndicesByChunk {indices lengths : List Nat} :
    ∀ g ∈ groupIndicesByChunk indices lengths, g.2 ≠ [] := by
  have general : ∀ groups : List (Nat × List Nat), (∀ g ∈ groups, g.2 ≠ []) →
      ∀ g ∈ indices.foldl (addIndex lengths) groups, g.2 ≠ [] := by
    induction indices with
    | nil => exact fun groups h => h
    | cons i indices ih =>
      refine fun groups h => ih (addIndex lengths groups i) ?_
      unfold addIndex
      split
      · exact h
      · exact ne_nil_of_mem_pushGroup h
  exact general [] (by simp)

namespace Chunk

variable {α ε : Type} {read : MappedColumn → Nat → Option α}

/-- Taking local rows of a sound chunk. -/
theorem takeLocal_ok {chunk : Chunk α} (h : chunk.Sound read) {locals : List Nat}
    (lt : ∀ l ∈ locals, l < chunk.rowCount) :
    ∃ taken, chunk.takeLocal locals = (.ok taken : Outcome ε (Chunk α)) ∧
      taken.values read = gather (chunk.values read) locals := by
  cases chunk with
  | owned values =>
    refine ⟨.owned (gather values locals), ?_, rfl⟩
    simp only [takeLocal, mapM_index lt]
    rfl
  | mapped s =>
    refine ⟨_, rfl, ?_⟩
    have look : ∀ l ∈ locals, ((mapped s).values read)[l]? =
        (s.rows.indexAt l).bind (read s.column) := fun l _ => getElem?_values_mapped h l
    simp only [values, RowSelection.takeLocalIndices, RowSelection.iter_fromIndices,
      List.filterMap_filterMap]
    exact (List.filterMap_congr look).symm

/-- The value at a chunk and a position in it. -/
def pairValue (read : MappedColumn → Nat → Option α) (chunks : List (Chunk α)) (p : Nat × Nat) :
    Option α := chunks[p.1]?.bind fun chunk => (chunk.values read)[p.2]?

/-- The pair exists. -/
def Inside (chunks : List (Chunk α)) (p : Nat × Nat) : Prop :=
  ∃ chunk, chunks[p.1]? = some chunk ∧ p.2 < chunk.rowCount

/-- Taking the groups one after the other. -/
theorem takeGroups_ok {chunks : List (Chunk α)} (h : ∀ c ∈ chunks, c.Sound read)
    {groups : List (Nat × List Nat)} (nonempty : ∀ g ∈ groups, g.2 ≠ [])
    (inside : ∀ p ∈ pairs groups, Inside chunks p) :
    ∃ taken, groups.mapM (takeGroup chunks) = (.ok taken : Outcome ε (List (Chunk α))) ∧
      flatten read taken = (pairs groups).filterMap (pairValue read chunks) := by
  induction groups with
  | nil => exact ⟨[], rfl, rfl⟩
  | cons g groups ih =>
    obtain ⟨c, locals⟩ := g
    have split_ : pairs ((c, locals) :: groups) = locals.map (c, ·) ++ pairs groups := rfl
    rw [split_] at inside ⊢
    obtain ⟨rest, hrest, values⟩ := ih (fun g hg => nonempty g (List.mem_cons_of_mem _ hg))
      fun p hp => inside p (List.mem_append_right _ hp)
    have here : ∀ l ∈ locals, Inside chunks (c, l) := fun l hl =>
      inside _ (List.mem_append_left _ (List.mem_map_of_mem hl))
    obtain ⟨l₀, hl₀⟩ := List.exists_mem_of_ne_nil locals (nonempty _ List.mem_cons_self)
    obtain ⟨chunk, hchunk, -⟩ := here l₀ hl₀
    have lt : ∀ l ∈ locals, l < chunk.rowCount := fun l hl => by
      obtain ⟨chunk', hchunk', lt⟩ := here l hl
      rwa [← Option.some.inj (hchunk.symm.trans hchunk')] at lt
    obtain ⟨taken, htaken, gathered⟩ :=
      takeLocal_ok (ε := ε) (h chunk (List.mem_of_getElem? hchunk)) lt
    have group : takeGroup chunks (c, locals) = (.ok taken : Outcome ε (Chunk α)) := by
      simp only [takeGroup, index, hchunk]
      exact htaken
    refine ⟨taken :: rest, mapM_cons_eq_ok.mpr ⟨_, _, group, hrest, rfl⟩, ?_⟩
    rw [flatten_cons, gathered, values, List.filterMap_append, List.filterMap_map]
    simp [gather, pairValue, Function.comp_def, hchunk]

/-- `take_*_chunks` gathers the flattened column. -/
theorem take_ok {chunks : List (Chunk α)} (h : ∀ c ∈ chunks, c.Sound read)
    (fits : (flatten read chunks).length ≤ usizeMax) {indices : List Nat}
    (lt : ∀ i ∈ indices, i < (flatten read chunks).length) :
    ∃ taken, take chunks indices = (.ok taken : Outcome ε (List (Chunk α))) ∧
      flatten read taken = gather (flatten read chunks) indices := by
  have lengths : chunks.map rowCount = (chunks.map (values read)).map List.length := by
    rw [List.map_map]
    exact List.map_congr_left fun c hc => (h c hc).symm
  have pieces : (chunks.map (values read)).flatten = flatten read chunks := rfl
  have found : ∀ i ∈ indices, ∃ p, locate i (chunks.map rowCount) 0 0 = some p ∧
      Inside chunks p ∧ (flatten read chunks)[i]? = pairValue read chunks p := by
    intro i hi
    have room : 0 + (chunks.map (values read)).flatten.length ≤ usizeMax := by
      rwa [pieces, Nat.zero_add]
    obtain ⟨c, l, piece, loc, at_, inside, same⟩ :=
      (locate_eq (chunks.map (values read)) i 0 0 (Nat.zero_le _) room).1 (lt i hi)
    rw [List.getElem?_map, Option.map_eq_some_iff] at at_
    obtain ⟨chunk, hchunk, rfl⟩ := at_
    refine ⟨(c, l), by rw [lengths, loc, Nat.zero_add], ⟨chunk, hchunk, ?_⟩, ?_⟩
    · exact (h chunk (List.mem_of_getElem? hchunk)) ▸ inside
    · rw [pieces, Nat.sub_zero] at same
      simp [pairValue, hchunk, same]
  have inside : ∀ p ∈ pairs (groupIndicesByChunk indices (chunks.map rowCount)),
      Inside chunks p := by
    intro p hp
    rw [pairs_groupIndicesByChunk] at hp
    obtain ⟨i, hi, loc⟩ := List.mem_filterMap.mp hp
    obtain ⟨p', loc', there, -⟩ := found i hi
    rwa [Option.some.inj (loc'.symm.trans loc)] at there
  obtain ⟨taken, htaken, values⟩ :=
    takeGroups_ok (ε := ε) h ne_nil_of_mem_groupIndicesByChunk inside
  refine ⟨taken, htaken, ?_⟩
  rw [values, pairs_groupIndicesByChunk, List.filterMap_filterMap]
  refine List.filterMap_congr fun i hi => ?_
  obtain ⟨p, loc, -, same⟩ := found i hi
  rw [loc, same]
  rfl

end Chunk

/-! ## Kernels -/

/-- The loop over the bits of a mask finds its lanes. -/
theorem maskLanes_movemask (a b c d : Bool) :
    maskLanes 32 (movemask a b c d) = positions id [a, b, c, d] := by
  revert a b c d
  decide +kernel

/-- A kernel whose lanes test as the scalar code does finds the positions of the test. -/
theorem laneFilter_eq {α : Type} {vector scalar : α → Bool} {values : List α} (idx : Nat)
    (agree : ∀ v ∈ values, vector v = scalar v) :
    laneFilter vector scalar values idx = (positions scalar values).map (idx + ·) := by
  induction values, idx using laneFilter.induct with
  | case1 a b c d rest idx ih =>
    have tests : positions id [vector a, vector b, vector c, vector d] =
        positions scalar [a, b, c, d] := by
      rw [show [vector a, vector b, vector c, vector d] = [a, b, c, d].map vector from rfl,
        positions_map]
      exact positions_congr fun v hv => agree v (List.mem_append_left rest hv)
    have tail := ih fun v hv => agree v (List.mem_append_right [a, b, c, d] hv)
    have whole : a :: b :: c :: d :: rest = [a, b, c, d] ++ rest := rfl
    rw [laneFilter, pushMaskIndices, maskLanes_movemask, tests, tail, whole, positions_append,
      List.map_append, List.map_map]
    simp [Function.comp_def, Nat.add_assoc]
  | case2 rest idx short =>
    rw [laneFilter.eq_def]
    split
    · exact absurd rfl (short _ _ _ _ _)
    · exact filterMap_zipIdx scalar _ _

/-- The `start - 1` trick tests the same range. -/
theorem i64Lane_eq (start last value : Int64) :
    i64Lane start last value = inRange start last value := by
  unfold i64Lane inRange checkedPred
  by_cases low : start = Int64.minValue
  · subst low
    simp [Int64.minValue_le]
  · have lo := Int64.le_toInt start
    have hi := Int64.toInt_lt start
    have ne : start.toInt ≠ -2 ^ 63 := fun h => low (Int64.toInt_inj.mp h)
    have before : (start - 1).toInt = start.toInt - 1 := by
      rw [Int64.toInt_sub, show (1 : Int64).toInt = 1 from rfl]
      apply Int.bmod_eq_of_le <;> omega
    simp only [if_neg low, ge_iff_le, gt_iff_lt]
    congr 1
    rw [decide_eq_decide, Int64.lt_iff_toInt_lt, Int64.le_iff_toInt_le, before]
    omega

namespace Simd

variable {features : Features}

theorem checkBytes_of_width {bytes : Bytes} {n : Nat} (h : bytes.length = n * 8) :
    checkBytes bytes = .ok () := by simp [checkBytes, h]

/-- The timestamp filter finds the rows in range, whichever kernel runs. -/
theorem rangeFilterI64Bytes_eq (values : List Int64) (start last : Int64) :
    rangeFilterI64Bytes features (values.flatMap i64Bytes) start last =
      .ok (positions (inRange start last) values) := by
  have size := length_flatMap_of_width _ values fun v _ => length_i64Bytes v
  rw [rangeFilterI64Bytes, checkBytes_of_width size]
  simp only [map_i64Of_chunksExact]
  cases features.avx2
  · rfl
  · simp [bind, Except.bind, pure, Except.pure, laneFilter_eq 0 fun v _ => i64Lane_eq start last v]

theorem filterF64Values_eq (test : UInt64 → Bool) (values : List UInt64) :
    filterF64Values features test values = positions test values := by
  unfold filterF64Values
  split
  · simp [laneFilter_eq 0 fun _ _ => rfl]
  · rfl

theorem filterF64Bytes_eq (test : UInt64 → Bool) {bytes : Bytes} (h : bytes.length % 8 = 0) :
    filterF64Bytes features test bytes =
      .ok (positions test ((chunksExact 8 bytes).map u64Of)) := by
  have checked : checkBytes bytes = .ok () := by simp [checkBytes, h]
  rw [filterF64Bytes, checked]
  cases features.avx
  · rfl
  · simp [bind, Except.bind, pure, Except.pure, laneFilter_eq 0 fun _ _ => rfl]

end Simd

/-- Testing what a partial map reads, when it reads everything. -/
theorem filterMap_read_eq {α β : Type} {read : α → Option β} (test : β → Bool) {xs : List α}
    (full : (xs.filterMap read).length = xs.length) :
    (xs.zipIdx.filterMap fun (x, i) => ((read x).filter test).map fun _ => i) =
      positions test (xs.filterMap read) := by
  have general : ∀ n, (xs.zipIdx n).filterMap (fun (x, i) => ((read x).filter test).map fun _ => i) =
      ((xs.filterMap read).zipIdx n).filterMap fun (y, i) => if test y then some i else none := by
    induction xs with
    | nil => exact fun _ => rfl
    | cons x xs ih =>
      intro n
      cases hx : read x with
      | none =>
        have := List.length_filterMap_le read xs
        simp only [List.filterMap_cons, hx, List.length_cons] at full
        omega
      | some y =>
        have tail := ih (by simpa [hx] using full) (n + 1)
        simp only [List.zipIdx_cons, List.filterMap_cons, hx, tail, Option.filter_some]
        cases test y <;> simp
  exact general 0

/-- A selection of all rows covers the whole mapping. -/
def Chunk.Whole : F64Chunk → Prop
  | .owned _ => True
  | .mapped s => s.rows.isIdentity = true → s.column.mmap.length % 8 = 0 ∧
      (Chunk.mapped s).values MappedColumn.f64Value = (chunksExact 8 s.column.mmap).map u64Of

/-- A filter over a mapped selection finds the positions of its test. -/
theorem filterF64Selection_eq {features : Features} (test : UInt64 → Bool) {s : MappedSelection}
    (sound : (Chunk.mapped s).Sound MappedColumn.f64Value) (whole : (Chunk.mapped s).Whole) :
    Simd.filterF64Selection features test s =
      positions test ((Chunk.mapped s).values MappedColumn.f64Value) := by
  have full : (s.rows.iter.filterMap (MappedColumn.f64Value s.column)).length =
      s.rows.iter.length := by
    rw [RowSelection.length_iter]
    exact sound
  unfold Simd.filterF64Selection
  cases identity : s.rows.isIdentity with
  | false => exact filterMap_read_eq test full
  | true =>
    obtain ⟨size, all⟩ := whole identity
    rw [Simd.filterF64Bytes_eq test size, all]

/-- The chunk loop of the filters finds the positions of the test in the flattened column. -/
theorem filterChunks_eq {owned : List UInt64 → List Nat} {mapped : MappedSelection → List Nat}
    {test : UInt64 → Bool} {chunks : List F64Chunk} (base : Nat)
    (howned : ∀ values, owned values = positions test values)
    (hmapped : ∀ s, Chunk.mapped s ∈ chunks →
      mapped s = positions test ((Chunk.mapped s).values MappedColumn.f64Value))
    (sound : ∀ c ∈ chunks, c.Sound MappedColumn.f64Value) :
    ScanColumn.filterChunks owned mapped chunks base =
      (positions test (Chunk.flatten MappedColumn.f64Value chunks)).map (base + ·) := by
  induction chunks generalizing base with
  | nil => rfl
  | cons c chunks ih =>
    have tail := ih (base + c.rowCount) (fun s hs => hmapped s (List.mem_cons_of_mem _ hs))
      fun c hc => sound c (List.mem_cons_of_mem _ hc)
    have head : (c.values MappedColumn.f64Value).length = c.rowCount :=
      sound c List.mem_cons_self
    rw [ScanColumn.filterChunks.eq_def]
    dsimp only
    rw [tail, Chunk.flatten_cons, positions_append, List.map_append, List.map_map, head]
    congr 1
    · cases c with
      | owned values => simp only [howned]; rfl
      | mapped s => simp only [hmapped s List.mem_cons_self]
    · simp [Function.comp_def, Nat.add_assoc]

/-! ## Columns -/

namespace MappedColumn

/-- Slicing a column of `n` values of `w` bytes. -/
theorem valueSlice_eq {column : MappedColumn} {w n i : Nat} (hw : 0 < w)
    (size : column.mmap.length = n * w) (fits : n * w ≤ usizeMax) :
    column.valueSlice w i = if i < n then some ((column.mmap.drop (i * w)).take w) else none := by
  unfold valueSlice
  by_cases inside : i < n
  · have last : i * w + w ≤ n * w := by
      rw [← Nat.succ_mul]
      exact Nat.mul_le_mul_right w inside
    have start : checkedMul i w = some (i * w) := checkedMul_of_le (by omega)
    have stop : checkedAdd (i * w) w = some (i * w + w) := by
      exact checkedAdd_eq_some.mpr ⟨last.trans fits, rfl⟩
    simp [start, stop, size, last, inside]
  · have past : n * w < i * w + w := by
      have := Nat.mul_le_mul_right w (Nat.le_of_not_lt inside)
      omega
    rw [if_neg inside]
    simp only [Option.bind_eq_bind, Option.bind_eq_none_iff]
    intro start hstart last hlast
    obtain ⟨-, rfl⟩ := checkedMul_eq_some.mp hstart
    obtain ⟨-, rfl⟩ := checkedAdd_eq_some.mp hlast
    rw [if_neg (by omega)]

/-- Reading values that were written `w` bytes each. -/
theorem valueSlice_flatMap {α : Type} {column : MappedColumn} {w : Nat} {enc : α → Bytes}
    {values : List α} (hw : 0 < w) (held : column.mmap = values.flatMap enc)
    (width : ∀ v ∈ values, (enc v).length = w) (fits : values.length * w ≤ usizeMax) (i : Nat) :
    column.valueSlice w i = values[i]?.map enc := by
  have size : column.mmap.length = values.length * w := by
    rw [held, length_flatMap_of_width enc values width]
  rw [valueSlice_eq hw size fits]
  by_cases inside : i < values.length
  · rw [if_pos inside, List.getElem?_eq_getElem inside, Option.map_some, held,
      slice_flatMap enc values width (List.getElem?_eq_getElem inside)]
  · rw [if_neg inside, List.getElem?_eq_none (by omega), Option.map_none]

/-- The accessors give the values of the column at its rows, and nothing past them. -/
def Holds (column : MappedColumn) : ColumnData → Prop
  | .f64 values => ∀ i, column.f64Value i = values[i]?
  | .i64 values | .timestamp values => ∀ i, column.i64Value i = values[i]?
  | .fixedStr _ values => ∀ i, column.fixedStrValue i = values[i]?

theorem holds_valueBytes (name : String) {dtype : DType} {n : Nat} {data : ColumnData}
    (shape : data.HasShape dtype n) (fits : n * dtype.width ≤ usizeMax)
    (width : 0 < dtype.width) : Holds ⟨name, dtype, n, valueBytes data⟩ data := by
  cases shape using ColumnData.HasShape.elim with
  | f64 values =>
    intro i
    rw [f64Value, if_neg (by simp),
      valueSlice_flatMap (by decide) rfl (fun v _ => length_u64Bytes v) fits]
    simp [Option.map_map, Function.comp_def]
  | i64 values | timestamp values =>
    intro i
    rw [i64Value, if_neg (by simp),
      valueSlice_flatMap (by decide) rfl (fun v _ => length_i64Bytes v) fits]
    simp [Option.map_map, Function.comp_def]
  | fixedStr w values _ widths =>
    intro i
    have bytes : valueBytes (.fixedStr w values) = values.flatMap id := by
      simp [valueBytes, List.flatMap_id]
    refine (valueSlice_flatMap (w := w.toNat) width bytes widths fits i).trans ?_
    simp

end MappedColumn

end BypassIo.Db
