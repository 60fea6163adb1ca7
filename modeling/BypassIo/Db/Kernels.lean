import BypassIo.Db.Flatten

/-!
# The vector kernels

The five kernels of `mod simd`, intrinsic by intrinsic: a loop over four lanes at a time, whose
mask is expanded bit by bit, and a scalar loop over the lanes that are left. Every kernel returns
the indices of its scalar counterpart, for every number of lanes, and reads nothing outside its
slice.

## Main definitions

* `M256`: a vector register, with the intrinsics the kernels use.
* `rangeFilterI64BytesAvx2`, `rangeFilterF64ValuesAvx`, `gtFilterF64ValuesAvx`,
  `rangeFilterF64BytesAvx`, `gtFilterF64BytesAvx`: the kernels.

## Main results

* `kernels_eq_scalar`: the kernels equal the scalar filters.
-/

namespace BypassIo.Db
open Octet Rust Columns

/-! ## Registers -/

/-- A 256-bit register as four lanes of 64 bits. -/
structure M256 where
  lane0 : UInt64
  lane1 : UInt64
  lane2 : UInt64
  lane3 : UInt64

namespace M256

/-- `_mm256_set1_epi64x` and `_mm256_set1_pd`. -/
def set1 (x : UInt64) : M256 := ⟨x, x, x, x⟩

/-- A lane of a comparison: all ones or all zeros. -/
def lane (b : Bool) : UInt64 := if b then 0xffffffffffffffff else 0

/-- The comparisons act lane by lane. -/
def compare (test : UInt64 → UInt64 → Bool) (a b : M256) : M256 :=
  ⟨lane (test a.lane0 b.lane0), lane (test a.lane1 b.lane1), lane (test a.lane2 b.lane2),
    lane (test a.lane3 b.lane3)⟩

/-- `_mm256_cmpgt_epi64`. -/
def cmpgtEpi64 : M256 → M256 → M256 := compare fun x y => x.toInt64 > y.toInt64

/-- `_mm256_cmpeq_epi64`. -/
def cmpeqEpi64 : M256 → M256 → M256 := compare fun x y => x = y

/-- `_mm256_cmp_pd` with `_CMP_GE_OQ`. -/
def cmpGeOq : M256 → M256 → M256 := compare F64.ge

/-- `_mm256_cmp_pd` with `_CMP_LT_OQ`. -/
def cmpLtOq : M256 → M256 → M256 := compare F64.lt

/-- `_mm256_cmp_pd` with `_CMP_GT_OQ`. -/
def cmpGtOq : M256 → M256 → M256 := compare F64.gt

/-- `_mm256_and_si256` and `_mm256_and_pd`. -/
def and (a b : M256) : M256 :=
  ⟨a.lane0 &&& b.lane0, a.lane1 &&& b.lane1, a.lane2 &&& b.lane2, a.lane3 &&& b.lane3⟩

def signBit (x : UInt64) : Bool := x >>> 63 = 1

/-- `_mm256_movemask_pd`. -/
def movemaskPd (a : M256) : UInt32 :=
  movemask (signBit a.lane0) (signBit a.lane1) (signBit a.lane2) (signBit a.lane3)

/-- The lanes of a comparison that hold. -/
theorem movemaskPd_compare (test : UInt64 → UInt64 → Bool) (a b : M256) :
    (compare test a b).movemaskPd = movemask (test a.lane0 b.lane0) (test a.lane1 b.lane1)
      (test a.lane2 b.lane2) (test a.lane3 b.lane3) := by
  have sign : ∀ p, signBit (lane p) = p := by decide
  simp only [movemaskPd, compare, sign]

/-- Two comparisons combined are one comparison with both. -/
theorem and_compare (f g : UInt64 → UInt64 → Bool) (a b c d : M256) :
    ((compare f a b).and (compare g c d)).movemaskPd =
      movemask (f a.lane0 b.lane0 && g c.lane0 d.lane0) (f a.lane1 b.lane1 && g c.lane1 d.lane1)
        (f a.lane2 b.lane2 && g c.lane2 d.lane2) (f a.lane3 b.lane3 && g c.lane3 d.lane3) := by
  have sign : ∀ p q, signBit (lane p &&& lane q) = (p && q) := by decide
  simp only [movemaskPd, compare, M256.and, sign]

end M256

/-! ## Loads -/

/-- The eight bytes at an offset; `none` where they are not all in the slice. -/
def wordAt (bytes : Bytes) (start : Nat) : Option UInt64 :=
  if start + 8 ≤ bytes.length then some (u64Of ((bytes.drop start).take 8)) else none

/-- `_mm256_loadu_si256` and `_mm256_loadu_pd` at an offset of a byte slice. -/
def loadBytes (bytes : Bytes) (start : Nat) : Option M256 := do
  return ⟨← wordAt bytes start, ← wordAt bytes (start + 8), ← wordAt bytes (start + 16),
    ← wordAt bytes (start + 24)⟩

/-- `_mm256_loadu_pd` at an element of a slice. -/
def loadValues (values : List UInt64) (idx : Nat) : Option M256 := do
  return ⟨← values[idx]?, ← values[idx + 1]?, ← values[idx + 2]?, ← values[idx + 3]?⟩

/-! ## Loops -/

/-- The loop `while idx + 4 <= lanes`: the indices it pushes, and where it ends. -/
def mainLoop (lanes : Nat) (mask : Nat → Option UInt32) (idx : Nat) : Option (List Nat × Nat) :=
  if idx + 4 ≤ lanes then do
    let bits ← mask idx
    let (found, last) ← mainLoop lanes mask (idx + 4)
    return (pushMaskIndices bits idx ++ found, last)
  else some ([], idx)
termination_by lanes - idx

/-- The loop `for lane in idx..lanes`. -/
def tailLoop (lanes : Nat) (keep : Nat → Option Bool) (lane : Nat) : Option (List Nat) :=
  if lane < lanes then do
    let kept ← keep lane
    let found ← tailLoop lanes keep (lane + 1)
    return if kept then lane :: found else found
  else some []
termination_by lanes - lane

/-- The shape of the kernels; `none` stands for a read outside the slice. -/
def kernel (lanes : Nat) (mask : Nat → Option UInt32) (keep : Nat → Option Bool) :
    Option (List Nat) := do
  let (found, idx) ← mainLoop lanes mask 0
  let rest ← tailLoop lanes keep idx
  return found ++ rest

/-! ## Kernels -/

namespace Simd

/-- The mask of the `i64` kernel. -/
def rangeI64Mask (start last : Int64) (values : M256) : UInt32 :=
  let ltEnd := M256.cmpgtEpi64 (M256.set1 last.toUInt64) values
  let geStart := match checkedPred start with
    | some before => M256.cmpgtEpi64 values (M256.set1 before.toUInt64)
    | none => M256.cmpeqEpi64 values values
  (geStart.and ltEnd).movemaskPd

/-- The mask of the `f64` range kernels. -/
def rangeMask (min max : UInt64) (loaded : M256) : UInt32 :=
  let geMin := M256.cmpGeOq loaded (M256.set1 min)
  let ltMax := M256.cmpLtOq loaded (M256.set1 max)
  (geMin.and ltMax).movemaskPd

/-- The mask of the `f64` greater-than kernels. -/
def gtMask (threshold : UInt64) (loaded : M256) : UInt32 :=
  (M256.cmpGtOq loaded (M256.set1 threshold)).movemaskPd

/-- The `f64` kernels over values. -/
def valuesKernel (mask : M256 → UInt32) (test : UInt64 → Bool) (values : List UInt64) :
    Option (List Nat) :=
  kernel values.length (fun idx => (loadValues values idx).map mask) fun lane =>
    values[lane]?.map test

/-- The kernels over bytes. -/
def bytesKernel (mask : M256 → UInt32) (test : UInt64 → Bool) (bytes : Bytes) :
    Option (List Nat) :=
  kernel (bytes.length / 8) (fun idx => (loadBytes bytes (idx * 8)).map mask) fun lane =>
    (wordAt bytes (lane * 8)).map test

def rangeFilterI64BytesAvx2 (bytes : Bytes) (start last : Int64) : Option (List Nat) :=
  bytesKernel (rangeI64Mask start last) (fun word => inRange start last word.toInt64) bytes

def rangeFilterF64ValuesAvx (values : List UInt64) (min max : UInt64) : Option (List Nat) :=
  valuesKernel (rangeMask min max) (inRangeF64 min max) values

def gtFilterF64ValuesAvx (values : List UInt64) (threshold : UInt64) : Option (List Nat) :=
  valuesKernel (gtMask threshold) (F64.gt · threshold) values

def rangeFilterF64BytesAvx (bytes : Bytes) (min max : UInt64) : Option (List Nat) :=
  bytesKernel (rangeMask min max) (inRangeF64 min max) bytes

def gtFilterF64BytesAvx (bytes : Bytes) (threshold : UInt64) : Option (List Nat) :=
  bytesKernel (gtMask threshold) (F64.gt · threshold) bytes

/-! ### The scalar filters -/

def scalarRangeFilterI64 (values : List Int64) (start last : Int64) : List Nat :=
  positions (inRange start last) values

def scalarRangeFilterF64 (values : List UInt64) (min max : UInt64) : List Nat :=
  positions (inRangeF64 min max) values

def scalarGtFilterF64 (values : List UInt64) (threshold : UInt64) : List Nat :=
  positions (F64.gt · threshold) values

end Simd

/-! ## The loops find the positions of their test -/

section Loops

variable {values : List UInt64} {test : UInt64 → Bool}
variable {mask : Nat → Option UInt32} {keep : Nat → Option Bool}

/-- What a position test finds in a suffix, one element or four at a time. -/
theorem map_positions_append (test : UInt64 → Bool) (idx : Nat) (front back : List UInt64) :
    (positions test (front ++ back)).map (idx + ·) = (positions test front).map (idx + ·) ++
      (positions test back).map (idx + front.length + ·) := by
  rw [positions_append, List.map_append, List.map_map]
  simp [Function.comp_def, Nat.add_assoc]

theorem tailLoop_eq (reads : ∀ i value, values[i]? = some value → keep i = some (test value))
    (lane : Nat) : tailLoop values.length keep lane =
      some ((positions test (values.drop lane)).map (lane + ·)) := by
  fun_induction tailLoop values.length keep lane with
  | case1 lane inside ih =>
    have here : values[lane]? = some values[lane] := List.getElem?_eq_getElem inside
    have one := map_positions_append test lane [values[lane]] (values.drop (lane + 1))
    rw [List.singleton_append, List.getElem_cons_drop] at one
    rw [reads lane _ here, ih, one]
    cases hit : test values[lane] <;> simp [positions, hit]
  | case2 lane outside => simp [positions, List.drop_eq_nil_of_le (Nat.le_of_not_lt outside)]

/-- A mask has the four tests of the lanes from `idx` on. -/
def MaskOf (test : UInt64 → Bool) (values : List UInt64) (mask : Nat → Option UInt32) : Prop :=
  ∀ idx a b c d, values[idx]? = some a → values[idx + 1]? = some b → values[idx + 2]? = some c →
    values[idx + 3]? = some d → mask idx = some (movemask (test a) (test b) (test c) (test d))

theorem mainLoop_eq (masks : MaskOf test values mask) (idx : Nat) :
    ∃ found last, mainLoop values.length mask idx = some (found, last) ∧
      found ++ (positions test (values.drop last)).map (last + ·) =
        (positions test (values.drop idx)).map (idx + ·) := by
  fun_induction mainLoop values.length mask idx with
  | case1 idx inside ih =>
    obtain ⟨found, last, loop, rest⟩ := ih
    have bits := masks idx _ _ _ _ (List.getElem?_eq_getElem (by omega))
      (List.getElem?_eq_getElem (by omega)) (List.getElem?_eq_getElem (by omega))
      (List.getElem?_eq_getElem (by omega))
    refine ⟨_, last, by rw [bits, loop]; rfl, ?_⟩
    have four : values.drop idx = [values[idx], values[idx + 1], values[idx + 2], values[idx + 3]] ++
        values.drop (idx + 4) := by
      simp
    have tests : positions id [test values[idx], test values[idx + 1], test values[idx + 2],
        test values[idx + 3]] =
          positions test [values[idx], values[idx + 1], values[idx + 2], values[idx + 3]] :=
      positions_map id test [_, _, _, _]
    rw [four, map_positions_append, List.append_assoc, rest, pushMaskIndices, maskLanes_movemask,
      tests]
    rfl
  | case2 idx outside => exact ⟨[], idx, rfl, rfl⟩

/-- A kernel whose masks and tail make one test finds its positions. -/
theorem kernel_eq (masks : MaskOf test values mask)
    (reads : ∀ i value, values[i]? = some value → keep i = some (test value)) :
    kernel values.length mask keep = some (positions test values) := by
  obtain ⟨found, last, loop, whole⟩ := mainLoop_eq masks 0
  rw [kernel, loop, Option.bind_eq_bind, Option.bind_some]
  dsimp only
  rw [tailLoop_eq reads last, Option.bind_eq_bind, Option.bind_some, whole]
  simp

end Loops

/-! ## The kernels equal the scalar filters -/

/-- The words of a byte slice are its values. -/
theorem wordAt_eq (bytes : Bytes) (i : Nat) :
    wordAt bytes (i * 8) = ((chunksExact 8 bytes).map u64Of)[i]? := by
  unfold wordAt
  by_cases inside : i < bytes.length / 8
  · rw [if_pos (by omega)]
    simp [chunksExact, inside]
  · rw [if_neg (by omega)]
    simp [chunksExact, inside]

theorem loadValues_eq {values : List UInt64} {idx : Nat} {a b c d : UInt64}
    (ha : values[idx]? = some a) (hb : values[idx + 1]? = some b) (hc : values[idx + 2]? = some c)
    (hd : values[idx + 3]? = some d) : loadValues values idx = some ⟨a, b, c, d⟩ := by
  simp [loadValues, ha, hb, hc, hd]

theorem loadBytes_eq (bytes : Bytes) (idx : Nat) :
    loadBytes bytes (idx * 8) = loadValues ((chunksExact 8 bytes).map u64Of) idx := by
  have next : ∀ k, idx * 8 + k * 8 = (idx + k) * 8 := fun k => by omega
  simp only [loadBytes, loadValues, wordAt_eq, next 1, next 2, next 3]

namespace Simd

theorem rangeMask_eq (min max : UInt64) (loaded : M256) :
    rangeMask min max loaded = movemask (inRangeF64 min max loaded.lane0)
      (inRangeF64 min max loaded.lane1) (inRangeF64 min max loaded.lane2)
      (inRangeF64 min max loaded.lane3) := M256.and_compare _ _ _ _ _ _

theorem gtMask_eq (threshold : UInt64) (loaded : M256) :
    gtMask threshold loaded = movemask (F64.gt loaded.lane0 threshold)
      (F64.gt loaded.lane1 threshold) (F64.gt loaded.lane2 threshold)
      (F64.gt loaded.lane3 threshold) := M256.movemaskPd_compare _ _ _

theorem valuesKernel_eq {mask : M256 → UInt32} {test : UInt64 → Bool} (values : List UInt64)
    (lanes : ∀ a b c d, mask ⟨a, b, c, d⟩ = movemask (test a) (test b) (test c) (test d)) :
    valuesKernel mask test values = some (positions test values) := by
  refine kernel_eq ?_ fun i value here => by rw [here, Option.map_some]
  intro idx a b c d ha hb hc hd
  simp only [loadValues_eq ha hb hc hd, Option.map_some, lanes]

theorem bytesKernel_eq {mask : M256 → UInt32} {test : UInt64 → Bool} (bytes : Bytes)
    (lanes : ∀ a b c d, mask ⟨a, b, c, d⟩ = movemask (test a) (test b) (test c) (test d)) :
    bytesKernel mask test bytes =
      some (positions test ((chunksExact 8 bytes).map u64Of)) := by
  have size : bytes.length / 8 = ((chunksExact 8 bytes).map u64Of).length := by simp
  rw [bytesKernel, size]
  refine kernel_eq ?_ fun i value here => by rw [wordAt_eq, here, Option.map_some]
  intro idx a b c d ha hb hc hd
  simp only [loadBytes_eq, loadValues_eq ha hb hc hd, Option.map_some, lanes]

/-- The strict comparison with `start - 1`, where there is one, tests the range. -/
theorem rangeI64Mask_eq (start last : Int64) (a b c d : UInt64) :
    rangeI64Mask start last ⟨a, b, c, d⟩ =
      movemask (inRange start last a.toInt64) (inRange start last b.toInt64)
        (inRange start last c.toInt64) (inRange start last d.toInt64) := by
  simp only [← i64Lane_eq]
  unfold rangeI64Mask i64Lane
  cases checkedPred start with
  | none => exact (M256.and_compare _ _ _ _ _ _).trans (by simp [M256.set1])
  | some before => exact (M256.and_compare _ _ _ _ _ _).trans (by simp [M256.set1])

/-- The timestamp kernel finds the rows in range. -/
theorem rangeFilterI64BytesAvx2_eq (bytes : Bytes) (start last : Int64) :
    rangeFilterI64BytesAvx2 bytes start last =
      some (scalarRangeFilterI64 ((chunksExact 8 bytes).map i64Of) start last) := by
  have decode : (chunksExact 8 bytes).map i64Of =
      ((chunksExact 8 bytes).map u64Of).map UInt64.toInt64 := by
    rw [List.map_map]
    rfl
  rw [rangeFilterI64BytesAvx2, bytesKernel_eq bytes (rangeI64Mask_eq start last),
    scalarRangeFilterI64, decode, positions_map (inRange start last) UInt64.toInt64]
  rfl

/-- The filter over bytes runs the kernel where the processor has it. -/
theorem rangeFilterI64Bytes_avx2 {features : Features} {bytes : Bytes}
    (whole : bytes.length % 8 = 0) (start last : Int64) :
    (rangeFilterI64Bytes features bytes start last).toOption =
      rangeFilterI64BytesAvx2 bytes start last := by
  have checked : checkBytes bytes = .ok () := by simp [checkBytes, whole]
  rw [rangeFilterI64BytesAvx2_eq, rangeFilterI64Bytes, checked]
  cases features.avx2
  · rfl
  · simp [bind, Except.bind, pure, Except.pure, laneFilter_eq 0 fun v _ => i64Lane_eq start last v,
      scalarRangeFilterI64, Except.toOption]

end Simd

theorem positions_sorted {α : Type} (p : α → Bool) (xs : List α) :
    (positions p xs).Pairwise (· < ·) := by
  rw [positions_eq_filter]
  exact List.pairwise_lt_range.filter _

namespace Simd

/-- The vector kernels equal the scalar filters on every slice, and read nothing outside it. -/
theorem kernels_eq_scalar :
    (∀ (bytes : Bytes) (start last : Int64),
      rangeFilterI64BytesAvx2 bytes start last =
        some (scalarRangeFilterI64 ((chunksExact 8 bytes).map i64Of) start last) ∧
      (scalarRangeFilterI64 ((chunksExact 8 bytes).map i64Of) start last).Pairwise (· < ·)) ∧
    (∀ (values : List UInt64) (min max : UInt64),
      rangeFilterF64ValuesAvx values min max = some (scalarRangeFilterF64 values min max)) ∧
    (∀ (values : List UInt64) (threshold : UInt64),
      gtFilterF64ValuesAvx values threshold = some (scalarGtFilterF64 values threshold)) ∧
    (∀ (bytes : Bytes) (min max : UInt64),
      rangeFilterF64BytesAvx bytes min max =
        some (scalarRangeFilterF64 ((chunksExact 8 bytes).map u64Of) min max)) ∧
    ∀ (bytes : Bytes) (threshold : UInt64),
      gtFilterF64BytesAvx bytes threshold =
        some (scalarGtFilterF64 ((chunksExact 8 bytes).map u64Of) threshold) := by
  refine ⟨fun bytes start last => ⟨rangeFilterI64BytesAvx2_eq bytes start last,
    positions_sorted _ _⟩, fun values min max => ?_, fun values threshold => ?_,
    fun bytes min max => ?_, fun bytes threshold => ?_⟩
  · exact valuesKernel_eq values fun a b c d => rangeMask_eq min max ⟨a, b, c, d⟩
  · exact valuesKernel_eq values fun a b c d => gtMask_eq threshold ⟨a, b, c, d⟩
  · exact bytesKernel_eq bytes fun a b c d => rangeMask_eq min max ⟨a, b, c, d⟩
  · exact bytesKernel_eq bytes fun a b c d => gtMask_eq threshold ⟨a, b, c, d⟩

end Simd

end BypassIo.Db
