import BypassIo.Db.Refinement
import BypassIo.Library.Binary64

/-!
# Predicates on integer columns

`RangePredicate` and `GtPredicate` keep their bounds as `f64` and cast the integer they test to
`f64` first. Rounding never passes a bound that is an integer, but it can land on it: an integer
below the minimum that rounds up to it passes, and one below the maximum that rounds up to it, or
above the threshold that rounds down to it, does not.

## Main definitions

* `F64.ofI64`: the cast of an integer, rounded to nearest even.
* `RangePredicate`, `GtPredicate`: the predicates.
* `RoundsAcross`: the integer is tested on the wrong side of a bound.

## Main results

* `int_predicates_exact_iff`: when the tests agree with the integers, and when a scan with a
  range predicate on the timestamps is the scan of the smaller range.
-/

namespace BypassIo.Db
open Octet Rust FileSystem Columns Binary64

/-! ## Integers as `f64` -/

namespace F64

/-- The value of a pattern of a finite number, in units of `2 ^ -1074`. -/
def value (x : UInt64) : Int :=
  if x.toNat < 2 ^ 63 then units (magnitude x) else -units (magnitude x)

/-- The pattern is that of the integer `a`. -/
def IsInt (x : UInt64) (a : Int) : Prop :=
  magnitude x < 0x7ff0000000000000 ∧ value x = a * 2 ^ bias

/-- The cast `v as f64`. -/
def ofI64 (v : Int64) : UInt64 :=
  UInt64.ofNat (encode v.toInt.natAbs + if v.toInt < 0 then 2 ^ 63 else 0)

/-- Patterns of numbers are ordered as their values. -/
theorem key_le_key {x y : UInt64} : key x ≤ key y ↔ value x ≤ value y := by
  have zero : units 0 = 0 := rfl
  have forth := units_strictMono.le_iff_le (a := magnitude x) (b := magnitude y)
  have back := units_strictMono.le_iff_le (a := magnitude y) (b := magnitude x)
  have left := units_strictMono.le_iff_le (a := magnitude x) (b := 0)
  have right := units_strictMono.le_iff_le (a := magnitude y) (b := 0)
  simp only [key, value]
  split <;> split <;> omega

theorem natAbs_value (x : UInt64) : (value x).natAbs = units (magnitude x) := by
  unfold value
  split <;> simp

theorem IsInt.representable {x : UInt64} {a : Int} (h : IsInt x a) : Representable a := by
  have size := congrArg Int.natAbs h.2
  have two : (2 : Int).natAbs = 2 := rfl
  rw [natAbs_value, Int.natAbs_mul, Int.natAbs_pow, two] at size
  exact ⟨magnitude x, size⟩

theorem isNan_of_finite {x : UInt64} (h : magnitude x < 0x7ff0000000000000) : isNan x = false := by
  simp only [isNan, decide_eq_false_iff_not]
  omega

/-- The two parts of the pattern of a cast. -/
theorem toNat_ofI64 (v : Int64) : magnitude (ofI64 v) = encode v.toInt.natAbs ∧
    ((ofI64 v).toNat < 2 ^ 63 ↔ 0 ≤ v.toInt) := by
  have lo := Int64.le_toInt v
  have hi := Int64.toInt_lt v
  have small := encode_lt (n := v.toInt.natAbs) (by omega)
  have whole : (ofI64 v).toNat = encode v.toInt.natAbs + if v.toInt < 0 then 2 ^ 63 else 0 := by
    refine UInt64.toNat_ofNat_of_lt' ?_
    split <;> simp [UInt64.size] <;> omega
  rw [magnitude, whole]
  split <;> omega

theorem finite_ofI64 (v : Int64) : magnitude (ofI64 v) < 0x7ff0000000000000 := by
  have lo := Int64.le_toInt v
  have hi := Int64.toInt_lt v
  rw [(toNat_ofI64 v).1]
  exact encode_lt (n := v.toInt.natAbs) (by omega)

/-- The cast has the value of the rounded integer. -/
theorem value_ofI64 (v : Int64) : value (ofI64 v) = nearest v.toInt * 2 ^ bias := by
  obtain ⟨word, sign⟩ := toNat_ofI64 v
  rw [value, word]
  by_cases pos : 0 ≤ v.toInt
  · rw [if_pos (sign.mpr pos), units_encode, Int.natAbs_of_nonneg pos]
  · rw [if_neg (sign.not.mpr pos), units_encode, Int.ofNat_natAbs_of_nonpos (by omega),
      nearest_neg, neg_mul, neg_neg]

/-- An integer that is not rounded is cast to its own pattern. -/
theorem isInt_ofI64 {v : Int64} (h : nearest v.toInt = v.toInt) : IsInt (ofI64 v) v.toInt :=
  ⟨finite_ofI64 v, by rw [value_ofI64, h]⟩

/-- Comparing a cast integer with an integer. -/
theorem compare_ofI64 {x : UInt64} {a : Int} (h : IsInt x a) (v : Int64) :
    (ge (ofI64 v) x = true ↔ a ≤ nearest v.toInt) ∧
    (lt (ofI64 v) x = true ↔ nearest v.toInt < a) ∧
    (gt (ofI64 v) x = true ↔ a < nearest v.toInt) := by
  have one : (0 : Int) < 2 ^ bias := by positivity
  have up := key_le_key (x := ofI64 v) (y := x)
  have down := key_le_key (x := x) (y := ofI64 v)
  rw [value_ofI64, h.2, mul_le_mul_iff_of_pos_right one] at up down
  simp only [ge, lt, gt, isNan_of_finite h.1, isNan_of_finite (finite_ofI64 v), Bool.not_false,
    Bool.true_and, decide_eq_true_eq]
  omega

end F64

/-! ## Predicates -/

/-- `RangePredicate`. -/
structure RangePredicate where
  column : String
  min : UInt64
  max : UInt64

namespace RangePredicate

def testF64 (p : RangePredicate) (value : UInt64) : Bool := inRangeF64 p.min p.max value

/-- `RangePredicate::test_i64`. -/
def testI64 (p : RangePredicate) (value : Int64) : Bool :=
  let value := F64.ofI64 value
  F64.ge value p.min && F64.lt value p.max

/-- `impl ColumnPredicate for RangePredicate`. -/
def predicate (p : RangePredicate) : ColumnPredicate where
  column := p.column
  f64Range := some (p.min, p.max)
  f64Gt := none
  testF64 := p.testF64
  testI64 := p.testI64
  testFixedStr _ := false

end RangePredicate

/-- `GtPredicate`. -/
structure GtPredicate where
  column : String
  threshold : UInt64

namespace GtPredicate

def testF64 (p : GtPredicate) (value : UInt64) : Bool := F64.gt value p.threshold

/-- `GtPredicate::test_i64`. -/
def testI64 (p : GtPredicate) (value : Int64) : Bool := F64.gt (F64.ofI64 value) p.threshold

/-- `impl ColumnPredicate for GtPredicate`. -/
def predicate (p : GtPredicate) : ColumnPredicate where
  column := p.column
  f64Range := none
  f64Gt := some p.threshold
  testF64 := p.testF64
  testI64 := p.testI64
  testFixedStr _ := false

end GtPredicate

/-- The hints of the predicates are their own tests. -/
theorem RangePredicate.hintsAgree (p : RangePredicate) : p.predicate.HintsAgree where
  range min max same v := by
    obtain ⟨rfl, rfl⟩ := Prod.mk.inj (Option.some.inj same)
    rfl
  gt threshold none := by cases none

theorem GtPredicate.hintsAgree (p : GtPredicate) : p.predicate.HintsAgree where
  range min max none := by cases none
  gt threshold same v := by
    obtain rfl := Option.some.inj same
    rfl

/-- The integer rounds up to the minimum of a range that has room above it, or, inside the
range, up to its end. -/
def RoundsAcross (a b v : Int) : Prop := RoundsUpTo v a ∧ a < b ∨ a ≤ v ∧ RoundsUpTo v b

/-- Integers of at most 53 bits never do. -/
theorem not_roundsAcross_of_small {a b v : Int} (h : v.natAbs < 2 ^ 53) : ¬ RoundsAcross a b v := by
  have exact := nearest_of_small h
  rw [RoundsAcross, roundsUpTo_iff, roundsUpTo_iff, exact]
  omega

/-- The range test in terms of the integer. -/
theorem RangePredicate.testI64_iff {p : RangePredicate} {a b : Int} (ha : F64.IsInt p.min a)
    (hb : F64.IsInt p.max b) (v : Int64) : p.testI64 v = true ↔
      (a ≤ v.toInt ∨ RoundsUpTo v.toInt a) ∧ v.toInt < b ∧ ¬ RoundsUpTo v.toInt b := by
  rw [testI64, Bool.and_eq_true, (F64.compare_ofI64 ha v).1, (F64.compare_ofI64 hb v).2.1,
    le_nearest_iff ha.representable, nearest_lt_iff hb.representable]

/-- The range test is exact unless the integer rounds across a bound. -/
theorem RangePredicate.testI64_exact_iff {p : RangePredicate} {a b : Int}
    (ha : F64.IsInt p.min a) (hb : F64.IsInt p.max b) (v : Int64) :
    (p.testI64 v = true ↔ a ≤ v.toInt ∧ v.toInt < b) ↔ ¬ RoundsAcross a b v.toInt := by
  rw [testI64_iff ha hb, RoundsAcross]
  by_cases up : RoundsUpTo v.toInt a
  · have lt := up.lt
    have value := (roundsUpTo_iff.mp up).2
    have same : RoundsUpTo v.toInt b ↔ a = b := by
      rw [roundsUpTo_iff, value]
      exact ⟨fun h => h.2, fun h => ⟨h ▸ lt, h⟩⟩
    have beyond : v.toInt < b → a ≤ b := fun below => by
      rw [← value]
      exact nearest_le hb.representable below.le
    grind
  · have lt := fun upb : RoundsUpTo v.toInt b => upb.lt
    grind

/-- The greater-than test is exact unless the integer rounds down to the threshold. -/
theorem GtPredicate.testI64_exact_iff {p : GtPredicate} {a : Int} (ha : F64.IsInt p.threshold a)
    (v : Int64) : (p.testI64 v = true ↔ a < v.toInt) ↔ ¬ RoundsDownTo v.toInt a := by
  rw [testI64, (F64.compare_ofI64 ha v).2.2, lt_nearest_iff ha.representable]
  have above := fun down : RoundsDownTo v.toInt a => down.lt
  by_cases down : RoundsDownTo v.toInt a <;> simp_all

/-! ## Scans with a range of timestamps -/

section Scan

variable {serde : Serde} {root : Path} {schema : Schema} {d : Disk} {t : Table}
  {log : List RowBatch}

/-- Two filters of a list agree when their tests agree on its elements. -/
theorem filter_eq_filter_iff {α : Type} {f g : α → Bool} {xs : List α} :
    xs.filter f = xs.filter g ↔ ∀ x ∈ xs, f x = g x := by
  refine ⟨fun same x hx => ?_, List.filter_congr⟩
  have member : x ∈ xs.filter f ↔ x ∈ xs.filter g := by rw [same]
  rw [List.mem_filter, List.mem_filter, and_iff_right hx, and_iff_right hx] at member
  exact Bool.eq_iff_iff.mpr member

/-- The test of a time and the range predicate, and of the smaller range, on one row. -/
theorem inTime_and_passes_iff {p : RangePredicate} {a b : Int} (ha : F64.IsInt p.min a)
    (hb : F64.IsInt p.max b) {start last low high : Int64} (hlow : low.toInt = max start.toInt a)
    (hhigh : high.toInt = min last.toInt b) (row : Row) :
    ((passes p.predicate schema.timestampColumnIdx row && inTime schema start last row) =
        inTime schema low high row) ↔
      ∀ v, row[schema.timestampColumnIdx]? = some (.timestamp v) → start ≤ v → v < last →
        ¬ RoundsAcross a b v.toInt := by
  unfold passes inTime
  cases row[schema.timestampColumnIdx]? with
  | none => simp
  | some cell =>
    cases cell with
    | timestamp v =>
      have only : ∀ v', some (Cell.timestamp v) = some (.timestamp v') ↔ v = v' := by simp
      have test := p.testI64_exact_iff ha hb v
      rw [Bool.eq_iff_iff]
      simp only [Option.any_some, ColumnPredicate.testCell, RangePredicate.predicate,
        Cell.inTime, inRange, only, forall_eq', ge_iff_le, Bool.and_eq_true, decide_eq_true_eq,
        Int64.le_iff_toInt_le, Int64.lt_iff_toInt_lt, hlow, hhigh, max_le_iff,
        lt_min_iff, ← test]
      grind
    | f64 bits | i64 v | fixedStr bytes => simp [Cell.inTime]

/-- When the integer tests are exact, and when a scan with a range of timestamps is the scan of
the smaller range. -/
theorem int_predicates_exact_iff {p : RangePredicate} {q : GtPredicate} {a b c : Int}
    (ha : F64.IsInt p.min a) (hb : F64.IsInt p.max b) (hc : F64.IsInt q.threshold c) :
    (∀ v : Int64, (p.testI64 v = true ↔ a ≤ v.toInt ∧ v.toInt < b) ↔
      ¬ RoundsAcross a b v.toInt) ∧
    (∀ v : Int64, (q.testI64 v = true ↔ c < v.toInt) ↔ ¬ RoundsDownTo v.toInt c) ∧
    ∀ (serde : Serde) (root : Path) (schema : Schema) (d : Disk) (t : Table)
      (log : List RowBatch), Reach serde root schema d t log →
      p.column = schema.timestampColumn.name →
      ∀ (features : Features) (start last low high : Int64), low.toInt = max start.toInt a →
        high.toInt = min last.toInt b →
      ∃ out r, (t.scanWhere features start last p.predicate).exec d = (.ok out, d) ∧
        (t.scanTimeRange features low high).exec d = (.ok r, d) ∧
        (out.toBatch.rows = r.toBatch.rows ↔ ∀ row ∈ logRows log, ∀ v,
          row[schema.timestampColumnIdx]? = some (.timestamp v) → start ≤ v → v < last →
            ¬ RoundsAcross a b v.toInt) := by
  refine ⟨p.testI64_exact_iff ha hb, q.testI64_exact_iff hc, ?_⟩
  intro serde root schema d t log reach name features start last low high hlow hhigh
  obtain ⟨segs, clean⟩ := reach.clean
  have readable := clean.handle.readable
  obtain ⟨out, runWhere, -, outRows⟩ := readable.scanWhere features start last p.hintsAgree
    schema.getElem?_timestampColumn name.symm
  obtain ⟨r, run, collected⟩ := readable.scanTimeRange features low high
  refine ⟨out, r, runWhere, run, ?_⟩
  rw [outRows, collected.rows, List.filter_filter, filter_eq_filter_iff]
  have rows : ∀ row, row ∈ segs.rows ++ t.active.rows ↔ row ∈ logRows log := fun row =>
    clean.handle.rows.mem_iff
  simp only [rows]
  exact forall₂_congr fun row _ => inTime_and_passes_iff ha hb hlow hhigh row

end Scan

/-- Times from 2 to 10. -/
def earlyTimes : RangePredicate := ⟨"ts", F64.ofI64 2, F64.ofI64 10⟩

theorem int_predicates_exact_iff_ticks :
    (earlyTimes.testI64 5 = true ↔ (2 : Int) ≤ 5 ∧ (5 : Int) < 10) ∧
    ((⟨"ts", F64.ofI64 2⟩ : GtPredicate).testI64 5 = true ↔ (2 : Int) < 5) ∧
    ∃ d t out r, Reach jsonSerde ["db"] tickSchema d t [tick] ∧
      (t.scanWhere ⟨true, true⟩ 0 9 earlyTimes.predicate).exec d = (.ok out, d) ∧
      (t.scanTimeRange ⟨true, true⟩ 2 9).exec d = (.ok r, d) ∧
      out.toBatch.rows = r.toBatch.rows := by
  have two : F64.IsInt (F64.ofI64 2) 2 := F64.isInt_ofI64 (nearest_of_small (by decide))
  have ten : F64.IsInt (F64.ofI64 10) 10 := F64.isInt_ofI64 (nearest_of_small (by decide))
  obtain ⟨range, above, scans⟩ :=
    int_predicates_exact_iff (p := earlyTimes) (q := ⟨"ts", F64.ofI64 2⟩) two ten two
  refine ⟨(range 5).mpr (not_roundsAcross_of_small (by decide)), (above 5).mpr (by decide), ?_⟩
  obtain ⟨d, t, reach⟩ := tick_reopened jsonSerde ["db"]
  obtain ⟨out, r, runWhere, run, same⟩ :=
    scans _ _ _ _ _ _ reach rfl ⟨true, true⟩ 0 9 2 9 (by decide) (by decide)
  refine ⟨d, t, out, r, reach, runWhere, run, same.mpr ?_⟩
  intro row _ v _ lo hi
  refine not_roundsAcross_of_small ?_
  rw [Int64.le_iff_toInt_le, show (0 : Int64).toInt = 0 from rfl] at lo
  rw [Int64.lt_iff_toInt_lt, show (9 : Int64).toInt = 9 from rfl] at hi
  omega

/-- Just past 53 bits: an integer above the threshold is not found, and one below the minimum is. -/
theorem cast_reaches_bound :
    (F64.IsInt (F64.ofI64 9007199254740992) 9007199254740992 ∧
      ¬ ((⟨"ts", F64.ofI64 9007199254740992⟩ : GtPredicate).testI64 9007199254740993 = true ↔
        9007199254740992 < (9007199254740993 : Int64).toInt)) ∧
    F64.IsInt (F64.ofI64 9007199254740996) 9007199254740996 ∧
      F64.IsInt (F64.ofI64 9007199254741000) 9007199254741000 ∧
      ¬ ((⟨"ts", F64.ofI64 9007199254740996, F64.ofI64 9007199254741000⟩ :
          RangePredicate).testI64 9007199254740995 = true ↔
        9007199254740996 ≤ (9007199254740995 : Int64).toInt ∧
          (9007199254740995 : Int64).toInt < 9007199254741000) := by
  refine ⟨⟨F64.isInt_ofI64 ?_, ?_⟩, F64.isInt_ofI64 ?_, F64.isInt_ofI64 ?_, ?_⟩ <;> decide +kernel

end BypassIo.Db
