import BypassIo.Db.Builder
import BypassIo.Db.IntPredicate
import BypassIo.Library.Binary64Arith

/-!
# The batches of the database benchmark

`make_batch` numbers the rows of all batches of a run from 0 on. Symbols, prices and volumes follow
from the position of a row in its batch. Prices rise by a cent from 100 on and start again after
10000 rows, in `f64` arithmetic.

## Main results

* `makeBatch_eq`: the batch is built, for every number of rows.
* `testF64_price`: which prices the predicate of the benchmark keeps.
* `trades_inTime`, `passes_tradeRow`: the rows of a run that its scans keep.
-/

namespace BypassIo.Cli
open Db Octet Rust Columns Binary64

/-! ## Schema -/

/-- The schema of `bench_db`. -/
def benchSchema : Except SchemaError Schema := do
  let timestamp ← ColumnDef.new "timestamp" .timestamp
  let symbol ← ColumnDef.new "symbol" (.fixedStr 8)
  let price ← ColumnDef.new "price" .f64
  let volume ← ColumnDef.new "volume" .f64
  Schema.new "trades" [timestamp, symbol, price, volume]

theorem timestamp_ne : DType.timestamp ≠ .fixedStr 0 := by decide

theorem f64_ne : DType.f64 ≠ .fixedStr 0 := by decide

theorem trades_ne : "trades" ≠ "" := by decide

def timestampDef : ColumnDef := ⟨"timestamp", .timestamp, by decide, timestamp_ne⟩
def symbolDef : ColumnDef := ⟨"symbol", .fixedStr 8, by decide, by decide⟩
def priceDef : ColumnDef := ⟨"price", .f64, by decide, f64_ne⟩
def volumeDef : ColumnDef := ⟨"volume", .f64, by decide, f64_ne⟩

def tradeSchema : Schema where
  name := "trades"
  columns := [timestampDef, symbolDef, priceDef, volumeDef]
  timestampColumnIdx := 0
  name_ne := trades_ne
  nodup := by decide
  only_timestamp := .of_types (by decide) (by decide)

theorem benchSchema_eq : benchSchema = .ok tradeSchema := Schema.new_self tradeSchema

theorem tradeSchema_nameable : tradeSchema.Nameable := by
  intro column hc
  obtain rfl | rfl | rfl | rfl : column = timestampDef ∨ column = symbolDef ∨ column = priceDef ∨
      column = volumeDef := by simpa [tradeSchema] using hc
  · exact ⟨by decide, "timestamp.col", by decide⟩
  · exact ⟨by decide, "symbol.col", by decide⟩
  · exact ⟨by decide, "price.col", by decide⟩
  · exact ⟨by decide, "volume.col", by decide⟩

/-! ## Batches -/

def symbol (idx : Nat) : Bytes := if idx % 2 = 0 then asBytes "EURUSD  " else asBytes "BTCUSD  "

/-- `100.0 + ((idx % 10_000) as f64 * 0.01)` -/
def price (idx : Nat) : UInt64 :=
  UInt64.ofNat (add 0x4059000000000000 (mul (encode (idx % 10000)) 0x3f847ae147ae147b))

/-- `1.0 + (idx % 100) as f64` -/
def volume (idx : Nat) : UInt64 := UInt64.ofNat (add 0x3ff0000000000000 (encode (idx % 100)))

/-- `make_batch`; the arithmetic of the timestamps wraps. -/
def makeBatch (schema : Schema) (rows batchNo : Nat) : Except BatchError RowBatch :=
  let base := Int64.ofNat (batchNo * rows)
  let timestamps := (List.range rows).map fun idx => base + Int64.ofNat idx
  let symbols := (List.range rows).map symbol
  let prices := (List.range rows).map price
  let volumes := (List.range rows).map volume
  (((((RowBatch.builder schema).column "timestamp" (.timestamp timestamps)).column
    "symbol" (.fixedStr 8 symbols)).column
    "price" (.f64 prices)).column
    "volume" (.f64 volumes)).build

def tradeBatch (rows batchNo : Nat) : RowBatch where
  columns := [
    ("timestamp", .timestamp ((List.range rows).map fun idx => Int64.ofNat (batchNo * rows + idx))),
    ("symbol", .fixedStr 8 ((List.range rows).map symbol)),
    ("price", .f64 ((List.range rows).map price)),
    ("volume", .f64 ((List.range rows).map volume))]
  rowCount := rows

variable {rows batches n m : Nat}

theorem length_symbol (idx : Nat) : (symbol idx).length = 8 := by
  have both : (asBytes "EURUSD  ").length = 8 ∧ (asBytes "BTCUSD  ").length = 8 := by decide
  unfold symbol
  split
  · exact both.1
  · exact both.2

theorem tradeBatch_wellFormed (rows batchNo : Nat) :
    (tradeBatch rows batchNo).WellFormed tradeSchema := by
  have widths : ColumnData.WidthsOk (.fixedStr 8 ((List.range rows).map symbol)) := by
    intro v hv
    obtain ⟨idx, -, rfl⟩ := List.mem_map.mp hv
    exact length_symbol idx
  refine .cons ⟨rfl, rfl, ?_, trivial⟩ (.cons ⟨rfl, rfl, ?_, widths⟩
    (.cons ⟨rfl, rfl, ?_, trivial⟩ (.cons ⟨rfl, rfl, ?_, trivial⟩ .nil))) <;>
    simp [ColumnData.rowCount, tradeBatch]

theorem makeBatch_eq (rows batchNo : Nat) :
    makeBatch tradeSchema rows batchNo = .ok (tradeBatch rows batchNo) := by
  have times : ((List.range rows).map fun idx => Int64.ofNat (batchNo * rows) + Int64.ofNat idx) =
      (List.range rows).map fun idx => Int64.ofNat (batchNo * rows + idx) := by
    simp [Int64.ofNat_add]
  simp only [makeBatch, times]
  exact RowBatchBuilder.build_of_perm (tradeBatch_wellFormed rows batchNo) (List.Perm.refl _)

theorem tradeBatch_built (rows batchNo : Nat) : Built (tradeBatch rows batchNo) :=
  ⟨_, RowBatchBuilder.build_of_perm (tradeBatch_wellFormed rows batchNo) (List.Perm.refl _)⟩

/-- Bytes of the payload of a batch. -/
def payloadSize (rows : Nat) : Nat := 36 * rows + 102

theorem payloadLen_tradeBatch (rows batchNo : Nat) :
    (tradeBatch rows batchNo).payloadLen = payloadSize rows := by
  have names : (asBytes "timestamp").length = 9 ∧ (asBytes "symbol").length = 6 ∧
      (asBytes "price").length = 5 ∧ (asBytes "volume").length = 6 := by decide
  have texts : ((List.range rows).map fun idx => 4 + (symbol idx).length).sum = 12 * rows := by
    simp [length_symbol, Nat.mul_comm]
  simp only [RowBatch.payloadLen, tradeBatch, List.map_cons, List.map_nil, List.sum_cons,
    List.sum_nil, ColumnData.encodedLen, names, List.length_map, List.length_range, List.map_map,
    Function.comp_def, texts, payloadSize]
  omega

theorem tradeBatch_encodable (rows batchNo : Nat) : (tradeBatch rows batchNo).Encodable := by
  have names : ∀ c ∈ (tradeBatch rows batchNo).columns, (asBytes c.1).length ≤ u32Max := by
    have short : ∀ name ∈ ["timestamp", "symbol", "price", "volume"],
        (asBytes name).length ≤ u32Max := by decide
    intro c hc
    have mem : c.1 ∈ (tradeBatch rows batchNo).columns.map (·.1) := List.mem_map_of_mem hc
    exact short _ mem
  have texts : ColumnData.Encodable (.fixedStr 8 ((List.range rows).map symbol)) := by
    intro v hv
    obtain ⟨idx, -, rfl⟩ := List.mem_map.mp hv
    rw [length_symbol]
    decide
  intro c hc
  refine ⟨names c hc, ?_⟩
  obtain rfl | rfl | rfl | rfl : c = _ ∨ c = _ ∨ c = _ ∨ c = _ := by simpa [tradeBatch] using hc
  · trivial
  · exact texts
  · trivial
  · trivial

/-! ## Prices -/

/-- The predicate of `bench_db`: from 100 to 110. -/
def cheap : RangePredicate := ⟨"price", 0x4059000000000000, 0x405b800000000000⟩

/-- A word without a sign is a number, ordered as the words are. -/
theorem key_ofNat {w : Nat} (h : w ≤ infinity) :
    F64.isNan (UInt64.ofNat w) = false ∧ F64.key (UInt64.ofNat w) = w := by
  unfold infinity at h
  have word : (UInt64.ofNat w).toNat = w :=
    UInt64.toNat_ofNat_of_lt' (by simp [UInt64.size]; omega)
  have magnitude : F64.magnitude (UInt64.ofNat w) = w := by
    rw [F64.magnitude, word]
    omega
  refine ⟨?_, ?_⟩
  · rw [F64.isNan, magnitude, decide_eq_false_iff_not]
    omega
  · rw [F64.key, magnitude, word, if_pos (by omega)]

/-- A number of cents, rounded down or up to a word. -/
theorem cents_le {k c : Nat} (small : k < 2 ^ 53) (le : k * units 0x3f847ae147ae147b ≤ units c) :
    mul (encode k) 0x3f847ae147ae147b ≤ c := by
  apply mul_le
  rw [units_encode_of_small small, Nat.mul_right_comm]
  exact Nat.mul_le_mul_right _ le

theorem le_cents {k c : Nat} (small : k < 2 ^ 53) (finite : c ≤ infinity)
    (le : units c ≤ k * units 0x3f847ae147ae147b) : c ≤ mul (encode k) 0x3f847ae147ae147b := by
  apply le_mul finite
  rw [units_encode_of_small small, Nat.mul_right_comm]
  exact Nat.mul_le_mul_right _ le

/-- Words between which the price of 100 and some cents lies. -/
theorem dollars_le {b c d : Nat} (le : b ≤ c)
    (sum : units 0x4059000000000000 + units c ≤ units d) : add 0x4059000000000000 b ≤ d :=
  add_le ((Nat.add_le_add_left (units_strictMono.monotone le) _).trans sum)

theorem price_word_bounds {k : Nat} (h : k < 10000) :
    0x4059000000000000 ≤ add 0x4059000000000000 (mul (encode k) 0x3f847ae147ae147b) ∧
    add 0x4059000000000000 (mul (encode k) 0x3f847ae147ae147b) ≤ infinity ∧
    (add 0x4059000000000000 (mul (encode k) 0x3f847ae147ae147b) < 0x405b800000000000 ↔
      k < 1000) := by
  have small : k < 2 ^ 53 := by omega
  refine ⟨le_add (by decide) (Nat.le_add_right _ _), ?_, ?_⟩
  · -- At most 100 + 100.
    have cents : mul (encode k) 0x3f847ae147ae147b ≤ 0x4059000000000000 := by
      refine cents_le small ((Nat.mul_le_mul_right _ (Nat.le_of_lt_succ h)).trans ?_)
      decide +kernel
    exact (dollars_le (d := 0x4069000000000000) cents (by decide +kernel)).trans (by decide)
  · constructor
    · -- From 1000 cents on at least 100 + 10.
      intro lt
      by_contra many
      have cents : 0x4024000000000000 ≤ mul (encode k) 0x3f847ae147ae147b := by
        refine le_cents small (by decide) (Nat.le_trans ?_
          (Nat.mul_le_mul_right _ (Nat.not_lt.mp many)))
        decide +kernel
      have sum : units 0x405b800000000000 ≤
          units 0x4059000000000000 + units 0x4024000000000000 := by decide +kernel
      have := le_add (by decide) (sum.trans
        (Nat.add_le_add_left (units_strictMono.monotone cents) _))
      omega
    · -- Below it at most 100 + 9.9921875.
      intro few
      have cents : mul (encode k) 0x3f847ae147ae147b ≤ 0x4023fc0000000000 := by
        refine cents_le small ((Nat.mul_le_mul_right _ (Nat.le_of_lt_succ few)).trans ?_)
        decide +kernel
      have := dollars_le (d := 0x405b7f8000000000) cents (by decide +kernel)
      omega

/-- The predicate keeps the first 1000 of each 10000 rows of a batch. -/
theorem testF64_price (idx : Nat) : cheap.testF64 (price idx) = decide (idx % 10000 < 1000) := by
  obtain ⟨low, finite, high⟩ := price_word_bounds (Nat.mod_lt idx (by decide : 0 < 10000))
  obtain ⟨real, key⟩ := key_ofNat finite
  obtain ⟨realMin, keyMin⟩ := key_ofNat (w := 0x4059000000000000) (by decide)
  obtain ⟨realMax, keyMax⟩ := key_ofNat (w := 0x405b800000000000) (by decide)
  have min : cheap.min = UInt64.ofNat 0x4059000000000000 := rfl
  have max : cheap.max = UInt64.ofNat 0x405b800000000000 := rfl
  rw [RangePredicate.testF64, inRangeF64, F64.ge, F64.lt, min, max, price, real, realMin, realMax,
    key, keyMin, keyMax]
  simp only [Bool.not_false, Bool.true_and, ← Bool.decide_and]
  rw [decide_eq_decide, ← high]
  omega

/-! ## Rows of a run -/

/-- Row `t` of a run with batches of `n` rows. -/
def tradeRow (n t : Nat) : Row :=
  [.timestamp (Int64.ofNat t), .fixedStr (symbol (t % n)), .f64 (price (t % n)),
    .f64 (volume (t % n))]

theorem rows_tradeBatch (n batchNo : Nat) :
    (tradeBatch n batchNo).rows = (List.range n).map fun idx => tradeRow n (batchNo * n + idx) := by
  have columns : (tradeBatch n batchNo).columns.map (·.2.cells) =
      [fun idx => Cell.timestamp (Int64.ofNat (batchNo * n + idx)), fun idx => .fixedStr (symbol idx),
        fun idx => .f64 (price idx), fun idx => .f64 (volume idx)].map fun f =>
          (List.range n).map f := by
    simp [tradeBatch, ColumnData.cells, Function.comp_def]
  have rows := rowsOf_map [fun idx => Cell.timestamp (Int64.ofNat (batchNo * n + idx)),
    fun idx => .fixedStr (symbol idx), fun idx => .f64 (price idx), fun idx => .f64 (volume idx)]
    (List.range n)
  rw [List.length_range] at rows
  rw [RowBatch.rows, columns]
  refine rows.trans (List.map_congr_left fun idx mem => ?_)
  have lt := List.mem_range.mp mem
  have inBatch : (batchNo * n + idx) % n = idx := by
    rw [Nat.add_comm, Nat.add_mul_mod_self_right, Nat.mod_eq_of_lt lt]
  simp [tradeRow, inBatch]

/-- The batches of a run. -/
def trades (n batches : Nat) : List RowBatch := (List.range batches).map (tradeBatch n)

theorem trades_succ (n batches : Nat) :
    trades n (batches + 1) = trades n batches ++ [tradeBatch n batches] := by
  simp [trades, List.range_succ]

theorem logRows_trades (n batches : Nat) :
    logRows (trades n batches) = (List.range (batches * n)).map (tradeRow n) := by
  induction batches with
  | zero => simp [trades, logRows]
  | succ batches ih =>
    rw [trades_succ, logRows_append, ih, Nat.succ_mul, List.range_add, List.map_append, List.map_map]
    simp [logRows, rows_tradeBatch, Function.comp_def]

theorem filter_range_lt (m bound : Nat) :
    (List.range m).filter (· < bound) = List.range (min m bound) := by
  induction m with
  | zero => simp
  | succ m ih =>
    rw [List.range_succ, List.filter_append, ih]
    by_cases lt : m < bound
    · have more : min (m + 1) bound = min m bound + 1 := by omega
      have all : min m bound = m := by omega
      rw [more, List.range_succ, all]
      simp [lt]
    · have same : min (m + 1) bound = min m bound := by omega
      simp [same, lt]

/-- Rows of a run with a time before `bound`. -/
theorem trades_inTime {bound : Nat} (fits : batches * n < 2 ^ 63) (hb : bound < 2 ^ 63) :
    (logRows (trades n batches)).filter (inTime tradeSchema 0 (Int64.ofNat bound)) =
      (List.range (min (batches * n) bound)).map (tradeRow n) := by
  rw [logRows_trades, List.filter_map, ← filter_range_lt]
  congr 1
  refine List.filter_congr fun t mem => ?_
  have lt := List.mem_range.mp mem
  have time : (Int64.ofNat t).toInt = t := Int64.toInt_ofNat_of_lt (by omega)
  have stop : (Int64.ofNat bound).toInt = bound := Int64.toInt_ofNat_of_lt hb
  have row : (tradeRow n t)[tradeSchema.timestampColumnIdx]? = some (.timestamp (Int64.ofNat t)) := rfl
  simp only [Function.comp_apply, inTime, row, Option.any_some, Cell.inTime, inRange, ge_iff_le,
    Int64.le_iff_toInt_le, Int64.lt_iff_toInt_lt, time, stop, Int64.toInt_zero]
  simp

/-- How many of the first `m` rows of a run with batches of `n` rows are cheap. -/
def cheapRows (n m : Nat) : Nat := (List.range m).countP fun t => t % n % 10000 < 1000

theorem passes_tradeRow (n t : Nat) :
    passes cheap.predicate 2 (tradeRow n t) = decide (t % n % 10000 < 1000) := by
  have row : (tradeRow n t)[2]? = some (.f64 (price (t % n))) := rfl
  have test : ∀ value, cheap.predicate.testCell (.f64 value) = cheap.testF64 value := fun _ => rfl
  rw [passes, row, Option.any_some, test, testF64_price]

end BypassIo.Cli
