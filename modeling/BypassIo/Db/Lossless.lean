import BypassIo.Db.Json
import BypassIo.Db.ReadPaths
import BypassIo.Db.Runs
import BypassIo.Db.ScanTable

/-!
# Sealing loses nothing

A seal that returns has written every column and the metadata anew, whatever the directory
held before. A buffer that a column does not fit makes the seal panic, so a returned seal has
columns whose byte counts fit every length check of the two read paths.

## Main results

* `sealed_lossless`: what is read, mapped and skipped of a sealed segment.
-/

namespace BypassIo.Db
open Octet Rust FileSystem Columns

variable {serde : Serde} {root : Path} {schema : Schema} {b : RowBatch} {id : UInt64}
variable {segment : ImmutableSegment} {d d' : Disk} {may : Call → Prop}

/-- A non-empty batch of the schema whose seal returned, on any disk and with any calls failing
on the way, is read back as it was; each of its columns is mapped, with the batch's value in
every row and none past the last; and only a range without a timestamp is skipped. -/
theorem sealed_lossless (ok : b.WellFormed schema) (nonempty : b.rowCount ≠ 0)
    (run : Prog.Runs may (sealBatch serde root schema id b).run d (.ok segment) d') :
    (ImmutableSegment.load serde root (segmentRef segment)).exec d' = (.ok segment, d') ∧
    (segment.readBatch schema).exec d' = (.ok b, d') ∧
    (∀ column ∈ schema.columns, ∃ data mapped, b.column column.name = some data ∧
      (segment.mapColumn column.name column.dtype).exec d' = (.ok mapped, d') ∧
      mapped.rowCount = b.rowCount ∧ data.rowCount = b.rowCount ∧ mapped.Holds data) ∧
    ∀ start last, segment.overlapsTimeRange start last = false →
      ∃ timestamps, timestampsOf schema b = .ok timestamps ∧
        ∀ ts ∈ timestamps, ¬ (start ≤ ts ∧ ts < last) := by
  have h : (sealBatch serde root schema id b).exec d = (.ok segment, d') :=
    Prog.wp_runs (sealBatch_strict id b may d) run segment rfl
  obtain ⟨stored, -, -, -⟩ := sealBatch_exec ok nonempty h
  have fits := sealBatch_fits ok h
  refine ⟨load_exec stored, readBatch_exec stored fits, fun column hc => ?_, ?_⟩
  · obtain ⟨data, found, shape⟩ := ok.column hc
    refine ⟨data, _, found, mapColumn_exec stored hc (fits column hc) found, rfl, shape.rowCount, ?_⟩
    exact MappedColumn.holds_valueBytes column.name shape ((fits column hc).trans maxFileLen_le)
      (width_pos column)
  · intro start last apart
    obtain ⟨timestamps, -, times, -⟩ := timestamps_of_wellFormed ok
    refine ⟨timestamps, times, fun ts mem inside => ?_⟩
    have outside := not_inRange_of_not_overlaps stored apart times ts mem
    simp [inRange, inside] at outside

theorem tradeSchema_nameable : tradeSchema.Nameable := by
  intro column hc
  simp only [tradeSchema, List.mem_cons, List.not_mem_nil, or_false] at hc
  obtain rfl | rfl | rfl := hc
  · exact ⟨by decide, "ts.col", by decide⟩
  · exact ⟨by decide, "px.col", by decide⟩
  · exact ⟨by decide, "sym.col", by decide⟩

/-- A directory in which an earlier seal left a longer price file. -/
def halfSealed : Disk :=
  emptyDisk.setFile (segmentDir [] 1 ++ ["px.col"]) (some (i64Bytes 7 ++ i64Bytes 8 ++ [0]))

theorem sealed_lossless_trades : trades.WellFormed tradeSchema ∧ trades.rowCount ≠ 0 ∧
    ∃ segment d', Prog.Runs (fun _ => False) (sealBatch jsonSerde [] tradeSchema 1 trades).run
        halfSealed (.ok segment) d' ∧
      (segment.readBatch tradeSchema).exec d' = (.ok trades, d') := by
  have fits : Fits tradeSchema trades.rowCount := by
    intro column hc
    simp only [tradeSchema, List.mem_cons, List.not_mem_nil, or_false] at hc
    obtain rfl | rfl | rfl := hc <;> decide
  obtain ⟨segment, d', sealed⟩ :=
    sealBatch_succeeds jsonSerde [] tradeSchema_nameable trades_wellFormed fits 1 halfSealed
  have run := Prog.runs_exec (fun _ => False) (sealBatch jsonSerde [] tradeSchema 1 trades).run halfSealed
  rw [show (sealBatch jsonSerde [] tradeSchema 1 trades).run.exec halfSealed = _ from sealed] at run
  exact ⟨trades_wellFormed, by decide, segment, d', run,
    (sealed_lossless trades_wellFormed (by decide) run).2.1⟩

end BypassIo.Db
