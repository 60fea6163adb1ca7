import BypassIo.Db.Load
import BypassIo.Db.Reopen

/-!
# A log cut by a crash

A crash during an append leaves the log cut at any byte. The reader takes a cut inside a
header for the end of the log, and reports a cut after it as an I/O error, so the table does
not open any more. `torn_tail` shows that these are the two cases: the whole records are
recovered exactly when fewer bytes than a header are left behind them.
-/

namespace BypassIo.Db
open Octet Rust FileSystem Columns

/-! ## What lies before the cut -/

/-- The records whose encoding lies within the first `n` bytes. -/
def wholeBefore : List WalRecord → Nat → List WalRecord
  | [], _ => []
  | r :: records, n =>
    if r.frame.length ≤ n then r :: wholeBefore records (n - r.frame.length) else []

/-- The bytes before the cut that belong to a record behind it. -/
def leftover : List WalRecord → Nat → Bytes
  | [], _ => []
  | r :: records, n =>
    if r.frame.length ≤ n then leftover records (n - r.frame.length) else r.frame.take n

theorem take_frames (records : List WalRecord) (n : Nat) :
    (frames records).take n = frames (wholeBefore records n) ++ leftover records n := by
  induction records generalizing n with
  | nil => simp [wholeBefore, leftover]
  | cons r records ih =>
    rw [frames_cons, wholeBefore, leftover]
    split
    · rename_i within
      rw [List.take_append, List.take_of_length_le within, ih, frames_cons, List.append_assoc]
    · rename_i cut
      rw [List.take_append_of_le_length (by omega), frames_nil, List.nil_append]

theorem fit_wholeBefore {records : List WalRecord} (fit : Fit records) (n : Nat) :
    Fit (wholeBefore records n) := by
  induction records generalizing n with
  | nil => exact fit
  | cons r records ih =>
    obtain ⟨here, later⟩ := List.forall_mem_cons.mp fit
    rw [wholeBefore]
    split
    · exact List.forall_mem_cons.mpr ⟨here, ih later _⟩
    · simp [Fit]

/-- The reader stops at a short rest and fails at a longer one. -/
theorem decodeFrom_leftover {records : List WalRecord} (fit : Fit records) (n : Nat) :
    WalRecord.decodeFrom (leftover records n) =
      if (leftover records n).length < headerLen then .ok none else .error (.ofIo .unexpectedEof) := by
  induction records generalizing n with
  | nil => rfl
  | cons r records ih =>
    obtain ⟨here, later⟩ := List.forall_mem_cons.mp fit
    rw [leftover]
    split
    · exact ih later _
    · rename_i cut
      have inside : n < r.frame.length := by omega
      rw [WalRecord.decodeFrom_take_frame here inside, List.length_take, Nat.min_eq_left inside.le]

/-- Reading a cut log. -/
theorem readLog_take {records : List WalRecord} (fit : Fit records) (n : Nat) :
    readLog ((frames records).take n) =
      if (leftover records n).length < headerLen then
        .ok (wholeBefore records n, leftover records n)
      else .error (.ofIo .unexpectedEof) := by
  have next := decodeFrom_leftover fit n
  rw [take_frames, readLog_frames (fit_wholeBefore fit n)]
  split at next <;> rename_i short
  · rw [if_pos short, readLog_end next]
    simp [Except.map]
  · rw [if_neg short, readLog_error next]
    rfl

/-! ## Recovery -/

section Recovery

variable (serde : Serde) (root : Path) (schema : Schema) (d : Disk)

/-- The disk with these bytes in the log file. -/
def withLog (bytes : Bytes) : Disk := d.setFile (walPath root) (some bytes)

/-- The log cut after `n` bytes is read as its whole records, and the table opens as it does on
these records alone. -/
structure Recovers (records : List WalRecord) (n : Nat) : Prop where
  read : (WalReader.records (walPath root)).exec (withLog root d ((frames records).take n)) =
    (.ok (wholeBefore records n), withLog root d ((frames records).take n))
  opens : ∀ t,
    (∃ d', (Table.openTable serde root schema).exec
        (withLog root d ((frames records).take n)) = (.ok t, d')) ↔
      ∃ d', (Table.openTable serde root schema).exec
        (withLog root d (frames (wholeBefore records n))) = (.ok t, d')

end Recovery

variable {serde : Serde} {root : Path} {schema : Schema} {d d' : Disk} {t : Table}

/-- Which table opens depends on the records of the log, not on the bytes behind them. -/
theorem Loads.withLog {text : String} {records : List WalRecord} {batches : List RowBatch}
    {bytes bytes' : Bytes} {tail' : Bytes}
    (h : Loads serde root schema (withLog root d bytes) t text records batches)
    (log : readLog bytes' = .ok (records, tail')) :
    Loads serde root schema (BypassIo.Db.withLog root d bytes') t text records batches := by
  have frame : ∀ q, q ≠ walPath root →
      (BypassIo.Db.withLog root d bytes').files q = (BypassIo.Db.withLog root d bytes).files q := by
    intro q ne
    simp [BypassIo.Db.withLog, ne]
  refine { h with found := ?_, sealed := ?_, log := ⟨tail', ?_⟩ }
  · exact h.found.frame (frame _ walPath_ne_manifest.symm) rfl
  · refine h.sealed.imp fun _ loaded segment => segment.frame (frame _ ?_)
    intro same
    have last := congrArg List.getLast? same
    simp [walPath] at last
  · simpa [walBytes, BypassIo.Db.withLog] using log

/-- Two logs with the same records open the same table. -/
theorem opens_same_records {records : List WalRecord} {bytes bytes' tail tail' : Bytes}
    (log : readLog bytes = .ok (records, tail)) (log' : readLog bytes' = .ok (records, tail'))
    (h : ∃ d', (Table.openTable serde root schema).exec (withLog root d bytes) = (.ok t, d')) :
    ∃ d', (Table.openTable serde root schema).exec (withLog root d bytes') = (.ok t, d') := by
  obtain ⟨d', run⟩ := h
  obtain ⟨text, found, batches, loads, -⟩ := openTable_exec_eq_ok.mp run
  obtain ⟨rest, again⟩ := loads.log
  simp only [walBytes, withLog, Disk.setFile_files_self, Option.getD_some, log, Except.ok.injEq,
    Prod.mk.injEq] at again
  obtain ⟨rfl, -⟩ := again
  exact ⟨_, openTable_exec_eq_ok.mpr ⟨text, records, batches, loads.withLog log', rfl⟩⟩

/-- A cut log is recovered exactly when less than a header is left behind its whole records. -/
theorem torn_tail {records : List WalRecord} (fit : Fit records) (n : Nat) :
    Recovers serde root schema d records n ↔ (leftover records n).length < headerLen := by
  have cut := readLog_take fit n
  have whole := readLog_whole (fit_wholeBefore fit n)
  constructor
  · intro recovers
    by_contra long
    rw [if_neg long] at cut
    obtain ⟨-, bytes, tail, held, log⟩ := records_exec_eq_ok.mp recovers.read
    obtain rfl : (frames records).take n = bytes := by simpa [withLog] using held
    cases cut.symm.trans log
  · intro short
    rw [if_pos short] at cut
    refine ⟨records_exec_eq_ok.mpr ⟨rfl, _, _, by simp [withLog], cut⟩, fun t => ⟨?_, ?_⟩⟩
    · exact opens_same_records cut whole
    · exact opens_same_records whole cut

theorem torn_tail_example :
    Recovers jsonSerde ["db"] tickSchema emptyDisk [⟨0, [1, 2]⟩, ⟨1, [3]⟩] 30 :=
  (torn_tail (by simp [Fit, u32Max]) 30).mpr (by decide)

/-- The cut falls behind the header of the first record. -/
theorem torn_header : ¬ Recovers jsonSerde ["db"] tickSchema emptyDisk [⟨0, [1, 2]⟩] 16 := by
  intro recovers
  obtain ⟨-, bytes, tail, held, log⟩ := records_exec_eq_ok.mp recovers.read
  obtain rfl : (frames [⟨0, [1, 2]⟩]).take 16 = bytes := by simpa [withLog] using held
  rw [readLog_error (e := .ofIo .unexpectedEof) (by decide)] at log
  cases log

end BypassIo.Db
