import BypassIo.Db.Load
import BypassIo.Db.Reopen

/-!
# Log files

What a reader finds in a log file, and what appends leave there when their writes can fail.
A write that fails may have stored any initial part of its record. The next record is written
behind that part, where the reader does not look for one.

## Main results

* `records_framing`: whole records read back, and only whole records read.
* `session_records`: when what failed appends leave is read as the end of the log, and nothing
  is appended behind it, the reader finds the acknowledged records.
-/

namespace BypassIo.Db
open Octet Rust FileSystem

variable {d d' : Disk} {path : Path} {records : List WalRecord}

/-! ## Whole records -/

/-- The reader stops at bytes that do not begin with a header. -/
theorem WalRecord.decodeFrom_eq_none {tail : Bytes} :
    decodeFrom tail = .ok none ↔ tail.length < headerLen ∨ ¬ walMagic <+: tail := by
  have start : headerLen ≤ tail.length →
      ((tail.take headerLen).take 4 = walMagic ↔ walMagic <+: tail) := by
    intro long
    rw [List.take_take, Nat.min_eq_left (by decide), List.prefix_iff_eq_take]
    exact eq_comm
  constructor
  · intro h
    by_contra out
    obtain ⟨long, magic⟩ := not_or.mp out
    rw [not_lt] at long
    unfold decodeFrom at h
    rw [if_neg (not_lt.mpr long), if_neg (not_not.mpr ((start long).mpr (not_not.mp magic)))] at h
    simp only at h
    split at h
    · cases h
    · split at h
      · cases h
      · split at h <;> cases h
  · intro h
    unfold decodeFrom
    by_cases short : tail.length < headerLen
    · rw [if_pos short]
    · have magic := h.resolve_left short
      rw [if_neg short, if_pos fun same => magic ((start (not_lt.mp short)).mp same)]

theorem mapM_encode_eq_ok {encoded : List Bytes} :
    records.mapM WalRecord.encode = .ok encoded ↔
      Fit records ∧ encoded = records.map WalRecord.frame := by
  induction records generalizing encoded with
  | nil => simp [Fit, pure, Except.pure, eq_comm]
  | cons r records ih =>
    rw [mapM_cons_eq_ok]
    constructor
    · rintro ⟨first, rest, head, others, rfl⟩
      obtain ⟨fits, rfl⟩ := WalRecord.encode_eq_ok.mp head
      obtain ⟨fit, rfl⟩ := ih.mp others
      exact ⟨List.forall_mem_cons.mpr ⟨fits, fit⟩, rfl⟩
    · rintro ⟨fit, rfl⟩
      obtain ⟨fits, fit⟩ := List.forall_mem_cons.mp fit
      exact ⟨_, _, WalRecord.encode_eq_ok.mpr ⟨fits, rfl⟩, ih.mpr ⟨fit, rfl⟩, rfl⟩

theorem flatten_map_frame (records : List WalRecord) :
    (records.map WalRecord.frame).flatten = frames records := by
  rw [frames, List.flatMap_def]

/-- The concatenated encodings of records that fit read back; and what reads is encodings
followed by bytes that do not begin with a header. -/
theorem records_framing (path : Path) (records : List WalRecord) (d d' : Disk) :
    (Fit records → ∃ encoded, records.mapM WalRecord.encode = .ok encoded ∧
      (d.files path = some encoded.flatten →
        (WalReader.records path).exec d = (.ok records, d))) ∧
    ((WalReader.records path).exec d = (.ok records, d') →
      ∃ encoded tail, records.mapM WalRecord.encode = .ok encoded ∧
        d.files path = some (encoded.flatten ++ tail) ∧
        (tail.length < headerLen ∨ ¬ walMagic <+: tail)) := by
  constructor
  · intro fit
    refine ⟨_, mapM_encode_eq_ok.mpr ⟨fit, rfl⟩, fun held => ?_⟩
    rw [flatten_map_frame] at held
    exact records_exec_eq_ok.mpr ⟨rfl, _, [], held, readLog_whole fit⟩
  · intro run
    obtain ⟨-, bytes, tail, held, log⟩ := records_exec_eq_ok.mp run
    obtain ⟨fit, rfl, ends⟩ := readLog_eq_ok.mp log
    refine ⟨_, tail, mapM_encode_eq_ok.mpr ⟨fit, rfl⟩, ?_, WalRecord.decodeFrom_eq_none.mp ends⟩
    rw [flatten_map_frame, held]

/-- A payload that is itself the magic bytes. -/
theorem records_framing_magic :
    (WalReader.records ["log"]).exec
        (emptyDisk.setFile ["log"] (some (frames [⟨3, walMagic⟩, ⟨5, []⟩]))) =
      (.ok [⟨3, walMagic⟩, ⟨5, []⟩],
        emptyDisk.setFile ["log"] (some (frames [⟨3, walMagic⟩, ⟨5, []⟩]))) := by
  obtain ⟨encoded, all, reads⟩ := (records_framing ["log"] [⟨3, walMagic⟩, ⟨5, []⟩]
    (emptyDisk.setFile ["log"] (some (frames [⟨3, walMagic⟩, ⟨5, []⟩]))) emptyDisk).1 (by
      simp [Fit, u32Max, walMagic])
  obtain ⟨-, rfl⟩ := mapM_encode_eq_ok.mp all
  exact reads (by simp)

/-! ## Appends whose writes fail -/

/-- The bytes of the log file. -/
def contents (path : Path) (d : Disk) : Bytes := (d.files path).getD []

/-- Nothing stands behind the last record. -/
def Closed (path : Path) (d : Disk) : Prop := ∃ records, readLog (contents path d) = .ok (records, [])

/-- With these bytes added, what stands behind the last record does not begin with a header. -/
def StaysEnd (path : Path) (d : Disk) (stored : Bytes) : Prop :=
  ∀ records tail, readLog (contents path d) = .ok (records, tail) →
    (tail ++ stored).length < headerLen ∨ ¬ walMagic <+: tail ++ stored

section Relation

variable (path : Path) (accepts : Disk → Prop) (tears : Disk → Bytes → Prop)

/-- Appends to one writer on a log of whole records. Each write may fail after it has stored
some bytes; the list holds the records of the appends that returned `Ok`. -/
inductive Session : Disk → WalWriter → List WalRecord → Prop where
  | opened {d d' w records} : d.dirs path.dropLast = true → Fit records →
      contents path d = frames records →
      (WalWriter.openWriter path).exec d = (.ok w, d') → Session d' w records
  | appended {d d' w w' records payload n} : Session d w records → accepts d →
      (WalWriter.append payload).Runs (fun _ => True) w d (.ok n) w' d' →
      Session d' w' (records ++ [⟨n, payload⟩])
  | failed {d d' w w' records payload e stored} : Session d w records → tears d stored →
      (WalWriter.append payload).Runs (fun _ => True) w d (.error e) w' d' →
      contents path d' = contents path d ++ stored → Session d' w' records

end Relation

/-- How `append` ends: with its record stored whole, or with an initial part of it. -/
inductive WalWriter.Wrote (payload : Bytes) (w : WalWriter) (d : Disk) :
    Outcome WalError UInt64 → WalWriter → Disk → Prop where
  | done {w' x} : w'.path = w.path → payload.length ≤ u32Max → d.files w.path = some x →
      Wrote payload w d (.ok w.nextSeqNo) w'
        (d.setFile w.path (some (x ++ WalRecord.frame ⟨w.nextSeqNo, payload⟩)))
  | untouched {w' e} : w'.path = w.path → Wrote payload w d (.error e) w' d
  | torn {w' e x} (k : Nat) : w'.path = w.path → d.files w.path = some x →
      Wrote payload w d (.error e) w'
        (d.setFile w.path (some (x ++ (WalRecord.frame ⟨w.nextSeqNo, payload⟩).take k)))

theorem WalWriter.append_wp (may : Call → Prop) (payload : Bytes) (w : WalWriter) (d : Disk) :
    (WalWriter.append payload).wp may (Wrote payload w d) (fun _ => True) w d := by
  unfold WalWriter.append
  rw [Method.wp_get_bind]
  cases checkedAdd64 w.nextSeqNo 1 with
  | none => exact .untouched rfl
  | some next =>
    dsimp only
    rw [Method.wp_set_bind]
    cases found : WalRecord.encode ⟨w.nextSeqNo, payload⟩ with
    | error e => exact .untouched rfl
    | ok encoded =>
      obtain ⟨fits, rfl⟩ := WalRecord.encode_eq_ok.mp found
      dsimp only
      have wrote : (Query.io WalError.ofIo (.append w.path (WalRecord.frame ⟨w.nextSeqNo, payload⟩))).wp
          may (fun r d' => Wrote payload w d (r.map fun _ => w.nextSeqNo)
            { w with nextSeqNo := next } d') (fun _ => True) d := by
        refine Query.wp_io (fun _ _ => trivial) ?_ ?_
        · rw [Query.exec_io, Call.effect]
          cases held : d.files w.path with
          | none => exact .untouched rfl
          | some x =>
            by_cases room : x.length + (WalRecord.frame ⟨w.nextSeqNo, payload⟩).length ≤ maxFileLen
            · simp only [room, if_true]
              exact .done rfl fits held
            · simp only [room, if_false]
              exact .untouched rfl
        · intro e d' _ torn
          obtain rfl | ⟨x, k, held, rfl⟩ := torn
          · exact .untouched rfl
          · exact .torn k rfl held
      exact Method.wp_query_seq wrote (fun _ _ h => h) (fun _ _ h => h) fun _ h => h

/-- An append that returns `Ok` has stored its record. -/
theorem WalWriter.Wrote.frame {payload : Bytes} {w w' : WalWriter} {n : UInt64}
    (h : Wrote payload w d (.ok n) w' d') :
    w'.path = w.path ∧ payload.length ≤ u32Max ∧
      contents w.path d' = contents w.path d ++ WalRecord.frame ⟨n, payload⟩ := by
  cases h with
  | done path fits held => exact ⟨path, fits, by simp [contents, held]⟩

theorem WalWriter.Wrote.isSome {payload : Bytes} {w w' : WalWriter} {r : Outcome WalError UInt64}
    (h : Wrote payload w d r w' d') (found : (d.files w.path).isSome = true) :
    (d'.files w.path).isSome = true := by
  cases h with
  | untouched => exact found
  | done | torn => simp

theorem WalWriter.Wrote.same_path {payload : Bytes} {w w' : WalWriter} {r : Outcome WalError UInt64}
    (h : Wrote payload w d r w' d') : w'.path = w.path := by
  cases h <;> assumption

section Runs

variable {accepts : Disk → Prop} {tears : Disk → Bytes → Prop} {w : WalWriter}

/-- What a session keeps: the acknowledged records, and behind them the end of the log. -/
structure Acknowledged (path : Path) (d : Disk) (w : WalWriter) (records : List WalRecord) : Prop where
  writer : w.path = path
  exists_file : (d.files path).isSome = true
  fit : Fit records
  read : ∃ tail, readLog (contents path d) = .ok (records, tail)

theorem Acknowledged.append (h : Acknowledged path d w records) {payload : Bytes} {n : UInt64}
    {w' : WalWriter} (closed : Closed path d)
    (ended : WalWriter.Wrote payload w d (.ok n) w' d') :
    Acknowledged path d' w' (records ++ [⟨n, payload⟩]) := by
  obtain ⟨tail, read⟩ := h.read
  obtain ⟨found, whole⟩ := closed
  obtain ⟨rfl, rfl⟩ : records = found ∧ tail = [] := by simpa using read.symm.trans whole
  obtain ⟨fit, bytes, -⟩ := readLog_eq_ok.mp whole
  obtain ⟨same, fits, stored⟩ := ended.frame
  obtain rfl := h.writer
  have fit' : Fit (records ++ [⟨n, payload⟩]) := by
    intro r hr
    rcases List.mem_append.mp hr with old | new
    · exact fit r old
    · obtain rfl := List.mem_singleton.mp new
      exact fits
  have log : contents w.path d' = frames (records ++ [⟨n, payload⟩]) := by
    rw [stored, bytes, frames_append]
    simp
  exact ⟨same, ended.isSome h.exists_file, fit', [], log ▸ readLog_whole fit'⟩

theorem Acknowledged.fail (h : Acknowledged path d w records) {payload stored : Bytes}
    {w' : WalWriter} {e : Fault WalError} (stays : StaysEnd path d stored)
    (ended : WalWriter.Wrote payload w d (.error e) w' d')
    (bytes : contents path d' = contents path d ++ stored) :
    Acknowledged path d' w' records := by
  obtain ⟨tail, read⟩ := h.read
  obtain ⟨fit, old, -⟩ := readLog_eq_ok.mp read
  obtain rfl := h.writer
  refine ⟨ended.same_path, ended.isSome h.exists_file, fit, tail ++ stored, ?_⟩
  rw [bytes, old, List.append_assoc]
  exact readLog_eq_ok.mpr ⟨fit, rfl, WalRecord.decodeFrom_eq_none.mpr (stays _ _ read)⟩

/-- Every allowed step keeps the acknowledged records readable. -/
theorem Session.acknowledged (h : Session path (Closed path) (StaysEnd path) d w records) :
    Acknowledged path d w records := by
  induction h with
  | opened dir fit bytes run =>
    have log := bytes ▸ readLog_whole fit
    have done := openWriter_exec dir log
    obtain ⟨rfl, rfl⟩ : _ = _ ∧ _ = _ := by simpa using run.symm.trans done
    exact ⟨rfl, touch_isSome _, fit, [], by rwa [contents, touch_getD]⟩
  | appended _ closed run ih => exact ih.append closed (Method.wp_runs (WalWriter.append_wp _ _ _ _) run)
  | failed _ stays run bytes ih =>
    exact ih.fail stays (Method.wp_runs (WalWriter.append_wp _ _ _ _) run) bytes

/-- When failed appends leave only what does not begin with a header, and no append succeeds
behind what one of them left, the reader finds the acknowledged records, in order. -/
theorem session_records (h : Session path (Closed path) (StaysEnd path) d w records) :
    (WalReader.records path).exec d = (.ok records, d) := by
  have kept := h.acknowledged
  obtain ⟨bytes, held⟩ := Option.isSome_iff_exists.mp kept.exists_file
  obtain ⟨tail, read⟩ := kept.read
  rw [contents, held, Option.getD_some] at read
  exact records_exec_eq_ok.mpr ⟨rfl, bytes, tail, held, read⟩

end Runs

/-! ### One writer, three appends -/

section Examples

variable {x : Bytes}

/-- A write that fails after `k` bytes. -/
theorem WalWriter.append_torn (w : WalWriter) (payload : Bytes) (k : Nat) {next : UInt64}
    (seq : checkedAdd64 w.nextSeqNo 1 = some next) (fits : payload.length ≤ u32Max)
    (held : d.files w.path = some x) :
    (WalWriter.append payload).Runs (fun _ => True) w d (.error (.error (.ofIo .device)))
      { w with nextSeqNo := next }
      (d.setFile w.path (some (x ++ (WalRecord.frame ⟨w.nextSeqNo, payload⟩).take k))) := by
  unfold WalWriter.append
  refine Method.runs_get_bind.mpr ?_
  rw [seq]
  refine Method.runs_set_bind.mpr ?_
  rw [WalRecord.encode_eq_ok.mpr ⟨fits, rfl⟩]
  refine Method.runs_bind_error (Method.runs_query (Query.runs_io_failed trivial ?_ _))
  exact .inr ⟨x, k, held, rfl⟩

/-- A write that succeeds. -/
theorem WalWriter.append_whole (w : WalWriter) (payload : Bytes) {next : UInt64}
    (seq : checkedAdd64 w.nextSeqNo 1 = some next) (fits : payload.length ≤ u32Max)
    (held : d.files w.path = some x)
    (room : x.length + (WalRecord.frame ⟨w.nextSeqNo, payload⟩).length ≤ maxFileLen) :
    (WalWriter.append payload).Runs (fun _ => True) w d (.ok w.nextSeqNo)
      { w with nextSeqNo := next }
      (d.setFile w.path (some (x ++ WalRecord.frame ⟨w.nextSeqNo, payload⟩))) := by
  have encoded : WalRecord.encode ⟨w.nextSeqNo, payload⟩ =
      .ok (WalRecord.frame ⟨w.nextSeqNo, payload⟩) := WalRecord.encode_eq_ok.mpr ⟨fits, rfl⟩
  refine Method.runs_of_exec ?_
  rw [WalWriter.append_exec, seq]
  simp only [encoded, Call.effect, held, room, if_true]

/-- A new log and its writer. -/
theorem Session.new (accepts : Disk → Prop) (tears : Disk → Bytes → Prop) :
    ∃ d, Session ["log"] accepts tears d ⟨["log"], 0⟩ [] ∧ d.files ["log"] = some [] := by
  have dir : (emptyDisk.makeDirs []).dirs (["log"] : Path).dropLast = true := by decide
  have none_fit : Fit [] := by simp [Fit]
  exact ⟨_, .opened dir none_fit rfl (openWriter_exec dir (readLog_whole none_fit)), rfl⟩

/-- The second append fails after four bytes. -/
theorem session_records_example :
    ∃ d w, Session ["log"] (Closed ["log"]) (StaysEnd ["log"]) d w [⟨0, [7]⟩] ∧
      contents ["log"] d = frames [⟨0, [7]⟩] ++ walMagic ∧
      (WalReader.records ["log"]).exec d = (.ok [⟨0, [7]⟩], d) := by
  obtain ⟨d, start, new⟩ := Session.new (Closed ["log"]) (StaysEnd ["log"])
  have none_fit : Fit [] := by simp [Fit]
  have closed : Closed ["log"] d := ⟨[], by rw [contents, new]; exact readLog_whole none_fit⟩
  have whole := WalWriter.append_whole ⟨["log"], 0⟩ [7] rfl (by decide) new
    (by simp [maxFileLen, headerLen, trailerLen])
  have one := Session.appended start closed whole
  have held : (d.setFile ["log"] (some (WalRecord.frame ⟨0, [7]⟩))).files ["log"] =
      some (WalRecord.frame ⟨0, [7]⟩) := Disk.setFile_files_self ..
  have torn := WalWriter.append_torn ⟨["log"], 1⟩ [9] 4 rfl (by decide) held
  have stays : StaysEnd ["log"] (d.setFile ["log"] (some (WalRecord.frame ⟨0, [7]⟩)))
      ((WalRecord.frame ⟨1, [9]⟩).take 4) := by
    intro records tail read
    have one_fits : Fit [⟨0, [7]⟩] := by simp [Fit, u32Max]
    have log := readLog_whole one_fits
    rw [contents, held, Option.getD_some] at read
    rw [frames_cons, frames_nil, List.append_nil] at log
    obtain ⟨-, rfl⟩ : _ = records ∧ [] = tail := by simpa using log.symm.trans read
    exact .inl (by decide)
  have left := Session.failed one stays torn (by simp [contents])
  exact ⟨_, _, left, by simp [contents]; decide, session_records left⟩

/-- One byte is left of the first record, and the second, acknowledged one is not found. -/
theorem append_behind_byte :
    ¬ ∀ d w records, Session ["log"] (fun _ => True) (fun _ _ => True) d w records →
      (WalReader.records ["log"]).exec d = (.ok records, d) := by
  intro finds
  obtain ⟨d, start, new⟩ := Session.new (fun _ => True) fun _ _ => True
  have torn := WalWriter.append_torn ⟨["log"], 0⟩ [9] 1 rfl (by decide) new
  have left := Session.failed start trivial torn (by rw [contents, contents, new]; simp; rfl)
  have held : (d.setFile ["log"] (some ((WalRecord.frame ⟨0, [9]⟩).take 1))).files ["log"] =
      some ((WalRecord.frame ⟨0, [9]⟩).take 1) := Disk.setFile_files_self ..
  have whole := WalWriter.append_whole ⟨["log"], 1⟩ [9] rfl (by decide) held
    (by simp [maxFileLen, headerLen, trailerLen])
  obtain ⟨-, bytes, tail, found, log⟩ :=
    records_exec_eq_ok.mp (finds _ _ _ (.appended left trivial whole))
  obtain rfl := Option.some.inj ((Disk.setFile_files_self ..).symm.trans found)
  rw [readLog_end (by decide)] at log
  cases log

end Examples

end BypassIo.Db
