import BypassIo.Db.Framing

/-!
# Sequence numbers of log records

`WalWriter::open` counts the records of the log, `append` moves the counter before it encodes
and writes, and `reset` empties the file. While no append fails between the two, the counter
is the number of records and record `i` carries the number `i`. An append whose payload does
not fit its length field moves the counter past the records.

## Main results

* `Tally.append`, `Tally.reset`, `Tally.openWriter`: what each operation keeps.
* `seq_nos_are_positions`: the runs in which numbers are positions.
-/

namespace BypassIo.Db
open Octet Rust FileSystem

variable {may : Call → Prop} {d d' : Disk} {path : Path} {records : List WalRecord}
variable {w w' : WalWriter} {o : Option WalWriter}

/-! ## Runs -/

inductive LogStep where
  | openWriter
  | append (payload : Bytes)
  | sync
  | reset
  | drop
  deriving DecidableEq, Repr

section Relation

variable (path : Path) (allowed : LogStep → (Call → Prop) → Disk → Prop)

/-- The runs of one log: writers are opened one after the other, and in each step the calls
of a set of its own can fail. The log is empty or missing at first. -/
inductive Writing : Option WalWriter → Disk → Prop where
  | start {d : Disk} : contents path d = [] → Writing none d
  | opened {may : Call → Prop} {d d' : Disk} {r} : Writing none d → allowed .openWriter may d →
      Prog.Runs may (WalWriter.openWriter path).run d r d' → Writing r.toOption d'
  | appended {may : Call → Prop} {d d' : Disk} {w w' : WalWriter} {payload r} :
      Writing (some w) d → allowed (.append payload) may d →
      (WalWriter.append payload).Runs may w d r w' d' → Writing (some w') d'
  | synced {may : Call → Prop} {d d' : Disk} {w : WalWriter} {r} : Writing (some w) d →
      allowed .sync may d → Prog.Runs may w.sync.run d r d' → Writing (some w) d'
  | reset {may : Call → Prop} {d d' : Disk} {w w' : WalWriter} {r} : Writing (some w) d →
      allowed .reset may d → WalWriter.reset.Runs may w d r w' d' → Writing (some w') d'
  | dropped {d : Disk} {w : WalWriter} : Writing (some w) d → Writing none d

/-- The payload fits its length field, the record fits into the file, and what moves the
counter or empties the file does not fail halfway. -/
def Careful : LogStep → (Call → Prop) → Disk → Prop
  | .append payload, may, d =>
    payload.length ≤ u32Max ∧
      (contents path d).length + (headerLen + payload.length + trailerLen) ≤ maxFileLen ∧
      ∀ b, ¬ may (.append path b)
  | .reset, may, d => contents path d = [] ∨ ¬ may (.truncate path) ∧ ¬ may (.sync path)
  | _, _, _ => True

end Relation

/-- Record `i` carries the number `i`. -/
def Numbered (records : List WalRecord) : Prop :=
  ∀ i (r : WalRecord), records[i]? = some r → r.seqNo.toNat = i

/-- The file holds numbered records, and an open writer has counted them. -/
structure Tally (path : Path) (records : List WalRecord) (o : Option WalWriter) (d : Disk) :
    Prop where
  bytes : contents path d = frames records
  fit : Fit records
  numbered : Numbered records
  room : (frames records).length ≤ maxFileLen
  writer : ∀ w, o = some w → w.path = path ∧ (d.files path).isSome = true ∧
    w.nextSeqNo.toNat = records.length

/-! ## The operations -/

theorem Numbered.append {n : UInt64} {payload : Bytes} (h : Numbered records)
    (next : n.toNat = records.length) : Numbered (records ++ [⟨n, payload⟩]) := by
  intro i r hr
  by_cases old : i < records.length
  · rw [List.getElem?_append_left old] at hr
    exact h i r hr
  · rw [List.getElem?_append_right (not_lt.mp old), List.getElem?_singleton] at hr
    split at hr
    · obtain rfl := Option.some.inj hr
      simp only [next]
      omega
    · cases hr

theorem Tally.small (h : Tally path records o d) : records.length < 2 ^ 64 := by
  have count := length_le_frames records
  have room := h.room
  unfold maxFileLen at room
  omega

/-- Every record of the log is found by a reader. -/
theorem Tally.read (h : Tally path records o d) (found : (d.files path).isSome = true) :
    (WalReader.records path).exec d = (.ok records, d) := by
  obtain ⟨bytes, held⟩ := Option.isSome_iff_exists.mp found
  have same := h.bytes
  rw [contents, held, Option.getD_some] at same
  subst same
  exact records_exec_eq_ok.mpr ⟨rfl, _, [], held, readLog_whole h.fit⟩

/-- The call leaves the bytes of the file, and where it succeeds there is a file. -/
theorem openAppend_contents (p : Path) (d : Disk) :
    contents p ((Call.openAppend p).effect d).2 = contents p d ∧
      (((Call.openAppend p).effect d).1 = .ok () →
        (((Call.openAppend p).effect d).2.files p).isSome = true) := by
  simp only [Call.effect, contents]
  cases held : d.files p with
  | some x => simp [held]
  | none =>
    by_cases dir : d.dirs p.dropLast = true
    · simp [dir]
    · simp [dir, held]

theorem openAppend_keeps (p : Path) (d : Disk) :
    (Query.io WalError.ofIo (.openAppend p)).wp may
      (fun r d' => contents p d' = contents p d ∧ (r = .ok () → (d'.files p).isSome = true))
      (fun _ => True) d := by
  obtain ⟨same, found⟩ := openAppend_contents p d
  refine Query.wp_io (fun _ _ => trivial) ?_ ?_
  · rw [Query.exec_io]
    cases ran : (Call.openAppend p).effect d with
    | mk r d' =>
      rw [ran] at same found
      cases r with
      | ok => exact ⟨same, fun _ => found rfl⟩
      | error e => exact ⟨same, nofun⟩
  · rintro e d' - (rfl | rfl)
    · exact ⟨rfl, nofun⟩
    · exact ⟨same, nofun⟩

/-- Whatever fails while a writer is opened, the log is left as it was; an opened writer has
counted its records. -/
theorem openWriter_keeps (p : Path) (d : Disk) :
    (WalWriter.openWriter p).wp may
      (fun r d' => contents p d' = contents p d ∧ ∀ w, r = .ok w →
        (d'.files p).isSome = true ∧ ∃ records tail,
          readLog (contents p d) = .ok (records, tail) ∧ w = ⟨p, UInt64.ofNat records.length⟩)
      (fun _ => True) d := by
  unfold WalWriter.openWriter
  refine Query.wp_seq (openAppend_keeps p d) ?_ ?_ fun _ h => h
  · rintro ⟨⟩ d₁ ⟨same₁, -⟩
    refine Query.wp_seq (D := fun _ => True)
      (R := fun r d' => contents p d' = contents p d ∧
        (∀ q, r = .ok q → q = p ∧ (d'.files p).isSome = true)) ?_ ?_ ?_ fun _ h => h
    · refine Query.wp_seq (openAppend_keeps p d₁) ?_ ?_ fun _ h => h
      · rintro ⟨⟩ d₂ ⟨same₂, found⟩
        exact ⟨same₂.trans same₁, fun q hq => ⟨(Except.ok.inj hq).symm, found rfl⟩⟩
      · rintro e d₂ ⟨same₂, -⟩
        exact ⟨same₂.trans same₁, fun q hq => by cases hq⟩
    · rintro q d₂ ⟨same₂, opened⟩
      obtain ⟨rfl, found⟩ := opened q rfl
      refine Query.wp_seq ((records_readOnly q).wp (records_strict q) d₂) ?_ ?_ fun _ _ => trivial
      · rintro records d₃ ⟨rfl, done⟩
        obtain ⟨-, bytes, tail, held, log⟩ := records_exec_eq_ok.mp (done records rfl)
        refine ⟨same₂, fun w hw => ⟨found, records, tail, ?_, (Except.ok.inj hw).symm⟩⟩
        rw [← same₂, contents, held]
        exact log
      · rintro e d₃ ⟨rfl, -⟩
        exact ⟨same₂, fun w hw => by cases hw⟩
    · rintro e d₂ ⟨same₂, -⟩
      exact ⟨same₂, fun w hw => by cases hw⟩
  · rintro e d₁ ⟨same₁, -⟩
    exact ⟨same₁, fun w hw => by cases hw⟩

theorem Tally.openWriter {r : Outcome WalError WalWriter} (h : Tally path records none d)
    (run : Prog.Runs may (WalWriter.openWriter path).run d r d') :
    Tally path records r.toOption d' := by
  obtain ⟨same, opened⟩ := Prog.wp_runs (openWriter_keeps path d) run
  refine ⟨same.trans h.bytes, h.fit, h.numbered, h.room, fun w hw => ?_⟩
  obtain e | v := r
  · cases hw
  · obtain rfl : v = w := Option.some.inj hw
    obtain ⟨found, counted, tail, log, rfl⟩ := opened v rfl
    rw [h.bytes, readLog_whole h.fit] at log
    obtain ⟨rfl, -⟩ := Prod.mk.inj (Except.ok.inj log)
    exact ⟨rfl, found, UInt64.toNat_ofNat_of_lt' h.small⟩

/-- An append whose write cannot fail ends as its execution does. -/
theorem append_steady (payload : Bytes) (w : WalWriter) (d : Disk)
    (steady : ∀ b, ¬ may (.append w.path b)) :
    (WalWriter.append payload).wp may
      (fun r w' d' => (WalWriter.append payload).exec w d = ((r, w'), d')) (fun _ => True) w d := by
  rw [WalWriter.append_exec]
  unfold WalWriter.append
  rw [Method.wp_get_bind]
  cases checkedAdd64 w.nextSeqNo 1 with
  | none => exact rfl
  | some next =>
    dsimp only
    rw [Method.wp_set_bind]
    cases WalRecord.encode ⟨w.nextSeqNo, payload⟩ with
    | error e => exact rfl
    | ok encoded =>
      have stored : (Query.io WalError.ofIo (.append w.path encoded)).wp may
          (fun r d' => (Query.io WalError.ofIo (.append w.path encoded)).exec d = (r, d'))
          (fun _ => True) d :=
        Query.wp_io (fun _ _ => trivial) rfl fun _ _ m => absurd m (steady encoded)
      refine Method.wp_query_seq stored ?_ ?_ fun _ h => h
      all_goals
        intro x d' ran
        rw [Query.exec_io] at ran
        dsimp only
        generalize (Call.append w.path encoded).effect d = out at ran ⊢
        obtain ⟨_ | ⟨⟩, d₁⟩ := out <;> cases ran
        exact rfl

/-- A careful append stores its record behind the others, under the number of its position. -/
theorem Tally.append {payload : Bytes} {r : Outcome WalError UInt64}
    (h : Tally path records (some w) d) (ok : Careful path (.append payload) may d)
    (run : (WalWriter.append payload).Runs may w d r w' d') :
    r = .ok w.nextSeqNo ∧ w.nextSeqNo.toNat = records.length ∧
      Tally path (records ++ [⟨w.nextSeqNo, payload⟩]) (some w') d' := by
  obtain ⟨fits, room, steady⟩ := ok
  obtain ⟨rfl, found, count⟩ := h.writer w rfl
  have ran := Method.wp_runs (append_steady payload w d steady) run
  obtain ⟨x, held⟩ := Option.isSome_iff_exists.mp found
  have bytes := h.bytes
  rw [contents, held, Option.getD_some] at bytes room
  obtain ⟨next, moved⟩ : ∃ next, checkedAdd64 w.nextSeqNo 1 = some next := by
    have small : w.nextSeqNo.toNat + (1 : UInt64).toNat < 2 ^ 64 := by
      have count' := length_le_frames records
      have room' := h.room
      unfold maxFileLen at room'
      simp only [UInt64.toNat_one]
      omega
    exact ⟨_, checkedAdd64_eq_some.mpr ⟨small, rfl⟩⟩
  have encoded : WalRecord.encode ⟨w.nextSeqNo, payload⟩ =
      .ok (WalRecord.frame ⟨w.nextSeqNo, payload⟩) := WalRecord.encode_eq_ok.mpr ⟨fits, rfl⟩
  rw [WalWriter.append_exec, moved] at ran
  simp only [encoded, Call.effect, held, WalRecord.length_frame, room, if_true] at ran
  obtain ⟨⟨rfl, rfl⟩, rfl⟩ : (_ = r ∧ _ = w') ∧ _ = d' := by simpa using ran
  have log : frames (records ++ [⟨w.nextSeqNo, payload⟩]) =
      x ++ WalRecord.frame ⟨w.nextSeqNo, payload⟩ := by simp [bytes]
  refine ⟨rfl, count, ?_, ?_, h.numbered.append count, ?_, ?_⟩
  · rw [contents, Disk.setFile_files_self, Option.getD_some, log]
  · intro q hq
    rcases List.mem_append.mp hq with old | new
    · exact h.fit q old
    · obtain rfl := List.mem_singleton.mp new
      exact fits
  · rw [log, List.length_append, WalRecord.length_frame]
    exact room
  · rintro _ ⟨⟩
    refine ⟨rfl, by simp, ?_⟩
    simp [toNat_of_checkedAdd64 moved, count]

/-- How `reset` ends. -/
theorem reset_keeps (w : WalWriter) (d : Disk) (found : (d.files w.path).isSome = true) :
    WalWriter.reset.wp may
      (fun _ w' d' => (d'.files w.path).isSome = true ∧ (contents w.path d' = [] ∧
          w' = { w with nextSeqNo := 0 } ∨
        (may (.truncate w.path) ∨ may (.sync w.path)) ∧ w' = w ∧
          (contents w.path d' = [] ∨ d' = d)))
      (fun _ => True) w d := by
  obtain ⟨x, held⟩ := Option.isSome_iff_exists.mp found
  unfold WalWriter.reset
  rw [Method.wp_get_bind]
  have emptied : contents w.path (d.setFile w.path (some [])) = [] := by simp [contents]
  have truncated : (Query.io WalError.ofIo (.truncate w.path)).wp may
      (fun r d' => r = .ok () ∧ d' = d.setFile w.path (some []) ∨
        (∃ e, r = .error e) ∧ may (.truncate w.path) ∧ (d' = d ∨ d' = d.setFile w.path (some [])))
      (fun _ => True) d := by
    refine Query.wp_io (fun _ _ => trivial) ?_ ?_
    · rw [Query.exec_io]
      simp [Call.effect, held]
    · rintro e d' m (rfl | rfl)
      · exact .inr ⟨⟨_, rfl⟩, m, .inl rfl⟩
      · exact .inr ⟨⟨_, rfl⟩, m, .inr (by simp [Call.effect, held])⟩
  refine Method.wp_query_seq truncated ?_ ?_ fun _ h => h
  · rintro ⟨⟩ d₁ (⟨-, rfl⟩ | ⟨⟨e, bad⟩, -⟩)
    · refine Method.wp_query_seq (R := fun r d' => d' = d.setFile w.path (some []) ∧
        ((∃ e, r = .error e) → may (.sync w.path))) (D := fun _ => True) ?_ ?_ ?_ fun _ h => h
      · refine Query.wp_io (fun _ _ => trivial) ⟨rfl, ?_⟩ ?_
        · rintro ⟨e, bad⟩
          cases bad
        · rintro e d' m rfl
          exact ⟨rfl, fun _ => m⟩
      · rintro ⟨⟩ d' ⟨rfl, -⟩
        exact ⟨by simp, .inl ⟨emptied, rfl⟩⟩
      · rintro e d' ⟨rfl, m⟩
        exact ⟨by simp, .inr ⟨.inr (m ⟨e, rfl⟩), rfl, .inl emptied⟩⟩
    · cases bad
  · rintro e d₁ (⟨bad, -⟩ | ⟨-, m, rfl | rfl⟩)
    · cases bad
    · exact ⟨found, .inr ⟨.inl m, rfl, .inr rfl⟩⟩
    · exact ⟨by simp, .inr ⟨.inl m, rfl, .inl emptied⟩⟩

theorem Tally.reset {r : Outcome WalError Unit} (h : Tally path records (some w) d)
    (ok : Careful path .reset may d) (run : WalWriter.reset.Runs may w d r w' d') :
    ∃ kept, Tally path kept (some w') d' := by
  obtain ⟨rfl, found, count⟩ := h.writer w rfl
  obtain ⟨found', ended⟩ := Method.wp_runs (reset_keeps w d found) run
  have empty : ∀ v : WalWriter, v.path = w.path → v.nextSeqNo = 0 → contents w.path d' = [] →
      Tally w.path [] (some v) d' := by
    rintro v place zero bytes
    refine ⟨bytes, by simp [Fit], by simp [Numbered], by simp, ?_⟩
    rintro _ ⟨⟩
    exact ⟨place, found', by simp [zero]⟩
  obtain ⟨bytes, moved⟩ | ⟨failed, stays, left⟩ := ended
  · rw [moved]
    exact ⟨[], empty _ rfl rfl bytes⟩
  · have was : contents w.path d = [] := ok.resolve_right fun steady => by
      rcases failed with m | m
      · exact steady.1 m
      · exact steady.2 m
    have none_yet : records = [] := by
      have log := readLog_whole h.fit
      rw [← h.bytes, was, readLog_end decodeFrom_nil] at log
      exact (Prod.mk.inj (Except.ok.inj log)).1.symm
    rw [stays]
    refine ⟨[], empty w rfl ?_ ?_⟩
    · rw [none_yet] at count
      exact UInt64.toNat_inj.mp (by simpa using count)
    · rcases left with bytes | rfl
      · exact bytes
      · exact was

/-- Every careful run keeps the tally. -/
theorem Writing.tally (h : Writing path (Careful path) o d) : ∃ records, Tally path records o d := by
  induction h with
  | start empty =>
    exact ⟨[], empty, by simp [Fit], by simp [Numbered], by simp, nofun⟩
  | opened _ _ run ih =>
    obtain ⟨records, kept⟩ := ih
    exact ⟨records, kept.openWriter run⟩
  | appended _ ok run ih =>
    obtain ⟨records, kept⟩ := ih
    obtain ⟨-, -, kept'⟩ := kept.append ok run
    exact ⟨_, kept'⟩
  | @synced may d d' w r _ _ run ih =>
    obtain ⟨records, kept⟩ := ih
    have same : d' = d := by
      refine Prog.wp_runs (Q := fun _ d' => d' = d) (C := fun _ => True) ?_ run
      exact Query.wp_io (fun _ _ => trivial) rfl fun _ _ _ torn => torn
    rw [same]
    exact ⟨records, kept⟩
  | reset _ ok run ih =>
    obtain ⟨records, kept⟩ := ih
    exact kept.reset ok run
  | dropped _ ih =>
    obtain ⟨records, kept⟩ := ih
    exact ⟨records, kept.bytes, kept.fit, kept.numbered, kept.room, nofun⟩

/-- Records carry their positions, an open writer's next number is the number of records, and
an append returns the position of its record or leaves the number alone. -/
structure NumbersArePositions (path : Path) (allowed : LogStep → (Call → Prop) → Disk → Prop)
    (o : Option WalWriter) (d : Disk) : Prop where
  numbered : ∀ records d', (WalReader.records path).exec d = (.ok records, d') → Numbered records
  writer : ∀ w, o = some w → ∃ records, (WalReader.records path).exec d = (.ok records, d) ∧
    w.nextSeqNo.toNat = records.length ∧
    ∀ payload may r w' d', allowed (.append payload) may d →
      (WalWriter.append payload).Runs may w d r w' d' →
      (∀ n, r = .ok n → n.toNat = records.length ∧
        (WalReader.records path).exec d' = (.ok (records ++ [⟨n, payload⟩]), d')) ∧
      (∀ e, r = .error e → w'.nextSeqNo = w.nextSeqNo)

/-- In a run whose appends fit and whose writes do not fail, numbers are positions. -/
theorem seq_nos_are_positions (h : Writing path (Careful path) o d) :
    NumbersArePositions path (Careful path) o d := by
  obtain ⟨records, tally⟩ := h.tally
  constructor
  · intro found d' run
    obtain ⟨-, bytes, tail, held, log⟩ := records_exec_eq_ok.mp run
    have same := tally.bytes
    rw [contents, held, Option.getD_some] at same
    rw [same, readLog_whole tally.fit] at log
    obtain ⟨rfl, -⟩ := Prod.mk.inj (Except.ok.inj log)
    exact tally.numbered
  · rintro w rfl
    obtain ⟨-, found, count⟩ := tally.writer w rfl
    refine ⟨records, tally.read found, count, fun payload may r w' d' ok run => ?_⟩
    obtain ⟨rfl, -, tally'⟩ := tally.append ok run
    obtain ⟨-, found', -⟩ := tally'.writer w' rfl
    refine ⟨?_, fun e he => by cases he⟩
    rintro _ ⟨⟩
    exact ⟨count, tally'.read found'⟩

/-! ### A log with one append -/

/-- A writer on a new log. -/
theorem Writing.new (allowed : LogStep → (Call → Prop) → Disk → Prop)
    (ok : ∀ d, allowed .openWriter (fun _ => False) d) :
    ∃ d, Writing ["log"] allowed (some ⟨["log"], 0⟩) d ∧ d.files ["log"] = some [] := by
  have dir : (emptyDisk.makeDirs []).dirs (["log"] : Path).dropLast = true := by decide
  have none_fit : Fit [] := by simp [Fit]
  have opened := openWriter_exec dir (readLog_whole none_fit)
  have run := Prog.runs_exec (fun _ => False) (WalWriter.openWriter ["log"]).run (emptyDisk.makeDirs [])
  have start : Writing ["log"] allowed none (emptyDisk.makeDirs []) := .start rfl
  refine ⟨touch (emptyDisk.makeDirs []) ["log"], ?_, rfl⟩
  have next := Writing.opened start (ok _) run
  rw [show (WalWriter.openWriter ["log"]).run.exec (emptyDisk.makeDirs []) = _ from opened] at next
  exact next

theorem seq_nos_are_positions_first : ∃ d w,
    Writing ["log"] (Careful ["log"]) (some w) d ∧
      (WalReader.records ["log"]).exec d = (.ok [⟨0, [7]⟩], d) ∧ w.nextSeqNo = 1 ∧
      NumbersArePositions ["log"] (Careful ["log"]) (some w) d := by
  obtain ⟨d, start, new⟩ := Writing.new (Careful ["log"]) fun _ => trivial
  have one_fits : Fit [⟨0, [7]⟩] := by simp [Fit, u32Max]
  have ran : (WalWriter.append [7]).exec ⟨["log"], 0⟩ d =
      ((.ok 0, ⟨["log"], 1⟩), d.setFile ["log"] (some (frames [⟨0, [7]⟩]))) := by
    rw [WalWriter.append_exec]
    simp [WalRecord.encode, Call.effect, new, checkedAdd64, u32Max, maxFileLen, headerLen, trailerLen]
  have careful : Careful ["log"] (.append [7]) (fun _ => False) d := by
    simp [Careful, contents, new, u32Max, maxFileLen, headerLen, trailerLen]
  have one := Writing.appended start careful (Method.runs_of_exec ran)
  refine ⟨_, _, one, ?_, rfl, seq_nos_are_positions one⟩
  exact records_exec_eq_ok.mpr ⟨rfl, _, [], by simp, readLog_whole one_fits⟩

/-- A payload of 2^32 bytes is rejected, and the record of the next append, the first in the
file, carries the number 1. -/
theorem rejected_append_moves_number :
    ¬ ∀ path o d, Writing path (fun _ may _ => ∀ c, ¬ may c) o d →
      NumbersArePositions path (fun _ may _ => ∀ c, ¬ may c) o d := by
  intro positions
  obtain ⟨d, start, new⟩ := Writing.new (fun _ may _ => ∀ c, ¬ may c) fun _ _ => id
  obtain ⟨payload, size⟩ : ∃ payload : Bytes, payload.length = u32Max + 1 :=
    ⟨List.replicate (u32Max + 1) 0, List.length_replicate⟩
  have rejected : (WalWriter.append payload).exec ⟨["log"], 0⟩ d =
      ((.error (.error (.payloadTooLarge (u32Max + 1))), ⟨["log"], 1⟩), d) := by
    rw [WalWriter.append_exec]
    simp [WalRecord.encode, checkedAdd64, size]
  have stored : (WalWriter.append [7]).exec ⟨["log"], 1⟩ d =
      ((.ok 1, ⟨["log"], 2⟩), d.setFile ["log"] (some (frames [⟨1, [7]⟩]))) := by
    rw [WalWriter.append_exec]
    simp [WalRecord.encode, Call.effect, new, checkedAdd64, u32Max, maxFileLen, headerLen, trailerLen]
  have one_fits : Fit [⟨1, [7]⟩] := by simp [Fit, u32Max]
  have moved := Writing.appended start (fun _ => id) (Method.runs_of_exec rejected)
  have gap := Writing.appended moved (fun _ => id) (Method.runs_of_exec stored)
  have held : (d.setFile ["log"] (some (frames [⟨1, [7]⟩]))).files ["log"] =
      some (frames [⟨1, [7]⟩]) := Disk.setFile_files_self ..
  have found := records_exec_eq_ok.mpr ⟨rfl, _, [], held, readLog_whole one_fits⟩
  have first : (1 : UInt64).toNat = 0 := (positions _ _ _ gap).numbered _ _ found 0 ⟨1, [7]⟩ rfl
  cases first

end BypassIo.Db
