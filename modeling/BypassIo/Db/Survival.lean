import BypassIo.Db.Load
import BypassIo.Db.Reopen

/-!
# Appends after recovery

The writer appends at the end of the file, the reader stops at the first bytes that are no
record, and the replay skips as many records as the manifest counts. So an append to a table
that has been recovered is found again only when nothing is left behind the last record and
the log holds the records that the manifest counts. `appends_survive` shows that these two
facts decide, on any disk that opens.
-/

namespace BypassIo.Db
open Octet Rust FileSystem Columns

/-! ## One row -/

/-- One value of a type; timestamps are given. -/
def ColumnData.one (timestamp : Int64) : DType → ColumnData
  | .f64 => .f64 [0]
  | .i64 => .i64 [0]
  | .timestamp => .timestamp [timestamp]
  | .fixedStr width => .fixedStr width [List.replicate width.toNat 0]

/-- One row of the schema. -/
def RowBatch.one (schema : Schema) (timestamp : Int64) : RowBatch where
  columns := schema.columns.map fun column => (column.name, ColumnData.one timestamp column.dtype)
  rowCount := 1

section Relation

variable (d : Disk) (t : Table)

/-- Batches appended to the table one after another, each of them acknowledged. -/
inductive Appends : List RowBatch → Disk → Table → Prop where
  | nil : Appends [] d t
  | append {bs b n d' t' d'' t''} : Appends bs d' t' → Built b →
      (Table.append b).exec t' d' = ((.ok n, t''), d'') → Appends (bs ++ [b]) d'' t''

end Relation

/-- Rows appended to the open table are there when the handle is dropped and the table is opened
again. -/
def Survive (serde : Serde) (root : Path) (schema : Schema) (d : Disk) (t : Table) : Prop :=
  ∀ bs d' t', Appends d t bs d' t' → (∃ b ∈ bs, b.rowCount ≠ 0) →
    ∃ t'' d'', (Table.openTable serde root schema).exec d' = (.ok t'', d'') ∧
      t''.sealed = t'.sealed ∧ t''.active = t'.active

/-- The log is whole records, and not fewer than the manifest counts. -/
def LogWhole (root : Path) (d : Disk) (t : Table) : Prop :=
  ∃ records, Fit records ∧ walBytes root d = frames records ∧
    t.manifest.walRecordsApplied ≤ records.length

/-- There is room for one more row, in a record, in the log file and in memory. -/
structure TakesRow (root : Path) (schema : Schema) (d : Disk) (t : Table) : Prop where
  encodable : (RowBatch.one schema 0).Encodable
  payload : (RowBatch.one schema 0).payloadLen ≤ u32Max
  file : (walBytes root d).length + headerLen + (RowBatch.one schema 0).payloadLen + trailerLen ≤
    maxFileLen
  rows : t.active.rowCount + 1 ≤ usizeMax

variable {serde : Serde} {root : Path} {schema : Schema} {d d' d₀ : Disk} {t t' : Table}
  {b : RowBatch} {bs : List RowBatch}

namespace ColumnData

theorem one_hasShape (timestamp : Int64) (dtype : DType) :
    (one timestamp dtype).HasShape dtype 1 := by
  constructor <;> cases dtype <;> simp [one, matchesDtype, rowCount, WidthsOk]

theorem encodedLen_one (timestamp : Int64) (dtype : DType) :
    (one timestamp dtype).encodedLen = (one 0 dtype).encodedLen := by cases dtype <;> rfl

/-- A column with rows is not smaller than a column of one row. -/
theorem encodedLen_one_le {dtype : DType} {n : Nat} {data : ColumnData} (shape : data.HasShape dtype n)
    (pos : n ≠ 0) : (one 0 dtype).encodedLen ≤ data.encodedLen := by
  cases shape using HasShape.elim with
  | f64 values | i64 values | timestamp values =>
    simp only [one, encodedLen, List.length_singleton]
    omega
  | fixedStr width values _ widths =>
    obtain _ | ⟨value, values⟩ := values
    · exact absurd rfl pos
    · have wide := widths value List.mem_cons_self
      simp only [one, encodedLen, List.map_cons, List.sum_cons, List.map_nil, List.sum_nil,
        List.length_replicate, wide]
      omega

theorem encodable_one {dtype : DType} {n : Nat} {data : ColumnData} (shape : data.HasShape dtype n)
    (pos : n ≠ 0) (small : data.Encodable) : (one 0 dtype).Encodable := by
  cases shape using HasShape.elim with
  | f64 values | i64 values | timestamp values => trivial
  | fixedStr width values _ widths =>
    obtain _ | ⟨value, values⟩ := values
    · exact absurd rfl pos
    · have wide := widths value List.mem_cons_self
      have fits := small value List.mem_cons_self
      simp only [one, Encodable, List.mem_singleton, forall_eq, List.length_replicate]
      omega

end ColumnData

namespace RowBatch

theorem one_wellFormed (schema : Schema) (timestamp : Int64) :
    (one schema timestamp).WellFormed schema := by
  unfold WellFormed one
  induction schema.columns with
  | nil => exact .nil
  | cons column columns ih => exact .cons ⟨rfl, ColumnData.one_hasShape _ _⟩ ih

theorem one_built (schema : Schema) (timestamp : Int64) : Built (one schema timestamp) :=
  ⟨_, RowBatchBuilder.build_of_wellFormed (one_wellFormed schema timestamp)⟩

theorem payloadLen_one (schema : Schema) (timestamp : Int64) :
    (one schema timestamp).payloadLen = (one schema 0).payloadLen := by
  simp only [payloadLen, one, List.map_map, Function.comp_def, ColumnData.encodedLen_one timestamp]

theorem encodable_one_iff (schema : Schema) (timestamp : Int64) :
    (one schema timestamp).Encodable ↔ (one schema 0).Encodable := by
  have same : ∀ dtype, (ColumnData.one timestamp dtype).Encodable ↔
      (ColumnData.one 0 dtype).Encodable := by
    intro dtype
    cases dtype <;> rfl
  simp [Encodable, one, same]

/-- The timestamp can be read off the row. -/
theorem one_injective {timestamp timestamp' : Int64}
    (h : one schema timestamp = one schema timestamp') : timestamp = timestamp' := by
  have columns := congrArg (fun b => b.columns[schema.timestampColumnIdx]?) h
  simp only [one, List.getElem?_map, schema.getElem?_timestampColumn, Option.map_some,
    schema.timestampColumn_dtype, ColumnData.one] at columns
  simpa using columns

theorem WellFormed.payloadLen_one_le (ok : b.WellFormed schema) (pos : b.rowCount ≠ 0) :
    (one schema 0).payloadLen ≤ b.payloadLen := by
  unfold WellFormed at ok
  simp only [payloadLen, one, List.map_map, Function.comp_def]
  refine Nat.add_le_add_left ?_ 16
  revert ok
  generalize b.columns = columns
  generalize schema.columns = defs
  intro ok
  induction ok with
  | nil => exact Nat.le_refl _
  | cons okc _ ih =>
    have here := ColumnData.encodedLen_one_le okc.2 pos
    have name := congrArg (fun s => (asBytes s).length) okc.1
    simp only [List.map_cons, List.sum_cons] at name ⊢
    omega

theorem WellFormed.encodable_one (ok : b.WellFormed schema) (pos : b.rowCount ≠ 0)
    (small : b.Encodable) : (one schema 0).Encodable := by
  intro c hc
  obtain ⟨column, mem, rfl⟩ := List.mem_map.mp hc
  obtain ⟨given, hgiven, name, shape⟩ := exists_of_forall₂_left ok mem
  obtain ⟨nameFits, dataFits⟩ := small given hgiven
  exact ⟨name ▸ nameFits, ColumnData.encodable_one shape pos dataFits⟩

end RowBatch

/-! ## What appends leave -/

/-- What an append needs of an open table. -/
structure Ready (root : Path) (schema : Schema) (d : Disk) (t : Table) : Prop where
  schema_eq : t.schema = schema
  wal : t.wal.path = walPath root
  walFile : (d.files (walPath root)).isSome = true
  typed : t.active.Typed schema

/-- The batches are in the log and in memory; nothing else has changed. -/
structure Grown (root : Path) (schema : Schema) (d : Disk) (t : Table) (bs : List RowBatch)
    (d' : Disk) (t' : Table) : Prop where
  wellFormed : ∀ b ∈ bs, b.WellFormed schema
  logged : ∃ new, List.Forall₂ Logged bs new ∧ walBytes root d' = walBytes root d ++ frames new
  active : t.active.appendAll bs = (.ok (), t'.active)
  manifest : t'.manifest = t.manifest
  sealed : t'.sealed = t.sealed
  frame : ∀ q, q ≠ walPath root → d'.files q = d.files q
  ready : Ready root schema d' t'

theorem Grown.trans {more : List RowBatch} {d'' : Disk} {t'' : Table}
    (h : Grown root schema d t bs d' t') (h' : Grown root schema d' t' more d'' t'') :
    Grown root schema d t (bs ++ more) d'' t'' where
  wellFormed := by
    intro b hb
    rcases List.mem_append.mp hb with old | new
    · exact h.wellFormed b old
    · exact h'.wellFormed b new
  logged := by
    obtain ⟨old, logged, bytes⟩ := h.logged
    obtain ⟨new, logged', bytes'⟩ := h'.logged
    refine ⟨old ++ new, List.rel_append logged logged', ?_⟩
    rw [bytes', bytes, frames_append, List.append_assoc]
  active := by rw [RowBatch.appendAll_append _ h.active, h'.active]
  manifest := h'.manifest.trans h.manifest
  sealed := h'.sealed.trans h.sealed
  frame q ne := (h'.frame q ne).trans (h.frame q ne)
  ready := h'.ready

theorem Grown.nil (ready : Ready root schema d t) : Grown root schema d t [] d t where
  wellFormed := by simp
  logged := ⟨[], .nil, by simp⟩
  active := rfl
  manifest := rfl
  sealed := rfl
  frame _ _ := rfl
  ready := ready

/-- A successful append adds its batch, and the log file is not too large afterwards. -/
theorem Ready.append (ready : Ready root schema d t) {n : Nat} (built : Built b)
    (run : (Table.append b).exec t d = ((.ok n, t'), d')) :
    Grown root schema d t [b] d' t' ∧ (walBytes root d').length ≤ maxFileLen := by
  obtain ⟨other, made⟩ := built.wellFormed
  have frame := Table.append_frame run
  rw [ready.wal] at frame
  have ended := Table.append_exec b t d
  rw [run] at ended
  obtain _ | _ | _ | _ | ⟨admitted, ⟨x, held, fits, size, rfl⟩, step⟩ := ended
  rename_i payload next active
  have names := (names_of_append step).trans ready.typed.names
  have ok : b.WellFormed schema := wellFormed_of_valid made (ready.schema_eq ▸ admitted.valid) names
  rw [ready.wal] at held
  have bytes : walBytes root (d.setFile t.wal.path (some (x ++
      WalRecord.frame ⟨t.wal.nextSeqNo, payload⟩))) =
        walBytes root d ++ WalRecord.frame ⟨t.wal.nextSeqNo, payload⟩ := by
    simp [walBytes, held, ready.wal]
  refine ⟨⟨by simpa using ok, ⟨[⟨t.wal.nextSeqNo, payload⟩], ?_, by rw [bytes]; simp⟩, ?_, rfl, rfl,
    frame, ⟨ready.schema_eq, ready.wal, by simp [ready.wal], ?_⟩⟩, ?_⟩
  · exact .cons ⟨admitted.encoded, fits⟩ .nil
  · simp [RowBatch.appendAll, step]
  · exact ready.typed.of_append ok.typed step
  · rw [bytes]
    simpa [walBytes, held] using size

theorem Appends.grown (run : Appends d t bs d' t') (ready : Ready root schema d t) :
    Grown root schema d t bs d' t' := by
  induction run with
  | nil => exact .nil ready
  | append _ built step ih => exact ih.trans (ih.ready.append built step).1

/-! ## Room for rows -/

/-- Room after appends was there before them. -/
theorem Grown.takesRow (h : Grown root schema d t bs d' t') (ready : Ready root schema d t)
    (room : TakesRow root schema d' t') : TakesRow root schema d t := by
  obtain ⟨new, -, bytes⟩ := h.logged
  have longer := congrArg List.length bytes
  have more := (ready.typed.of_appendAll (fun b hb => (h.wellFormed b hb).typed) h.active).2
  have file := room.file
  have rows := room.rows
  rw [List.length_append] at longer
  exact ⟨room.encodable, room.payload, by omega, by omega⟩

/-- A batch with rows was appended, so there was room for one row. -/
theorem Ready.takesRow (ready : Ready root schema d t) {n : Nat} (built : Built b)
    (run : (Table.append b).exec t d = ((.ok n, t'), d')) (pos : b.rowCount ≠ 0) :
    TakesRow root schema d t := by
  obtain ⟨grown, size⟩ := ready.append built run
  have ok := grown.wellFormed b List.mem_cons_self
  obtain ⟨new, logged, bytes⟩ := grown.logged
  obtain _ | ⟨⟨encoded, fits⟩, rest⟩ := logged
  cases rest
  have len := length_encodeBatch encoded
  have least := ok.payloadLen_one_le pos
  have count := (ready.typed.of_appendAll (by simpa using ok.typed) grown.active).2
  rw [bytes] at size
  simp only [frames_cons, frames_nil, List.append_nil, List.length_append,
    WalRecord.length_frame] at size
  refine ⟨ok.encodable_one pos (encodeBatch_ok_iff.mp ⟨_, encoded⟩), by omega, by omega, ?_⟩
  obtain ⟨active, step⟩ : ∃ active, t.active.append b = (.ok (), active) := by
    have loop := grown.active
    rw [RowBatch.appendAll] at loop
    split at loop
    · exact ⟨_, by assumption⟩
    · cases loop
  obtain ⟨-, -, sum, small⟩ := RowBatch.append_eq_ok step
  omega

theorem Appends.takesRow (run : Appends d t bs d' t') (ready : Ready root schema d t)
    (some_row : ∃ b ∈ bs, b.rowCount ≠ 0) : TakesRow root schema d t := by
  induction run with
  | nil => simp at some_row
  | append run built step ih =>
    obtain ⟨b, hb, pos⟩ := some_row
    rcases List.mem_append.mp hb with old | new
    · exact ih ⟨b, old, pos⟩
    · obtain rfl := List.mem_singleton.mp new
      have grown := run.grown ready
      exact grown.takesRow ready (grown.ready.takesRow built step pos)

/-! ## Nothing is left behind the last record -/

theorem meta_not_manifest (p : Path) : ¬ ManifestFile root (p ++ ["meta.json"]) := by
  rintro (tmp | file)
  · have := congrArg List.getLast? tmp
    simp [manifestTmp] at this
  · have := congrArg List.getLast? file
    simp [manifestPath] at this

theorem meta_ne_wal (p : Path) : p ++ ["meta.json"] ≠ walPath root := by
  intro same
  have := congrArg List.getLast? same
  simp [walPath] at this

/-- The bytes of records that decode to these batches. -/
theorem length_frames_of_decoded {records : List WalRecord} {cs : List RowBatch}
    (h : (records.mapM fun record => decodeBatch schema record.payload) = .ok cs) :
    (frames records).length =
      cs.length * (headerLen + trailerLen) + (cs.map RowBatch.payloadLen).sum := by
  induction records generalizing cs with
  | nil =>
    cases h
    rfl
  | cons r records ih =>
    obtain ⟨c, rest, head, others, rfl⟩ := mapM_cons_eq_ok.mp h
    have len := length_encodeBatch (decodeBatch_eq_ok head).2
    have tail := ih others
    simp only [frames_cons, List.length_append, WalRecord.length_frame, List.map_cons,
      List.sum_cons, List.length_cons, Nat.succ_mul]
    omega

theorem eq_nil_of_frames {records : List WalRecord} (h : (frames records).length < headerLen) :
    records = [] := by
  cases records with
  | nil => rfl
  | cons r records =>
    rw [frames_cons, List.length_append, WalRecord.length_frame] at h
    omega

/-- Batches that add up to the row `b`, decoded from a fragment and the record of `b`: they are
`b` alone, and its record is the first that is read. -/
theorem single_record {a c : RowBatch} {seqNo : UInt64} {payload tail tail' : Bytes} {j : Nat}
    {more : List WalRecord} {cs : List RowBatch} (typed : a.Typed schema) (ok : b.WellFormed schema)
    (pos : b.rowCount ≠ 0) (encoded : encodeBatch b = .ok payload) (short : tail.length < headerLen)
    (log : readLog (tail ++ WalRecord.frame ⟨seqNo, payload⟩) = .ok (more, tail'))
    (decoded : ((more.drop j).mapM fun record => decodeBatch schema record.payload) = .ok cs)
    (all : a.appendAll cs = (.ok (), c)) (one : a.append b = (.ok (), c)) :
    ∃ r : WalRecord, r.payload = payload ∧
      r.frame ++ tail' = tail ++ WalRecord.frame ⟨seqNo, payload⟩ := by
  obtain ⟨-, bytes, -⟩ := readLog_eq_ok.mp log
  have size := congrArg List.length bytes
  have parts := congrArg (fun records => (frames records).length) (List.take_append_drop j more)
  have kept := length_frames_of_decoded decoded
  have typed_all : ∀ c ∈ cs, c.Typed schema := by
    intro c hc
    obtain ⟨r, -, hr⟩ := exists_of_forall₂_right (mapM_eq_ok_forall₂.mp decoded) hc
    exact (decodeBatch_eq_ok hr).1
  have sizes := typed.payloadLen_appendAll typed_all all
  have once := typed.payloadLen_append ok.typed one
  have len := length_encodeBatch encoded
  simp only [frames_append, List.length_append, WalRecord.length_frame] at size parts
  rcases cs with _ | ⟨c₁, _ | ⟨c₂, cs⟩⟩
  · -- The row must come from somewhere.
    obtain ⟨-, -, count, -⟩ := RowBatch.append_eq_ok one
    cases all
    omega
  · have same : a.append c₁ = (.ok (), c) := by
      rw [RowBatch.appendAll] at all
      split at all
      · rename_i happ
        cases all
        exact happ
      · cases all
    obtain rfl := RowBatch.append_left_cancel same one
    have front : more.take j = [] := by
      apply eq_nil_of_frames
      simp only [List.length_singleton, List.map_cons, List.map_nil, List.sum_cons, List.sum_nil]
        at kept
      omega
    have whole := List.take_append_drop j more
    rw [front, List.nil_append] at whole
    rw [whole] at decoded
    obtain _ | ⟨r, more⟩ := more
    · cases decoded
    obtain ⟨c, rest, head, others, list⟩ := mapM_cons_eq_ok.mp decoded
    obtain ⟨rfl, rfl⟩ := List.cons.inj list
    have none_left : more = [] := by
      have related := (mapM_eq_ok_forall₂.mp others).length_eq
      exact List.length_eq_zero_iff.mp related
    subst none_left
    refine ⟨r, Except.ok.inj ((decodeBatch_eq_ok head).2.symm.trans encoded), ?_⟩
    rw [bytes, frames_cons, frames_nil, List.append_nil]
  · -- Two records do not fit into one and a fragment.
    simp only [List.length_cons, List.map_cons, List.sum_cons, Nat.succ_mul] at sizes kept
    omega

namespace Loads

variable {text : String} {records : List WalRecord} {batches : List RowBatch}

theorem typed (h : Loads serde root schema d₀ t text records batches) : t.active.Typed schema := by
  refine ((RowBatch.empty_typed schema).of_appendAll (fun b hb => ?_) h.replayed).1
  obtain ⟨r, -, decoded⟩ := exists_of_forall₂_right (mapM_eq_ok_forall₂.mp h.decoded) hb
  exact (decodeBatch_eq_ok decoded).1

theorem ready (h : Loads serde root schema d₀ t text records batches) :
    Ready root schema (openedDisk root d₀ text) t where
  schema_eq := h.schema_eq
  wal := congrArg WalWriter.path h.wal
  walFile := touch_isSome _
  typed := h.typed

/-- A log of whole records is replayed with everything that has been appended to it. -/
theorem survive (h : Loads serde root schema d₀ t text records batches)
    (whole : LogWhole root (openedDisk root d₀ text) t) :
    Survive serde root schema (openedDisk root d₀ text) t := by
  intro bs d' t' run _
  have grown := run.grown h.ready
  obtain ⟨new, logged, bytes⟩ := grown.logged
  obtain ⟨records', fit, held, le⟩ := whole
  obtain ⟨tail, log⟩ := h.log
  rw [walBytes_openedDisk] at held
  rw [held, readLog_whole fit] at log
  obtain ⟨rfl, rfl⟩ := Prod.mk.inj (Except.ok.inj log)
  have log' : readLog (walBytes root d') = .ok (records' ++ new, []) := by
    rw [bytes, walBytes_openedDisk, held, ← frames_append]
    refine readLog_whole fun r hr => ?_
    rcases List.mem_append.mp hr with old | added
    · exact fit r old
    · exact fit_of_logged logged r added
  have segments : List.Forall₂ (LoadedFrom serde root d') t.manifest.sealedSegments t.sealed := by
    refine h.sealed.imp fun _ _ loaded => loaded.frame ?_
    rw [grown.frame _ (meta_ne_wal _),
      openedDisk_files_of_ne (meta_not_manifest _) (meta_ne_wal _)]
  refine ⟨⟨root, schema, t'.active, t.sealed, t.manifest,
    ⟨walPath root, UInt64.ofNat (records' ++ new).length⟩⟩, openedDisk root d' text,
    openTable_exec_eq_ok.mpr ⟨text, records' ++ new, batches ++ bs, ?_, rfl⟩, grown.sealed.symm, rfl⟩
  refine ⟨rfl, rfl, .inl ?_, segments, h.printed, ⟨[], log'⟩, ?_, ?_, rfl⟩
  · exact (SavedManifest.openedDisk h.printed).frame (grown.frame _ walPath_ne_manifest.symm)
  · rw [List.drop_append_of_le_length le]
    exact mapM_append_eq_ok.mpr ⟨_, _, h.decoded, decode_of_logged grown.wellFormed logged, rfl⟩
  · rw [RowBatch.appendAll_append _ h.replayed]
    exact grown.active

/-! ## Something is left, or records are missing -/

/-- What a second opening replays after the batches of the first. -/
theorem replays_more {d' : Disk} {t' : Table} {text' : String} {records' : List WalRecord}
    {batches' : List RowBatch} {tail extra : Bytes}
    (h : Loads serde root schema d₀ t text records batches)
    (log : readLog (walBytes root d₀) = .ok (records, tail))
    (h' : Loads serde root schema d' t' text' records' batches') (same : t'.manifest = t.manifest)
    (bytes : walBytes root d' = walBytes root d₀ ++ extra) :
    ∃ more tail' cs, readLog (tail ++ extra) = .ok (more, tail') ∧
      ((more.drop (t.manifest.walRecordsApplied - records.length)).mapM fun record =>
        decodeBatch schema record.payload) = .ok cs ∧
      t.active.appendAll cs = (.ok (), t'.active) := by
  obtain ⟨fit, held, -⟩ := readLog_eq_ok.mp log
  obtain ⟨tail', log'⟩ := h'.log
  rw [bytes, held, List.append_assoc, readLog_frames fit] at log'
  cases rest : readLog (tail ++ extra) with
  | error e =>
    rw [rest] at log'
    cases log'
  | ok read =>
    obtain ⟨more, tail''⟩ := read
    rw [rest] at log'
    obtain ⟨rfl, rfl⟩ := Prod.mk.inj (Except.ok.inj log')
    have decoded := h'.decoded
    rw [same, List.drop_append] at decoded
    obtain ⟨first, cs, old, new, rfl⟩ := mapM_append_eq_ok.mp decoded
    obtain rfl := Except.ok.inj (old.symm.trans h.decoded)
    refine ⟨more, tail'', cs, rfl, new, ?_⟩
    rw [← RowBatch.appendAll_append _ h.replayed]
    exact h'.replayed

/-- Where there is room for a row, one can be appended. -/
theorem append_one (h : Loads serde root schema d₀ t text records batches)
    (room : TakesRow root schema (openedDisk root d₀ text) t) (timestamp : Int64) :
    ∃ payload t' d', encodeBatch (.one schema timestamp) = .ok payload ∧
      Appends (openedDisk root d₀ text) t [.one schema timestamp] d' t' ∧
      t.active.append (.one schema timestamp) = (.ok (), t'.active) ∧
      walBytes root d' = walBytes root d₀ ++ WalRecord.frame ⟨t.wal.nextSeqNo, payload⟩ := by
  have ok := RowBatch.one_wellFormed schema timestamp
  have ready := h.ready
  obtain ⟨payload, encoded⟩ :=
    encodeBatch_ok_iff.mpr ((RowBatch.encodable_one_iff schema timestamp).mpr room.encodable)
  have len := (length_encodeBatch encoded).trans (RowBatch.payloadLen_one schema timestamp)
  obtain ⟨bytes, held⟩ := Option.isSome_iff_exists.mp ready.walFile
  have file := room.file
  have fits := room.payload
  have same : walBytes root (openedDisk root d₀ text) = bytes := by rw [walBytes, held]; rfl
  have seq : t.wal.nextSeqNo.toNat + 1 < 2 ^ 64 := by
    have moderate : (frames records).length ≤ maxFileLen := by
      obtain ⟨tail, log⟩ := h.log
      obtain ⟨-, whole, -⟩ := readLog_eq_ok.mp log
      rw [walBytes_openedDisk, whole, List.length_append] at file
      omega
    have each := length_le_frames records
    have small : (UInt64.ofNat records.length).toNat ≤ records.length := by
      rw [UInt64.toNat_ofNat']
      exact Nat.mod_le _ _
    unfold maxFileLen at moderate
    simp only [h.wal]
    omega
  rw [same] at file
  obtain ⟨c, fine, -⟩ := ready.typed.append ok.typed room.rows
  have valid : validateBatchMatchesSchema t.schema (.one schema timestamp) = .ok () := by
    rw [ready.schema_eq]
    exact validate_of_wellFormed ok
  obtain ⟨next, d', admitted, write, ⟨active, step, run⟩ | ⟨e, active, step, -⟩⟩ :=
    Table.append_writes (ready.wal.symm ▸ held) valid encoded (by omega) seq (by omega)
  · obtain ⟨x, found, -, -, rfl⟩ := write
    refine ⟨payload, _, _, encoded, .append .nil (RowBatch.one_built schema timestamp) run, step, ?_⟩
    rw [ready.wal, held] at found
    obtain rfl := Option.some.inj found
    have before : walBytes root d₀ = bytes := (walBytes_openedDisk text).symm.trans same
    rw [before, walBytes, ready.wal, Disk.setFile_files_self]
    rfl
  · cases (Prod.mk.inj (step.symm.trans fine)).1

/-- Where the row of an append is found again, its payload repeats what the first opening left
behind the last record. -/
theorem repeats (h : Loads serde root schema d₀ t text records batches)
    (room : TakesRow root schema (openedDisk root d₀ text) t)
    (survive : Survive serde root schema (openedDisk root d₀ text) t) {tail : Bytes}
    (log : readLog (walBytes root d₀) = .ok (records, tail))
    (broken : ¬ LogWhole root (openedDisk root d₀ text) t) (timestamp : Int64) :
    ∃ payload, encodeBatch (.one schema timestamp) = .ok payload ∧ tail ≠ [] ∧
      tail.length < headerLen ∧
      payload = ((tail ++ (WalRecord.body ⟨t.wal.nextSeqNo, payload⟩).take headerLen).drop
        headerLen ++ payload).take payload.length := by
  obtain ⟨payload, t', d', encoded, run, step, bytes⟩ := h.append_one room timestamp
  obtain ⟨t'', d'', opened, -, active⟩ := survive _ _ _ run ⟨_, List.mem_cons_self, Nat.one_ne_zero⟩
  obtain ⟨text', records', batches', again, -⟩ := openTable_exec_eq_ok.mp opened
  have grown := run.grown h.ready
  have fit : payload.length ≤ u32Max := by
    rw [length_encodeBatch encoded, RowBatch.payloadLen_one]
    exact room.payload
  have manifest : t''.manifest = t.manifest := by
    have saved : SavedManifest serde root d' t.manifest :=
      (SavedManifest.openedDisk h.printed).frame (grown.frame _ walPath_ne_manifest.symm)
    rcases again.found with found | ⟨absent, -⟩
    · exact found.unique saved
    · obtain ⟨held, here, -⟩ := saved
      cases absent.symm.trans here
  obtain ⟨more, tail', cs, read, decoded, all⟩ := h.replays_more log again manifest bytes
  rw [active] at all
  -- Some batch is replayed, for the row is there.
  have some_batch : cs ≠ [] := by
    rintro rfl
    obtain ⟨-, -, count, -⟩ := RowBatch.append_eq_ok step
    rw [← (Prod.mk.inj all).2] at count
    simp only [RowBatch.one] at count
    omega
  have some_record : more.drop (t.manifest.walRecordsApplied - records.length) ≠ [] := by
    intro none_left
    rw [none_left] at decoded
    cases decoded
    exact some_batch rfl
  obtain ⟨fits, held, ends⟩ := readLog_eq_ok.mp log
  have tail_ne : tail ≠ [] := by
    rintro rfl
    have one : Fit [⟨t.wal.nextSeqNo, payload⟩] := by simpa [Fit] using fit
    have whole := readLog_whole one
    simp only [frames_cons, frames_nil, List.append_nil] at whole
    rw [List.nil_append, whole] at read
    obtain ⟨rfl, rfl⟩ := Prod.mk.inj (Except.ok.inj read)
    have behind : records.length < t.manifest.walRecordsApplied := by
      by_contra enough
      refine broken ⟨records, fits, ?_, by omega⟩
      rw [walBytes_openedDisk, held, List.append_nil]
    apply some_record
    rw [List.drop_eq_nil_iff, List.length_singleton]
    omega
  have short : tail.length < headerLen := by
    by_contra long
    rw [readLog_end (WalRecord.decodeFrom_append ends (by omega) _)] at read
    obtain ⟨rfl, -⟩ := Prod.mk.inj (Except.ok.inj read)
    exact some_record List.drop_nil
  obtain ⟨r, same, frame⟩ := single_record h.typed (RowBatch.one_wellFormed schema timestamp)
    Nat.one_ne_zero encoded short read decoded all step
  exact ⟨payload, encoded, tail_ne, short, WalRecord.payload_periodic same frame⟩

/-- Where there is room for a row, one is lost when the log does not end with a whole record, or
the manifest counts more records than there are. -/
theorem not_survive (h : Loads serde root schema d₀ t text records batches)
    (room : TakesRow root schema (openedDisk root d₀ text) t)
    (broken : ¬ LogWhole root (openedDisk root d₀ text) t) :
    ¬ Survive serde root schema (openedDisk root d₀ text) t := by
  intro survive
  obtain ⟨tail, log⟩ := h.log
  -- Two rows that differ in the timestamp alone would have the same payload.
  obtain ⟨p, first, ne, short, hp⟩ := h.repeats room survive log broken 0
  obtain ⟨q, second, -, -, hq⟩ := h.repeats room survive log broken 1
  have len : p.length = q.length := by
    rw [length_encodeBatch first, length_encodeBatch second, RowBatch.payloadLen_one schema 1]
  rw [WalRecord.take_body] at hp hq
  dsimp only at hp hq
  rw [len] at hp
  have front : (tail ++ (walMagic ++ (u64Bytes t.wal.nextSeqNo ++
      u32Bytes (UInt32.ofNat q.length)))).drop headerLen ≠ [] := by
    have pos := List.length_pos_of_ne_nil ne
    apply List.ne_nil_of_length_pos
    simp only [List.length_drop, List.length_append, length_u64Bytes, length_u32Bytes, walMagic,
      headerLen, List.length_cons, List.length_nil]
    omega
  obtain rfl := eq_of_periodic front len (len ▸ hp) hq
  have fits : p.length ≤ u32Max := (length_encodeBatch first).trans_le room.payload
  have read := decodeBatch_encodeBatch (RowBatch.one_wellFormed schema 0) first fits
  have read' := decodeBatch_encodeBatch (RowBatch.one_wellFormed schema 1) second fits
  have same := RowBatch.one_injective (Except.ok.inj (read.symm.trans read'))
  cases same

end Loads

/-- On a disk that opens, appended rows are found again exactly when the log is whole, or when
there is no room to append any. -/
theorem appends_survive (opened : (Table.openTable serde root schema).exec d₀ = (.ok t, d)) :
    Survive serde root schema d t ↔ LogWhole root d t ∨ ¬ TakesRow root schema d t := by
  obtain ⟨text, records, batches, loads, rfl⟩ := openTable_exec_eq_ok.mp opened
  constructor
  · intro survive
    by_contra neither
    rw [not_or, not_not] at neither
    exact loads.not_survive neither.2 neither.1 survive
  · rintro (whole | full)
    · exact loads.survive whole
    · intro bs d' t' run some_row
      exact absurd (run.takesRow loads.ready some_row) full

theorem appends_survive_ticks : ∃ d t, Reach jsonSerde ["db"] tickSchema d t [tick] ∧
    Survive jsonSerde ["db"] tickSchema d t := by
  obtain ⟨d, t, reach⟩ := tick_reopened jsonSerde ["db"]
  obtain ⟨segs, clean⟩ := reach.clean
  obtain ⟨t', d', opened, same, clean'⟩ :=
    Clean.opened clean.handle.holdsLog (.inl clean.saved) clean.lists
  obtain ⟨records, logged, bytes⟩ := clean'.handle.holdsLog.records
  refine ⟨d', t', .reopened reach opened, (appends_survive opened).mpr (.inl ⟨records, ?_, bytes, ?_⟩)⟩
  · exact fit_of_logged logged
  · rw [← logged.length_eq]
    exact clean'.handle.holds.boundary

/-- A directory in which only the log has been started: it holds the first byte of a header. -/
def fragmentDisk : Disk := emptyDisk.setFile (walPath ["db"]) (some [0x42])

/-- The table opens, and a row appended to it is lost. -/
theorem append_behind_fragment : ∃ d t,
    (Table.openTable jsonSerde ["db"] tickSchema).exec fragmentDisk = (.ok t, d) ∧
      ¬ Survive jsonSerde ["db"] tickSchema d t := by
  obtain ⟨text, printed, -⟩ := jsonSerde.manifest.roundTrip .new
  have bytes : walBytes ["db"] fragmentDisk = [0x42] := by simp [walBytes, fragmentDisk]
  have loads : Loads jsonSerde ["db"] tickSchema fragmentDisk
      ⟨["db"], tickSchema, .empty tickSchema, [], .new, ⟨walPath ["db"], 0⟩⟩ text [] [] := by
    refine ⟨rfl, rfl, .inr ⟨rfl, rfl, rfl⟩, .nil, printed, ⟨[0x42], ?_⟩, rfl, rfl, rfl⟩
    rw [bytes]
    exact readLog_end rfl
  refine ⟨_, _, openTable_exec_eq_ok.mpr ⟨text, [], [], loads, rfl⟩, loads.not_survive ?_ ?_⟩
  · refine ⟨?_, by decide, ?_, by decide⟩
    · simp only [RowBatch.Encodable, RowBatch.one, tickSchema, List.map_cons, List.map_nil,
        List.mem_singleton, forall_eq]
      exact ⟨by decide, trivial⟩
    · rw [walBytes_openedDisk, bytes]
      decide
  · rintro ⟨records, -, held, -⟩
    rw [walBytes_openedDisk, bytes] at held
    have size := length_le_frames records
    cases records with
    | nil => cases held
    | cons r records =>
      have len := congrArg List.length held
      simp only [frames_cons, List.length_append, WalRecord.length_frame, List.length_singleton,
        headerLen] at len
      omega

end BypassIo.Db
