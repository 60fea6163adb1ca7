import BypassIo.Db.Error
import BypassIo.Library.Program

/-!
# The write-ahead log

`wal.rs`: the record format, the writer and the reader. The reader's loop is `readLog`; it
also returns the bytes it leaves unread.

## Main results

* `decodeFrom_eq_some`: decoding inverts encoding, and accepts nothing else.
* `readLog_eq_ok`: a log that reads is a list of encoded records and a tail.
* `decodeFrom_take_frame`: what a cut record decodes to.
-/

namespace BypassIo.Db
open Octet Rust FileSystem

def walMagic : Bytes := [0x42, 0x59, 0x50, 0x57]

def headerLen : Nat := 16

def trailerLen : Nat := 4

/-- One bit of `checksum32`. -/
def checksumBit (crc : UInt32) : UInt32 :=
  let mask := 0 - (crc &&& 1)
  (crc >>> 1) ^^^ (0xedb88320 &&& mask)

def checksum32 (bytes : Bytes) : UInt32 :=
  ~~~ bytes.foldl (fun crc byte => Nat.repeat checksumBit 8 (crc ^^^ byte.toUInt32)) 0xffffffff

structure WalRecord where
  seqNo : UInt64
  payload : Bytes
  deriving DecidableEq, Repr

namespace WalRecord

/-- The record up to its trailer. -/
def body (r : WalRecord) : Bytes :=
  walMagic ++ u64Bytes r.seqNo ++ u32Bytes (UInt32.ofNat r.payload.length) ++ r.payload

/-- The bytes of a record. -/
def frame (r : WalRecord) : Bytes := r.body ++ u32Bytes (checksum32 r.body)

/-- `WalRecord::encode`. -/
def encode (r : WalRecord) : Except WalError Bytes :=
  if r.payload.length ≤ u32Max then .ok r.frame else .error (.payloadTooLarge r.payload.length)

/-- `WalRecord::decode_from`, with the bytes after the record. -/
def decodeFrom (input : Bytes) : Except WalError (Option (WalRecord × Bytes)) :=
  if input.length < headerLen then .ok none
  else
    let header := input.take headerLen
    if header.take 4 ≠ walMagic then .ok none
    else
      let seqNo := u64Of ((header.drop 4).take 8)
      let len := (u32Of (header.drop 12)).toNat
      let rest := input.drop headerLen
      if rest.length < len then .error (.ofIo .unexpectedEof)
      else
        let payload := rest.take len
        let rest := rest.drop len
        if rest.length < trailerLen then .error (.ofIo .unexpectedEof)
        else
          let stored := u32Of (rest.take trailerLen)
          if stored ≠ checksum32 (header ++ payload) then .error (.checksumMismatch seqNo)
          else .ok (some (⟨seqNo, payload⟩, rest.drop trailerLen))

@[simp] theorem length_body (r : WalRecord) : r.body.length = headerLen + r.payload.length := by
  simp [body, walMagic, headerLen]
  omega

@[simp] theorem length_frame (r : WalRecord) :
    r.frame.length = headerLen + r.payload.length + trailerLen := by
  simp [frame, trailerLen]

theorem encode_eq_ok {r : WalRecord} {bytes : Bytes} :
    r.encode = .ok bytes ↔ r.payload.length ≤ u32Max ∧ bytes = r.frame := by
  unfold encode
  split <;> grind

/-- The payload length survives the length field. -/
theorem toNat_length {r : WalRecord} (h : r.payload.length ≤ u32Max) :
    (UInt32.ofNat r.payload.length).toNat = r.payload.length :=
  UInt32.toNat_ofNat_of_lt' (by unfold u32Max at h; simp [UInt32.size]; omega)

/-- The header holds the sequence number and the length. -/
theorem take_body (r : WalRecord) : r.body.take headerLen =
    walMagic ++ (u64Bytes r.seqNo ++ u32Bytes (UInt32.ofNat r.payload.length)) := by
  rw [body, List.append_assoc walMagic, List.take_left']
  simp [walMagic, headerLen]

/-- The header fields as the decoder cuts them. -/
theorem header_fields (r : WalRecord) :
    (r.body.take headerLen).take 4 = walMagic ∧
      ((r.body.take headerLen).drop 4).take 8 = u64Bytes r.seqNo ∧
      (r.body.take headerLen).drop 12 = u32Bytes (UInt32.ofNat r.payload.length) := by
  have front := r.take_body
  have eight : (u64Bytes r.seqNo).length = 8 := length_u64Bytes _
  rw [front]
  refine ⟨List.take_left' rfl, ?_, ?_⟩
  · rw [show (4 : Nat) = walMagic.length from rfl, List.drop_left, List.take_left' eight]
  · rw [show (12 : Nat) = (walMagic ++ u64Bytes r.seqNo).length by simp [walMagic],
      ← List.append_assoc, List.drop_left]

/-- A whole record decodes to itself. -/
theorem decodeFrom_frame {r : WalRecord} (h : r.payload.length ≤ u32Max) (rest : Bytes) :
    decodeFrom (r.frame ++ rest) = .ok (some (r, rest)) := by
  obtain ⟨magic, seq, len⟩ := r.header_fields
  have size : headerLen ≤ r.body.length := by simp
  have cut : r.body.drop headerLen = r.payload := by
    rw [body, List.drop_left']
    simp [walMagic, headerLen]
  have header : (r.frame ++ rest).take headerLen = r.body.take headerLen := by
    rw [frame, List.append_assoc, List.take_append_of_le_length size]
  have after : (r.frame ++ rest).drop headerLen =
      r.payload ++ (u32Bytes (checksum32 r.body) ++ rest) := by
    rw [frame, List.append_assoc, List.drop_append_of_le_length size, cut]
  have whole : r.body.take headerLen ++ r.payload = r.body := by
    rw [← cut, List.take_append_drop]
  have four : (u32Bytes (checksum32 r.body)).length = trailerLen := length_u32Bytes _
  have long : ¬ (r.frame ++ rest).length < headerLen := by simp; omega
  unfold decodeFrom
  rw [if_neg long]
  simp only [header, after, magic, seq, len, u64Of_u64Bytes, u32Of_u32Bytes, toNat_length h,
    List.take_left, List.drop_left, List.take_left' four, List.drop_left' four, whole]
  simp [four]

/-- The decoder accepts exactly encoded records. -/
theorem decodeFrom_eq_some {input rest : Bytes} {r : WalRecord} :
    decodeFrom input = .ok (some (r, rest)) ↔
      r.payload.length ≤ u32Max ∧ input = r.frame ++ rest := by
  constructor
  · intro h
    unfold decodeFrom at h
    simp only at h
    split at h <;> rename_i short
    · cases h
    split at h <;> rename_i magic
    · cases h
    split at h <;> rename_i few
    · cases h
    split at h <;> rename_i fewer
    · cases h
    split at h <;> rename_i sum
    · cases h
    obtain ⟨rfl, rfl⟩ := Prod.mk.inj (Option.some.inj (Except.ok.inj h))
    simp only [ne_eq, not_lt, not_not] at short magic few fewer sum
    set header := input.take headerLen with hheader
    set len := (u32Of (header.drop 12)).toNat with hlen
    have hsize : header.length = 16 := by
      rw [hheader, List.length_take]
      simp only [headerLen] at short ⊢
      omega
    have lenlt : len < 2 ^ 32 := (u32Of (header.drop 12)).toNat_lt
    have psize : ((input.drop headerLen).take len).length = len := by
      rw [List.length_take]
      omega
    have hsplit : header = walMagic ++ (u64Bytes (u64Of ((header.drop 4).take 8)) ++
        u32Bytes (u32Of (header.drop 12))) := by
      rw [u64Bytes_u64Of (by simp [hsize]), u32Bytes_u32Of (by simp [hsize]), ← magic]
      have mid : (header.drop 4).take 8 ++ header.drop 12 = header.drop 4 := by
        have := List.take_append_drop 8 (header.drop 4)
        rwa [List.drop_drop] at this
      rw [mid, List.take_append_drop]
    refine ⟨?_, ?_⟩
    · rw [psize]
      unfold u32Max
      omega
    · have body_eq : (⟨u64Of ((header.drop 4).take 8), (input.drop headerLen).take len⟩ :
          WalRecord).body = header ++ (input.drop headerLen).take len := by
        have back : UInt32.ofNat len = u32Of (header.drop 12) := UInt32.ofNat_toNat
        rw [body, psize, back, List.append_assoc walMagic, ← hsplit]
      have tail : u32Bytes (u32Of (((input.drop headerLen).drop len).take trailerLen)) =
          ((input.drop headerLen).drop len).take trailerLen := by
        apply u32Bytes_u32Of
        rw [List.length_take]
        simp only [trailerLen] at fewer ⊢
        omega
      simp only [frame, body_eq, ← sum, tail, List.append_assoc]
      rw [List.take_append_drop, List.take_append_drop, hheader, List.take_append_drop]
  · rintro ⟨fits, rfl⟩
    exact decodeFrom_frame fits rest

/-- A cut record is the end of the log inside its header, and an error after it. -/
theorem decodeFrom_take_frame {r : WalRecord} (h : r.payload.length ≤ u32Max) {n : Nat}
    (cut : n < r.frame.length) :
    decodeFrom (r.frame.take n) =
      if n < headerLen then .ok none else .error (.ofIo .unexpectedEof) := by
  have size : (r.frame.take n).length = n := by
    rw [List.length_take]
    omega
  unfold decodeFrom
  rw [size]
  by_cases short : n < headerLen
  · rw [if_pos short, if_pos short]
  · rw [if_neg short, if_neg short]
    obtain ⟨magic, -, len⟩ := r.header_fields
    have inside : headerLen ≤ r.body.length := by simp
    have header : (r.frame.take n).take headerLen = r.body.take headerLen := by
      rw [List.take_take, Nat.min_eq_left (by omega), frame, List.take_append_of_le_length inside]
    have rest : ((r.frame.take n).drop headerLen).length = n - headerLen := by
      rw [List.length_drop, size]
    simp only [header, magic, len, u32Of_u32Bytes, toNat_length h, rest]
    rw [length_frame] at cut
    simp only [ne_eq, not_true, if_false]
    by_cases payload : n - headerLen < r.payload.length
    · rw [if_pos payload]
    · rw [if_neg payload, if_pos]
      rw [List.length_drop, rest]
      omega

/-- A long end of the log stays one, whatever is appended. -/
theorem decodeFrom_append {tail : Bytes} (h : decodeFrom tail = .ok none)
    (long : headerLen ≤ tail.length) (more : Bytes) : decodeFrom (tail ++ more) = .ok none := by
  have magic : (tail.take headerLen).take 4 ≠ walMagic := by
    intro magic
    unfold decodeFrom at h
    rw [if_neg (by omega), if_neg (not_not.mpr magic)] at h
    simp only at h
    split at h
    · cases h
    · split at h
      · cases h
      · split at h <;> cases h
  have enough : ¬ (tail ++ more).length < headerLen := by
    rw [List.length_append]
    omega
  unfold decodeFrom
  rw [if_neg enough, List.take_append_of_le_length long, if_pos magic]

/-- A record that is read off a fragment followed by a record of the same payload: the payload
repeats the bytes that stand before it. -/
theorem payload_periodic {r s : WalRecord} {tail rest : Bytes} (same : r.payload = s.payload)
    (h : r.frame ++ rest = tail ++ s.frame) :
    s.payload = ((tail ++ s.body.take headerLen).drop headerLen ++ s.payload).take s.payload.length := by
  have cut : ∀ q : WalRecord, q.body = q.body.take headerLen ++ q.payload := by
    intro q
    have inside : q.body.drop headerLen = q.payload := by
      rw [body, List.drop_left']
      simp [walMagic, headerLen]
    have whole := List.take_append_drop headerLen q.body
    rw [inside] at whole
    exact whole.symm
  have header : ∀ q : WalRecord, (q.body.take headerLen).length = headerLen := by
    intro q
    rw [List.length_take, length_body]
    omega
  have right : (tail ++ s.frame).drop headerLen = (tail ++ s.body.take headerLen).drop headerLen ++
      (s.payload ++ u32Bytes (checksum32 s.body)) := by
    have split : tail ++ s.frame = (tail ++ s.body.take headerLen) ++
        (s.payload ++ u32Bytes (checksum32 s.body)) := by
      have body_eq := cut s
      rw [frame]
      nth_rewrite 1 [body_eq]
      simp only [List.append_assoc]
    have room : headerLen ≤ (tail ++ s.body.take headerLen).length := by
      rw [List.length_append, header]
      omega
    rw [split, List.drop_append_of_le_length room]
  have left : (r.frame ++ rest).drop headerLen =
      s.payload ++ (u32Bytes (checksum32 r.body) ++ rest) := by
    have body_eq := cut r
    rw [frame]
    nth_rewrite 1 [body_eq]
    rw [List.append_assoc, List.append_assoc, List.drop_left' (header r), same]
  have both := congrArg (·.take s.payload.length) (left.symm.trans ((congrArg (·.drop headerLen) h).trans right))
  simp only [List.take_left] at both
  rw [← List.append_assoc, List.take_append_of_le_length (by simp)] at both
  exact both

theorem decodeFrom_length {input rest : Bytes} {r : WalRecord}
    (h : decodeFrom input = .ok (some (r, rest))) : rest.length < input.length := by
  obtain ⟨-, rfl⟩ := decodeFrom_eq_some.mp h
  simp [headerLen]

end WalRecord

/-! ## The reader's loop -/

/-- The loop of `WalReader::records`: the records and the bytes left unread. -/
def readLog (input : Bytes) : Except WalError (List WalRecord × Bytes) :=
  match _h : WalRecord.decodeFrom input with
  | .error e => .error e
  | .ok none => .ok ([], input)
  | .ok (some (record, rest)) =>
    match readLog rest with
    | .error e => .error e
    | .ok (records, tail) => .ok (record :: records, tail)
termination_by input.length
decreasing_by exact WalRecord.decodeFrom_length _h

/-- The concatenated encodings of a list of records. -/
def frames (records : List WalRecord) : Bytes := records.flatMap WalRecord.frame

@[simp] theorem frames_nil : frames [] = [] := rfl

@[simp] theorem frames_cons (r : WalRecord) (records : List WalRecord) :
    frames (r :: records) = r.frame ++ frames records := rfl

@[simp] theorem frames_append (xs ys : List WalRecord) :
    frames (xs ++ ys) = frames xs ++ frames ys := List.flatMap_append

theorem length_le_frames (records : List WalRecord) : records.length ≤ (frames records).length := by
  induction records with
  | nil => exact Nat.le_refl _
  | cons r records ih =>
    simp only [frames_cons, List.length_append, WalRecord.length_frame, List.length_cons, trailerLen]
    omega

/-- Every payload fits its length field. -/
def Fit (records : List WalRecord) : Prop := ∀ r ∈ records, r.payload.length ≤ u32Max

theorem readLog_end {rest : Bytes} (h : WalRecord.decodeFrom rest = .ok none) :
    readLog rest = .ok ([], rest) := by
  rw [readLog]
  split <;> simp_all

theorem readLog_error {rest : Bytes} {e : WalError} (h : WalRecord.decodeFrom rest = .error e) :
    readLog rest = .error e := by
  rw [readLog]
  split <;> simp_all

theorem readLog_cons {input rest : Bytes} {r : WalRecord}
    (h : WalRecord.decodeFrom input = .ok (some (r, rest))) :
    readLog input = (readLog rest).map fun (more, tail) => (r :: more, tail) := by
  rw [readLog]
  split <;> rename_i found <;> rw [h] at found <;> cases found
  cases readLog rest <;> rfl

/-- Whole records in front are read in order. -/
theorem readLog_frames {records : List WalRecord} (fit : Fit records) (rest : Bytes) :
    readLog (frames records ++ rest) =
      (readLog rest).map fun (more, tail) => (records ++ more, tail) := by
  induction records with
  | nil => cases h : readLog rest <;> simp [h, Except.map]
  | cons r records ih =>
    have head := WalRecord.decodeFrom_frame (fit r List.mem_cons_self) (frames records ++ rest)
    rw [frames_cons, List.append_assoc, readLog_cons head,
      ih fun s hs => fit s (List.mem_cons_of_mem _ hs)]
    cases readLog rest <;> rfl

/-- A log that reads is a list of whole records and a tail without a header. -/
theorem readLog_eq_ok {input tail : Bytes} {records : List WalRecord} :
    readLog input = .ok (records, tail) ↔
      Fit records ∧ input = frames records ++ tail ∧ WalRecord.decodeFrom tail = .ok none := by
  constructor
  · intro h
    induction input using readLog.induct generalizing records with
    | case1 input e found =>
      rw [readLog_error found] at h
      cases h
    | case2 input found =>
      rw [readLog_end found] at h
      cases h
      exact ⟨by simp [Fit], rfl, found⟩
    | case3 input r rest found e bad ih =>
      rw [readLog_cons found, bad] at h
      cases h
    | case4 input r rest found more last good ih =>
      rw [readLog_cons found, good] at h
      obtain ⟨rfl, rfl⟩ := Prod.mk.inj (Except.ok.inj h)
      obtain ⟨fits, rfl⟩ := WalRecord.decodeFrom_eq_some.mp found
      obtain ⟨fit, rfl, ends⟩ := ih good
      exact ⟨List.forall_mem_cons.mpr ⟨fits, fit⟩, by simp, ends⟩
  · rintro ⟨fit, rfl, ends⟩
    rw [readLog_frames fit, readLog_end ends]
    simp [Except.map]

theorem decodeFrom_nil : WalRecord.decodeFrom [] = .ok none := rfl

/-- A log of whole records reads back. -/
theorem readLog_whole {records : List WalRecord} (fit : Fit records) :
    readLog (frames records) = .ok (records, []) :=
  readLog_eq_ok.mpr ⟨fit, by simp, decodeFrom_nil⟩

/-- Whole records in front of a log are its first records. -/
theorem prefix_of_frames {xs ys : List WalRecord} (fit : Fit xs) (fit' : Fit ys)
    (h : frames xs <+: frames ys) : xs <+: ys := by
  obtain ⟨rest, bytes⟩ := h
  have read := readLog_whole fit'
  rw [← bytes, readLog_frames fit] at read
  cases behind : readLog rest with
  | error e =>
    rw [behind] at read
    cases read
  | ok found =>
    rw [behind] at read
    obtain ⟨same, -⟩ := Prod.mk.inj (Except.ok.inj read)
    exact ⟨found.1, same⟩

theorem frames_mono {xs ys : List WalRecord} (h : xs <+: ys) : frames xs <+: frames ys := by
  obtain ⟨rest, rfl⟩ := h
  exact ⟨frames rest, (frames_append xs rest).symm⟩

/-! ## Reader and writer -/

namespace WalReader

/-- `WalReader::open`; the reader is its path. -/
def openReader (path : Path) : Query WalError Path := do
  Query.io .ofIo (.openAppend path)
  return path

/-- `WalReader::records`. -/
def records (path : Path) : Query WalError (List WalRecord) := do
  Query.io .ofIo (.openRead path)
  let bytes ← Query.io .ofIo (.read path)
  let (records, _) ← Query.pureStep (ofResult (readLog bytes))
  return records

end WalReader

structure WalWriter where
  path : Path
  nextSeqNo : UInt64
  deriving DecidableEq, Repr

namespace WalWriter

/-- `WalWriter::open`. -/
def openWriter (path : Path) : Query WalError WalWriter := do
  Query.io .ofIo (.openAppend path)
  let reader ← WalReader.openReader path
  let records ← WalReader.records reader
  return { path, nextSeqNo := UInt64.ofNat records.length }

/-- `WalWriter::append`: the sequence number moves before the record is encoded. -/
def append (payload : Bytes) : Method WalWriter WalError UInt64 := do
  let w ← get
  match checkedAdd64 w.nextSeqNo 1 with
  | none => throw (.error .sequenceOverflow)
  | some next =>
    set { w with nextSeqNo := next }
    match WalRecord.encode ⟨w.nextSeqNo, payload⟩ with
    | .error e => throw (.error e)
    | .ok encoded =>
      Method.query (Query.io .ofIo (.append w.path encoded))
      return w.nextSeqNo

/-- `WalWriter::sync`. -/
def sync (w : WalWriter) : Query WalError Unit := Query.io .ofIo (.sync w.path)

/-- `WalWriter::reset`. -/
def reset : Method WalWriter WalError Unit := do
  let w ← get
  Method.query (Query.io .ofIo (.truncate w.path))
  Method.query (Query.io .ofIo (.sync w.path))
  set { w with nextSeqNo := 0 }

end WalWriter

end BypassIo.Db
