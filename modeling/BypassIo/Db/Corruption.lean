import BypassIo.Db.Framing
import BypassIo.Library.Crc

/-!
# Corrupted records

`checksum32` is a reflected cyclic redundancy check, so a change of up to four consecutive
bytes of a record shows in its checksum. `burst_detected` follows such a change to the error
that the reader returns.
-/

namespace BypassIo.Db
open Octet Rust FileSystem

/-! ## The checksum -/

def crcPoly : BitVec 32 := 0xedb88320#32

theorem crcPoly_msb : crcPoly.msb = true := by decide

theorem checksumBit_toBitVec (crc : UInt32) :
    (checksumBit crc).toBitVec = Crc.bit crcPoly crc.toBitVec := by
  have low := BitVec.and_one_eq_setWidth_ofBool_getLsbD (x := crc.toBitVec)
  simp only [checksumBit, Crc.bit, UInt32.toBitVec_xor, UInt32.toBitVec_shiftRight,
    UInt32.toBitVec_and, UInt32.toBitVec_sub, UInt32.toBitVec_ofNat, low]
  cases crc.toBitVec.getLsbD 0 <;> rfl

theorem checksum32_toBitVec (bytes : Bytes) :
    (checksum32 bytes).toBitVec = ~~~ Crc.run crcPoly (BitVec.allOnes 32) bytes := by
  have bits : ∀ n crc, (Nat.repeat checksumBit n crc).toBitVec =
      Crc.bits crcPoly n crc.toBitVec := by
    intro n
    induction n with
    | zero => exact fun crc => rfl
    | succ n ih =>
      intro crc
      rw [Nat.repeat, checksumBit_toBitVec, ih, Nat.add_comm, Crc.bits_add]
      rfl
  have run : ∀ crc : UInt32, (bytes.foldl (fun crc byte =>
      Nat.repeat checksumBit 8 (crc ^^^ byte.toUInt32)) crc).toBitVec =
        Crc.run crcPoly crc.toBitVec bytes := by
    induction bytes with
    | nil => exact fun crc => rfl
    | cons b bytes ih =>
      intro crc
      rw [List.foldl_cons, ih, bits, Crc.run_cons]
      rfl
  rw [checksum32, UInt32.toBitVec_not, run]
  rfl

/-- A stored checksum is right when the state after it is the residue. -/
theorem checksum32_eq_iff {body trailer : Bytes} (four : trailer.length = trailerLen) :
    u32Of trailer = checksum32 body ↔
      Crc.run crcPoly (BitVec.allOnes 32) (body ++ trailer) = Crc.residue crcPoly := by
  rw [Crc.run_eq_residue crcPoly_msb (by rw [four]; rfl), Crc.word_eq_ofNat,
    ← checksum32_toBitVec, ← UInt32.toBitVec_inj]
  rfl

/-! ## Changed records -/

/-- `changed` differs from `frame`, in at most four consecutive bytes, and in none of the magic
and the length field. -/
structure Burst (frame changed : Bytes) : Prop where
  ne : changed ≠ frame
  length : changed.length = frame.length
  window : ∃ i, ∀ j, j < i ∨ i + 4 ≤ j → changed[j]? = frame[j]?
  magic : changed.take 4 = frame.take 4
  payloadLength : (changed.drop 12).take 4 = (frame.drop 12).take 4

/-- A changed record, cut where its window lies. -/
theorem Burst.split {frame changed : Bytes} (h : Burst frame changed) :
    ∃ front window window' back, window.length = window'.length ∧ window.length ≤ 4 ∧
      window' ≠ window ∧ frame = front ++ (window ++ back) ∧ changed = front ++ (window' ++ back) := by
  obtain ⟨i, same⟩ := h.window
  have front : changed.take i = frame.take i := by
    apply List.ext_getElem?
    intro j
    simp only [List.getElem?_take]
    split
    · exact same j (.inl (by assumption))
    · rfl
  have back : changed.drop (i + 4) = frame.drop (i + 4) := by
    apply List.ext_getElem?
    intro j
    simp only [List.getElem?_drop]
    exact same _ (.inr (by omega))
  have cut : ∀ bytes : Bytes, bytes = bytes.take i ++ ((bytes.drop i).take 4 ++ bytes.drop (i + 4)) := by
    intro bytes
    rw [← List.drop_drop, List.take_append_drop, List.take_append_drop]
  refine ⟨frame.take i, (frame.drop i).take 4, (changed.drop i).take 4, frame.drop (i + 4), ?_, ?_,
    ?_, cut frame, ?_⟩
  · simp [h.length]
  · simp
  · intro inside
    apply h.ne
    rw [cut changed, front, inside, back, ← cut frame]
  · rw [← front, ← back]
    exact cut changed

/-- What the decoder does with bytes that have the magic and the length of a record. -/
theorem WalRecord.decodeFrom_sized {bytes rest : Bytes} {n : Nat}
    (size : bytes.length = headerLen + n + trailerLen) (magic : bytes.take 4 = walMagic)
    (len : (u32Of ((bytes.drop 12).take 4)).toNat = n) :
    decodeFrom (bytes ++ rest) =
      if u32Of (bytes.drop (headerLen + n)) = checksum32 (bytes.take (headerLen + n)) then
        .ok (some (⟨u64Of ((bytes.drop 4).take 8), (bytes.drop headerLen).take n⟩, rest))
      else .error (.checksumMismatch (u64Of ((bytes.drop 4).take 8))) := by
  have long : ¬ (bytes ++ rest).length < headerLen := by
    rw [List.length_append, size]
    omega
  have header : (bytes ++ rest).take headerLen = bytes.take headerLen :=
    List.take_append_of_le_length (by omega)
  have after : (bytes ++ rest).drop headerLen = bytes.drop headerLen ++ rest :=
    List.drop_append_of_le_length (by omega)
  have magic' : (bytes.take headerLen).take 4 = walMagic := by
    rw [List.take_take]
    exact magic
  have len' : (u32Of ((bytes.take headerLen).drop 12)).toNat = n := by
    rw [List.drop_take]
    exact len
  have seq : ((bytes.take headerLen).drop 4).take 8 = (bytes.drop 4).take 8 := by
    rw [List.drop_take, List.take_take]
    rfl
  have enough : n ≤ (bytes.drop headerLen).length := by
    rw [List.length_drop]
    omega
  have payload : (bytes.drop headerLen ++ rest).take n = (bytes.drop headerLen).take n :=
    List.take_append_of_le_length enough
  have behind : (bytes.drop headerLen ++ rest).drop n = bytes.drop (headerLen + n) ++ rest := by
    rw [List.drop_append_of_le_length enough, List.drop_drop]
  have four : (bytes.drop (headerLen + n)).length = trailerLen := by
    rw [List.length_drop]
    omega
  have covered : bytes.take headerLen ++ (bytes.drop headerLen).take n =
      bytes.take (headerLen + n) := by
    rw [List.take_add]
  have room : ¬ (bytes.drop headerLen ++ rest).length < n := by
    rw [List.length_append]
    omega
  have room' : ¬ (bytes.drop (headerLen + n) ++ rest).length < trailerLen := by
    rw [List.length_append]
    omega
  unfold decodeFrom
  simp only [if_neg long, header, after, magic', ne_eq, not_true, if_false, len', seq, if_neg room,
    payload, behind, if_neg room', List.take_left' four, List.drop_left' four, covered]
  split <;> simp_all

/-- A burst is reported with the sequence number that the changed record shows. -/
theorem decodeFrom_burst {r : WalRecord} (fits : r.payload.length ≤ u32Max) {changed : Bytes}
    (burst : Burst r.frame changed) (rest : Bytes) :
    WalRecord.decodeFrom (changed ++ rest) =
      .error (.checksumMismatch (u64Of ((changed.drop 4).take 8))) := by
  obtain ⟨magic, -, len⟩ := r.header_fields
  have inside : headerLen ≤ r.body.length := by simp
  have front : r.frame.take headerLen = r.body.take headerLen :=
    List.take_append_of_le_length inside
  have size : changed.length = headerLen + r.payload.length + trailerLen := by
    rw [burst.length, r.length_frame]
  have magic' : changed.take 4 = walMagic := by
    rw [burst.magic, ← magic, ← front, List.take_take]
    rfl
  have len' : (u32Of ((changed.drop 12).take 4)).toNat = r.payload.length := by
    have field : (r.frame.drop 12).take 4 = (r.frame.take headerLen).drop 12 := by
      rw [List.drop_take]
      rfl
    rw [burst.payloadLength, field, front, len, u32Of_u32Bytes, WalRecord.toNat_length fits]
  rw [WalRecord.decodeFrom_sized size magic' len', if_neg]
  intro sum
  -- Were the sum right, both strings would leave the residue, and the window would not differ.
  obtain ⟨front, window, window', back, len, small, ne, whole, cut⟩ := burst.split
  have four : (changed.drop (headerLen + r.payload.length)).length = trailerLen := by
    rw [List.length_drop]
    omega
  have right := (checksum32_eq_iff four).mp sum
  have stored := (checksum32_eq_iff (length_u32Bytes (checksum32 r.body))).mp (u32Of_u32Bytes _)
  rw [List.take_append_drop, cut] at right
  rw [← WalRecord.frame, whole] at stored
  exact ne (Crc.run_window crcPoly_msb (by omega) (by omega) (right.trans stored.symm))

/-- A change of at most four consecutive bytes of one record of a log, outside its magic and its
length, makes the reader return a checksum error. -/
theorem burst_detected {path : Path} {d : Disk} {before after : List WalRecord} {r : WalRecord}
    {changed : Bytes} (fit : Fit (before ++ r :: after)) (burst : Burst r.frame changed)
    (held : d.files path = some (frames before ++ (changed ++ frames after))) :
    (WalReader.records path).exec d =
      (.error (.error (.checksumMismatch (u64Of ((changed.drop 4).take 8)))), d) := by
  have mem : ∀ q ∈ before, q ∈ before ++ r :: after := fun q hq => List.mem_append_left _ hq
  have fits := fit r (List.mem_append_right _ List.mem_cons_self)
  have log : readLog (frames before ++ (changed ++ frames after)) =
      .error (.checksumMismatch (u64Of ((changed.drop 4).take 8))) := by
    rw [readLog_frames (fun q hq => fit q (mem q hq)),
      readLog_error (decodeFrom_burst fits burst (frames after))]
    rfl
  have opened : (Query.io WalError.ofIo (.openRead path)).exec d = (.ok (), d) := by
    rw [Query.exec_io_eq_ok, Call.effect, held]
  unfold WalReader.records
  rw [Query.exec_bind_ok opened, Query.exec_bind_ok (Query.exec_read_eq_ok.mpr ⟨held, rfl⟩), log]
  rfl

/-- The payload and the first byte of the checksum are changed. -/
theorem burst_detected_example :
    ∃ changed d, Burst (WalRecord.frame ⟨1, [7]⟩) changed ∧
      d.files ["log"] = some (frames [⟨0, []⟩] ++ (changed ++ frames [⟨2, [9]⟩])) ∧
      (WalReader.records ["log"]).exec d = (.error (.error (.checksumMismatch 1)), d) := by
  have burst : Burst (WalRecord.frame ⟨1, [7]⟩) (((WalRecord.frame ⟨1, [7]⟩).set 16 8).set 17 0) := by
    refine ⟨fun same => ?_, by simp, ⟨16, fun j out => ?_⟩, rfl, rfl⟩
    · have payload := congrArg (·[16]?) same
      simp [List.getElem?_set] at payload
      revert payload
      decide
    · rw [List.getElem?_set_ne (by omega), List.getElem?_set_ne (by omega)]
  have fit : Fit ([⟨0, []⟩] ++ ⟨1, [7]⟩ :: [⟨2, [9]⟩]) := by simp [Fit, u32Max]
  have held := Disk.setFile_files_self emptyDisk ["log"] (some (frames [⟨0, []⟩] ++
    (((WalRecord.frame ⟨1, [7]⟩).set 16 8).set 17 0 ++ frames [⟨2, [9]⟩])))
  exact ⟨_, _, burst, held, burst_detected fit burst held⟩

end BypassIo.Db
