import BypassIo.Db.Error
import BypassIo.Db.Rows
import BypassIo.Library.Cursor

/-!
# The payload of a log record

`encode_batch`, `decode_batch` and `PayloadReader` of `table.rs`. A batch that is well
formed for the schema is read back exactly (`decodeBatch_encodeBatch`).
-/

namespace BypassIo.Db
open Octet Rust Columns

/-! ## Writing -/

def writeUsize (value : Nat) : Bytes := u64Bytes (UInt64.ofNat value)

def writeBytes (bytes : Bytes) : Except TableError Bytes :=
  if bytes.length ≤ u32Max then .ok (u32Bytes (UInt32.ofNat bytes.length) ++ bytes)
  else .error (.payloadTooLarge bytes.length)

/-- The `match data` of `encode_batch`: the tag, the counts and the values. -/
def encodeData : ColumnData → Except TableError Bytes
  | .f64 values => .ok ([0] ++ (writeUsize values.length ++ values.flatMap u64Bytes))
  | .i64 values => .ok ([1] ++ (writeUsize values.length ++ values.flatMap i64Bytes))
  | .timestamp values => .ok ([2] ++ (writeUsize values.length ++ values.flatMap i64Bytes))
  | .fixedStr width values => do
    let written ← values.mapM writeBytes
    return [3] ++ (u64Bytes width ++ (writeUsize values.length ++ written.flatten))

/-- One turn of the column loop of `encode_batch`. -/
def encodeColumn (column : String × ColumnData) : Except TableError Bytes := do
  let name ← writeBytes (asBytes column.1)
  let data ← encodeData column.2
  return name ++ data

def encodeBatch (rows : RowBatch) : Except TableError Bytes := do
  let columns ← rows.columns.mapM encodeColumn
  return writeUsize rows.rowCount ++ (writeUsize rows.columns.length ++ columns.flatten)

/-! ## Reading -/

/-- `TableError::PayloadDecode` -/
def decodeError (err : String) : Fault TableError := .error (.payloadDecode err)

namespace PayloadReader

def readU8 : Reader TableError UInt8 := fun c =>
  match c.input[c.offset]? with
  | none => .error (decodeError "unexpected end of payload")
  | some byte => .ok (byte, { c with offset := c.offset + 1 })

/-- The common part of `read_array` and `read_bytes`: `n` bytes from the offset on. -/
def readArray (n : Nat) : Reader TableError Bytes := fun c =>
  match checkedAdd c.offset n with
  | none => .error (decodeError "payload offset overflow")
  | some last =>
    if last ≤ c.input.length then .ok ((c.input.drop c.offset).take n, { c with offset := last })
    else .error (decodeError "unexpected end of payload")

/-- `read_usize`; every `u64` is a `usize` on a 64-bit target. -/
def readUsize : Reader TableError Nat := do
  let bytes ← readArray 8
  return (u64Of bytes).toNat

def readBytes : Reader TableError Bytes := do
  let len ← readArray 4
  readArray (u32Of len).toNat

def readF64 : Reader TableError UInt64 := do
  let bytes ← readArray 8
  return u64Of bytes

def readI64 : Reader TableError Int64 := do
  let bytes ← readArray 8
  return i64Of bytes

def finish : Reader TableError Unit := fun c =>
  if c.offset = c.input.length then .ok ((), c)
  else .error (decodeError "trailing bytes after payload")

end PayloadReader

open PayloadReader Reader

/-- The `match tag` of `decode_batch`. The capacities are those of `Vec<f64>`, `Vec<i64>`
and `Vec<Vec<u8>>`. -/
def decodeData (tag : UInt8) : Reader TableError ColumnData :=
  if tag = 0 then do
    let count ← readUsize
    step (withCapacity 8 count)
    let values ← readF64.times count
    return .f64 values
  else if tag = 1 then do
    let count ← readUsize
    step (withCapacity 8 count)
    let values ← readI64.times count
    return .i64 values
  else if tag = 2 then do
    let count ← readUsize
    step (withCapacity 8 count)
    let values ← readI64.times count
    return .timestamp values
  else if tag = 3 then do
    let width ← readUsize
    let count ← readUsize
    step (withCapacity 24 count)
    let values ← readBytes.times count
    return .fixedStr (UInt64.ofNat width) values
  else throw (decodeError "unknown column tag")

/-- The checks of one column of `decode_batch`. -/
def checkName (expected : ColumnDef) (bytes : Bytes) : Outcome TableError String :=
  match fromUtf8 bytes with
  | none => .error (decodeError "column name is not UTF-8")
  | some name =>
    if name ≠ expected.name then .error (decodeError "column order does not match schema")
    else .ok name

def checkDtype (expected : ColumnDef) (data : ColumnData) : Outcome TableError Unit :=
  if data.matchesDtype expected.dtype then .ok ()
  else .error (decodeError "decoded column type does not match schema")

/-- One turn of the column loop of `decode_batch`. -/
def decodeColumn (expected : ColumnDef) : Reader TableError (String × ColumnData) := do
  let bytes ← readBytes
  let name ← step (checkName expected bytes)
  let tag ← readU8
  let data ← decodeData tag
  step (checkDtype expected data)
  return (name, data)

def decodeColumns : List ColumnDef → Reader TableError (List (String × ColumnData))
  | [] => pure []
  | expected :: defs => do
    let column ← decodeColumn expected
    let columns ← decodeColumns defs
    return column :: columns

def checkColumnCount (schema : Schema) (columnCount : Nat) : Outcome TableError Unit :=
  if columnCount = schema.columns.length then .ok ()
  else .error (decodeError "column count does not match schema")

/-- The body of `decode_batch` before `finish`. -/
def readBatch (schema : Schema) : Reader TableError RowBatch := do
  let rowCount ← readUsize
  let columnCount ← readUsize
  step (checkColumnCount schema columnCount)
  let columns ← decodeColumns schema.columns
  return ⟨columns, rowCount⟩

def decodeBatch (schema : Schema) (payload : Bytes) : Outcome TableError RowBatch := do
  let (batch, input) ← readBatch schema ⟨payload, 0⟩
  let _ ← finish input
  return batch

/-! ## Reading back what was written -/

namespace PayloadReader

theorem readArray_reads {n : Nat} {enc : Bytes} (h : enc.length = n) :
    (readArray n).Reads enc enc := by
  intro front back fits
  have add : checkedAdd front.length n = some (front.length + n) := by
    refine checkedAdd_eq_some.mpr ⟨?_, rfl⟩
    simp only [List.length_append] at fits
    omega
  have inside : front.length + n ≤ (front ++ (enc ++ back)).length := by simp; omega
  simp only [readArray, add]
  rw [if_pos inside, List.drop_left, List.take_left' h, List.length_append, h]

theorem readU8_reads (byte : UInt8) : readU8.Reads [byte] byte := by
  intro front back _
  simp [readU8]

theorem toNat_u64Of_writeUsize {n : Nat} (h : n ≤ usizeMax) : (u64Of (writeUsize n)).toNat = n := by
  have lt : n < 2 ^ 64 := by
    unfold usizeMax at h
    omega
  rw [writeUsize, u64Of_u64Bytes, UInt64.toNat_ofNat_of_lt' lt]

theorem readUsize_reads {n : Nat} (h : n ≤ usizeMax) : readUsize.Reads (writeUsize n) n := by
  have read := (readArray_reads (length_u64Bytes (UInt64.ofNat n))).map
    fun bytes => (u64Of bytes).toNat
  rwa [← writeUsize, toNat_u64Of_writeUsize h] at read

theorem readF64_reads (x : UInt64) : readF64.Reads (u64Bytes x) x := by
  have read := (readArray_reads (length_u64Bytes x)).map u64Of
  rwa [u64Of_u64Bytes] at read

theorem readI64_reads (x : Int64) : readI64.Reads (i64Bytes x) x := by
  have read := (readArray_reads (length_i64Bytes x)).map i64Of
  rwa [i64Of_i64Bytes] at read

theorem readBytes_reads {bytes enc : Bytes} (h : writeBytes bytes = .ok enc) :
    readBytes.Reads enc bytes := by
  unfold writeBytes at h
  split at h <;> cases h
  rename_i fits
  have len : (UInt32.ofNat bytes.length).toNat = bytes.length :=
    UInt32.toNat_ofNat_of_lt' (by unfold u32Max at fits; simp only [UInt32.size]; omega)
  have second : (readArray (u32Of (u32Bytes (UInt32.ofNat bytes.length))).toNat).Reads
      bytes bytes := by
    rw [u32Of_u32Bytes, len]
    exact readArray_reads rfl
  exact (readArray_reads (length_u32Bytes _)).bind second

end PayloadReader

theorem length_writeUsize (n : Nat) : (writeUsize n).length = 8 := length_u64Bytes _

theorem length_writeBytes {bytes enc : Bytes} (h : writeBytes bytes = .ok enc) :
    enc.length = 4 + bytes.length := by
  unfold writeBytes at h
  split at h <;> cases h
  simp

/-- The written bytes hold every value. -/
theorem length_encodeData {data : ColumnData} {enc : Bytes} (h : encodeData data = .ok enc) :
    data.rowCount * 4 ≤ enc.length ∧
      ∀ dtype n, data.HasShape dtype n → n * dtype.width ≤ enc.length := by
  cases data with
  | f64 values | i64 values | timestamp values =>
    cases h
    have size := length_flatMap_of_width (n := 8) _ values fun v _ => by
      first | exact length_u64Bytes v | exact length_i64Bytes v
    simp only [ColumnData.rowCount, List.length_append, size]
    refine ⟨by omega, ?_⟩
    rintro dtype n ⟨match_, rfl, -⟩
    cases dtype <;> simp [ColumnData.matchesDtype, ColumnData.rowCount, DType.width] at match_ ⊢
    omega
  | fixedStr width values =>
    simp only [encodeData, bind_eq_ok] at h
    obtain ⟨written, hw, done⟩ := h
    obtain rfl := Except.ok.inj done
    have related := mapM_eq_ok_forall₂.mp hw
    have same : values.length = written.length := related.length_eq
    have four : written.length * 4 ≤ written.flatten.length := by
      refine length_flatten_ge fun e he => ?_
      obtain ⟨v, -, hv⟩ := exists_of_forall₂_right related he
      rw [length_writeBytes hv]
      omega
    simp only [ColumnData.rowCount, List.length_append]
    refine ⟨by omega, ?_⟩
    rintro dtype n ⟨match_, rfl, widths⟩
    cases dtype <;> simp [ColumnData.matchesDtype] at match_
    subst match_
    have wide : written.length * (4 + width.toNat) ≤ written.flatten.length := by
      refine length_flatten_ge fun e he => ?_
      obtain ⟨v, hmem, hv⟩ := exists_of_forall₂_right related he
      rw [length_writeBytes hv, widths v hmem]
    rw [Nat.mul_add, ← same] at wide
    simp only [ColumnData.rowCount, DType.width]
    omega

/-- The bytes of a loop whose turns write bytes of known length. -/
theorem length_flatten_of_mapM {α ε : Type} {f : α → Except ε Bytes} {g : α → Nat} {as : List α}
    {encs : List Bytes} (h : as.mapM f = .ok encs) (size : ∀ a enc, f a = .ok enc → enc.length = g a) :
    encs.flatten.length = (as.map g).sum := by
  induction as generalizing encs with
  | nil =>
    cases h
    rfl
  | cons a as ih =>
    obtain ⟨enc, rest, ha, hrest, rfl⟩ := mapM_cons_eq_ok.mp h
    rw [List.flatten_cons, List.length_append, size a enc ha, ih hrest, List.map_cons, List.sum_cons]

/-- The bytes that a `Vec` takes for one value. -/
def ColumnData.valueSize : ColumnData → Nat
  | .fixedStr _ _ => 24
  | _ => 8

/-- The values are held in a `Vec`. -/
def ColumnData.InMemory (data : ColumnData) : Prop := data.valueSize * data.rowCount ≤ isizeMax

def RowBatch.InMemory (b : RowBatch) : Prop := ∀ c ∈ b.columns, c.2.InMemory

theorem ColumnData.inMemory_of_le {data : ColumnData} (h : 24 * data.rowCount ≤ isizeMax) :
    data.InMemory := by
  have small : data.valueSize ≤ 24 := by cases data <;> simp [valueSize]
  exact Nat.le_trans (Nat.mul_le_mul_right _ small) h

theorem decodeData_reads {data : ColumnData} {enc : Bytes} (h : encodeData data = .ok enc)
    (held : data.InMemory) :
    ∃ tag rest, enc = [tag] ++ rest ∧ (decodeData tag).Reads rest data := by
  have count : data.rowCount ≤ usizeMax := by
    have least : 8 ≤ data.valueSize := by cases data <;> simp [ColumnData.valueSize]
    have rows := Nat.mul_le_mul_right data.rowCount least
    unfold ColumnData.InMemory isizeMax at held
    unfold usizeMax
    omega
  have room : (step (withCapacity data.valueSize data.rowCount) : Reader TableError Unit).Reads [] () :=
    reads_step (withCapacity_of_le held)
  cases data with
  | f64 values =>
    cases h
    refine ⟨0, _, rfl, ?_⟩
    refine Reads.seq (readUsize_reads count) ?_ rfl
    refine Reads.seq room ?_ rfl
    exact (Reads.times fun v _ => readF64_reads v).map ColumnData.f64
  | i64 values =>
    cases h
    refine ⟨1, _, rfl, ?_⟩
    refine Reads.seq (readUsize_reads count) ?_ rfl
    refine Reads.seq room ?_ rfl
    exact (Reads.times fun v _ => readI64_reads v).map ColumnData.i64
  | timestamp values =>
    cases h
    refine ⟨2, _, rfl, ?_⟩
    refine Reads.seq (readUsize_reads count) ?_ rfl
    refine Reads.seq room ?_ rfl
    exact (Reads.times fun v _ => readI64_reads v).map ColumnData.timestamp
  | fixedStr width values =>
    simp only [encodeData, bind_eq_ok] at h
    obtain ⟨written, hw, done⟩ := h
    cases done
    have written_reads : (readBytes.times values.length).Reads written.flatten values := by
      have related := mapM_eq_ok_forall₂.mp hw
      clear hw held count room
      induction related with
      | nil => exact reads_pure []
      | cons hv _ ih => exact Reads.seq (readBytes_reads hv) (ih.map _) rfl
    refine ⟨3, _, rfl, ?_⟩
    have width_reads := readUsize_reads (toNat_le_usizeMax width)
    rw [writeUsize, UInt64.ofNat_toNat] at width_reads
    refine Reads.seq width_reads ?_ rfl
    refine Reads.seq (readUsize_reads count) ?_ rfl
    refine Reads.seq room ?_ rfl
    rw [UInt64.ofNat_toNat]
    exact written_reads.map (ColumnData.fixedStr width)

theorem decodeColumn_reads {expected : ColumnDef} {column : String × ColumnData} {enc : Bytes}
    (ok : RowBatch.ColumnTyped expected column) (h : encodeColumn column = .ok enc)
    (held : column.2.InMemory) : (decodeColumn expected).Reads enc column := by
  obtain ⟨name, data⟩ := column
  obtain ⟨rfl, dtype⟩ := ok
  simp only [encodeColumn, bind_eq_ok] at h
  obtain ⟨nameEnc, hname, dataEnc, hdata, done⟩ := h
  obtain rfl := Except.ok.inj done
  obtain ⟨tag, rest, rfl, reads⟩ := decodeData_reads hdata held
  have named : checkName expected (asBytes expected.name) = .ok expected.name := by
    simp [checkName]
  have typed : checkDtype expected data = .ok () := if_pos dtype
  refine Reads.seq (readBytes_reads hname) ?_ rfl
  refine Reads.seq (reads_step named) ?_ rfl
  refine Reads.seq (readU8_reads tag) ?_ rfl
  refine Reads.seq reads ?_ (List.append_nil rest).symm
  exact (reads_step typed).map fun _ => (expected.name, data)

theorem decodeColumns_reads {defs : List ColumnDef} {columns : List (String × ColumnData)}
    {encs : List Bytes} (ok : List.Forall₂ RowBatch.ColumnTyped defs columns)
    (h : columns.mapM encodeColumn = .ok encs) (held : ∀ c ∈ columns, c.2.InMemory) :
    (decodeColumns defs).Reads encs.flatten columns := by
  induction ok generalizing encs with
  | nil =>
    cases h
    exact reads_pure []
  | cons okc _ ih =>
    obtain ⟨enc, rest, hc, hrest, rfl⟩ := mapM_cons_eq_ok.mp h
    obtain ⟨here, later⟩ := List.forall_mem_cons.mp held
    exact Reads.seq (decodeColumn_reads okc hc here) ((ih hrest later).map _) rfl

/-- What the written batch consists of. -/
theorem encodeBatch_eq_ok {b : RowBatch} {payload : Bytes} :
    encodeBatch b = .ok payload ↔ ∃ columns, b.columns.mapM encodeColumn = .ok columns ∧
      payload = writeUsize b.rowCount ++ (writeUsize b.columns.length ++ columns.flatten) := by
  rw [encodeBatch, bind_eq_ok]
  constructor
  · rintro ⟨columns, hc, done⟩
    exact ⟨columns, hc, (Except.ok.inj done).symm⟩
  · rintro ⟨columns, hc, rfl⟩
    exact ⟨columns, hc, rfl⟩

/-! ### Size -/

/-- Bytes of a column's data in a payload. -/
def ColumnData.encodedLen : ColumnData → Nat
  | .f64 values => 9 + values.length * 8
  | .i64 values | .timestamp values => 9 + values.length * 8
  | .fixedStr _ values => 17 + (values.map fun value => 4 + value.length).sum

/-- Bytes of a batch's payload. -/
def RowBatch.payloadLen (b : RowBatch) : Nat :=
  16 + (b.columns.map fun c => 4 + (asBytes c.1).length + c.2.encodedLen).sum

/-- Every fixed string fits its length field. -/
def ColumnData.Encodable : ColumnData → Prop
  | .fixedStr _ values => ∀ value ∈ values, value.length ≤ u32Max
  | _ => True

/-- Every name and every fixed string fits its length field. -/
def RowBatch.Encodable (b : RowBatch) : Prop :=
  ∀ c ∈ b.columns, (asBytes c.1).length ≤ u32Max ∧ c.2.Encodable

theorem writeBytes_ok_iff {bytes : Bytes} :
    (∃ enc, writeBytes bytes = .ok enc) ↔ bytes.length ≤ u32Max := by
  unfold writeBytes
  split <;> simp_all

theorem encodeData_ok_iff {data : ColumnData} :
    (∃ enc, encodeData data = .ok enc) ↔ data.Encodable := by
  cases data with
  | f64 | i64 | timestamp => simp [encodeData, ColumnData.Encodable]
  | fixedStr width values =>
    simp only [encodeData, ColumnData.Encodable, bind_eq_ok]
    constructor
    · rintro ⟨enc, written, hw, -⟩ value hv
      obtain ⟨e, -, he⟩ := exists_of_forall₂_left (mapM_eq_ok_forall₂.mp hw) hv
      exact writeBytes_ok_iff.mp ⟨e, he⟩
    · intro small
      obtain ⟨written, hw⟩ := mapM_ok_of_forall fun v hv => writeBytes_ok_iff.mpr (small v hv)
      exact ⟨_, written, hw, rfl⟩

/-- Encoding succeeds when every length field can hold its length. -/
theorem encodeBatch_ok_iff {b : RowBatch} : (∃ payload, encodeBatch b = .ok payload) ↔ b.Encodable := by
  have column : ∀ c, (∃ enc, encodeColumn c = .ok enc) ↔
      (asBytes c.1).length ≤ u32Max ∧ c.2.Encodable := by
    intro c
    rw [← writeBytes_ok_iff, ← encodeData_ok_iff]
    simp only [encodeColumn, bind_eq_ok]
    constructor
    · rintro ⟨enc, name, hname, data, hdata, -⟩
      exact ⟨⟨name, hname⟩, data, hdata⟩
    · rintro ⟨⟨name, hname⟩, data, hdata⟩
      exact ⟨_, name, hname, data, hdata, rfl⟩
  constructor
  · rintro ⟨payload, h⟩ c hc
    obtain ⟨encs, hencs, -⟩ := encodeBatch_eq_ok.mp h
    obtain ⟨enc, -, he⟩ := exists_of_forall₂_left (mapM_eq_ok_forall₂.mp hencs) hc
    exact (column c).mp ⟨enc, he⟩
  · intro small
    obtain ⟨encs, hencs⟩ := mapM_ok_of_forall fun c hc => (column c).mpr (small c hc)
    exact ⟨_, encodeBatch_eq_ok.mpr ⟨encs, hencs, rfl⟩⟩

theorem length_encodeData_eq {data : ColumnData} {enc : Bytes} (h : encodeData data = .ok enc) :
    enc.length = data.encodedLen := by
  cases data with
  | f64 values | i64 values | timestamp values =>
    cases h
    have size := length_flatMap_of_width (n := 8) _ values fun v _ => by
      first | exact length_u64Bytes v | exact length_i64Bytes v
    simp only [ColumnData.encodedLen, List.length_append, size, length_writeUsize,
      List.length_singleton]
    omega
  | fixedStr width values =>
    obtain ⟨written, hw, done⟩ := bind_eq_ok.mp h
    obtain rfl := Except.ok.inj done
    have size := length_flatten_of_mapM hw fun v e he => length_writeBytes he
    simp only [ColumnData.encodedLen, List.length_append, size, length_writeUsize,
      length_u64Bytes, List.length_singleton]
    omega

/-- The size of a written payload. -/
theorem length_encodeBatch {b : RowBatch} {payload : Bytes} (h : encodeBatch b = .ok payload) :
    payload.length = b.payloadLen := by
  obtain ⟨encs, hencs, rfl⟩ := encodeBatch_eq_ok.mp h
  have size := length_flatten_of_mapM hencs (g := fun c =>
      4 + (asBytes c.1).length + c.2.encodedLen) fun c enc hc => by
    simp only [encodeColumn, bind_eq_ok] at hc
    obtain ⟨name, hname, data, hdata, done⟩ := hc
    obtain rfl := Except.ok.inj done
    rw [List.length_append, length_writeBytes hname, length_encodeData_eq hdata]
  simp only [RowBatch.payloadLen, List.length_append, size, length_writeUsize]
  omega

theorem ColumnData.encodedLen_append {dtype : DType} {left right both : ColumnData}
    (hl : left.matchesDtype dtype) (hr : right.matchesDtype dtype)
    (h : left.append right = .ok both) :
    both.encodedLen + (ColumnData.empty dtype).encodedLen = left.encodedLen + right.encodedLen := by
  cases dtype <;> cases left <;> cases right <;>
    simp_all [ColumnData.append, ColumnData.matchesDtype] <;> subst h <;>
    simp [ColumnData.encodedLen, ColumnData.empty] <;> omega

namespace RowBatch

variable {schema : Schema} {a b c : RowBatch}

/-- Appending adds the sizes, the names and counts being written once. -/
theorem Typed.payloadLen_append (ha : a.Typed schema) (hb : b.Typed schema)
    (h : a.append b = (.ok (), c)) :
    c.payloadLen + (empty schema).payloadLen = a.payloadLen + b.payloadLen := by
  obtain ⟨-, loop, -⟩ := append_eq_ok h
  obtain ⟨left, n⟩ := a
  obtain ⟨right, m⟩ := b
  obtain ⟨both, k⟩ := c
  simp only [payloadLen, empty, List.map_map, Function.comp_def]
  unfold Typed at ha hb
  dsimp only at ha hb loop
  clear h
  revert ha hb
  generalize schema.columns = columns
  intro ha hb
  induction ha generalizing right both with
  | nil =>
    cases hb
    cases loop
    rfl
  | @cons column l columns left okl _ ih =>
    obtain _ | ⟨okr, restr⟩ := hb
    rename_i r right
    rw [appendColumns, if_neg (not_not.mpr (okl.1.trans okr.1.symm))] at loop
    split at loop
    · cases loop
    · rename_i data happ
      rcases tail : appendColumns left right with ⟨result, columns'⟩
      rw [tail] at loop
      obtain ⟨rfl, rfl⟩ := Prod.mk.inj loop
      have rest := ih right columns' tail restr
      have here := ColumnData.encodedLen_append okl.2 okr.2 happ
      have name := congrArg (fun s => (asBytes s).length) okl.1
      have name' := congrArg (fun s => (asBytes s).length) okr.1
      simp only [List.map_cons, List.sum_cons] at rest name name' ⊢
      omega

theorem Typed.payloadLen_appendAll {batches : List RowBatch} (ha : a.Typed schema)
    (hb : ∀ b ∈ batches, b.Typed schema) (h : a.appendAll batches = (.ok (), c)) :
    c.payloadLen + batches.length * (empty schema).payloadLen =
      a.payloadLen + (batches.map payloadLen).sum := by
  induction batches generalizing a with
  | nil =>
    cases h
    simp
  | cons b batches ih =>
    obtain ⟨here, later⟩ := List.forall_mem_cons.mp hb
    rw [appendAll] at h
    split at h
    · rename_i both happ
      have first := ha.payloadLen_append here happ
      have rest := ih (ha.of_append here happ) later h
      simp only [List.map_cons, List.sum_cons, List.length_cons, Nat.succ_mul] at rest ⊢
      omega
    · cases h

end RowBatch

/-- A written payload holds every column. -/
theorem width_le_of_encodeBatch {schema : Schema} {b : RowBatch} {payload : Bytes}
    (ok : b.WellFormed schema) (h : encodeBatch b = .ok payload) {column : ColumnDef}
    (hc : column ∈ schema.columns) : b.rowCount * column.dtype.width + 16 ≤ payload.length := by
  obtain ⟨encs, hencs, rfl⟩ := encodeBatch_eq_ok.mp h
  obtain ⟨c, memc, -, shape⟩ := exists_of_forall₂_left ok hc
  obtain ⟨enc, mem, hcolumn⟩ := exists_of_forall₂_left (mapM_eq_ok_forall₂.mp hencs) memc
  simp only [encodeColumn, bind_eq_ok] at hcolumn
  obtain ⟨nameEnc, -, dataEnc, hdata, done⟩ := hcolumn
  obtain rfl := Except.ok.inj done
  have values := (length_encodeData hdata).2 _ _ shape
  have part := (List.sublist_flatten_of_mem mem).length_le
  simp only [List.length_append, length_writeUsize] at part ⊢
  omega

/-- The eight bytes of a row weigh at least the timestamp. -/
theorem rowCount_le_of_encodeBatch {schema : Schema} {b : RowBatch} {payload : Bytes}
    (ok : b.WellFormed schema) (h : encodeBatch b = .ok payload) :
    b.rowCount * 8 + 16 ≤ payload.length := by
  have := width_le_of_encodeBatch ok h schema.timestampColumn_mem
  rwa [schema.timestampColumn_dtype] at this

theorem one_le_of_encodeColumn {column : String × ColumnData} {enc : Bytes}
    (h : encodeColumn column = .ok enc) : 1 ≤ enc.length := by
  simp only [encodeColumn, bind_eq_ok] at h
  obtain ⟨nameEnc, hname, dataEnc, -, done⟩ := h
  obtain rfl := Except.ok.inj done
  rw [List.length_append, length_writeBytes hname]
  omega

/-- A batch in memory is read back from the payload it was written to, whatever its columns
count. -/
theorem decodeBatch_of_typed {schema : Schema} {b : RowBatch} {payload : Bytes}
    (ok : b.Typed schema) (h : encodeBatch b = .ok payload) (held : b.InMemory)
    (rows : b.rowCount ≤ usizeMax) (fits : payload.length ≤ usizeMax) :
    decodeBatch schema payload = .ok b := by
  obtain ⟨encs, hencs, rfl⟩ := encodeBatch_eq_ok.mp h
  have whole := fits
  simp only [List.length_append, length_writeUsize] at fits
  have count : b.columns.length ≤ usizeMax := by
    have related := mapM_eq_ok_forall₂.mp hencs
    have least : encs.length * 1 ≤ encs.flatten.length := by
      refine length_flatten_ge fun e he => ?_
      obtain ⟨c, -, hc⟩ := exists_of_forall₂_right related he
      exact one_le_of_encodeColumn hc
    have same : b.columns.length = encs.length := related.length_eq
    omega
  have columnCount : checkColumnCount schema b.columns.length = .ok () := by
    simp [checkColumnCount, ok.length_columns]
  have reads : (readBatch schema).Reads
      (writeUsize b.rowCount ++ (writeUsize b.columns.length ++ encs.flatten)) b := by
    refine Reads.seq (readUsize_reads rows) ?_ rfl
    refine Reads.seq (readUsize_reads count) ?_ rfl
    refine Reads.seq (reads_step columnCount) ?_ rfl
    have columns := decodeColumns_reads ok hencs held
    exact columns.map fun columns => (⟨columns, b.rowCount⟩ : RowBatch)
  rw [decodeBatch, reads.run whole]
  simp [bind, Except.bind, finish, pure, Except.pure]

/-- A well-formed batch in memory is read back from the payload it was written to. -/
theorem decodeBatch_of_inMemory {schema : Schema} {b : RowBatch} {payload : Bytes}
    (ok : b.WellFormed schema) (h : encodeBatch b = .ok payload) (held : b.InMemory)
    (fits : payload.length ≤ usizeMax) : decodeBatch schema payload = .ok b := by
  have rows := rowCount_le_of_encodeBatch ok h
  exact decodeBatch_of_typed ok.typed h held (by omega) fits

/-- The values of a batch whose payload fits a record fit in memory. -/
theorem inMemory_of_encodeBatch {b : RowBatch} {payload : Bytes} (h : encodeBatch b = .ok payload)
    (fits : payload.length ≤ u32Max) : b.InMemory := by
  intro c hc
  obtain ⟨encs, hencs, rfl⟩ := encodeBatch_eq_ok.mp h
  obtain ⟨enc, mem, hcolumn⟩ := exists_of_forall₂_left (mapM_eq_ok_forall₂.mp hencs) hc
  simp only [encodeColumn, bind_eq_ok] at hcolumn
  obtain ⟨nameEnc, -, dataEnc, hdata, done⟩ := hcolumn
  obtain rfl := Except.ok.inj done
  have rows := (length_encodeData hdata).1
  have part := (List.sublist_flatten_of_mem mem).length_le
  simp only [List.length_append] at part fits
  refine ColumnData.inMemory_of_le ?_
  unfold u32Max at fits
  unfold isizeMax
  omega

/-- A well-formed batch is read back from the payload of its record. -/
theorem decodeBatch_encodeBatch {schema : Schema} {b : RowBatch} {payload : Bytes}
    (ok : b.WellFormed schema) (h : encodeBatch b = .ok payload)
    (fits : payload.length ≤ u32Max) : decodeBatch schema payload = .ok b :=
  decodeBatch_of_inMemory ok h (inMemory_of_encodeBatch h fits) (Nat.le_trans fits (by decide))

/-! ## What is read was written so -/

namespace PayloadReader

theorem readArray_eq_ok {n : Nat} {bytes : Bytes} {c c' : Cursor}
    (h : readArray n c = .ok (bytes, c')) : bytes.length = n ∧ Took c bytes c' := by
  unfold readArray at h
  split at h
  · cases h
  · rename_i last add
    split at h
    · rename_i inside
      obtain ⟨rfl, rfl⟩ := Prod.mk.inj (Except.ok.inj h)
      obtain ⟨-, rfl⟩ := checkedAdd_eq_some.mp add
      have len : ((c.input.drop c.offset).take n).length = n := by
        rw [List.length_take, List.length_drop]
        omega
      refine ⟨len, rfl, by rw [len], ?_⟩
      rw [← List.drop_drop, List.take_append_drop]
    · cases h

theorem readU8_eq_ok {byte : UInt8} {c c' : Cursor} (h : readU8 c = .ok (byte, c')) :
    Took c [byte] c' := by
  unfold readU8 at h
  split at h
  · cases h
  · rename_i found
    obtain ⟨rfl, rfl⟩ := Prod.mk.inj (Except.ok.inj h)
    obtain ⟨lt, rfl⟩ := List.getElem?_eq_some_iff.mp found
    exact ⟨rfl, rfl, List.drop_eq_getElem_cons lt⟩

theorem readUsize_eq_ok {n : Nat} {c c' : Cursor} (h : readUsize c = .ok (n, c')) :
    Took c (writeUsize n) c' := by
  obtain ⟨bytes, c₁, read, done⟩ := run_bind_eq_ok.mp h
  obtain ⟨rfl, rfl⟩ := run_pure_eq_ok.mp done
  obtain ⟨len, took⟩ := readArray_eq_ok read
  rwa [writeUsize, UInt64.ofNat_toNat, u64Bytes_u64Of len]

theorem readF64_eq_ok {x : UInt64} {c c' : Cursor} (h : readF64 c = .ok (x, c')) :
    ∃ enc, enc = u64Bytes x ∧ Took c enc c' := by
  obtain ⟨bytes, c₁, read, done⟩ := run_bind_eq_ok.mp h
  obtain ⟨rfl, rfl⟩ := run_pure_eq_ok.mp done
  obtain ⟨len, took⟩ := readArray_eq_ok read
  exact ⟨bytes, (u64Bytes_u64Of len).symm, took⟩

theorem readI64_eq_ok {x : Int64} {c c' : Cursor} (h : readI64 c = .ok (x, c')) :
    ∃ enc, enc = i64Bytes x ∧ Took c enc c' := by
  obtain ⟨bytes, c₁, read, done⟩ := run_bind_eq_ok.mp h
  obtain ⟨rfl, rfl⟩ := run_pure_eq_ok.mp done
  obtain ⟨len, took⟩ := readArray_eq_ok read
  exact ⟨bytes, (i64Bytes_i64Of len).symm, took⟩

theorem readBytes_eq_ok {bytes : Bytes} {c c' : Cursor} (h : readBytes c = .ok (bytes, c')) :
    ∃ enc, writeBytes bytes = .ok enc ∧ Took c enc c' := by
  obtain ⟨size, c₁, first, second⟩ := run_bind_eq_ok.mp h
  obtain ⟨four, tookSize⟩ := readArray_eq_ok first
  obtain ⟨len, took⟩ := readArray_eq_ok second
  have fits : bytes.length ≤ u32Max := by
    rw [len]
    exact toNat_le_u32Max _
  refine ⟨size ++ bytes, ?_, tookSize.trans took⟩
  rw [writeBytes, if_pos fits, len, UInt32.ofNat_toNat, u32Bytes_u32Of four]

end PayloadReader

/-- A count, and that many values read one after another. -/
theorem readValues_eq_ok {α : Type} {p : Reader TableError α} {W : α → Bytes → Prop} {size : Nat}
    {make : List α → ColumnData} {data : ColumnData} {c c' : Cursor}
    (reads : ∀ {c a c'}, p c = .ok (a, c') → ∃ enc, W a enc ∧ Took c enc c')
    (h : (do
      let count ← readUsize
      step (withCapacity size count)
      let values ← p.times count
      return make values : Reader TableError ColumnData) c = .ok (data, c')) :
    ∃ values encs, data = make values ∧ List.Forall₂ W values encs ∧
      Took c (writeUsize values.length ++ encs.flatten) c' := by
  obtain ⟨count, c₁, counted, h⟩ := run_bind_eq_ok.mp h
  obtain ⟨⟨⟩, c₂, room, h⟩ := run_bind_eq_ok.mp h
  obtain ⟨-, rfl⟩ := run_step_eq_ok.mp room
  obtain ⟨values, c₃, read, h⟩ := run_bind_eq_ok.mp h
  obtain ⟨rfl, rfl⟩ := run_pure_eq_ok.mp h
  obtain ⟨rfl, encs, written, took⟩ := times_eq_ok reads read
  exact ⟨values, encs, rfl, written, (readUsize_eq_ok counted).trans took⟩

/-- The values of a numeric column, as they were written. -/
theorem flatten_of_forall₂ {α : Type} {write : α → Bytes} {values : List α} {encs : List Bytes}
    (h : List.Forall₂ (fun v enc => enc = write v) values encs) :
    encs.flatten = values.flatMap write := by
  induction h with
  | nil => rfl
  | cons head _ ih => rw [List.flatten_cons, List.flatMap_cons, head, ih]

theorem decodeData_eq_ok {tag : UInt8} {data : ColumnData} {c c' : Cursor}
    (h : decodeData tag c = .ok (data, c')) :
    ∃ rest, encodeData data = .ok ([tag] ++ rest) ∧ Took c rest c' := by
  unfold decodeData at h
  split_ifs at h with f64 i64 timestamp fixedStr
  · subst f64
    obtain ⟨values, encs, rfl, written, took⟩ := readValues_eq_ok readF64_eq_ok h
    rw [flatten_of_forall₂ written] at took
    exact ⟨_, rfl, took⟩
  · subst i64
    obtain ⟨values, encs, rfl, written, took⟩ := readValues_eq_ok readI64_eq_ok h
    rw [flatten_of_forall₂ written] at took
    exact ⟨_, rfl, took⟩
  · subst timestamp
    obtain ⟨values, encs, rfl, written, took⟩ := readValues_eq_ok readI64_eq_ok h
    rw [flatten_of_forall₂ written] at took
    exact ⟨_, rfl, took⟩
  · subst fixedStr
    obtain ⟨width, c₁, wide, h⟩ := run_bind_eq_ok.mp h
    obtain ⟨values, encs, rfl, written, took⟩ := readValues_eq_ok readBytes_eq_ok h
    refine ⟨_, ?_, (readUsize_eq_ok wide).trans took⟩
    exact bind_eq_ok.mpr ⟨encs, mapM_eq_ok_forall₂.mpr written, rfl⟩
  · cases h

theorem checkName_eq_ok {expected : ColumnDef} {bytes : Bytes} {name : String} :
    checkName expected bytes = .ok name ↔ fromUtf8 bytes = some name ∧ name = expected.name := by
  unfold checkName
  cases fromUtf8 bytes with
  | none => simp
  | some found =>
    dsimp only
    split <;> grind

theorem decodeColumn_eq_ok {expected : ColumnDef} {column : String × ColumnData} {c c' : Cursor}
    (h : decodeColumn expected c = .ok (column, c')) :
    column.1 = expected.name ∧ column.2.matchesDtype expected.dtype ∧
      ∃ enc, encodeColumn column = .ok enc ∧ Took c enc c' := by
  obtain ⟨bytes, c₁, nameRead, h⟩ := run_bind_eq_ok.mp h
  obtain ⟨name, c₂, nameStep, h⟩ := run_bind_eq_ok.mp h
  obtain ⟨checked, rfl⟩ := run_step_eq_ok.mp nameStep
  obtain ⟨tag, c₃, tagRead, h⟩ := run_bind_eq_ok.mp h
  obtain ⟨data, c₄, dataRead, h⟩ := run_bind_eq_ok.mp h
  obtain ⟨⟨⟩, c₅, typeStep, h⟩ := run_bind_eq_ok.mp h
  obtain ⟨typed, rfl⟩ := run_step_eq_ok.mp typeStep
  obtain ⟨rfl, rfl⟩ := run_pure_eq_ok.mp h
  obtain ⟨nameEnc, hname, tookName⟩ := readBytes_eq_ok nameRead
  obtain ⟨rest, hdata, tookData⟩ := decodeData_eq_ok dataRead
  have named := checkName_eq_ok.mp checked
  have type : data.matchesDtype expected.dtype := by
    unfold checkDtype at typed
    split at typed
    · assumption
    · cases typed
  refine ⟨named.2, type, nameEnc ++ ([tag] ++ rest), ?_, tookName.trans
    ((readU8_eq_ok tagRead).trans tookData)⟩
  rw [encodeColumn, asBytes_of_fromUtf8 named.1]
  exact bind_eq_ok.mpr ⟨nameEnc, hname, bind_eq_ok.mpr ⟨_, hdata, rfl⟩⟩

theorem decodeColumns_eq_ok {defs : List ColumnDef} {columns : List (String × ColumnData)}
    {c c' : Cursor} (h : decodeColumns defs c = .ok (columns, c')) :
    List.Forall₂ RowBatch.ColumnTyped defs columns ∧
      ∃ encs, columns.mapM encodeColumn = .ok encs ∧ Took c encs.flatten c' := by
  induction defs generalizing columns c with
  | nil =>
    obtain ⟨rfl, rfl⟩ := run_pure_eq_ok.mp h
    exact ⟨.nil, [], rfl, .refl _⟩
  | cons expected defs ih =>
    obtain ⟨column, c₁, first, h⟩ := run_bind_eq_ok.mp h
    obtain ⟨rest, c₂, others, h⟩ := run_bind_eq_ok.mp h
    obtain ⟨rfl, rfl⟩ := run_pure_eq_ok.mp h
    obtain ⟨name, type, enc, written, took⟩ := decodeColumn_eq_ok first
    obtain ⟨typed, encs, more, tail⟩ := ih others
    refine ⟨.cons ⟨name, type⟩ typed, enc :: encs, ?_, ?_⟩
    · exact mapM_cons_eq_ok.mpr ⟨enc, encs, written, more, rfl⟩
    · rw [List.flatten_cons]
      exact took.trans tail

theorem checkColumnCount_eq_ok {schema : Schema} {columnCount : Nat} {u : Unit} :
    checkColumnCount schema columnCount = .ok u ↔ columnCount = schema.columns.length := by
  unfold checkColumnCount
  split <;> simp_all

/-- What the decoder has read of a payload that it accepts. -/
theorem decodeBatch_reads {schema : Schema} {b : RowBatch} {payload : Bytes}
    (h : decodeBatch schema payload = .ok b) :
    ∃ columnCount c₁ c₂ c₃, readUsize ⟨payload, 0⟩ = .ok (b.rowCount, c₁) ∧
      readUsize c₁ = .ok (columnCount, c₂) ∧ columnCount = schema.columns.length ∧
      decodeColumns schema.columns c₂ = .ok (b.columns, c₃) ∧ c₃.offset = c₃.input.length := by
  obtain ⟨⟨batch, c⟩, read, h⟩ := bind_eq_ok.mp h
  obtain ⟨⟨⟨⟩, c'⟩, finished, h⟩ := bind_eq_ok.mp h
  obtain rfl := Except.ok.inj h
  obtain ⟨rowCount, c₁, rows, readRest⟩ := run_bind_eq_ok.mp read
  obtain ⟨columnCount, c₂, count, read⟩ := run_bind_eq_ok.mp readRest
  obtain ⟨⟨⟩, c₃, countStep, read⟩ := run_bind_eq_ok.mp read
  obtain ⟨same, rfl⟩ := run_step_eq_ok.mp countStep
  obtain ⟨columns, c₄, found, read⟩ := run_bind_eq_ok.mp read
  obtain ⟨rfl, rfl⟩ := run_pure_eq_ok.mp read
  refine ⟨columnCount, c₁, c₂, c₄, rows, count, checkColumnCount_eq_ok.mp same, found, ?_⟩
  unfold finish at finished
  split at finished
  · assumption
  · cases finished

/-- The decoder accepts only payloads that the encoder writes, of the schema's columns. -/
theorem decodeBatch_eq_ok {schema : Schema} {b : RowBatch} {payload : Bytes}
    (h : decodeBatch schema payload = .ok b) :
    b.Typed schema ∧ encodeBatch b = .ok payload := by
  obtain ⟨columnCount, c₁, c₂, c₃, rows, count, same, found, all⟩ := decodeBatch_reads h
  obtain ⟨typed, encs, written, tookColumns⟩ := decodeColumns_eq_ok found
  have whole := (readUsize_eq_ok rows).trans ((readUsize_eq_ok count).trans tookColumns)
  have columns_counted : columnCount = b.columns.length := same.trans typed.length_eq
  have ended : c₃.input.drop c₃.offset = [] := by
    rw [all, List.drop_length]
  refine ⟨typed, encodeBatch_eq_ok.mpr ⟨encs, written, ?_⟩⟩
  have bytes := whole.bytes
  rw [whole.input] at ended
  rw [ended, List.append_nil, columns_counted] at bytes
  exact bytes

/-! ## Both directions -/

/-- A well-formed batch whose names and values fit their length fields is written, and its
payload is read back as the batch; and what reads as a batch is the payload of that batch. -/
theorem batch_codec (schema : Schema) :
    (∀ b : RowBatch, b.WellFormed schema → b.Encodable → b.InMemory →
      ∃ payload, encodeBatch b = .ok payload ∧
        (payload.length ≤ usizeMax → decodeBatch schema payload = .ok b)) ∧
    ∀ (payload : Bytes) (b : RowBatch), decodeBatch schema payload = .ok b →
      encodeBatch b = .ok payload := by
  refine ⟨fun b ok small held => ?_, fun payload b h => (decodeBatch_eq_ok h).2⟩
  obtain ⟨payload, written⟩ := encodeBatch_ok_iff.mpr small
  exact ⟨payload, written, decodeBatch_of_inMemory ok written held⟩

def tsColumn : ColumnDef := ⟨"ts", .timestamp, by decide, by decide⟩

@[simp] theorem tsColumn_dtype : tsColumn.dtype = .timestamp := rfl

def pxColumn : ColumnDef := ⟨"px", .f64, by decide, by decide⟩

@[simp] theorem pxColumn_dtype : pxColumn.dtype = .f64 := rfl

def tradeSchema : Schema where
  name := "trades"
  columns := [tsColumn, pxColumn, ⟨"sym", .fixedStr 3, by decide, by decide⟩]
  timestampColumnIdx := 0
  name_ne := by decide
  nodup := by decide
  only_timestamp := .of_types (by decide) (by decide)

def quoteSchema : Schema where
  name := "quotes"
  columns := [tsColumn, pxColumn]
  timestampColumnIdx := 0
  name_ne := by decide
  nodup := by decide
  only_timestamp := .of_types (by decide) (by decide)

/-- The same columns, the price first. -/
def priceFirst : Schema where
  name := "quotes"
  columns := [pxColumn, tsColumn]
  timestampColumnIdx := 1
  name_ne := by decide
  nodup := by decide
  only_timestamp := .of_types (by decide) (by decide)

/-- The second price is a signalling NaN. -/
def trades : RowBatch where
  columns := [("ts", .timestamp [-1, 5]), ("px", .f64 [0, 0x7ff0000000000001]),
    ("sym", .fixedStr 3 [[0, 255, 0], [66, 89, 80]])]
  rowCount := 2

theorem trades_wellFormed : trades.WellFormed tradeSchema := by
  refine .cons ⟨rfl, rfl, rfl, trivial⟩ (.cons ⟨rfl, rfl, rfl, trivial⟩ (.cons ⟨rfl, rfl, rfl, ?_⟩ .nil))
  simp [ColumnData.WidthsOk]

theorem batch_codec_trades :
    ∃ payload, encodeBatch trades = .ok payload ∧ decodeBatch tradeSchema payload = .ok trades := by
  have ok := trades_wellFormed
  have small : trades.Encodable := by
    simp [RowBatch.Encodable, trades, ColumnData.Encodable, asBytes, u32Max]
    decide
  have held : trades.InMemory := by
    simp [RowBatch.InMemory, trades, ColumnData.InMemory, ColumnData.valueSize, ColumnData.rowCount,
      isizeMax]
  obtain ⟨payload, written, reads⟩ := (batch_codec tradeSchema).1 trades ok small held
  refine ⟨payload, written, reads ?_⟩
  rw [length_encodeBatch written]
  decide

end BypassIo.Db
