import BypassIo.Db.Decoded
import BypassIo.Library.CursorFaults

/-!
# Panics of the decoder

`decode_batch` makes room for the values that a payload counts before it reads the first of them.
`Vec::with_capacity` panics on a count whose values are larger than `isize::MAX`, so a payload of
a few bytes can make the decoder panic. Nothing else does: the cursor never leaves the payload.

## Main definitions

* `decodeBatchIn`: `decode_batch` in either build, with the vector of its columns.
* `PanicFree`: no panic, and no addition of the cursor that overflows.
* `Oversized`: how a payload begins that asks for too much room.

## Main results

* `panicFree_iff`: the payloads that are decoded or refused.
-/

namespace BypassIo.Db
open Octet Rust Columns Reader PayloadReader

variable {build : Build} {columnSize : Nat} {schema : Schema} {fault : Fault TableError}

/-! ## Decoding in either build -/

/-- `read_u8`; its addition is not checked. -/
def PayloadReader.readU8In (build : Build) : Reader TableError UInt8 := fun c =>
  match c.input[c.offset]? with
  | none => .error (decodeError "unexpected end of payload")
  | some byte => do
    let offset ← build.add c.offset 1
    return (byte, { c with offset := offset })

def decodeColumnIn (build : Build) (expected : ColumnDef) :
    Reader TableError (String × ColumnData) := do
  let bytes ← readBytes
  let name ← step (checkName expected bytes)
  let tag ← readU8In build
  let data ← decodeData tag
  step (checkDtype expected data)
  return (name, data)

def decodeColumnsIn (build : Build) : List ColumnDef → Reader TableError (List (String × ColumnData))
  | [] => pure []
  | expected :: defs => do
    let column ← decodeColumnIn build expected
    let columns ← decodeColumnsIn build defs
    return column :: columns

/-- The body of `decode_batch`. The size of a `(String, ColumnData)` is left to the compiler. -/
def readBatchIn (build : Build) (columnSize : Nat) (schema : Schema) : Reader TableError RowBatch := do
  let rowCount ← readUsize
  let columnCount ← readUsize
  step (checkColumnCount schema columnCount)
  step (withCapacity columnSize columnCount)
  let columns ← decodeColumnsIn build schema.columns
  return ⟨columns, rowCount⟩

def decodeBatchIn (build : Build) (columnSize : Nat) (schema : Schema) (payload : Slice) :
    Outcome TableError RowBatch := do
  let (batch, input) ← readBatchIn build columnSize schema ⟨payload.bytes, 0⟩
  let _ ← finish input
  return batch

/-! ### What the readers take -/

theorem readUsize_parses : readUsize.Parses fun n enc => ∃ x : UInt64, n = x.toNat ∧ enc = u64Bytes x where
  reads := by
    rintro n enc ⟨x, rfl, rfl⟩
    have reads := readUsize_reads (toNat_le_usizeMax x)
    rwa [writeUsize, UInt64.ofNat_toNat] at reads
  took := by
    intro c n c' _ h
    obtain ⟨bytes, c₁, read, done⟩ := run_bind_eq_ok.mp h
    obtain ⟨rfl, rfl⟩ := run_pure_eq_ok.mp done
    obtain ⟨len, took⟩ := readArray_eq_ok read
    exact ⟨bytes, ⟨u64Of bytes, rfl, (u64Bytes_u64Of len).symm⟩, took⟩

theorem readBytes_parses : readBytes.Parses fun bytes enc => writeBytes bytes = .ok enc where
  reads := readBytes_reads
  took := fun _ h => readBytes_eq_ok h

theorem readU8_parses : readU8.Parses fun byte enc => enc = [byte] where
  reads := by
    rintro byte enc rfl
    exact readU8_reads byte
  took := fun _ h => ⟨_, rfl, readU8_eq_ok h⟩

/-- A column of the schema that is held in memory, and its bytes. -/
def WrittenColumn (expected : ColumnDef) (column : String × ColumnData) (enc : Bytes) : Prop :=
  RowBatch.ColumnTyped expected column ∧ encodeColumn column = .ok enc ∧ column.2.InMemory

theorem decodeColumn_parses (expected : ColumnDef) :
    (decodeColumn expected).Parses (WrittenColumn expected) where
  reads := fun ⟨typed, written, held⟩ => decodeColumn_reads typed written held
  took := by
    intro c column c' _ h
    obtain ⟨name, dtype, enc, written, took⟩ := decodeColumn_eq_ok h
    exact ⟨enc, ⟨⟨name, dtype⟩, written, (decodeColumn_room h).1⟩, took⟩

/-! ### What stays in the payload -/

theorem readArray_stays (n : Nat) : (readArray n).Stays := by
  intro c bytes c' inside h
  exact (readArray_eq_ok h).2.inside inside

theorem readF64_stays : readF64.Stays := stays_of_took readF64_eq_ok

theorem readI64_stays : readI64.Stays := stays_of_took readI64_eq_ok

theorem decodeData_stays (tag : UInt8) : (decodeData tag).Stays := stays_of_took decodeData_eq_ok

theorem decodeColumns_stays (defs : List ColumnDef) : (decodeColumns defs).Stays := by
  intro c columns c' inside h
  obtain ⟨-, encs, -, took⟩ := decodeColumns_eq_ok h
  exact took.inside inside

/-! ### In a slice the builds agree -/

theorem readU8In_agree : Agree (readU8In build) readU8 := by
  intro c inside
  unfold readU8In readU8
  cases found : c.input[c.offset]? with
  | none => rfl
  | some byte =>
    obtain ⟨lt, -⟩ := List.getElem?_eq_some_iff.mp found
    have fits : c.offset + 1 ≤ usizeMax := Nat.le_trans lt inside.usize
    dsimp only
    rw [Build.add_of_le fits]
    rfl

theorem decodeColumnIn_agree (expected : ColumnDef) :
    Agree (decodeColumnIn build expected) (decodeColumn expected) := by
  refine (Agree.refl readBytes).bind readBytes_parses.stays fun bytes => ?_
  refine (Agree.refl (step (checkName expected bytes))).bind stays_step fun name => ?_
  exact readU8In_agree.bind readU8_parses.stays fun tag => Agree.refl _

theorem decodeColumnsIn_agree (defs : List ColumnDef) :
    Agree (decodeColumnsIn build defs) (decodeColumns defs) := by
  induction defs with
  | nil => exact Agree.refl _
  | cons expected defs ih =>
    refine (decodeColumnIn_agree expected).bind (decodeColumn_parses expected).stays fun column => ?_
    exact ih.bind (decodeColumns_stays defs) fun columns => Agree.refl _

/-- The vector of the columns has room, so both readers do the same. -/
theorem readBatchIn_agree (room : columnSize * schema.columns.length ≤ isizeMax) :
    Agree (readBatchIn build columnSize schema) (readBatch schema) := by
  refine (Agree.refl readUsize).bind readUsize_parses.stays fun rowCount => ?_
  refine (Agree.refl readUsize).bind readUsize_parses.stays fun columnCount => ?_
  by_cases same : columnCount = schema.columns.length
  · have enough : (withCapacity columnSize columnCount : Outcome TableError Unit) = .ok () :=
      withCapacity_of_le (same ▸ room)
    rw [enough]
    refine (Agree.refl (step (checkColumnCount schema columnCount))).bind stays_step fun _ => ?_
    intro c inside
    have columns := (@decodeColumnsIn_agree build schema.columns).bind
      (decodeColumns_stays _) fun columns => Agree.refl (pure (⟨columns, rowCount⟩ : RowBatch))
    exact columns c inside
  · intro c _
    have refused : (checkColumnCount schema columnCount) =
        .error (decodeError "column count does not match schema") := if_neg same
    rw [refused]
    rfl

theorem decodeBatchIn_eq (room : columnSize * schema.columns.length ≤ isizeMax)
    (payload : Slice) :
    decodeBatchIn build columnSize schema payload = decodeBatch schema payload.bytes := by
  rw [decodeBatchIn, readBatchIn_agree room _ (.start payload)]
  rfl

/-! ## What no reader ends with -/

/-- A panic, or an addition of the cursor that overflows. -/
def Unwanted (fault : Fault TableError) : Prop :=
  fault = .panic ∨ fault = decodeError "payload offset overflow"

theorem Unwanted.ne {message : String} (h : Unwanted fault)
    (other : message ≠ "payload offset overflow") : decodeError message ≠ fault := by
  rintro rfl
  obtain h | h := h
  · cases h
  · exact other (by simpa [decodeError] using h)

section Never

variable (h : Unwanted fault)
include h

theorem readArray_never {n : Nat} (small : n ≤ u32Max) : (readArray n).Never fault := by
  intro c inside failed
  have fits : c.offset + n ≤ usizeMax := by
    have := inside.room
    have := inside.offset
    unfold isizeMax at *
    unfold u32Max at small
    unfold usizeMax
    omega
  rw [readArray, checkedAdd_eq_some.mpr ⟨fits, rfl⟩] at failed
  dsimp only at failed
  split at failed
  · cases failed
  · exact h.ne (by decide) (Except.error.inj failed)

theorem readUsize_never : readUsize.Never fault :=
  (readArray_never h (by decide)).map fun bytes => (u64Of bytes).toNat

theorem readF64_never : readF64.Never fault := (readArray_never h (by decide)).map u64Of

theorem readI64_never : readI64.Never fault := (readArray_never h (by decide)).map i64Of

theorem readBytes_never : readBytes.Never fault := by
  refine (readArray_never h (by decide)).bind_never (readArray_stays 4) fun len => ?_
  exact readArray_never h (toNat_le_u32Max (u32Of len))

theorem readU8_never : readU8.Never fault := by
  intro c _ failed
  unfold readU8 at failed
  split at failed
  · exact h.ne (by decide) (Except.error.inj failed)
  · cases failed

theorem checkName_never (expected : ColumnDef) (bytes : Bytes) :
    (step (checkName expected bytes)).Never fault := by
  refine never_step fun failed => ?_
  unfold checkName at failed
  split at failed
  · exact h.ne (by decide) (Except.error.inj failed)
  · split at failed
    · exact h.ne (by decide) (Except.error.inj failed)
    · cases failed

theorem checkDtype_never (expected : ColumnDef) (data : ColumnData) :
    (step (checkDtype expected data)).Never fault := by
  refine never_step fun failed => ?_
  unfold checkDtype at failed
  split at failed
  · cases failed
  · exact h.ne (by decide) (Except.error.inj failed)

theorem checkColumnCount_never (schema : Schema) (columnCount : Nat) :
    (step (checkColumnCount schema columnCount)).Never fault := by
  refine never_step fun failed => ?_
  unfold checkColumnCount at failed
  split at failed
  · cases failed
  · exact h.ne (by decide) (Except.error.inj failed)

end Never

/-! ## Too much room -/

/-- The counts behind a tag ask for more bytes than there can be. -/
inductive OversizedCount : UInt8 → Bytes → Prop
  | numbers {tag : UInt8} {count : UInt64} (number : tag < 3)
      (large : isizeMax < 8 * count.toNat) : OversizedCount tag (u64Bytes count)
  | strings {width count : UInt64} (large : isizeMax < 24 * count.toNat) :
      OversizedCount 3 (u64Bytes width ++ u64Bytes count)

/-- A column of that name, a tag and such counts. -/
def OversizedColumn (expected : ColumnDef) (enc : Bytes) : Prop :=
  ∃ name tag counts, writeBytes (asBytes expected.name) = .ok name ∧ OversizedCount tag counts ∧
    enc = name ++ ([tag] ++ counts)

/-- Columns of the schema, the last of which asks for too much. -/
def OversizedColumns : List ColumnDef → Bytes → Prop
  | [], _ => False
  | expected :: defs, enc => OversizedColumn expected enc ∨ ∃ column front back,
      WrittenColumn expected column front ∧ OversizedColumns defs back ∧ enc = front ++ back

/-- The two counts of a batch, too large for the vector of its columns or followed by columns
that ask for too much. -/
def Oversized (columnSize : Nat) (schema : Schema) (enc : Bytes) : Prop :=
  ∃ rows columns : UInt64, ∃ rest, columns.toNat = schema.columns.length ∧
    enc = u64Bytes rows ++ (u64Bytes columns ++ rest) ∧
    (isizeMax < columnSize * schema.columns.length ∧ rest = [] ∨
      columnSize * schema.columns.length ≤ isizeMax ∧ OversizedColumns schema.columns rest)

section FailsOn

variable (h : Unwanted fault)
include h

/-- A count, and that many values behind it. -/
theorem readValues_failsOn {α : Type} {p : Reader TableError α} {size : Nat}
    {make : List α → ColumnData} (never : p.Never fault) (stays : p.Stays) :
    (do
      let count ← readUsize
      step (withCapacity size count)
      let values ← p.times count
      return make values : Reader TableError ColumnData).FailsOn fault fun enc =>
        fault = .panic ∧ ∃ count : UInt64, isizeMax < size * count.toNat ∧ enc = u64Bytes count := by
  have counted := (readUsize_never h).bind readUsize_parses fun count =>
    (failsOn_step (x := withCapacity size count)).bind_never stays_step fun _ =>
      (never.times stays count).map make
  refine counted.congr fun enc => ?_
  simp only [withCapacity_eq_error]
  constructor
  · rintro ⟨_, _, _, ⟨count, rfl, rfl⟩, ⟨⟨panics, large⟩, rfl⟩, rfl⟩
    exact ⟨panics, count, large, List.append_nil _⟩
  · rintro ⟨panics, count, large, rfl⟩
    exact ⟨_, _, [], ⟨count, rfl, rfl⟩, ⟨⟨panics, large⟩, rfl⟩, (List.append_nil _).symm⟩

theorem decodeData_failsOn (tag : UInt8) : (decodeData tag).FailsOn fault fun enc =>
    fault = .panic ∧ OversizedCount tag enc := by
  have numbers : ∀ tag : UInt8, tag < 3 → ∀ enc,
      (fault = .panic ∧ ∃ count : UInt64, isizeMax < 8 * count.toNat ∧ enc = u64Bytes count) ↔
        (fault = .panic ∧ OversizedCount tag enc) := by
    intro tag number enc
    refine and_congr_right fun _ => ⟨?_, ?_⟩
    · rintro ⟨count, large, rfl⟩
      exact .numbers number large
    · rintro (⟨-, large⟩ | -)
      · exact ⟨_, large, rfl⟩
      · exact absurd number (by decide)
  unfold decodeData
  split_ifs with f64 i64 timestamp fixedStr
  · exact (readValues_failsOn h (readF64_never h) readF64_stays).congr (numbers tag (by simp [f64]))
  · exact (readValues_failsOn h (readI64_never h) readI64_stays).congr (numbers tag (by simp [i64]))
  · exact (readValues_failsOn h (readI64_never h) readI64_stays).congr
      (numbers tag (by simp [timestamp]))
  · subst fixedStr
    refine ((readUsize_never h).bind readUsize_parses fun width =>
      readValues_failsOn h (readBytes_never h) readBytes_parses.stays).congr fun enc => ?_
    constructor
    · rintro ⟨_, _, _, ⟨width, rfl, rfl⟩, ⟨panics, count, large, rfl⟩, rfl⟩
      exact ⟨panics, .strings large⟩
    · rintro ⟨panics, ⟨number, -⟩ | large⟩
      · exact absurd number (by decide)
      · exact ⟨_, _, _, ⟨_, rfl, rfl⟩, ⟨panics, _, large, rfl⟩, rfl⟩
  · have refused : (throw (decodeError "unknown column tag") : Reader TableError ColumnData).Never
        fault := fun c _ failed => h.ne (by decide) (Except.error.inj failed)
    refine (never_iff.mp refused).congr fun enc => ?_
    rw [false_iff]
    rintro ⟨-, ⟨number, -⟩ | -⟩
    · -- A tag below three is one of the three that have been tested.
      have small : tag.toNat < 3 := number
      have one : ∀ n : UInt8, tag ≠ n → tag.toNat ≠ n.toNat := fun n ne same =>
        ne (UInt8.toNat_inj.mp same)
      have := one 0 f64
      have := one 1 i64
      have := one 2 timestamp
      simp at *
      omega
    · exact fixedStr rfl

theorem decodeColumn_failsOn (expected : ColumnDef) : (decodeColumn expected).FailsOn fault
    fun enc => fault = .panic ∧ OversizedColumn expected enc := by
  have read := (readBytes_never h).bind readBytes_parses fun bytes =>
    (checkName_never h expected bytes).bind parses_step fun name =>
      (readU8_never h).bind readU8_parses fun tag =>
        (decodeData_failsOn h tag).bind_never (decodeData_stays tag) fun data =>
          (checkDtype_never h expected data).map fun _ => (name, data)
  refine read.congr fun enc => ?_
  constructor
  · rintro ⟨bytes, name, _, written, ⟨_, _, _, ⟨checked, rfl⟩, ⟨tag, _, counts, rfl, large, rfl⟩, rfl⟩,
      rfl⟩
    obtain ⟨found, rfl⟩ := checkName_eq_ok.mp checked
    rw [← asBytes_of_fromUtf8 found] at written
    exact ⟨large.1, name, tag, counts, written, large.2, rfl⟩
  · rintro ⟨panics, name, tag, counts, written, large, rfl⟩
    have checked : checkName expected (asBytes expected.name) = .ok expected.name :=
      checkName_eq_ok.mpr ⟨fromUtf8_asBytes _, rfl⟩
    exact ⟨_, name, _, written, ⟨_, [], _, ⟨checked, rfl⟩,
      ⟨tag, [tag], counts, rfl, ⟨panics, large⟩, rfl⟩, rfl⟩, rfl⟩

theorem decodeColumns_failsOn (defs : List ColumnDef) : (decodeColumns defs).FailsOn fault
    fun enc => fault = .panic ∧ OversizedColumns defs enc := by
  induction defs with
  | nil => exact (never_iff.mp never_pure).congr fun enc => by simp [OversizedColumns]
  | cons expected defs ih =>
    have read := (decodeColumn_failsOn h expected).bind (decodeColumn_parses expected) fun column =>
      ih.map (column :: ·)
    refine read.congr fun enc => ?_
    rw [OversizedColumns]
    constructor
    · rintro (⟨panics, large⟩ | ⟨column, front, back, written, ⟨panics, large⟩, rfl⟩)
      · exact ⟨panics, .inl large⟩
      · exact ⟨panics, .inr ⟨column, front, back, written, large, rfl⟩⟩
    · rintro ⟨panics, large | ⟨column, front, back, written, large, rfl⟩⟩
      · exact .inl ⟨panics, large⟩
      · exact .inr ⟨column, front, back, written, ⟨panics, large⟩, rfl⟩

/-- Reading a batch panics where it asks for too much, and the cursor never overflows. -/
theorem readBatchIn_failsOn : (readBatchIn build columnSize schema).FailsOn fault
    fun enc => fault = .panic ∧ Oversized columnSize schema enc := by
  have columns := (decodeColumns_failsOn h schema.columns).of_agree
    (@decodeColumnsIn_agree build schema.columns)
  have read := (readUsize_never h).bind readUsize_parses fun rowCount =>
    (readUsize_never h).bind readUsize_parses fun columnCount =>
      (checkColumnCount_never h schema columnCount).bind parses_step fun _ =>
        (failsOn_step (x := withCapacity columnSize columnCount)).bind parses_step fun _ =>
          columns.map fun columns => (⟨columns, rowCount⟩ : RowBatch)
  refine read.congr fun enc => ?_
  simp only [withCapacity_eq_ok, withCapacity_eq_error, checkColumnCount_eq_ok]
  constructor
  · rintro ⟨_, _, _, ⟨rows, rfl, rfl⟩, ⟨_, _, _, ⟨count, rfl, rfl⟩, ⟨_, _, rest, ⟨same, rfl⟩, large, rfl⟩,
      rfl⟩, rfl⟩
    obtain ⟨⟨panics, large⟩, rfl⟩ | ⟨_, _, rest, ⟨room, rfl⟩, ⟨panics, large⟩, rfl⟩ := large
    · exact ⟨panics, rows, count, _, same, rfl, .inl ⟨same ▸ large, rfl⟩⟩
    · exact ⟨panics, rows, count, _, same, rfl, .inr ⟨same ▸ room, large⟩⟩
  · rintro ⟨panics, rows, count, rest, same, rfl, large⟩
    refine ⟨_, _, _, ⟨rows, rfl, rfl⟩, ⟨_, _, _, ⟨count, rfl, rfl⟩, ⟨(), [], rest, ⟨same, rfl⟩, ?_, rfl⟩,
      rfl⟩, rfl⟩
    obtain ⟨large, rfl⟩ | ⟨room, large⟩ := large
    · exact .inl ⟨⟨panics, same ▸ large⟩, rfl⟩
    · exact .inr ⟨(), [], rest, ⟨same ▸ room, rfl⟩, ⟨panics, large⟩, rfl⟩

theorem decodeBatchIn_eq_error (payload : Slice) :
    decodeBatchIn build columnSize schema payload = .error fault ↔
      fault = .panic ∧ ∃ front, Oversized columnSize schema front ∧ front <+: payload.bytes := by
  have read : (readBatchIn build columnSize schema).FailsOn fault _ := readBatchIn_failsOn h
  rw [decodeBatchIn, bind_eq_error, read _ (.start payload)]
  constructor
  · rintro (⟨front, ⟨panics, large⟩, next⟩ | ⟨⟨batch, c⟩, -, failed⟩)
    · exact ⟨panics, front, large, next⟩
    · obtain finished | ⟨-, -, done⟩ := bind_eq_error.mp failed
      · unfold finish at finished
        split at finished
        · cases finished
        · exact absurd (Except.error.inj finished) (h.ne (by decide))
      · cases done
  · rintro ⟨panics, front, large, next⟩
    exact .inl ⟨front, ⟨panics, large⟩, next⟩

end FailsOn

/-! ## Panics -/

/-- The decoder returns in either build, and no addition of its cursor overflows. -/
structure PanicFree (columnSize : Nat) (schema : Schema) (payload : Slice) : Prop where
  returns : ∀ build, decodeBatchIn build columnSize schema payload ≠ .error .panic
  additions : ∀ build, decodeBatchIn build columnSize schema payload ≠
    .error (decodeError "payload offset overflow")

/-- The decoder returns on a payload if and only if it does not begin with columns of the schema
and then a count that asks for too much room. -/
theorem panicFree_iff (columnSize : Nat) (schema : Schema) (payload : Slice) :
    PanicFree columnSize schema payload ↔
      ∀ front, Oversized columnSize schema front → ¬ front <+: payload.bytes := by
  constructor
  · intro free front large next
    exact free.returns .release ((decodeBatchIn_eq_error (.inl rfl) payload).mpr
      ⟨rfl, front, large, next⟩)
  · intro small
    constructor
    · intro build panics
      obtain ⟨-, front, large, next⟩ := (decodeBatchIn_eq_error (.inl rfl) payload).mp panics
      exact small front large next
    · intro build overflows
      obtain ⟨panics, -⟩ := (decodeBatchIn_eq_error (.inr rfl) payload).mp overflows
      cases panics

/-- One row of two columns, the first of which counts `2 ^ 60` timestamps. -/
def hugeCount : Slice where
  bytes := [1, 0, 0, 0, 0, 0, 0, 0] ++ [2, 0, 0, 0, 0, 0, 0, 0] ++ [2, 0, 0, 0, 116, 115] ++ [2] ++
    [0, 0, 0, 0, 0, 0, 0, 16]
  room := by decide

theorem huge_count_panics : decodeBatch quoteSchema hugeCount.bytes = .error .panic ∧
    ¬ PanicFree 64 quoteSchema hugeCount := by
  have panics : decodeBatch quoteSchema hugeCount.bytes = .error .panic := by decide
  refine ⟨panics, fun free => free.returns .release ?_⟩
  rwa [decodeBatchIn_eq (by decide)]

end BypassIo.Db
