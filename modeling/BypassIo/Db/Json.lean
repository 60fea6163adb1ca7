import BypassIo.Db.Segment
import BypassIo.Library.Format

/-!
# The JSON texts

The layout that `serde_json::to_string_pretty` gives the manifest and the metadata of a
segment: the fields in the order of the structures, two blanks for each level, `null` for an
absent bound. Only this layout is read back; a text in another one is refused.
-/

namespace BypassIo.Db
open TextFormat

namespace Json

/-! ## Objects and arrays -/

/-- The line break before a line at a depth. -/
def newline (depth : Nat) : List Char := '\n' :: List.replicate (2 * depth) ' '

def quoted (name : String) : List Char := '"' :: (name.toList ++ ['"', ':', ' '])

/-- The opening of an object, up to the value of its first field. -/
def openObject (depth : Nat) (name : String) : List Char := '{' :: (newline depth ++ quoted name)

def closeObject (depth : Nat) : Separator where
  text := newline depth ++ ['}']
  ends := by simp [Ends, newline]
  nonempty := by simp

/-- The next field of an object, up to its value. -/
def field (depth : Nat) (name : String) : Separator where
  text := ',' :: (newline depth ++ quoted name)
  ends := by simp [Ends]
  nonempty := by simp

def element (depth : Nat) : Separator where
  text := ',' :: newline depth
  ends := by simp [Ends]
  nonempty := by simp

def closeArray (depth : Nat) : Separator where
  text := newline depth ++ [']']
  ends := by simp [Ends, newline]
  nonempty := by simp

/-- An array whose elements stand at `depth + 1`. -/
def array {α : Type} (depth : Nat) (f : Format α) : Format (List α) :=
  Format.list ['[', ']'] ('[' :: newline (depth + 1)) (element (depth + 1)) (closeArray depth) f
    (fun rest => by simp [readLit, newline])
    (fun rest => by simp [readLit, newline, element, closeArray])

/-! ## Values -/

def uint32 : Format UInt32 :=
  Format.nat.via UInt32.toNat (fun n => if n < UInt32.size then some (UInt32.ofNat n) else none)
    (fun a => by simp [a.toNat_lt_size])

def uint64 : Format UInt64 :=
  Format.nat.via UInt64.toNat (fun n => if n < UInt64.size then some (UInt64.ofNat n) else none)
    (fun a => by simp [a.toNat_lt_size])

def int64 : Format Int64 :=
  Format.int.via Int64.toInt
    (fun i => if -2 ^ 63 ≤ i ∧ i < 2 ^ 63 then some (Int64.ofInt i) else none)
    (fun a => by
      have low := a.le_toInt
      have high := a.toInt_lt
      rw [if_pos ⟨low, high⟩, Int64.ofInt_toInt])

/-- A number, so not `null`. -/
theorem not_null_of_number {input rest : List Char}
    (number : ∃ c cs, input = c :: cs ∧ (c = '-' ∨ c.isDigit = true)) :
    readLit ['n', 'u', 'l', 'l'] (input ++ rest) = none := by
  obtain ⟨c, cs, rfl, first⟩ := number
  have : 'n' ≠ c := by
    rintro rfl
    revert first
    decide
  simp [readLit, this]

theorem digits_number (n : Nat) :
    ∃ c cs, Nat.toDigits 10 n = c :: cs ∧ (c = '-' ∨ c.isDigit = true) := by
  obtain ⟨c, cs, text⟩ : ∃ c cs, Nat.toDigits 10 n = c :: cs :=
    List.exists_cons_of_ne_nil Nat.toDigits_ne_nil
  refine ⟨c, cs, text, .inr ?_⟩
  apply Nat.isDigit_of_mem_toDigits (b := 10) (n := n) (by decide) (by decide)
  simp [text]

theorem uint64_number (a : UInt64) (rest : List Char) :
    readLit ['n', 'u', 'l', 'l'] (uint64.write a ++ rest) = none :=
  not_null_of_number (digits_number a.toNat)

theorem int64_number (a : Int64) (rest : List Char) :
    readLit ['n', 'u', 'l', 'l'] (int64.write a ++ rest) = none := by
  apply not_null_of_number
  change ∃ c cs, Format.int.write a.toInt = c :: cs ∧ _
  cases a.toInt with
  | ofNat n => exact digits_number n
  | negSucc n => exact ⟨'-', _, rfl, .inl rfl⟩

def optionUInt64 : Format (Option UInt64) := Format.option ['n', 'u', 'l', 'l'] uint64 uint64_number

def optionInt64 : Format (Option Int64) := Format.option ['n', 'u', 'l', 'l'] int64 int64_number

/-! ## The records -/

/-- One entry of `sealed_segments`. -/
def segmentRef : Format SegmentRef :=
  ((((uint64.pair (field 3 "path") Format.str).pair (field 3 "row_count") Format.nat).pair
      (field 3 "min_ts") optionInt64).pair (field 3 "max_ts") optionInt64
    |>.between (openObject 3 "id") (closeObject 2)).via
    (fun r => ((((r.id, r.path), r.rowCount), r.minTs), r.maxTs))
    (fun ((((id, path), rowCount), minTs), maxTs) => some ⟨id, path, rowCount, minTs, maxTs⟩)
    (fun _ => rfl)

def manifest : Format Manifest :=
  ((((uint32.pair (field 1 "active_wal") Format.str).pair (field 1 "wal_records_applied")
      Format.nat).pair (field 1 "next_segment_id") uint64).pair (field 1 "sealed_segments")
      (array 1 segmentRef)
    |>.between (openObject 1 "version") (closeObject 0)).via
    (fun m => ((((m.version, m.activeWal), m.walRecordsApplied), m.nextSegmentId),
      m.sealedSegments))
    (fun ((((version, activeWal), applied), next), segments) =>
      some ⟨version, activeWal, applied, next, segments⟩)
    (fun _ => rfl)

/-- One entry of `columns`. -/
def columnMeta : Format ColumnMeta :=
  (((Format.str.pair (field 3 "dtype") Format.str).pair (field 3 "fixed_width")
      optionUInt64).pair (field 3 "file") Format.str
    |>.between (openObject 3 "name") (closeObject 2)).via
    (fun c => (((c.name, c.dtype), c.fixedWidth), c.file))
    (fun (((name, dtype), fixedWidth), file) => some ⟨name, dtype, fixedWidth, file⟩)
    (fun _ => rfl)

def segmentMeta : Format SegmentMeta :=
  ((((uint64.pair (field 1 "row_count") Format.nat).pair (field 1 "min_ts") optionInt64).pair
      (field 1 "max_ts") optionInt64).pair (field 1 "columns") (array 1 columnMeta)
    |>.between (openObject 1 "id") (closeObject 0)).via
    (fun m => ((((m.id, m.rowCount), m.minTs), m.maxTs), m.columns))
    (fun ((((id, rowCount), minTs), maxTs), columns) =>
      some ⟨id, rowCount, minTs, maxTs, columns⟩)
    (fun _ => rfl)

end Json

/-- A format as the pair of functions that the storage code calls. -/
def jsonFormat {α : Type} (f : Format α) : JsonFormat α where
  toStringPretty a := .ok (f.print a)
  fromStr text := (f.parse text).elim (.error "unexpected JSON text") .ok
  roundTrip a := ⟨f.print a, rfl, by rw [f.parse_print]; rfl⟩

/-- The JSON of the storage directory. -/
def jsonSerde : Serde where
  manifest := jsonFormat Json.manifest
  segmentMeta := jsonFormat Json.segmentMeta

set_option maxRecDepth 4000 in
/-- A fresh manifest, as a file. -/
example : Json.manifest.print Manifest.new =
    "\x7b\n  \"version\": 1,\n  \"active_wal\": \"WAL/wal-000000.log\",\n  \"wal_records_applied\": 0,\n  \"next_segment_id\": 1,\n  \"sealed_segments\": []\n\x7d" := by
  decide

end BypassIo.Db
