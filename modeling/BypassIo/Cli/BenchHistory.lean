import BypassIo.Db.Error
import BypassIo.Library.JsonLines
import BypassIo.Library.Program

/-!
# The history of the benchmarks

`record_benchmark` looks for the latest record of the same benchmark in a file of one JSON object
a line, and appends a record: its text, and then a newline. Nothing is read back or repaired, so
what an interrupted call leaves is met by the next one.

`serde_json` is a parameter. It reads back what it writes but for the last digit of a float, and
it accepts a text only if its brackets and strings close.

## Main definitions

* `recordBenchmark`, `latestHistoryRecord`.
* `JsonLine.Lawful`: what is used of `serde_json`, for the records that are written.
* `Recorded`: the calls of any number of processes, failing and killed anywhere.

## Main results

* `history_whole_or_broken`: every record is found, or none ever again.
* `unended_history_breaks`: a record without its newline is found, and the next one costs the whole
  history.
-/

namespace BypassIo.Cli
open FileSystem Octet Rust JsonLines

/-! ## Records -/

structure BenchContext where
  key : String
  value : UInt64
  deriving DecidableEq

/-- A float is its bits. -/
structure BenchRecord where
  benchmark : String
  unit : String
  units : UInt64
  bytes : Option UInt64
  elapsedMs : UInt64
  ratePerSec : UInt64
  mibPerSec : Option UInt64
  context : List BenchContext
  timestampMs : UInt64
  deriving DecidableEq

/-- The same record but for the two rates. -/
def BenchRecord.Same (r s : BenchRecord) : Prop :=
  { r with ratePerSec := 0, mibPerSec := none } = { s with ratePerSec := 0, mibPerSec := none }

theorem BenchRecord.Same.benchmark {r s : BenchRecord} (h : r.Same s) :
    r.benchmark = s.benchmark := by
  unfold Same at h
  injection h

inductive CliError
  | io (err : IoError)
  | schema (err : Db.SchemaError)
  | batch (err : Db.BatchError)
  | table (err : Db.TableError)
  | json (err : String)

/-- `serde_json::to_writer` and `serde_json::from_str` for a record. -/
structure JsonLine where
  toString : BenchRecord → String
  fromStr : String → Except String BenchRecord

def JsonLine.text (json : JsonLine) (r : BenchRecord) : List Char := (json.toString r).toList

/-- What a call appends. -/
def JsonLine.line (json : JsonLine) (r : BenchRecord) : List Char := json.text r ++ ['\n']

/-! ## The functions -/

/-- `Path::exists`; a failed look-up counts as absence. -/
def pathExists (path : Path) : Query CliError Bool :=
  ExceptT.mk (Prog.call (.pathExists path) fun
    | .ok found => .ret (.ok found)
    | .error _ => .ret (.ok false))

/-- `fs::read_to_string`. -/
def readToString (path : Path) : Query CliError String := do
  let bytes ← Query.io .io (.read path)
  match fromUtf8 bytes with
  | none => throw (.error (.io .invalidData))
  | some text => return text

/-- The loop over the lines that are not blank. -/
def latestOf (json : JsonLine) (benchmark : String) :
    List (List Char) → Option BenchRecord → Except CliError (Option BenchRecord)
  | [], latest => .ok latest
  | line :: rest, latest =>
    if line.all whitespace then latestOf json benchmark rest latest
    else match json.fromStr (String.ofList line) with
      | .error err => .error (.json err)
      | .ok record =>
        latestOf json benchmark rest (if record.benchmark = benchmark then some record else latest)

def latestHistoryRecord (json : JsonLine) (path : Path) (benchmark : String) :
    Query CliError (Option BenchRecord) := do
  if ← pathExists path then
    let text ← readToString path
    Query.pureStep (ofResult (latestOf json benchmark (lines text.toList) none))
  else return none

/-- The previous record is what is printed. The text is written piece by piece; a piece that
fails leaves a first part of the text. -/
def recordBenchmark (json : JsonLine) (history : Option Path) (record : BenchRecord) :
    Query CliError (Option (Option BenchRecord)) :=
  match history with
  | none => return none
  | some path => do
    let previous ← latestHistoryRecord json path record.benchmark
    Query.io .io (.openAppend path)
    Query.io (fun err => .json err.text) (.append path (asBytes (json.toString record)))
    Query.io .io (.append path (ascii ['\n']))
    return some previous

/-! ## What is used of `serde_json` -/

structure JsonLine.Lawful (json : JsonLine) (writable : BenchRecord → Prop) : Prop where
  object : ∀ r, writable r → Object (json.text r)
  plain : ∀ r, writable r → ∀ c ∈ json.text r, c.toNat < 128
  reads : ∀ r, writable r → ∃ s, json.fromStr (json.toString r) = .ok s ∧ s.Same r
  accepts : ∀ text r, json.fromStr text = .ok r → scan .before text.toList = .after

/-! ## The calls on a history -/

section Relation

variable (json : JsonLine) (writable : BenchRecord → Prop) (path : Path)

/-- The calls with their records between two disks, and which of them returned `Ok`. Any call of
the system may fail, a process may be killed in any of them, and other files may change. -/
inductive Recorded (d : Disk) : List (BenchRecord × Bool) → Disk → Prop
  | none : Recorded d [] d
  | elsewhere {d₁ d₂ calls} : Recorded d calls d₁ → d₂.files path = d₁.files path →
      d₂.dirs path = d₁.dirs path → Recorded d calls d₂
  | recorded {d₁ d₂ calls r printed} : Recorded d calls d₁ → writable r →
      Prog.Runs (fun _ => True) (recordBenchmark json (some path) r).run d₁ (.ok printed) d₂ →
      Recorded d (calls ++ [(r, true)]) d₂
  | failed {d₁ d₂ calls r err} : Recorded d calls d₁ → writable r →
      Prog.Runs (fun _ => True) (recordBenchmark json (some path) r).run d₁ (.error err) d₂ →
      Recorded d (calls ++ [(r, false)]) d₂
  | killed {d₁ d₂ calls r} : Recorded d calls d₁ → writable r →
      Prog.Crashes (recordBenchmark json (some path) r).run d₁ d₂ →
      Recorded d (calls ++ [(r, false)]) d₂

end Relation

section Answers

variable (json : JsonLine) (path : Path) (d : Disk)

/-- Every search finds the latest of the records. -/
def Readable (rs : List BenchRecord) : Prop :=
  ∀ benchmark, ∃ latest, (latestHistoryRecord json path benchmark).exec d = (.ok latest, d) ∧
    Option.Rel BenchRecord.Same latest (rs.filter (·.benchmark = benchmark)).getLast?

/-- Every search fails. -/
def Unreadable : Prop :=
  ∀ benchmark, ∃ err,
    (latestHistoryRecord json path benchmark).exec d = (.error (.error (.json err)), d)

end Answers

/-- The records of the calls that returned `Ok`. -/
def acknowledged (calls : List (BenchRecord × Bool)) : List BenchRecord :=
  (calls.filter (·.2)).map (·.1)

/-! ## The contents of the file -/

/-- An open file holds a text. -/
structure Opened (path : Path) (d : Disk) (text : List Char) : Prop where
  plain : ∀ c ∈ text, c.toNat < 128
  dir : d.dirs path = false
  file : d.files path = some (ascii text)

/-- A file holds a text; no file holds the empty one. -/
def Holds (path : Path) (d : Disk) (text : List Char) : Prop :=
  Opened path d text ∨ d.dirs path = false ∧ d.files path = none ∧ text = []

section Contents

variable {json : JsonLine} {writable : BenchRecord → Prop} {path : Path} {d d' : Disk}
variable {text t : List Char}

theorem Opened.append (h : Opened path d text) (plain : ∀ c ∈ t, c.toNat < 128) :
    Opened path (d.setFile path (some (ascii text ++ ascii t))) (text ++ t) where
  plain c mem := (List.mem_append.mp mem).elim (h.plain c) (plain c)
  dir := h.dir
  file := by simp [ascii]

theorem Holds.frame (h : Holds path d text) (file : d'.files path = d.files path)
    (dir : d'.dirs path = d.dirs path) : Holds path d' text := by
  obtain ⟨plain, gone, held⟩ | ⟨gone, absent, nil⟩ := h
  · exact .inl ⟨plain, dir.trans gone, file.trans held⟩
  · exact .inr ⟨dir.trans gone, file.trans absent, nil⟩

theorem latestHistoryRecord_exec (h : Holds path d text) (benchmark : String) :
    (latestHistoryRecord json path benchmark).exec d =
      (ofResult (latestOf json benchmark (lines text) none), d) := by
  obtain ⟨plain, gone, held⟩ | ⟨gone, absent, rfl⟩ := h
  · have found : (pathExists path).exec d = (.ok true, d) := by
      change (Except.ok (d.dirs path || (d.files path).isSome), d) = _
      simp [held]
    have read : (readToString path).exec d = (.ok (String.ofList text), d) := by
      rw [readToString, Query.exec_bind_ok (Query.exec_read_eq_ok.mpr ⟨held, rfl⟩),
        ← asBytes_ofList plain, fromUtf8_asBytes]
      rfl
    rw [latestHistoryRecord, Query.exec_bind_ok found, if_pos rfl, Query.exec_bind_ok read,
      Query.exec_pureStep, String.toList_ofList]
  · have found : (pathExists path).exec d = (.ok false, d) := by
      change (Except.ok (d.dirs path || (d.files path).isSome), d) = _
      simp [gone, absent]
    rw [latestHistoryRecord, Query.exec_bind_ok found]
    rfl

theorem latestHistoryRecord_readOnly (benchmark : String) :
    (latestHistoryRecord json path benchmark).ReadOnly := by
  have look : (pathExists path).ReadOnly := ⟨trivial, fun r => by cases r <;> trivial⟩
  have read : (readToString path).ReadOnly := by
    refine Query.readOnly_io_bind trivial fun bytes => ?_
    cases fromUtf8 bytes <;> trivial
  refine look.bind fun found => ?_
  cases found with
  | false => exact Query.readOnly_pure none
  | true => exact read.bind fun _ => Query.readOnly_pureStep _

/-- An interrupted write leaves a first part of what is written. -/
theorem append_wp {may : Call → Prop} (f : IoError → CliError) (h : Opened path d text)
    (plain : ∀ c ∈ t, c.toNat < 128) :
    (Query.io f (.append path (ascii t))).wp may
      (fun out d' => ∃ u, u <+: t ∧ Opened path d' (text ++ u) ∧ (out = .ok () → u = t))
      (fun d' => ∃ u, u <+: t ∧ Opened path d' (text ++ u)) d := by
  have torn : ∀ d', (Call.append path (ascii t)).Torn d d' →
      ∃ u, u <+: t ∧ Opened path d' (text ++ u) := by
    rintro d' (rfl | ⟨x, n, held, rfl⟩)
    · exact ⟨[], List.nil_prefix, by rwa [List.append_nil]⟩
    · have cut := List.take_prefix n t
      rw [h.file, Option.some.injEq] at held
      rw [← held, ascii, ascii, ← List.map_take]
      exact ⟨t.take n, cut, h.append fun c mem => plain c (cut.subset mem)⟩
  refine Query.wp_io torn ?_ fun e d' _ cut => ?_
  · rw [Query.exec_io, Call.effect, h.file]
    dsimp only
    by_cases fits : (ascii text).length + (ascii t).length ≤ maxFileLen
    · rw [if_pos fits]
      exact ⟨t, List.prefix_refl t, h.append plain, fun _ => rfl⟩
    · rw [if_neg fits]
      exact ⟨[], List.nil_prefix, by rwa [List.append_nil], by simp⟩
  · obtain ⟨u, part, opened⟩ := torn d' cut
    exact ⟨u, part, opened, by simp⟩

/-- Opening the file creates it. -/
theorem openAppend_wp {may : Call → Prop} (h : Holds path d text) :
    (Query.io CliError.io (.openAppend path)).wp may
      (fun out d' => Holds path d' text ∧ (out = .ok () → Opened path d' text))
      (fun d' => Holds path d' text) d := by
  have effect : Holds path ((Call.openAppend path).effect d).2 text ∧
      (((Call.openAppend path).effect d).1 = .ok () →
        Opened path ((Call.openAppend path).effect d).2 text) := by
    simp only [Call.effect]
    obtain opened | ⟨gone, absent, rfl⟩ := h
    · rw [opened.file]
      exact ⟨.inl opened, fun _ => opened⟩
    · rw [absent]
      dsimp only
      split
      · have opened : Opened path (d.setFile path (some [])) [] := ⟨by simp, gone, by simp [ascii]⟩
        exact ⟨.inl opened, fun _ => opened⟩
      · exact ⟨.inr ⟨gone, absent, rfl⟩, by simp⟩
  have torn : ∀ d', (Call.openAppend path).Torn d d' → Holds path d' text := by
    rintro d' (rfl | rfl)
    · exact h
    · exact effect.1
  refine Query.wp_io torn ?_ fun e d' _ cut => ⟨torn d' cut, by simp⟩
  rw [Query.exec_io]
  revert effect
  generalize (Call.openAppend path).effect d = out
  obtain ⟨e | u, d'⟩ := out
  · exact fun effect => ⟨effect.1, by simp⟩
  · exact fun effect => ⟨effect.1, fun _ => effect.2 rfl⟩

/-- A call appends its line or a first part of it. -/
theorem recordBenchmark_wp {may : Call → Prop} (laws : json.Lawful writable) {r : BenchRecord}
    (hr : writable r) (h : Holds path d text) :
    (recordBenchmark json (some path) r).wp may
      (fun out d' => ∃ t, t <+: json.line r ∧ Holds path d' (text ++ t) ∧
        ∀ printed, out = .ok printed → t = json.line r)
      (fun d' => ∃ t, t <+: json.line r ∧ Holds path d' (text ++ t)) d := by
  have unchanged : ∀ d', Holds path d' text →
      ∃ t, t <+: json.line r ∧ Holds path d' (text ++ t) := fun d' same =>
    ⟨[], List.nil_prefix, by rwa [List.append_nil]⟩
  have plain := laws.plain r hr
  have bytes : asBytes (json.toString r) = ascii (json.text r) := by
    rw [← asBytes_ofList plain, JsonLine.text, String.ofList_toList]
  refine Query.wp_seq (Prog.ReadOnly.wp (latestHistoryRecord_readOnly r.benchmark) d) ?_ ?_ ?_
  · rintro previous d' rfl
    refine Query.wp_seq (openAppend_wp h) ?_ ?_ unchanged
    · rintro ⟨⟩ d₁ ⟨-, opened⟩
      rw [bytes]
      refine Query.wp_seq (append_wp _ (opened rfl) plain) ?_ ?_ ?_
      · rintro ⟨⟩ d₂ ⟨u, -, opened, whole⟩
        obtain rfl := whole rfl
        refine Query.wp_seq (append_wp _ opened (by simp)) ?_ ?_ ?_
        · rintro ⟨⟩ d₃ ⟨v, -, opened, whole⟩
          obtain rfl := whole rfl
          rw [List.append_assoc] at opened
          exact ⟨_, List.prefix_refl _, .inl opened, fun _ _ => rfl⟩
        · rintro e d₃ ⟨v, part, opened, -⟩
          rw [List.append_assoc] at opened
          exact ⟨_, (List.prefix_append_right_inj _).mpr part, .inl opened, by simp⟩
        · rintro d₃ ⟨v, part, opened⟩
          rw [List.append_assoc] at opened
          exact ⟨_, (List.prefix_append_right_inj _).mpr part, .inl opened⟩
      · rintro e d₂ ⟨u, part, opened, -⟩
        exact ⟨u, part.trans (List.prefix_append _ _), .inl opened, by simp⟩
      · rintro d₂ ⟨u, part, opened⟩
        exact ⟨u, part.trans (List.prefix_append _ _), .inl opened⟩
    · rintro e d₁ ⟨same, -⟩
      exact ⟨[], List.nil_prefix, by rwa [List.append_nil], by simp⟩
  · rintro e d' rfl
    exact ⟨[], List.nil_prefix, by rwa [List.append_nil], by simp⟩
  · rintro d' rfl
    exact unchanged d' h

end Contents

/-! ## What the calls write -/

section Writes

variable (json : JsonLine) (writable : BenchRecord → Prop)

/-- The text of the file after the calls: a line for each one that returned `Ok`, and a first part
of one for each other. -/
inductive Writes (text : List Char) : List (BenchRecord × Bool) → List Char → Prop
  | none : Writes text [] text
  | line {calls text' r} : Writes text calls text' → writable r →
      Writes text (calls ++ [(r, true)]) (text' ++ json.line r)
  | cut {calls text' r t} : Writes text calls text' → writable r → t <+: json.line r →
      Writes text (calls ++ [(r, false)]) (text' ++ t)

end Writes

section Runs

variable {json : JsonLine} {writable : BenchRecord → Prop} {path : Path} {d d' : Disk}
variable {calls : List (BenchRecord × Bool)} {text text' t : List Char} {rs : List BenchRecord}
variable {r : BenchRecord}

theorem Recorded.writes (laws : json.Lawful writable) (run : Recorded json writable path d calls d')
    (h : Holds path d text) : ∃ text', Holds path d' text' ∧ Writes json writable text calls text' := by
  induction run with
  | none => exact ⟨text, h, .none⟩
  | elsewhere _ file dir ih =>
    obtain ⟨text', holds, writes⟩ := ih
    exact ⟨text', holds.frame file dir, writes⟩
  | recorded _ hr run ih =>
    obtain ⟨text', holds, writes⟩ := ih
    obtain ⟨t, -, holds, whole⟩ := Prog.wp_runs (recordBenchmark_wp laws hr holds) run
    obtain rfl := whole _ rfl
    exact ⟨_, holds, writes.line hr⟩
  | failed _ hr run ih =>
    obtain ⟨text', holds, writes⟩ := ih
    obtain ⟨t, part, holds, -⟩ := Prog.wp_runs (recordBenchmark_wp laws hr holds) run
    exact ⟨_, holds, writes.cut hr part⟩
  | killed _ hr crash ih =>
    obtain ⟨text', holds, writes⟩ := ih
    have spec := @recordBenchmark_wp _ _ _ _ _ (fun _ => True) laws _ hr holds
    obtain ⟨t, part, holds⟩ := Prog.wp_crashes spec crash
    exact ⟨_, holds, writes.cut hr part⟩

/-! ### Whole, hanging and broken histories -/

/-- The lines are those of the records. -/
def Whole (json : JsonLine) (rs : List BenchRecord) (text : List Char) : Prop :=
  split text = ⟨rs.map json.text, []⟩

/-- The lines are those of the records, and the last one has not ended. -/
def Hanging (json : JsonLine) (rs : List BenchRecord) (text : List Char) : Prop :=
  ∃ front r, rs = front ++ [r] ∧ split text = ⟨front.map json.text, json.text r⟩

theorem Whole.unended (laws : json.Lawful writable) (hr : writable r) (h : Whole json rs text) :
    split (text ++ json.text r) = ⟨rs.map json.text, json.text r⟩ := by
  rw [split_append_of_not_mem text (laws.object r hr).oneLine.1, h, List.nil_append]

theorem Whole.line (laws : json.Lawful writable) (hr : writable r) (h : Whole json rs text) :
    Whole json (rs ++ [r]) (text ++ json.line r) := by
  rw [Whole, JsonLine.line, ← List.append_assoc, split_newline, h.unended laws hr, List.map_append,
    List.map_singleton]

/-- A first part of a line behind a history that is whole. -/
theorem Whole.cut (laws : json.Lawful writable) (hr : writable r) (h : Whole json rs text)
    (part : t <+: json.line r) :
    t = [] ∨ Whole json (rs ++ [r]) (text ++ t) ∨ Hanging json (rs ++ [r]) (text ++ t) ∨
      Broken (split (text ++ t)) := by
  have object := laws.object r hr
  obtain rfl | cut := List.prefix_concat_iff.mp part
  · exact .inr (.inl (h.line laws hr))
  · by_cases nil : t = []
    · exact .inl nil
    by_cases full : t = json.text r
    · exact .inr (.inr (.inl ⟨rs, r, rfl, full ▸ h.unended laws hr⟩))
    · refine .inr (.inr (.inr (.inr ?_)))
      rw [split_append_of_not_mem text fun mem => object.oneLine.1 (cut.subset mem), h]
      exact .of_cut object cut nil full

/-- What is written behind a line that has not ended breaks it. -/
theorem Hanging.cut (laws : json.Lawful writable) (hrs : ∀ s ∈ rs, writable s) (hr : writable r)
    (h : Hanging json rs text) (part : t <+: json.line r) :
    t = [] ∨ Broken (split (text ++ t)) := by
  obtain ⟨front, last, rfl, at_⟩ := h
  have object := laws.object r hr
  have before := laws.object last (hrs last (by simp))
  have broken : ∀ u, u <+: json.text r → u ≠ [] → Broken (split (text ++ u)) := by
    intro u cut ne
    rw [split_append_of_not_mem text fun mem => object.oneLine.1 (cut.subset mem), at_]
    exact .inr (.of_two before object cut ne)
  obtain rfl | cut := List.prefix_concat_iff.mp part
  · rw [← List.append_assoc]
    exact .inr (broken _ (List.prefix_refl _) object.ne_nil).newline
  · by_cases nil : t = []
    · exact .inl nil
    · exact .inr (broken t cut nil)

theorem broken_write (laws : json.Lawful writable) (hr : writable r) (h : Broken (split text))
    (part : t <+: json.line r) : Broken (split (text ++ t)) := by
  have object := laws.object r hr
  obtain rfl | cut := List.prefix_concat_iff.mp part
  · rw [← List.append_assoc]
    exact (h.append object (List.prefix_refl _)).newline
  · exact h.append object cut

/-- What is broken stays broken. -/
theorem Writes.broken (laws : json.Lawful writable) (run : Writes json writable text calls text')
    (h : Broken (split text)) : Broken (split text') := by
  induction run with
  | none => exact h
  | line _ hr ih => exact broken_write laws hr ih (List.prefix_refl _)
  | cut _ hr part ih => exact broken_write laws hr ih part

/-- Where a history stands after calls that began without a file. -/
def Standing (json : JsonLine) (writable : BenchRecord → Prop)
    (calls : List (BenchRecord × Bool)) (text : List Char) : Prop :=
  (∃ rs, (∀ r ∈ rs, writable r) ∧ (acknowledged calls).Sublist rs ∧ rs.Sublist (calls.map (·.1)) ∧
    (Whole json rs text ∨ (∃ c ∈ calls, c.2 = false) ∧ Hanging json rs text)) ∨
  (∃ c ∈ calls, c.2 = false) ∧ Broken (split text)

theorem Writes.standing (laws : json.Lawful writable) (run : Writes json writable [] calls text') :
    Standing json writable calls text' := by
  induction run with
  | none => exact .inl ⟨[], by simp, by simp [acknowledged], by simp, .inl rfl⟩
  | @line calls text r _ hr ih =>
    have more : ∀ {P : Prop}, (∃ c ∈ calls, c.2 = false) ∧ P → ∃ c ∈ calls ++ [(r, true)], c.2 = false :=
      fun ⟨⟨c, mem, no⟩, _⟩ => ⟨c, List.mem_append_left _ mem, no⟩
    obtain ⟨rs, hrs, acked, tried, whole | hanging⟩ | broken := ih
    · refine .inl ⟨rs ++ [r], ?_, ?_, ?_, .inl (whole.line laws hr)⟩
      · simpa [or_imp, forall_and] using ⟨hrs, hr⟩
      · simpa [acknowledged] using acked
      · simpa using tried
    · obtain nil | broken := hanging.2.cut laws hrs hr (List.prefix_refl _)
      · simp [JsonLine.line] at nil
      · exact .inr ⟨more hanging, broken⟩
    · exact .inr ⟨more broken, broken_write laws hr broken.2 (List.prefix_refl _)⟩
  | @cut calls text r t _ hr part ih =>
    have failed : ∃ c ∈ calls ++ [(r, false)], c.2 = false :=
      ⟨(r, false), List.mem_append_right _ (List.mem_singleton.mpr rfl), rfl⟩
    obtain ⟨rs, hrs, acked, tried, standing⟩ | broken := ih
    · -- Either nothing was written, or the record is one more in a history with a failed call.
      have same : t = [] → Standing json writable (calls ++ [(r, false)]) (text ++ t) := by
        rintro rfl
        rw [List.append_nil]
        refine .inl ⟨rs, hrs, by simpa [acknowledged] using acked, ?_, ?_⟩
        · rw [List.map_append]
          exact tried.trans (List.sublist_append_left _ _)
        · exact standing.imp_right fun hanging => ⟨failed, hanging.2⟩
      have one : Whole json (rs ++ [r]) (text ++ t) ∨ Hanging json (rs ++ [r]) (text ++ t) →
          Standing json writable (calls ++ [(r, false)]) (text ++ t) := by
        refine fun h => .inl ⟨rs ++ [r], ?_, ?_, ?_, h.imp_right fun hanging => ⟨failed, hanging⟩⟩
        · simpa [or_imp, forall_and] using ⟨hrs, hr⟩
        · simpa [acknowledged] using acked.trans (List.sublist_append_left _ _)
        · simpa using tried
      obtain whole | hanging := standing
      · obtain nil | whole | hanging | broken := whole.cut laws hr part
        · exact same nil
        · exact one (.inl whole)
        · exact one (.inr hanging)
        · exact .inr ⟨failed, broken⟩
      · obtain nil | broken := hanging.2.cut laws hrs hr part
        · exact same nil
        · exact .inr ⟨failed, broken⟩
    · exact .inr ⟨failed, broken_write laws hr broken.2 part⟩

/-! ### Searching -/

theorem not_blank {line : List Char} (head : line.head? = some '{') :
    line.all whitespace = false := by
  obtain ⟨rest, rfl⟩ : ∃ rest, line = '{' :: rest := List.head?_eq_some_iff.mp head
  simp [whitespace]

theorem latestOf_records (laws : json.Lawful writable) (benchmark : String)
    (hrs : ∀ r ∈ rs, writable r) {latest first : Option BenchRecord}
    (same : Option.Rel BenchRecord.Same latest first) :
    ∃ found, latestOf json benchmark (rs.map json.text) latest = .ok found ∧
      Option.Rel BenchRecord.Same found
        ((rs.filter (·.benchmark = benchmark)).getLast?.or first) := by
  induction rs generalizing latest first with
  | nil => exact ⟨latest, rfl, same⟩
  | cons r rs ih =>
    obtain ⟨s, read, eq⟩ := laws.reads r (hrs r (by simp))
    have blank := not_blank ((laws.object r (hrs r (by simp))).head_of_cut (List.prefix_refl _)
      (laws.object r (hrs r (by simp))).ne_nil)
    have later := fun x hx => hrs x (List.mem_cons_of_mem _ hx)
    have step : latestOf json benchmark ((r :: rs).map json.text) latest =
        latestOf json benchmark (rs.map json.text)
          (if s.benchmark = benchmark then some s else latest) := by
      rw [List.map_cons, latestOf, if_neg (by simp [blank]), JsonLine.text, String.ofList_toList, read]
    rw [step]
    by_cases mine : r.benchmark = benchmark
    · rw [if_pos (eq.benchmark.trans mine)]
      obtain ⟨found, done, rel⟩ := ih later (Option.Rel.some eq)
      refine ⟨found, done, ?_⟩
      rw [List.filter_cons_of_pos (by simpa using mine), List.getLast?_cons]
      cases last : (rs.filter (·.benchmark = benchmark)).getLast? <;> simpa [last] using rel
    · rw [if_neg fun h => mine (eq.benchmark.symm.trans h)]
      obtain ⟨found, done, rel⟩ := ih later same
      refine ⟨found, done, ?_⟩
      rwa [List.filter_cons_of_neg (by simpa using mine)]

/-- A bad line ends the search. -/
theorem latestOf_bad (laws : json.Lawful writable) (benchmark : String) {lines : List (List Char)}
    {line : List Char} (mem : line ∈ lines) (bad : Bad line) (latest : Option BenchRecord) :
    ∃ err, latestOf json benchmark lines latest = .error (.json err) := by
  induction lines generalizing latest with
  | nil => cases mem
  | cons l rest ih =>
    rw [latestOf]
    obtain rfl | mem := List.mem_cons.mp mem
    · rw [if_neg (by simp [not_blank bad.head])]
      cases read : json.fromStr (String.ofList line) with
      | error err => exact ⟨err, rfl⟩
      | ok record =>
        have closed := laws.accepts _ _ read
        rw [String.toList_ofList] at closed
        exact absurd closed bad.stuck.2
    · split
      · exact ih mem latest
      · split
        · exact ⟨_, rfl⟩
        · exact ih mem _

theorem Holds.readable (laws : json.Lawful writable) (h : Holds path d text)
    (hrs : ∀ r ∈ rs, writable r) (same : lines text = rs.map json.text) :
    Readable json path d rs := by
  intro benchmark
  obtain ⟨found, done, rel⟩ := latestOf_records laws benchmark hrs Option.Rel.none
  refine ⟨found, ?_, by rwa [Option.or_none] at rel⟩
  rw [latestHistoryRecord_exec h, same, done]
  rfl

theorem Holds.unreadable (laws : json.Lawful writable) (h : Holds path d text)
    (broken : Broken (split text)) : Unreadable json path d := by
  intro benchmark
  obtain ⟨line, mem, bad⟩ := broken.exists_line
  obtain ⟨err, failed⟩ := latestOf_bad laws benchmark mem bad none
  refine ⟨err, ?_⟩
  rw [latestHistoryRecord_exec h, failed]
  rfl

theorem Whole.lines_eq (laws : json.Lawful writable) (hrs : ∀ r ∈ rs, writable r)
    (h : Whole json rs text) : lines text = rs.map json.text := by
  rw [JsonLines.lines_eq h]
  · simp
  · intro line mem
    obtain ⟨r, hr, rfl⟩ := List.mem_map.mp mem
    exact (laws.object r (hrs r hr)).oneLine.2

theorem Hanging.lines_eq (laws : json.Lawful writable) (hrs : ∀ r ∈ rs, writable r)
    (h : Hanging json rs text) : lines text = rs.map json.text := by
  obtain ⟨front, last, rfl, at_⟩ := h
  rw [JsonLines.lines_eq at_]
  · simp [(laws.object last (hrs last (by simp))).ne_nil]
  · intro line mem
    obtain ⟨r, hr, rfl⟩ := List.mem_map.mp mem
    exact (laws.object r (hrs r (List.mem_append_left _ hr))).oneLine.2

/-- From a broken history no calls lead to one that can be read. -/
theorem Holds.unreadable_later (laws : json.Lawful writable) (h : Holds path d text)
    (broken : Broken (split text)) (run : Recorded json writable path d calls d') :
    Unreadable json path d' := by
  obtain ⟨text', holds, writes⟩ := run.writes laws h
  exact holds.unreadable laws (writes.broken laws broken)

/-- After any calls that began without a file, either every search finds the latest of a list of
records that has every acknowledged one and only records of calls, in their order, or a call did
not return `Ok`, and every search fails now and after any further calls. -/
theorem history_whole_or_broken (laws : json.Lawful writable) (absent : d.files path = none)
    (gone : d.dirs path = false) (run : Recorded json writable path d calls d') :
    (∃ rs, (acknowledged calls).Sublist rs ∧ rs.Sublist (calls.map (·.1)) ∧
      Readable json path d' rs) ∨
    (∃ c ∈ calls, c.2 = false) ∧ ∀ more d'', Recorded json writable path d' more d'' →
      Unreadable json path d'' := by
  obtain ⟨text, holds, writes⟩ := run.writes laws (.inr ⟨gone, absent, rfl⟩)
  obtain ⟨rs, hrs, acked, tried, standing⟩ | ⟨failed, broken⟩ := writes.standing laws
  · refine .inl ⟨rs, acked, tried, holds.readable laws hrs ?_⟩
    obtain whole | ⟨-, hanging⟩ := standing
    · exact whole.lines_eq laws hrs
    · exact hanging.lines_eq laws hrs
  · exact .inr ⟨failed, fun more d'' later => holds.unreadable_later laws broken later⟩

/-- Behind a line that has not ended nothing is written, or the history is broken. -/
theorem Writes.unended (laws : json.Lawful writable) (hrs : ∀ s ∈ rs, writable s)
    (h : Hanging json rs text) (run : Writes json writable text calls text') :
    (text' = text ∧ ∀ c ∈ calls, c.2 = false) ∨ Broken (split text') := by
  induction run with
  | none => exact .inl ⟨rfl, by simp⟩
  | line _ hr ih =>
    obtain ⟨rfl, -⟩ | broken := ih
    · obtain nil | broken := h.cut laws hrs hr (List.prefix_refl _)
      · simp [JsonLine.line] at nil
      · exact .inr broken
    · exact .inr (broken_write laws hr broken (List.prefix_refl _))
  | cut _ hr part ih =>
    obtain ⟨rfl, failed⟩ | broken := ih
    · obtain rfl | broken := h.cut laws hrs hr part
      · refine .inl ⟨List.append_nil _, fun c mem => ?_⟩
        obtain mem | mem := List.mem_append.mp mem
        · exact failed c mem
        · rw [List.mem_singleton.mp mem]
      · exact .inr broken
    · exact .inr (broken_write laws hr broken part)

/-- Once a call has written anything behind a line that has not ended, in particular once one has
returned `Ok`, every search fails. -/
theorem unended_breaks (laws : json.Lawful writable) (absent : d.files path = none)
    (gone : d.dirs path = false) (run : Recorded json writable path d calls d') {bytes : Bytes}
    (held : d'.files path = some bytes) (nonempty : bytes ≠ [])
    (unended : bytes.getLast? ≠ '\n'.toUInt8) {more : List (BenchRecord × Bool)} {d'' : Disk}
    (later : Recorded json writable path d' more d'')
    (wrote : (∃ c ∈ more, c.2 = true) ∨ d''.files path ≠ d'.files path) :
    Unreadable json path d'' := by
  obtain ⟨text, holds, writes⟩ := run.writes laws (.inr ⟨gone, absent, rfl⟩)
  obtain opened | ⟨-, noFile, -⟩ := holds
  · have eq : bytes = ascii text := Option.some.inj (held.symm.trans opened.file)
    have unfinished : (split text).last ≠ [] := by
      intro nil
      obtain rfl | last := split_last_eq_nil nil
      · exact nonempty eq
      · exact unended (by rw [eq, ascii, List.getLast?_map, last]; rfl)
    obtain ⟨rs, hrs, -, -, whole | ⟨-, hanging⟩⟩ | ⟨-, broken⟩ := writes.standing laws
    · exact absurd (congrArg Lines.last whole) unfinished
    · obtain ⟨text'', holds, writes⟩ := later.writes laws (.inl opened)
      obtain ⟨rfl, failed⟩ | broken := writes.unended laws hrs hanging
      · obtain ⟨c, mem, ok⟩ | changed := wrote
        · rw [failed c mem] at ok
          cases ok
        · obtain same | ⟨-, -, rfl⟩ := holds
          · exact absurd (same.file.trans opened.file.symm) changed
          · exact absurd rfl unfinished
      · exact holds.unreadable laws broken
    · exact Holds.unreadable_later laws (.inl opened) broken later
  · rw [noFile] at held
    cases held

/-- The lines of a text have ended. -/
def Ended (bytes : Bytes) : Prop := bytes = [] ∨ bytes.getLast? = '\n'.toUInt8

theorem Holds.bytes (h : Holds path d text) : (d.files path).getD [] = ascii text := by
  obtain opened | ⟨-, absent, rfl⟩ := h
  · rw [opened.file, Option.getD_some]
  · rw [absent]
    rfl

theorem Holds.last_eq_nil (h : Holds path d text) (ended : Ended ((d.files path).getD [])) :
    (split text).last = [] := by
  rw [h.bytes] at ended
  obtain nil | last := ended
  · rw [List.map_eq_nil_iff.mp nil]
    rfl
  · obtain ⟨c, at_, newline⟩ := Option.map_eq_some_iff.mp ((List.getLast?_map ..).symm.trans last)
    obtain ⟨front, rfl⟩ := List.getLast?_eq_some_iff.mp at_
    obtain opened | ⟨-, -, nil⟩ := h
    · rw [toUInt8_inj (opened.plain c (by simp)) (by decide) newline, split_newline]
    · simp at nil

/-- A record that has been written but for its newline behind lines that have ended. -/
theorem Holds.hanging (laws : json.Lawful writable) (h : Holds path d text)
    (standing : Standing json writable calls text) (readable : ∃ rs, Readable json path d rs)
    (ended : Ended ((d.files path).getD [])) (hr : writable r) :
    ∃ rs, (∀ s ∈ rs, writable s) ∧ (acknowledged calls).Sublist rs ∧
      rs.Sublist (calls.map (·.1)) ∧ Hanging json (rs ++ [r]) (text ++ json.text r) := by
  obtain ⟨rs, hrs, acked, tried, whole | ⟨-, hanging⟩⟩ | ⟨-, broken⟩ := standing
  · exact ⟨rs, hrs, acked, tried, rs, r, rfl, whole.unended laws hr⟩
  · obtain ⟨front, last, rfl, at_⟩ := hanging
    have object := laws.object last (hrs last (by simp))
    exact absurd ((congrArg Lines.last at_).symm.trans (h.last_eq_nil ended)) object.ne_nil
  · obtain ⟨rs, found⟩ := readable
    obtain ⟨latest, run, -⟩ := found ""
    obtain ⟨err, failed⟩ := h.unreadable laws broken ""
    cases run.symm.trans failed

/-- A call that ends with the text of its record in the file has written nothing else. -/
theorem Holds.cut (laws : json.Lawful writable) (h : Holds path d text) (hr : writable r)
    (ends : Prog.Crashes (recordBenchmark json (some path) r).run d d' ∨
      ∃ err, Prog.Runs (fun _ => True) (recordBenchmark json (some path) r).run d (.error err) d')
    (cut : d'.files path = some ((d.files path).getD [] ++ ascii (json.text r))) :
    Holds path d' (text ++ json.text r) := by
  obtain ⟨t, part, after⟩ : ∃ t, t <+: json.line r ∧ Holds path d' (text ++ t) := by
    have spec := @recordBenchmark_wp _ _ _ _ _ (fun _ => True) laws _ hr h
    obtain crash | ⟨err, failed⟩ := ends
    · exact Prog.wp_crashes spec crash
    · obtain ⟨t, part, after, -⟩ := Prog.wp_runs spec failed
      exact ⟨t, part, after⟩
  have same := after.bytes
  rw [cut, Option.getD_some, h.bytes, ascii, ascii, ascii, List.map_append,
    List.append_cancel_left_eq] at same
  have length := congrArg List.length same
  rw [List.length_map, List.length_map] at length
  -- Both are prefixes of the line, and of one length.
  have short := List.prefix_of_prefix_length_le (List.prefix_append (json.text r) ['\n']) part
    length.le
  rwa [← short.eq_of_length length] at after

/-- A call on a history that can be read and whose lines have ended dies or fails between the text
of its record and the newline. Every search finds the record, and nothing is noticed. Once another
call has written anything, in particular once one has returned `Ok`, every search fails. -/
theorem unended_history_breaks (laws : json.Lawful writable) (absent : d.files path = none)
    (gone : d.dirs path = false) {d₁ : Disk} (run : Recorded json writable path d calls d₁)
    (readable : ∃ rs, Readable json path d₁ rs) (ended : Ended ((d₁.files path).getD []))
    (hr : writable r)
    (dies : Prog.Crashes (recordBenchmark json (some path) r).run d₁ d' ∨
      ∃ err, Prog.Runs (fun _ => True) (recordBenchmark json (some path) r).run d₁ (.error err) d')
    (cut : d'.files path = some ((d₁.files path).getD [] ++ asBytes (json.toString r))) :
    (∃ rs, (acknowledged calls).Sublist rs ∧ rs.Sublist (calls.map (·.1)) ∧
      Readable json path d' (rs ++ [r])) ∧
    ∀ more d'', Recorded json writable path d' more d'' →
      ((∃ c ∈ more, c.2 = true) ∨ d''.files path ≠ d'.files path) → Unreadable json path d'' := by
  have object := laws.object r hr
  have bytes : asBytes (json.toString r) = ascii (json.text r) := by
    rw [← asBytes_ofList (laws.plain r hr), JsonLine.text, String.ofList_toList]
  obtain ⟨text, holds, writes⟩ := run.writes laws (.inr ⟨gone, absent, rfl⟩)
  rw [bytes] at cut
  constructor
  · obtain ⟨rs, hrs, acked, tried, hanging⟩ :=
      holds.hanging laws (writes.standing laws) readable ended hr
    have after := holds.cut laws hr dies cut
    have records : ∀ s ∈ rs ++ [r], writable s := by
      simpa [or_imp, forall_and] using ⟨hrs, hr⟩
    exact ⟨rs, acked, tried, after.readable laws records (hanging.lines_eq laws records)⟩
  · intro more d'' later wrote
    have all : Recorded json writable path d (calls ++ [(r, false)]) d' := by
      obtain crash | ⟨err, failed⟩ := dies
      · exact run.killed hr crash
      · exact run.failed hr failed
    refine unended_breaks laws absent gone all cut ?_ ?_ later wrote
    · simp [ascii, object.ne_nil]
    · rw [List.getLast?_append, ascii, List.getLast?_map, object.last, Option.map_some,
        Option.some_or]
      decide

end Runs

/-! ## A call that dies -/

def sample : BenchRecord := ⟨"db_compact", "segments", 0, none, 3, 0, none, [], 1700000000000⟩

def sampleText : String :=
  "\x7b\"benchmark\":\"db_compact\",\"unit\":\"segments\",\"units\":0,\"bytes\":null,\"elapsed_ms\":3,\"rate_per_sec\":0.0,\"mib_per_sec\":null,\"context\":[],\"timestamp_ms\":1700000000000\x7d"

/-- `serde_json` on one record. -/
def sampleJson : JsonLine where
  toString _ := sampleText
  fromStr text := if text = sampleText then .ok sample else .error "unexpected JSON text"

/-- A decidable form of what is used of a text. -/
def Checked (text : List Char) : Prop :=
  text = '{' :: '"' :: 'b' :: text.drop 3 ∧ text.getLast? = some '}' ∧ scan .before text = .after ∧
    '\n' ∉ text ∧ '\r' ∉ text ∧ text.all (·.toNat < 128) = true

instance (text : List Char) : Decidable (Checked text) := inferInstanceAs (Decidable (_ ∧ _))

theorem Checked.object {text : List Char} (h : Checked text) : Object text :=
  have ⟨name, last, closed, noNewline, noReturn, _⟩ := h
  ⟨⟨'b', _, name, rfl⟩, last, closed, noNewline, noReturn⟩

theorem Checked.plain {text : List Char} (h : Checked text) : ∀ c ∈ text, c.toNat < 128 :=
  fun c mem => of_decide_eq_true (List.all_eq_true.mp h.2.2.2.2.2 c mem)

theorem sampleText_checked : Checked sampleText.toList := by decide +kernel

theorem sampleJson_lawful : sampleJson.Lawful (· = sample) where
  object _ _ := sampleText_checked.object
  plain _ _ := sampleText_checked.plain
  reads r hr := ⟨sample, by simp [sampleJson], by rw [hr]; rfl⟩
  accepts text r read := by
    have same : text = sampleText := by
      by_contra other
      simp [sampleJson, other] at read
    rw [same]
    exact sampleText_checked.object.closed

def historyPath : Path := ["history.jsonl"]

def noHistory : Disk := ⟨fun _ => none, fun q => decide (q = [])⟩

/-- After a first call that has written `n` bytes of its text. -/
def cutHistory (n : Nat) : Disk :=
  (noHistory.setFile historyPath (some [])).setFile historyPath (some ((asBytes sampleText).take n))

theorem dies_at (n : Nat) : Prog.Crashes
    (recordBenchmark sampleJson (some historyPath) sample).run noHistory (cutHistory n) :=
  .later (.later (.here (.inr ⟨[], n, by decide, rfl⟩)))

theorem killed_at (n : Nat) : Recorded sampleJson (· = sample) historyPath noHistory
    [(sample, false)] (cutHistory n) := by
  have first : Recorded sampleJson (· = sample) historyPath noHistory [] noHistory := .none
  exact first.killed rfl (dies_at n)

/-- A write fails behind what is in the file; the file is not found at first. -/
theorem failed_at {d : Disk} {bytes : Bytes} (held : d.files historyPath = some bytes) (n : Nat) :
    Recorded sampleJson (· = sample) historyPath d [(sample, false)]
      (d.setFile historyPath (some (bytes ++ (asBytes sampleText).take n))) := by
  have opened : (Call.openAppend historyPath).effect d = (.ok (), d) := by
    simp [Call.effect, held]
  have run : Prog.Runs (fun _ => True) (recordBenchmark sampleJson (some historyPath) sample).run d
      (.error (.error (.json IoError.device.text)))
      (d.setFile historyPath (some (bytes ++ (asBytes sampleText).take n))) := by
    refine .failed (e := .device) trivial (Call.torn_refl _ _) (.done ?_)
    rw [opened]
    exact .failed trivial (.inr ⟨bytes, n, held, rfl⟩) (.ret _ _)
  have first : Recorded sampleJson (· = sample) historyPath d [] d := .none
  exact first.failed rfl run

/-- A call dies in the text of its record. -/
theorem history_whole_or_broken_cut :
    (∃ rs, (acknowledged [(sample, false)]).Sublist rs ∧ rs.Sublist [sample] ∧
      Readable sampleJson historyPath (cutHistory 40) rs) ∨
    (∃ c ∈ [(sample, false)], c.2 = false) ∧ ∀ more d,
      Recorded sampleJson (· = sample) historyPath (cutHistory 40) more d →
        Unreadable sampleJson historyPath d :=
  history_whole_or_broken sampleJson_lawful rfl (by decide) (killed_at 40)

theorem sampleText_short : (asBytes sampleText).length ≤ 200 ∧ (asBytes sampleText).take 5 ≠ [] := by
  decide +kernel

/-- A call dies before its newline, and the next one in its text. -/
theorem unended_history_breaks_twice :
    (∃ rs, Readable sampleJson historyPath (cutHistory 200) (rs ++ [sample])) ∧
    Unreadable sampleJson historyPath ((cutHistory 200).setFile historyPath
      (some (asBytes sampleText ++ (asBytes sampleText).take 5))) := by
  have held : (cutHistory 200).files historyPath = some (asBytes sampleText) := by
    rw [cutHistory, List.take_of_length_le sampleText_short.1]
    simp
  have empty : Holds historyPath noHistory [] := .inr ⟨by decide, rfl, rfl⟩
  have readable : Readable sampleJson historyPath noHistory [] :=
    empty.readable sampleJson_lawful (by simp) rfl
  have cut : (cutHistory 200).files historyPath =
      some ((noHistory.files historyPath).getD [] ++ asBytes (sampleJson.toString sample)) := by
    rw [held, show noHistory.files historyPath = none from rfl, Option.getD_none, List.nil_append,
      sampleJson]
  obtain ⟨⟨rs, -, -, found⟩, later⟩ := unended_history_breaks sampleJson_lawful (d := noHistory) rfl
    (by decide) .none ⟨[], readable⟩ (.inl rfl) rfl (.inl (dies_at 200)) cut
  refine ⟨⟨rs, found⟩, later _ _ (failed_at held 5) (.inr ?_)⟩
  rw [held]
  simpa using sampleText_short.2

end BypassIo.Cli
