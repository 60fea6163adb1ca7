import Mathlib.Data.List.Forall2
import Mathlib.Tactic.Common

/-!
# A part of TOML

Documents of one entry a line: bare keys, basic strings, decimal integers, arrays and inline
tables of these, and headers of tables and of arrays of tables. `Line.text` is the text of a
line and `meaning` what TOML 1.0 says that a document of such lines denotes, with signed
integers of 64 bits. Escapes that TOML 1.1 adds do not occur.

## Main definitions

* `Line`, `text`: documents and their texts.
* `unescape`: what a string between quotes denotes.
* `meaning`: what a document denotes, if it is valid.
* `Reader`: a reader that reads every document as its meaning.

## Main results

* `value_of_meaning`: every value of a valid document denotes something.
* `foldlM_section`, `foldlM_array`: sections of new entries are added to the table of their header.
-/

namespace Toml

/-! ## Documents -/

def isBare (c : Char) : Bool := c.isAlphanum || c = '_' || c = '-'

def isKey (name : String) : Bool := name ≠ "" && name.toList.all isBare

/-- A bare key. -/
structure Key where
  name : String
  bare : isKey name = true

theorem Key.name_ne_empty (key : Key) : key.name ≠ "" := by
  have bare := key.bare
  grind [isKey]

theorem Key.isBare_of_mem (key : Key) : ∀ c ∈ key.name.toList, isBare c = true := by
  have bare := key.bare
  grind [isKey]

/-- A character that needs no escape between quotes. -/
def isUnescaped (c : Char) : Bool :=
  c ≠ '"' && c ≠ '\\' && (c = '\t' || 32 ≤ c.toNat && c.toNat ≠ 127)

/-- What ends at the next quote. A backslash escapes any character but `e` and `x`. -/
def isBody : List Char → Bool
  | [] => true
  | '\\' :: c :: rest => c ≠ 'e' && c ≠ 'x' && isBody rest
  | c :: rest => isUnescaped c && isBody rest

/-- A basic string, with valid escapes or not. -/
structure BasicString where
  body : List Char
  closed : isBody body = true

inductive Atom where
  | string (s : BasicString)
  | integer (n : Nat)

inductive Expr where
  | atom (a : Atom)
  | array (items : List Atom)
  | inlineTable (entries : List (Key × Atom))

inductive Line where
  | blank
  /-- `[front.key]` -/
  | header (front : List Key) (key : Key)
  /-- `[[front.key]]` -/
  | arrayHeader (front : List Key) (key : Key)
  | entry (key : Key) (value : Expr)

def Atom.text : Atom → List Char
  | .string s => '"' :: (s.body ++ ['"'])
  | .integer n => Nat.toDigits 10 n

/-- Texts with commas between them. -/
def commas (texts : List (List Char)) : List Char := [',', ' '].intercalate texts

def equals (key : Key) (value : List Char) : List Char :=
  key.name.toList ++ ([' ', '=', ' '] ++ value)

def Expr.text : Expr → List Char
  | .atom a => a.text
  | .array items => '[' :: (commas (items.map Atom.text) ++ [']'])
  | .inlineTable entries =>
    ['{', ' '] ++ (commas (entries.map fun e => equals e.1 e.2.text) ++ [' ', '}'])

/-- The keys of a header. -/
def path (front : List Key) (key : Key) : List Char :=
  front.flatMap (fun k => k.name.toList ++ ['.']) ++ key.name.toList

def Line.text : Line → List Char
  | .blank => ['\n']
  | .header front key => '[' :: (path front key ++ [']', '\n'])
  | .arrayHeader front key => ['[', '['] ++ (path front key ++ [']', ']', '\n'])
  | .entry key value => equals key value.text ++ ['\n']

def text (doc : List Line) : List Char := doc.flatMap Line.text

/-! ## Values -/

inductive Scalar where
  | string (s : String)
  | integer (i : Int)

/-- What a key stands for. A table is `defined` when its own header has been read. -/
inductive Value where
  | scalar (s : Scalar)
  | array (items : List Scalar)
  | inlineTable (entries : List (String × Scalar))
  | table (defined : Bool) (entries : List (String × Value))
  | tables (items : List (List (String × Value)))

abbrev Table := List (String × Value)

def simpleEscape (c : Char) : Option Char :=
  if c = 'b' then some '\x08'
  else if c = 't' then some '\t'
  else if c = 'n' then some '\n'
  else if c = 'f' then some '\x0c'
  else if c = 'r' then some '\r'
  else if c = '"' ∨ c = '\\' then some c
  else none

def hexValue (c : Char) : Option Nat :=
  if c.isDigit then some (c.toNat - 48)
  else if 'a' ≤ c ∧ c ≤ 'f' then some (c.toNat - 87)
  else if 'A' ≤ c ∧ c ≤ 'F' then some (c.toNat - 55)
  else none

/-- Where the reader of a string stands. -/
inductive Mode where
  | plain
  /-- After a backslash. -/
  | escape
  /-- Inside `\u` or `\U`: the digits to come, and the value of those read. -/
  | digits (left n : Nat)

/-- What the characters between the quotes denote. -/
def unescape : Mode → List Char → Option (List Char)
  | .plain, [] => some []
  | .plain, c :: rest =>
    if c = '\\' then unescape .escape rest else (unescape .plain rest).map (c :: ·)
  | .escape, c :: rest =>
    if c = 'u' then unescape (.digits 4 0) rest
    else if c = 'U' then unescape (.digits 8 0) rest
    else match simpleEscape c with
      | some e => (unescape .plain rest).map (e :: ·)
      | none => none
  | .digits left n, c :: rest =>
    match hexValue c with
    | none => none
    | some digit =>
      let n := n * 16 + digit
      if left ≠ 1 then unescape (.digits (left - 1) n) rest
      else if n.isValidChar then (unescape .plain rest).map (Char.ofNat n :: ·)
      else none
  | _, [] => none

/-- The largest signed integer of 64 bits. -/
def i64Max : Nat := 9223372036854775807

def Atom.value : Atom → Option Scalar
  | .string s => (unescape .plain s.body).map fun cs => .string (String.ofList cs)
  | .integer n => if n ≤ i64Max then some (.integer n) else none

def Expr.value : Expr → Option Value
  | .atom a => a.value.map .scalar
  | .array items => (items.mapM Atom.value).map .array
  | .inlineTable entries =>
    if (entries.map (·.1.name)).Nodup then
      (entries.mapM fun e : Key × Atom => e.2.value.map (e.1.name, ·)).map .inlineTable
    else none

/-! ## Building the table of a document -/

def Table.assign (key : String) (value : Value) (t : Table) : Table :=
  t.map fun e => if e.1 = key then (key, value) else e

/-- Change the table at a path. New tables on the way are not defined yet, and in an array of
tables the path goes on in the last one. -/
def descend : List String → (Table → Option Table) → Table → Option Table
  | [], f, t => f t
  | key :: keys, f, t =>
    match t.lookup key with
    | none => (descend keys f []).map fun inner => t ++ [(key, .table false inner)]
    | some (.table defined inner) =>
      (descend keys f inner).map fun inner => Table.assign key (.table defined inner) t
    | some (.tables items) =>
      match items.getLast? with
      | none => none
      | some last =>
        (descend keys f last).map fun inner =>
          Table.assign key (.tables (items.dropLast ++ [inner])) t
    | some _ => none

def define (key : String) (t : Table) : Option Table :=
  match t.lookup key with
  | none => some (t ++ [(key, .table true [])])
  | some (.table false inner) => some (Table.assign key (.table true inner) t)
  | some _ => none

def extend (key : String) (t : Table) : Option Table :=
  match t.lookup key with
  | none => some (t ++ [(key, .tables [[]])])
  | some (.tables items) => some (Table.assign key (.tables (items ++ [[]])) t)
  | some _ => none

def insert (key : String) (value : Value) (t : Table) : Option Table :=
  match t.lookup key with
  | none => some (t ++ [(key, value)])
  | some _ => none

/-- The table so far, and the path of the last header. -/
structure State where
  table : Table
  current : List String

def step (s : State) : Line → Option State
  | .blank => some s
  | .header front key => do
    let front := front.map Key.name
    let table ← descend front (define key.name) s.table
    return ⟨table, front ++ [key.name]⟩
  | .arrayHeader front key => do
    let front := front.map Key.name
    let table ← descend front (extend key.name) s.table
    return ⟨table, front ++ [key.name]⟩
  | .entry key value => do
    let value ← value.value
    let table ← descend s.current (insert key.name value) s.table
    return ⟨table, s.current⟩

/-- The table that a document denotes. -/
def meaning (doc : List Line) : Option Table := (doc.foldlM step ⟨[], []⟩).map State.table

/-- A reader of TOML: it reads each of these documents as its meaning, and no invalid one. -/
structure Reader where
  parse : String → Except String Table
  parses : ∀ doc table, parse (String.ofList (text doc)) = .ok table ↔ meaning doc = some table

/-! ## Arrays -/

section Arrays
variable {α : Type} {write : α → Atom} {as : List α}

theorem value_array {value : α → Scalar} (all : ∀ a ∈ as, (write a).value = some (value a)) :
    (Expr.array (as.map write)).value = some (.array (as.map value)) := by
  have read : (as.map write).mapM Atom.value = some (as.map value) := by
    induction as with
    | nil => rfl
    | cons a as ih =>
      obtain ⟨first, others⟩ := List.forall_mem_cons.mp all
      rw [List.map_cons, List.mapM_cons, first, ih others]
      rfl
  rw [Expr.value, read]
  rfl

theorem value_of_array (valid : (Expr.array (as.map write)).value ≠ none) :
    ∀ a ∈ as, (write a).value ≠ none := by
  have read : (as.map write).mapM Atom.value ≠ none := by
    intro none
    exact valid (by rw [Expr.value, none]; rfl)
  clear valid
  induction as with
  | nil => simp
  | cons a as ih =>
    rw [List.map_cons, List.mapM_cons] at read
    cases first : (write a).value with
    | none => simp [first] at read
    | some value =>
      refine List.forall_mem_cons.mpr ⟨by simp [first], ih fun none => ?_⟩
      simp [first, none] at read

end Arrays

/-! ## Places -/

variable {front keys : List String} {key : String} {put : Table → Table} {t : Table}

theorem lookup_append_singleton (fresh : t.lookup key = none) (value : Value) :
    (t ++ [(key, value)]).lookup key = some value := by
  simp [List.lookup_append, fresh]

theorem assign_append_singleton (fresh : t.lookup key = none) (old value : Value) :
    Table.assign key value (t ++ [(key, old)]) = t ++ [(key, value)] := by
  have others : t.map (fun e => if e.1 = key then (key, value) else e) = t := by
    conv_rhs => rw [← List.map_id t]
    refine List.map_congr_left fun e he => if_neg fun same => ?_
    simpa [same] using List.lookup_eq_none_iff.mp fresh e he
  simp [Table.assign, others]

/-- The path leads to the table that `put` puts in its place. -/
def Leads (path : List String) (put : Table → Table) : Prop :=
  ∀ t f, descend path f (put t) = (f t).map put

theorem leads_nil : Leads [] id := fun t f => by simp [descend]

theorem descend_append (f : Table → Option Table) :
    descend (front ++ keys) f t = descend front (descend keys f) t := by
  induction front generalizing t with
  | nil => rfl
  | cons key front ih =>
    simp only [List.cons_append, descend, ih]

theorem Leads.table (leads : Leads front put) (fresh : t.lookup key = none) (defined : Bool) :
    Leads (front ++ [key]) fun inner => put (t ++ [(key, .table defined inner)]) := by
  intro inner f
  rw [descend_append, leads, descend, lookup_append_singleton fresh]
  simp only [descend, assign_append_singleton fresh, Option.map_map]
  rfl

theorem Leads.tables (leads : Leads front put) (fresh : t.lookup key = none) (items : List Table) :
    Leads (front ++ [key]) fun inner => put (t ++ [(key, .tables (items ++ [inner]))]) := by
  intro inner f
  rw [descend_append, leads, descend, lookup_append_singleton fresh]
  simp only [descend, assign_append_singleton fresh, Option.map_map, List.getLast?_concat,
    List.dropLast_concat]
  rfl

/-! ## Sections -/

/-- The values of the entries, with their keys. -/
def values (entries : List (Key × Expr)) : Option Table :=
  entries.mapM fun e => e.2.value.map (e.1.name, ·)

theorem values_cons_eq_some {e : Key × Expr} {entries : List (Key × Expr)} {new : Table} :
    values (e :: entries) = some new ↔ ∃ value rest, e.2.value = some value ∧
      values entries = some rest ∧ new = (e.1.name, value) :: rest := by
  simp only [values, List.mapM_cons, Option.bind_eq_bind, Option.bind_eq_some_iff,
    Option.map_eq_some_iff, Option.pure_def]
  grind

def entryLines (entries : List (Key × Expr)) : List Line := entries.map fun e => .entry e.1 e.2

/-- No key of the entries is in the table yet. -/
def Fresh (entries : List (Key × Expr)) (t : Table) : Prop :=
  (entries.map (·.1.name)).Nodup ∧ ∀ e ∈ entries, t.lookup e.1.name = none

theorem foldlM_append {doc doc' : List Line} {s s' s'' : State}
    (front : doc.foldlM step s = some s') (back : doc'.foldlM step s' = some s'') :
    (doc ++ doc').foldlM step s = some s'' := by
  rw [List.foldlM_append, front]
  exact back

/-- New entries are added to the table of the last header. -/
theorem foldlM_entries (leads : Leads front put) {entries : List (Key × Expr)} {new : Table}
    (fresh : Fresh entries t) (read : values entries = some new) :
    (entryLines entries).foldlM step ⟨put t, front⟩ = some ⟨put (t ++ new), front⟩ := by
  induction entries generalizing t new with
  | nil =>
    obtain rfl := Option.some.inj read
    simp [entryLines]
  | cons e entries ih =>
    obtain ⟨distinct, absent⟩ := fresh
    obtain ⟨here, distinct⟩ := List.nodup_cons.mp distinct
    obtain ⟨first, others⟩ := List.forall_mem_cons.mp absent
    obtain ⟨value, rest, found, later, rfl⟩ := values_cons_eq_some.mp read
    have still : ∀ e' ∈ entries, (t ++ [(e.1.name, value)]).lookup e'.1.name = none := by
      intro e' mem
      have differ : e'.1.name ≠ e.1.name := fun same =>
        here (List.mem_map.mpr ⟨e', mem, same⟩)
      simp [List.lookup_append, others e' mem, differ]
    have placed : step ⟨put t, front⟩ (.entry e.1 e.2) =
        some ⟨put (t ++ [(e.1.name, value)]), front⟩ := by
      simp [step, found, leads t, insert, first]
    have run := ih ⟨distinct, still⟩ later
    simp only [entryLines] at run
    simp [entryLines, List.foldlM_cons, placed, run]

/-- A new table with its entries. -/
theorem foldlM_section (leads : Leads front put) (path : List Key) (key : Key)
    (at_front : path.map Key.name = front) (absent : t.lookup key.name = none)
    {entries : List (Key × Expr)} {new : Table} (distinct : (entries.map (·.1.name)).Nodup)
    (read : values entries = some new) (current : List String) :
    (Line.header path key :: entryLines entries).foldlM step ⟨put t, current⟩ =
      some ⟨put (t ++ [(key.name, .table true new)]), front ++ [key.name]⟩ := by
  have opened : step ⟨put t, current⟩ (.header path key) =
      some ⟨put (t ++ [(key.name, .table true [])]), front ++ [key.name]⟩ := by
    simp [step, at_front, leads t, define, absent]
  have filled := foldlM_entries (leads.table absent true) (t := []) ⟨distinct, by simp⟩ read
  rw [List.foldlM_cons, opened]
  exact filled

/-- The next table of an array, with its entries. -/
theorem foldlM_tables (leads : Leads front put) (path : List Key) (key : Key)
    (at_front : path.map Key.name = front) (absent : t.lookup key.name = none)
    {entries : List (Key × Expr)} {new : Table} (distinct : (entries.map (·.1.name)).Nodup)
    (read : values entries = some new) (items : List Table) (current : List String) :
    (Line.arrayHeader path key :: entryLines entries).foldlM step
        ⟨put (if items = [] then t else t ++ [(key.name, .tables items)]), current⟩ =
      some ⟨put (t ++ [(key.name, .tables (items ++ [new]))]), front ++ [key.name]⟩ := by
  have opened : step ⟨put (if items = [] then t else t ++ [(key.name, .tables items)]), current⟩
      (.arrayHeader path key) =
        some ⟨put (t ++ [(key.name, .tables (items ++ [[]]))]), front ++ [key.name]⟩ := by
    by_cases none_yet : items = []
    · simp [step, at_front, leads _, extend, absent, none_yet]
    · simp [step, at_front, leads _, extend, none_yet, lookup_append_singleton absent,
        assign_append_singleton absent]
  have filled := foldlM_entries (leads.tables absent items) (t := []) ⟨distinct, by simp⟩ read
  rw [List.foldlM_cons, opened]
  exact filled

/-- Tables of an array, each after an empty line. -/
theorem foldlM_array (leads : Leads front put) (path : List Key) (key : Key)
    (at_front : path.map Key.name = front) (absent : t.lookup key.name = none)
    {sections : List (List (Key × Expr))} {news : List Table}
    (read : List.Forall₂ (fun entries new => (entries.map (·.1.name)).Nodup ∧
      values entries = some new) sections news) (items : List Table) (current : List String) :
    ∃ current', (sections.flatMap fun entries =>
        .blank :: .arrayHeader path key :: entryLines entries).foldlM step
          ⟨put (if items = [] then t else t ++ [(key.name, .tables items)]), current⟩ =
      some ⟨put (if items ++ news = [] then t else t ++ [(key.name, .tables (items ++ news))]),
        current'⟩ := by
  induction read generalizing items current with
  | nil => exact ⟨current, by simp⟩
  | cons first _ ih =>
    rename_i entries new sections news _
    have opened := foldlM_tables leads path key at_front absent first.1 first.2 items current
    obtain ⟨current', run⟩ := ih (items ++ [new]) (front ++ [key.name])
    refine ⟨current', ?_⟩
    rw [if_neg (by simp), List.append_assoc] at run
    rw [List.flatMap_cons, List.foldlM_append]
    change ((Line.arrayHeader path key :: entryLines entries).foldlM step _ >>= _) = _
    rw [opened]
    exact run

/-- Every value of a valid document denotes something. -/
theorem value_of_meaning {doc : List Line} (valid : meaning doc ≠ none) {key : Key} {value : Expr}
    (mem : Line.entry key value ∈ doc) : value.value ≠ none := by
  have run : ∀ s : State, doc.foldlM step s ≠ none → value.value ≠ none := by
    clear valid
    induction doc with
    | nil => cases mem
    | cons line doc ih =>
      intro s valid none
      rw [List.foldlM_cons] at valid
      cases first : step s line with
      | none => simp [first] at valid
      | some s' =>
        rcases List.mem_cons.mp mem with rfl | later
        · simp [step, none] at first
        · exact ih later s' (by simpa [first] using valid) none
  refine run ⟨[], []⟩ fun none => valid ?_
  rw [meaning, none]
  rfl

end Toml
