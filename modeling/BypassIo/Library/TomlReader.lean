import BypassIo.Library.Format
import BypassIo.Library.Toml

/-!
# A reader of documents

`Toml.reader` reads exactly the documents of `Toml.Line`, laid out as `Line.text` lays them out,
and shows that there is a `Reader`.
-/

namespace Toml
open TextFormat

/-! ## Strings and keys -/

/-- Up to the quote that ends a string. -/
def readBody : List Char → Option (List Char × List Char)
  | '"' :: rest => some ([], rest)
  | '\\' :: c :: rest => (readBody rest).map fun (body, rest) => ('\\' :: c :: body, rest)
  | c :: rest => (readBody rest).map fun (body, rest) => (c :: body, rest)
  | [] => none

theorem readBody_append {body : List Char} (closed : isBody body = true) (rest : List Char) :
    readBody (body ++ '"' :: rest) = some (body, rest) := by
  induction body using isBody.induct with
  | case1 => rfl
  | case2 c body ih =>
    simp only [isBody, Bool.and_eq_true] at closed
    simp [readBody, ih closed.2]
  | case3 c body other ih =>
    rw [isBody] at closed
    · obtain ⟨plain, closed⟩ := Bool.and_eq_true_iff.mp closed
      have quote : c ≠ '"' ∧ c ≠ '\\' := by
        simp only [isUnescaped, Bool.and_eq_true, decide_eq_true_eq] at plain
        exact plain.1
      rw [List.cons_append, readBody, ih closed]
      · rfl
      · exact quote.1
      · exact fun _ _ same => absurd same quote.2
    · exact other

def basicString : Format BasicString where
  write s := '"' :: (s.body ++ ['"'])
  read
    | '"' :: input => do
      let (body, rest) ← readBody input
      if closed : isBody body = true then some (⟨body, closed⟩, rest) else none
    | _ => none
  reads s rest _ := by
    simp [readBody_append s.closed, s.closed]

theorem takeWhile_key (key : Key) {c : Char} (other : isBare c = false) (rest : List Char) :
    (key.name.toList ++ c :: rest).takeWhile isBare = key.name.toList ∧
      (key.name.toList ++ c :: rest).dropWhile isBare = c :: rest := by
  rw [List.takeWhile_append_of_pos key.isBare_of_mem,
    List.dropWhile_append_of_pos key.isBare_of_mem]
  simp [other]

def toKey (name : List Char) : Option Key :=
  if bare : isKey (String.ofList name) = true then some ⟨String.ofList name, bare⟩ else none

@[simp] theorem toKey_name (key : Key) : toKey key.name.toList = some key := by
  simp [toKey, key.bare]

/-- A key with its value. -/
def keyed {α : Type} (f : Format α) : Format (Key × α) where
  write e := equals e.1 (f.write e.2)
  read input := do
    let key ← toKey (input.takeWhile isBare)
    let rest ← readLit [' ', '=', ' '] (input.dropWhile isBare)
    let (a, rest) ← f.read rest
    return ((key, a), rest)
  reads e rest h := by
    have name := takeWhile_key e.1 (c := ' ') (by decide) ('=' :: ' ' :: (f.write e.2 ++ rest))
    have input : equals e.1 (f.write e.2) ++ rest =
        e.1.name.toList ++ ' ' :: '=' :: ' ' :: (f.write e.2 ++ rest) := by simp [equals]
    have lit : readLit [' ', '=', ' '] (' ' :: '=' :: ' ' :: (f.write e.2 ++ rest)) =
        some (f.write e.2 ++ rest) := readLit_append [' ', '=', ' '] _
    rw [input, name.1, name.2, lit]
    simp [f.reads e.2 rest h]

/-- The first character of a key. -/
theorem key_starts (key : Key) : ∃ c cs, key.name.toList = c :: cs ∧ isBare c = true := by
  obtain ⟨c, cs, name⟩ : ∃ c cs, key.name.toList = c :: cs :=
    List.exists_cons_of_ne_nil (by simpa using key.name_ne_empty)
  exact ⟨c, cs, name, key.isBare_of_mem c (by simp [name])⟩

/-! ## Values -/

theorem digits_start (n : Nat) : ∃ c cs, Nat.toDigits 10 n = c :: cs ∧ c.isDigit = true := by
  obtain ⟨c, cs, digits⟩ : ∃ c cs, Nat.toDigits 10 n = c :: cs :=
    List.exists_cons_of_ne_nil Nat.toDigits_ne_nil
  exact ⟨c, cs, digits,
    Nat.isDigit_of_mem_toDigits (b := 10) (by decide) (by decide) (by rw [digits]; simp)⟩

/-- The first character of a string or number. -/
theorem atom_starts (a : Atom) : ∃ c cs, a.text = c :: cs ∧ (c = '"' ∨ c.isDigit = true) := by
  cases a with
  | string s => exact ⟨'"', s.body ++ ['"'], rfl, .inl rfl⟩
  | integer n =>
    obtain ⟨c, cs, digits, digit⟩ := digits_start n
    exact ⟨c, cs, digits, .inr digit⟩

theorem readLit_of_ne {c d : Char} (other : d ≠ c) (lit rest : List Char) :
    readLit (d :: lit) (c :: rest) = none := by
  simp [readLit, other]

def atom : Format Atom where
  write := Atom.text
  read
    | '"' :: input => (basicString.read ('"' :: input)).map fun (s, rest) => (.string s, rest)
    | input => (Format.nat.read input).map fun (n, rest) => (.integer n, rest)
  reads a rest h := by
    cases a with
    | string s =>
      have read : basicString.read ('"' :: (s.body ++ ['"'] ++ rest)) = some (s, rest) :=
        basicString.reads s rest h
      change (basicString.read ('"' :: (s.body ++ ['"'] ++ rest))).map _ = _
      rw [read]
      rfl
    | integer n =>
      have read : Format.nat.read (Nat.toDigits 10 n ++ rest) = some (n, rest) :=
        Format.nat.reads n rest h
      obtain ⟨c, cs, digits, digit⟩ := digits_start n
      have other : c ≠ '"' := by
        rintro rfl
        exact absurd digit (by decide)
      simp only [Atom.text, digits, List.cons_append] at read ⊢
      split
      · rename_i same
        exact absurd (List.cons.inj same).1 other
      · rw [read]
        rfl

def comma : Separator where
  text := [',', ' ']
  ends := by decide
  nonempty := by decide

def array : Format (List Atom) :=
  .enclosed ['['] comma ⟨[']'], by decide, by decide⟩ atom
    (fun a rest => by
      obtain ⟨c, cs, text, first⟩ := atom_starts a
      have other : ']' ≠ c := by
        rintro rfl
        revert first
        decide
      change readLit [']'] (a.text ++ rest) = none
      rw [text]
      exact readLit_of_ne other [] _)
    (fun rest => by simp [readLit, comma])

def inlineTable : Format (List (Key × Atom)) :=
  .enclosed ['{', ' '] comma ⟨[' ', '}'], by decide, by decide⟩ (keyed atom)
    (fun e rest => by
      obtain ⟨c, cs, name, bare⟩ := key_starts e.1
      have other : ' ' ≠ c := by
        rintro rfl
        exact absurd bare (by decide)
      change readLit [' ', '}'] (equals e.1 e.2.text ++ rest) = none
      rw [equals, name]
      exact readLit_of_ne other ['}'] _)
    (fun rest => by simp [readLit, comma])

theorem array_write (items : List Atom) :
    array.write items = '[' :: (commas (items.map Atom.text) ++ [']']) := by
  cases items with
  | nil => rfl
  | cons a items =>
    exact congrArg ('[' :: ·) (Format.writeTail_eq_intercalate atom comma.text [']'] a items)

theorem inlineTable_write (entries : List (Key × Atom)) :
    inlineTable.write entries = (Expr.inlineTable entries).text := by
  cases entries with
  | nil => rfl
  | cons e entries =>
    exact congrArg (['{', ' '] ++ ·)
      (Format.writeTail_eq_intercalate (keyed atom) comma.text [' ', '}'] e entries)

def expr : Format Expr where
  write := Expr.text
  read
    | '[' :: input => (array.read ('[' :: input)).map fun (items, rest) => (.array items, rest)
    | '{' :: input =>
      (inlineTable.read ('{' :: input)).map fun (entries, rest) => (.inlineTable entries, rest)
    | input => (atom.read input).map fun (a, rest) => (.atom a, rest)
  reads e rest h := by
    cases e with
    | atom a =>
      have read : atom.read (a.text ++ rest) = some (a, rest) := atom.reads a rest h
      obtain ⟨c, cs, text, first⟩ := atom_starts a
      simp only [Expr.text, text, List.cons_append] at read ⊢
      split
      · rename_i same
        obtain rfl := (List.cons.inj same).1
        exact absurd first (by decide)
      · rename_i same
        obtain rfl := (List.cons.inj same).1
        exact absurd first (by decide)
      · rw [read]
        rfl
    | array items =>
      have read := array.reads items rest h
      rw [array_write] at read
      exact congrArg (Option.map fun p => (Expr.array p.1, p.2)) read
    | inlineTable entries =>
      have read := inlineTable.reads entries rest h
      rw [inlineTable_write] at read
      exact congrArg (Option.map fun p => (Expr.inlineTable p.1, p.2)) read

/-! ## Lines -/

/-- The keys of a header, up to a bracket. -/
def readPath : Nat → List Char → Option ((List Key × Key) × List Char)
  | 0, _ => none
  | fuel + 1, input => do
    let key ← toKey (input.takeWhile isBare)
    match input.dropWhile isBare with
    | '.' :: rest =>
      (readPath fuel rest).map fun ((front, last), rest) => ((key :: front, last), rest)
    | rest => some (([], key), rest)

theorem readPath_append (front : List Key) (key : Key) (rest : List Char) (fuel : Nat)
    (enough : front.length < fuel) :
    readPath fuel (path front key ++ ']' :: rest) = some ((front, key), ']' :: rest) := by
  induction front generalizing fuel with
  | nil =>
    obtain ⟨fuel, rfl⟩ := Nat.exists_eq_succ_of_ne_zero (Nat.ne_of_gt enough)
    have name := takeWhile_key key (c := ']') (by decide) rest
    simp [readPath, path, name.1, name.2]
  | cons first front ih =>
    obtain ⟨fuel, rfl⟩ := Nat.exists_eq_succ_of_ne_zero (Nat.ne_of_gt (Nat.zero_lt_of_lt enough))
    have later := ih fuel (by simpa using enough)
    have name := takeWhile_key first (c := '.') (by decide) (path front key ++ ']' :: rest)
    have input : path (first :: front) key ++ ']' :: rest =
        first.name.toList ++ '.' :: (path front key ++ ']' :: rest) := by simp [path]
    simp [readPath, input, name.1, name.2, later]

def readLine : List Char → Option (Line × List Char)
  | '\n' :: rest => some (.blank, rest)
  | '[' :: '[' :: input => do
    let ((front, key), rest) ← readPath input.length input
    let rest ← readLit [']', ']', '\n'] rest
    return (.arrayHeader front key, rest)
  | '[' :: input => do
    let ((front, key), rest) ← readPath input.length input
    let rest ← readLit [']', '\n'] rest
    return (.header front key, rest)
  | input => do
    let ((key, value), rest) ← (keyed expr).read input
    let rest ← readLit ['\n'] rest
    return (.entry key value, rest)

theorem length_le_path (front : List Key) (key : Key) : front.length ≤ (path front key).length := by
  induction front with
  | nil => simp
  | cons first front ih =>
    simp only [path, List.flatMap_cons, List.length_append, List.length_cons] at ih ⊢
    omega

theorem path_starts (front : List Key) (key : Key) :
    ∃ c cs, path front key = c :: cs ∧ isBare c = true := by
  cases front with
  | nil => exact key_starts key
  | cons first front =>
    obtain ⟨c, cs, name, bare⟩ := key_starts first
    exact ⟨c, cs ++ ('.' :: path front key), by simp [path, name], bare⟩

theorem readPath_closed (front : List Key) (key : Key) (rest : List Char) :
    readPath (path front key ++ ']' :: rest).length (path front key ++ ']' :: rest) =
      some ((front, key), ']' :: rest) := by
  have long := length_le_path front key
  refine readPath_append front key rest _ ?_
  simp only [List.length_append, List.length_cons]
  omega

theorem readLine_text (line : Line) (rest : List Char) :
    readLine (line.text ++ rest) = some (line, rest) := by
  cases line with
  | blank => rfl
  | header front key =>
    have read := readPath_closed front key ('\n' :: rest)
    obtain ⟨c, cs, text, bare⟩ := path_starts front key
    have other : c ≠ '[' := by
      rintro rfl
      exact absurd bare (by decide)
    have input : (Line.header front key).text ++ rest =
        '[' :: c :: (cs ++ ']' :: '\n' :: rest) := by simp [Line.text, text]
    rw [text, List.cons_append] at read
    rw [input, readLine, read]
    · rfl
    · exact fun _ same => other (List.cons.inj same).1
  | arrayHeader front key =>
    have read := readPath_closed front key (']' :: '\n' :: rest)
    have input : (Line.arrayHeader front key).text ++ rest =
        '[' :: '[' :: (path front key ++ ']' :: ']' :: '\n' :: rest) := by simp [Line.text]
    rw [input, readLine, read]
    rfl
  | entry key value =>
    have read : (keyed expr).read (equals key value.text ++ '\n' :: rest) =
        some ((key, value), '\n' :: rest) :=
      (keyed expr).reads (key, value) ('\n' :: rest) (by simp [Ends])
    obtain ⟨c, cs, name, bare⟩ := key_starts key
    have input : (Line.entry key value).text ++ rest = equals key value.text ++ '\n' :: rest := by
      simp [Line.text]
    obtain ⟨tail, starts⟩ : ∃ tail, equals key value.text ++ '\n' :: rest = c :: tail :=
      ⟨_, by simp only [equals, name, List.cons_append]; rfl⟩
    have other : c ≠ '\n' ∧ c ≠ '[' :=
      ⟨by rintro rfl; exact absurd bare (by decide), by rintro rfl; exact absurd bare (by decide)⟩
    rw [starts] at read
    rw [input, starts, readLine, read]
    · rfl
    · exact fun _ same => other.1 (List.cons.inj same).1
    · exact fun _ same => other.2 (List.cons.inj same).1
    · exact fun _ same => other.2 (List.cons.inj same).1

theorem line_text_ne_nil (line : Line) : line.text ≠ [] := by
  cases line <;> simp [Line.text]

def readLines : Nat → List Char → Option (List Line)
  | _, [] => some []
  | 0, _ :: _ => none
  | fuel + 1, c :: input => do
    let (line, rest) ← readLine (c :: input)
    return line :: (← readLines fuel rest)

theorem readLines_text (doc : List Line) (fuel : Nat) (enough : doc.length ≤ fuel) :
    readLines fuel (text doc) = some doc := by
  induction doc generalizing fuel with
  | nil => simp [text, readLines]
  | cons line doc ih =>
    obtain ⟨fuel, rfl⟩ := Nat.exists_eq_succ_of_ne_zero (Nat.ne_of_gt (Nat.zero_lt_of_lt enough))
    have later := ih fuel (by simpa using enough)
    have read := readLine_text line (text doc)
    obtain ⟨c, cs, input⟩ : ∃ c cs, line.text ++ text doc = c :: cs :=
      List.exists_cons_of_ne_nil (List.append_ne_nil_of_left_ne_nil (line_text_ne_nil line) _)
    rw [text, List.flatMap_cons, ← text, input, readLines, ← input, read]
    simp [later]

theorem length_le_text (doc : List Line) : doc.length ≤ (text doc).length := by
  induction doc with
  | nil => simp [text]
  | cons line doc ih =>
    have long := List.length_pos_of_ne_nil (line_text_ne_nil line)
    simp only [text, List.flatMap_cons, List.length_append, List.length_cons] at ih ⊢
    omega

def reader : Reader where
  parse input :=
    match (readLines input.toList.length input.toList).bind meaning with
    | some table => .ok table
    | none => .error "invalid TOML"
  parses doc table := by
    have read := readLines_text doc (text doc).length (length_le_text doc)
    rw [String.toList_ofList, read, Option.bind_some]
    cases meaning doc <;> simp

end Toml
