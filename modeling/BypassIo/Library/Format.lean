import Mathlib.Data.List.Basic

/-!
# Two-way text formats

A `Format` is a printer with a reader that inverts it, whatever text follows. Formats are
put together from literals, numbers, quoted strings, options, sequences and lists; each
combinator carries the inversion law along, so a format that is built is a format that
round-trips.

A number ends at the first character that is not a digit, so the law asks that the text
after a value does not start with one.
-/

namespace TextFormat

/-- No number goes on here. -/
def Ends (rest : List Char) : Prop := ∀ c ∈ rest.head?, c.isDigit = false

instance (rest : List Char) : Decidable (Ends rest) := Option.decidableForallMem rest.head?

theorem ends_append {front : List Char} (h : Ends front) (nonempty : front ≠ [])
    (rest : List Char) : Ends (front ++ rest) := by
  cases front with
  | nil => exact absurd rfl nonempty
  | cons c front => simpa [Ends] using h

/-- A literal that can stand after any value. -/
structure Separator where
  text : List Char
  ends : Ends text
  nonempty : text ≠ []

structure Format (α : Type) where
  write : α → List Char
  read : List Char → Option (α × List Char)
  reads : ∀ a rest, Ends rest → read (write a ++ rest) = some (a, rest)

/-- Drop a literal in front. -/
def readLit (text input : List Char) : Option (List Char) :=
  if text <+: input then some (input.drop text.length) else none

@[simp] theorem readLit_append (text rest : List Char) :
    readLit text (text ++ rest) = some rest := by
  simp [readLit]

namespace Format

variable {α β : Type}

/-! ## Numbers -/

/-- Decimal digits. -/
def nat : Format Nat where
  write n := Nat.toDigits 10 n
  read input := some (Nat.ofDigitChars 10 (input.takeWhile Char.isDigit) 0,
    input.dropWhile Char.isDigit)
  reads n rest h := by
    have digits : ∀ c ∈ Nat.toDigits 10 n, c.isDigit = true := fun c hc =>
      Nat.isDigit_of_mem_toDigits (by decide) (by decide) hc
    have stop : rest.takeWhile Char.isDigit = [] ∧ rest.dropWhile Char.isDigit = rest := by
      cases rest with
      | nil => simp
      | cons c rest =>
        have := h c (by simp)
        simp [this]
    rw [List.takeWhile_append_of_pos digits, List.dropWhile_append_of_pos digits, stop.1, stop.2,
      List.append_nil, Nat.ofDigitChars_ten_toDigits]

/-- A format of `α` read and written as `β`. -/
def via (f : Format β) (forth : α → β) (back : β → Option α)
    (inverse : ∀ a, back (forth a) = some a) : Format α where
  write a := f.write (forth a)
  read input := (f.read input).bind fun (b, rest) => (back b).map fun a => (a, rest)
  reads a rest h := by simp [f.reads (forth a) rest h, inverse]

/-- An integer with its sign. -/
def int : Format Int where
  write
    | .ofNat n => nat.write n
    | .negSucc n => '-' :: nat.write (n + 1)
  read
    | '-' :: rest => (nat.read rest).map fun (n, rest) => (-(n : Int), rest)
    | input => (nat.read input).map fun (n, rest) => (n, rest)
  reads i rest h := by
    cases i with
    | ofNat n =>
      have read := nat.reads n rest h
      have first : ∀ tail, nat.write n ++ rest ≠ '-' :: tail := by
        intro tail same
        obtain ⟨c, digits, hc⟩ : ∃ c digits, Nat.toDigits 10 n = c :: digits :=
          List.exists_cons_of_ne_nil Nat.toDigits_ne_nil
        have digit : c.isDigit = true :=
          Nat.isDigit_of_mem_toDigits (b := 10) (by decide) (by decide) (by rw [hc]; simp)
        change Nat.toDigits 10 n ++ rest = _ at same
        rw [hc] at same
        obtain rfl : c = '-' := (List.cons.inj same).1
        exact absurd digit (by decide)
      dsimp only
      split
      · rename_i tail same
        exact absurd same (first tail)
      · rw [read]
        rfl
    | negSucc n =>
      have read := nat.reads (n + 1) rest h
      simp only [List.cons_append, read]
      rfl

/-! ## Strings -/

def hexDigit (n : Nat) : Char := Nat.digitChar n

def hexValue (c : Char) : Nat := if c.isDigit then c.toNat - 48 else c.toNat - 87

/-- The escape of one character inside quotes. -/
def escape (c : Char) : List Char :=
  if c = '"' then ['\\', '"']
  else if c = '\\' then ['\\', '\\']
  else if c = '\x08' then ['\\', 'b']
  else if c = '\x0c' then ['\\', 'f']
  else if c = '\n' then ['\\', 'n']
  else if c = '\r' then ['\\', 'r']
  else if c = '\t' then ['\\', 't']
  else if c.toNat < 32 then ['\\', 'u', '0', '0', hexDigit (c.toNat / 16), hexDigit (c.toNat % 16)]
  else [c]

/-- Read characters up to the closing quote. -/
def readChars : List Char → Option (List Char × List Char)
  | '"' :: rest => some ([], rest)
  | '\\' :: 'u' :: '0' :: '0' :: high :: low :: rest =>
    (readChars rest).map fun (cs, rest) =>
      (Char.ofNat (hexValue high * 16 + hexValue low) :: cs, rest)
  | '\\' :: c :: rest =>
    let plain := match c with
      | 'b' => '\x08'
      | 'f' => '\x0c'
      | 'n' => '\n'
      | 'r' => '\r'
      | 't' => '\t'
      | c => c
    (readChars rest).map fun (cs, rest) => (plain :: cs, rest)
  | c :: rest => (readChars rest).map fun (cs, rest) => (c :: cs, rest)
  | [] => none

theorem hexValue_hexDigit : ∀ n < 16, hexValue (hexDigit n) = n := by decide

theorem readChars_escape (c : Char) (input : List Char) :
    readChars (escape c ++ input) = (readChars input).map fun (cs, rest) => (c :: cs, rest) := by
  unfold escape
  split_ifs with h₁ h₂ h₃ h₄ h₅ h₆ h₇ control
  · subst h₁; rfl
  · subst h₂; rfl
  · subst h₃; rfl
  · subst h₄; rfl
  · subst h₅; rfl
  · subst h₆; rfl
  · subst h₇; rfl
  · have high := hexValue_hexDigit (c.toNat / 16) (by omega)
    have low := hexValue_hexDigit (c.toNat % 16) (by omega)
    have whole : c.toNat / 16 * 16 + c.toNat % 16 = c.toNat := Nat.div_add_mod' _ _
    simp only [List.cons_append, List.nil_append, readChars, high, low, whole, Char.ofNat_toNat]
  · rw [List.singleton_append, readChars]
    · exact h₁
    · exact fun _ _ _ backslash _ => h₂ backslash
    · exact fun _ _ backslash _ => h₂ backslash

/-- A string in quotes. -/
def str : Format String where
  write s := '"' :: (s.toList.flatMap escape ++ ['"'])
  read
    | '"' :: input => (readChars input).map fun (cs, rest) => (String.ofList cs, rest)
    | _ => none
  reads s rest _ := by
    have body : ∀ cs : List Char,
        readChars (cs.flatMap escape ++ '"' :: rest) = some (cs, rest) := by
      intro cs
      induction cs with
      | nil => rfl
      | cons c cs ih => simp [readChars_escape, ih]
    simp [body]

/-! ## Putting formats together -/

/-- A value between two literals. -/
def between (front : List Char) (f : Format α) (back : Separator) : Format α where
  write a := front ++ (f.write a ++ back.text)
  read input := do
    let input ← readLit front input
    let (a, rest) ← f.read input
    let rest ← readLit back.text rest
    return (a, rest)
  reads a rest _ := by
    have value := f.reads a (back.text ++ rest) (ends_append back.ends back.nonempty rest)
    simp [value]

/-- Two values with a literal between them. -/
def pair (f : Format α) (mid : Separator) (g : Format β) : Format (α × β) where
  write p := f.write p.1 ++ (mid.text ++ g.write p.2)
  read input := do
    let (a, rest) ← f.read input
    let rest ← readLit mid.text rest
    let (b, rest) ← g.read rest
    return ((a, b), rest)
  reads p rest h := by
    have first := f.reads p.1 (mid.text ++ (g.write p.2 ++ rest))
      (ends_append mid.ends mid.nonempty _)
    simp [first, g.reads p.2 rest h]

/-- A literal for `none`, or a value that does not start like it. -/
def option (absent : List Char) (f : Format α)
    (other : ∀ a rest, readLit absent (f.write a ++ rest) = none) : Format (Option α) where
  write
    | none => absent
    | some a => f.write a
  read input :=
    match readLit absent input with
    | some rest => some (none, rest)
    | none => (f.read input).map fun (a, rest) => (some a, rest)
  reads x rest h := by
    cases x with
    | none => simp
    | some a =>
      have value := f.reads a rest h
      simp [other a rest, value]

/-- The elements of a list after the first one. -/
def readTail (f : Format α) (sep close : List Char) : Nat → List Char →
    Option (List α × List Char)
  | 0, _ => none
  | fuel + 1, input =>
    match readLit sep input with
    | some input => do
      let (a, rest) ← f.read input
      let (as, rest) ← readTail f sep close fuel rest
      return (a :: as, rest)
    | none => (readLit close input).map fun rest => ([], rest)

/-- The text of a list after its first element. -/
def writeTail (f : Format α) (sep close : List Char) : List α → List Char
  | [] => close
  | a :: as => sep ++ (f.write a ++ writeTail f sep close as)

theorem length_le_writeTail (f : Format α) {sep : List Char} (nonempty : sep ≠ [])
    (close : List Char) (as : List α) : as.length ≤ (writeTail f sep close as).length := by
  have := List.length_pos_of_ne_nil nonempty
  induction as with
  | nil => simp
  | cons a as ih =>
    simp only [writeTail, List.length_append, List.length_cons]
    omega

theorem ends_writeTail (f : Format α) (sep close : Separator) (as : List α) (rest : List Char) :
    Ends (writeTail f sep.text close.text as ++ rest) := by
  cases as with
  | nil => exact ends_append close.ends close.nonempty rest
  | cons a as =>
    rw [writeTail, List.append_assoc]
    exact ends_append sep.ends sep.nonempty _

theorem readTail_writeTail (f : Format α) (sep close : Separator)
    (differ : ∀ rest, readLit sep.text (close.text ++ rest) = none) (rest : List Char)
    (as : List α) (fuel : Nat) (enough : as.length < fuel) :
    readTail f sep.text close.text fuel (writeTail f sep.text close.text as ++ rest) =
      some (as, rest) := by
  induction as generalizing fuel with
  | nil =>
    obtain ⟨fuel, rfl⟩ := Nat.exists_eq_succ_of_ne_zero (Nat.ne_of_gt enough)
    simp [readTail, writeTail, differ]
  | cons a as ih =>
    obtain ⟨fuel, rfl⟩ := Nat.exists_eq_succ_of_ne_zero (Nat.ne_of_gt (Nat.zero_lt_of_lt enough))
    have later := ih fuel (by simpa using enough)
    have value := f.reads a _ (ends_writeTail f sep close as rest)
    simp [readTail, writeTail, value, later]

/-- The elements of a list that has some come back. -/
theorem reads_elements (f : Format α) (sep close : Separator)
    (differ : ∀ rest, readLit sep.text (close.text ++ rest) = none) (a : α) (as : List α)
    (rest : List Char) :
    (do
      let (a, rest) ← f.read (f.write a ++ (writeTail f sep.text close.text as ++ rest))
      let (as, rest) ← readTail f sep.text close.text (rest.length + 1) rest
      return (a :: as, rest)) = some (a :: as, rest) := by
  have value := f.reads a _ (ends_writeTail f sep close as rest)
  have enough := length_le_writeTail f sep.nonempty close.text as
  have later := readTail_writeTail f sep close differ rest as
    ((writeTail f sep.text close.text as ++ rest).length + 1) (by
      rw [List.length_append]
      omega)
  simp only [value, later, Option.bind_eq_bind, Option.bind_some, pure]

/-- A list: a literal for the empty one, else its elements between literals. -/
def list (empty start : List Char) (sep close : Separator) (f : Format α)
    (some_differs : ∀ rest, readLit empty (start ++ rest) = none)
    (differ : ∀ rest, readLit sep.text (close.text ++ rest) = none) : Format (List α) where
  write
    | [] => empty
    | a :: as => start ++ (f.write a ++ writeTail f sep.text close.text as)
  read input :=
    match readLit empty input with
    | some rest => some ([], rest)
    | none => do
      let input ← readLit start input
      let (a, rest) ← f.read input
      let (as, rest) ← readTail f sep.text close.text (rest.length + 1) rest
      return (a :: as, rest)
  reads as rest _ := by
    cases as with
    | nil => simp
    | cons a as =>
      simp only [List.append_assoc, some_differs, readLit_append, Option.bind_eq_bind,
        Option.bind_some]
      exact reads_elements f sep close differ a as rest

/-- A list between two literals, also when it is empty. -/
def enclosed (start : List Char) (sep close : Separator) (f : Format α)
    (first : ∀ a rest, readLit close.text (f.write a ++ rest) = none)
    (differ : ∀ rest, readLit sep.text (close.text ++ rest) = none) : Format (List α) where
  write
    | [] => start ++ close.text
    | a :: as => start ++ (f.write a ++ writeTail f sep.text close.text as)
  read input := do
    let input ← readLit start input
    match readLit close.text input with
    | some rest => return ([], rest)
    | none =>
      let (a, rest) ← f.read input
      let (as, rest) ← readTail f sep.text close.text (rest.length + 1) rest
      return (a :: as, rest)
  reads as rest _ := by
    cases as with
    | nil => simp
    | cons a as =>
      simp only [List.append_assoc, first, readLit_append, Option.bind_eq_bind,
        Option.bind_some]
      exact reads_elements f sep close differ a as rest

theorem writeTail_eq_intercalate (f : Format α) (sep close : List Char) (a : α) (as : List α) :
    f.write a ++ writeTail f sep close as = sep.intercalate ((a :: as).map f.write) ++ close := by
  induction as generalizing a with
  | nil => simp [writeTail, List.intercalate]
  | cons b as ih =>
    rw [writeTail, ih b]
    simp [List.intercalate_cons_cons]

/-! ## Whole texts -/

/-- Read a text that is one value and nothing else. -/
def parse (f : Format α) (text : String) : Option α :=
  match f.read text.toList with
  | some (a, []) => some a
  | _ => none

def print (f : Format α) (a : α) : String := String.ofList (f.write a)

/-- Printed texts parse. -/
theorem parse_print (f : Format α) (a : α) : f.parse (f.print a) = some a := by
  have read := f.reads a [] (by simp [Ends])
  rw [List.append_nil] at read
  rw [parse, print, String.toList_ofList, read]

end Format

end TextFormat
