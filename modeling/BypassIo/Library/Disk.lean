import BypassIo.Library.Bytes
import Mathlib.Logic.Function.Basic
import Mathlib.Data.List.Infix

/-!
# A file system with interruptible calls

A disk maps absolute paths to file contents and records which directories exist.
Every system call has one regular effect and a set of disks that an interruption
(a failed or killed call) can leave behind: a write or an append may have stored any
initial part of its bytes, a rename has happened or has not, and a recursive removal
may have removed any part of its tree.

## Main definitions

* `Path.join`: `Path::join` followed by the lookup of `.` and `..`.
* `Call.effect`: what an uninterrupted call replies and does.
* `Call.Torn`: what an interrupted call may leave behind.
* `Disk.EqOff`: two disks hold the same files off a set of paths.
-/

namespace FileSystem
open Octet

/-! ## Paths -/

/-- An absolute path without symbolic links, from the root down. -/
abbrev Path := List String

/-- The names between the slashes; empty names and `.` do not move. -/
def components (s : String) : List String :=
  ((s.toList.splitOn '/').map String.ofList).filter fun c => c ≠ "" ∧ c ≠ "."

/-- `Path::join` as the system resolves it: an absolute argument replaces the base. -/
def Path.join (p : Path) (s : String) : Path :=
  let base := if s.toList.head? = some '/' then [] else p
  (components s).foldl (fun q c => if c = ".." then q.dropLast else q ++ [c]) base

/-- A name that joins as one component. -/
def IsName (s : String) : Prop := '/' ∉ s.toList ∧ s ≠ "" ∧ s ≠ "." ∧ s ≠ ".."

instance (s : String) : Decidable (IsName s) := inferInstanceAs (Decidable (_ ∧ _))

theorem components_of_isName {s : String} (h : IsName s) : components s = [s] := by
  simp [components, List.splitOn_eq_singleton h.1, h.2.1, h.2.2.1]

theorem Path.join_of_isName (p : Path) {s : String} (h : IsName s) : p.join s = p ++ [s] := by
  have relative : s.toList.head? ≠ some '/' := fun head => h.1 (List.mem_of_mem_head? head)
  simp [Path.join, components_of_isName h, relative, h.2.2.2]

/-- Joining `a/b` descends twice. -/
theorem Path.join_slash (p : Path) {a b : String} (ha : IsName a) (hb : IsName b) :
    p.join (a ++ "/" ++ b) = p ++ [a, b] := by
  have split : (a ++ "/" ++ b).toList.splitOn '/' = [a.toList, b.toList] := by
    rw [String.toList_append, String.toList_append, List.append_assoc]
    change (a.toList ++ '/' :: b.toList).splitOn '/' = _
    rw [List.splitOn_append_cons_self_of_not_mem ha.1, List.splitOn_eq_singleton hb.1]
  have relative : (a ++ "/" ++ b).toList.head? ≠ some '/' := by
    have nonempty : a.toList ≠ [] := by simpa using ha.2.1
    rw [String.toList_append, String.toList_append, List.append_assoc,
      List.head?_append_of_ne_nil _ nonempty]
    exact fun head => ha.1 (List.mem_of_mem_head? head)
  simp only [Path.join, components, split, if_neg relative]
  simp [ha.2.1, ha.2.2.1, ha.2.2.2, hb.2.1, hb.2.2.1, hb.2.2.2]

/-- The last name holds a NUL. -/
def Path.hasNul (p : Path) : Bool := p.getLast?.any fun name => name.toList.contains '\x00'

@[simp] theorem Path.hasNul_append_singleton (p : Path) (name : String) :
    Path.hasNul (p ++ [name]) = name.toList.contains '\x00' := by
  simp [Path.hasNul]

/-! ## Disks -/

inductive IoError where
  | notFound
  | fileTooLarge
  | invalidData
  | unexpectedEof
  | invalidInput
  | device
  deriving DecidableEq, Repr

/-- The message of `io::Error`'s `Display`. -/
def IoError.text : IoError → String
  | .notFound => "No such file or directory (os error 2)"
  | .fileTooLarge => "File too large (os error 27)"
  | .invalidData => "stream did not contain valid UTF-8"
  | .unexpectedEof => "failed to fill whole buffer"
  | .invalidInput => "file name contained an unexpected NUL byte"
  | .device => "Input/output error (os error 5)"

/-- File contents and existing directories. -/
structure Disk where
  files : Path → Option Bytes
  dirs : Path → Bool

/-- The largest file offset: `off_t` is a signed 64-bit integer. -/
def maxFileLen : Nat := 2 ^ 63 - 1

namespace Disk

def setFile (d : Disk) (p : Path) (x : Option Bytes) : Disk :=
  { d with files := Function.update d.files p x }

/-- Add a directory and all its ancestors. -/
def makeDirs (d : Disk) (p : Path) : Disk :=
  { d with dirs := fun q => d.dirs q || decide (q <+: p) }

/-- Remove a directory with everything below it. -/
def removeTree (d : Disk) (p : Path) : Disk where
  files q := if p <+: q then none else d.files q
  dirs q := if p <+: q then false else d.dirs q

theorem removeTree_files_of_prefix (d : Disk) {p q : Path} (h : p <+: q) :
    (d.removeTree p).files q = none := if_pos h

theorem removeTree_files_of_not (d : Disk) {p q : Path} (h : ¬ p <+: q) :
    (d.removeTree p).files q = d.files q := if_neg h

@[simp] theorem setFile_files_self (d : Disk) (p : Path) (x : Option Bytes) :
    (d.setFile p x).files p = x := by simp [setFile]

@[simp] theorem setFile_files_of_ne (d : Disk) {p q : Path} (x : Option Bytes) (h : q ≠ p) :
    (d.setFile p x).files q = d.files q := by simp [setFile, h]

@[simp] theorem setFile_dirs (d : Disk) (p : Path) (x : Option Bytes) :
    (d.setFile p x).dirs = d.dirs := rfl

@[simp] theorem makeDirs_files (d : Disk) (p : Path) : (d.makeDirs p).files = d.files := rfl

@[simp] theorem makeDirs_dirs (d : Disk) (p q : Path) :
    (d.makeDirs p).dirs q = (d.dirs q || decide (q <+: p)) := rfl

/-- Off `K` the second disk holds the same files, and no directory is lost. -/
structure EqOff (K : Path → Prop) (d d' : Disk) : Prop where
  files : ∀ q, ¬ K q → d'.files q = d.files q
  dirs : ∀ q, ¬ K q → d.dirs q = true → d'.dirs q = true

namespace EqOff

variable {K L : Path → Prop} {d d' d'' : Disk}

theorem refl (K : Path → Prop) (d : Disk) : EqOff K d d := ⟨fun _ _ => rfl, fun _ _ h => h⟩

theorem trans (h : EqOff K d d') (g : EqOff K d' d'') : EqOff K d d'' :=
  ⟨fun q hq => (g.files q hq).trans (h.files q hq), fun q hq hd => g.dirs q hq (h.dirs q hq hd)⟩

theorem mono (h : EqOff K d d') (le : ∀ q, K q → L q) : EqOff L d d' :=
  ⟨fun q hq => h.files q fun hk => hq (le q hk), fun q hq => h.dirs q fun hk => hq (le q hk)⟩

theorem setFile {p : Path} (hp : K p) (d : Disk) (x : Option Bytes) : EqOff K d (d.setFile p x) :=
  ⟨fun _ hq => setFile_files_of_ne _ _ fun e => hq (e ▸ hp), fun _ _ h => h⟩

theorem makeDirs (d : Disk) (p : Path) : EqOff K d (d.makeDirs p) :=
  ⟨fun _ _ => rfl, fun _ _ h => by simp [h]⟩

end EqOff

end Disk

/-! ## System calls -/

inductive Call where
  /-- `fs::create_dir_all` -/
  | createDirAll (p : Path)
  /-- `fs::write`; a name with a NUL is refused -/
  | write (p : Path) (b : Bytes)
  /-- `fs::rename` -/
  | rename (p q : Path)
  /-- `fs::read`, `read_to_end`, or a read-only mapping of the whole file -/
  | read (p : Path)
  /-- `Path::exists` -/
  | pathExists (p : Path)
  /-- `File::open` -/
  | openRead (p : Path)
  /-- `File::metadata` followed by `len` -/
  | fileLen (p : Path)
  /-- `fs::remove_dir_all` -/
  | removeDirAll (p : Path)
  /-- `OpenOptions::new().create(true).append(true).open` -/
  | openAppend (p : Path)
  /-- `write_all` on a file open for appending -/
  | append (p : Path) (b : Bytes)
  /-- `File::set_len(0)` -/
  | truncate (p : Path)
  /-- `File::sync_all` -/
  | sync (p : Path)

namespace Call

/-- What a call replies when it succeeds. -/
@[reducible] def Reply : Call → Type
  | .read _ => Bytes
  | .pathExists _ => Bool
  | .fileLen _ => Nat
  | _ => Unit

/-- The reply and the effect of an uninterrupted call. -/
def effect : (c : Call) → Disk → Except IoError c.Reply × Disk
  | .createDirAll p, d => (.ok (), d.makeDirs p)
  | .write p b, d =>
    if p.hasNul then (.error .invalidInput, d)
    else if d.dirs p.dropLast then (.ok (), d.setFile p (some b)) else (.error .notFound, d)
  | .rename p q, d =>
    match d.files p with
    | some x => (.ok (), (d.setFile p none).setFile q (some x))
    | none => (.error .notFound, d)
  | .read p, d =>
    match d.files p with
    | some x => (.ok x, d)
    | none => (.error .notFound, d)
  | .pathExists p, d => (.ok (d.dirs p || (d.files p).isSome), d)
  | .openRead p, d =>
    match d.files p with
    | some _ => (.ok (), d)
    | none => (.error .notFound, d)
  | .fileLen p, d =>
    match d.files p with
    | some x => (.ok x.length, d)
    | none => (.error .notFound, d)
  | .removeDirAll p, d =>
    if d.dirs p then (.ok (), d.removeTree p) else (.error .notFound, d)
  | .openAppend p, d =>
    match d.files p with
    | some _ => (.ok (), d)
    | none =>
      if d.dirs p.dropLast then (.ok (), d.setFile p (some [])) else (.error .notFound, d)
  | .append p b, d =>
    match d.files p with
    | some x =>
      if x.length + b.length ≤ maxFileLen then (.ok (), d.setFile p (some (x ++ b)))
      else (.error .fileTooLarge, d)
    | none => (.error .notFound, d)
  | .truncate p, d =>
    match d.files p with
    | some _ => (.ok (), d.setFile p (some []))
    | none => (.error .notFound, d)
  | .sync _, d => (.ok (), d)

/-- The disks that a failed or killed call may leave behind. -/
def Torn : Call → Disk → Disk → Prop
  | .createDirAll p, d, d' =>
    d'.files = d.files ∧ ∀ q, d'.dirs q = d.dirs q ∨ d'.dirs q = true ∧ q <+: p
  | .write p b, d, d' =>
    d' = d ∨ (¬ p.hasNul ∧ d.dirs p.dropLast) ∧ ∃ n, d' = d.setFile p (some (b.take n))
  | .rename p q, d, d' => d' = d ∨ d' = (effect (.rename p q) d).2
  | .removeDirAll p, d, d' =>
    ∀ q, (d'.files q = d.files q ∧ d'.dirs q = d.dirs q) ∨
      p <+: q ∧ (d'.files q = d.files q ∨ d'.files q = none) ∧
        (d'.dirs q = d.dirs q ∨ d'.dirs q = false)
  | .openAppend p, d, d' => d' = d ∨ d' = (effect (.openAppend p) d).2
  | .append p b, d, d' =>
    d' = d ∨ ∃ x n, d.files p = some x ∧ d' = d.setFile p (some (x ++ b.take n))
  | .truncate p, d, d' => d' = d ∨ d' = (effect (.truncate p) d).2
  | _, d, d' => d' = d

/-- The files a call may change. -/
def Touches : Call → Path → Prop
  | .write p _, q | .openAppend p, q | .append p _, q | .truncate p, q => q = p
  | .rename p p', q => q = p ∨ q = p'
  | .removeDirAll p, q => p <+: q
  | _, _ => False

/-- Calls that only look. -/
def ReadOnly : Call → Prop
  | .read _ | .pathExists _ | .openRead _ | .fileLen _ | .sync _ => True
  | _ => False

theorem torn_refl (c : Call) (d : Disk) : c.Torn d d := by
  cases c <;> simp [Torn]

theorem effect_eqOff {c : Call} {K : Path → Prop} (h : ∀ q, c.Touches q → K q) (d : Disk) :
    d.EqOff K (c.effect d).2 := by
  cases c with
  | createDirAll p => exact .makeDirs d p
  | write p b =>
    simp only [effect]
    split
    · exact .refl K d
    · split
      · exact .setFile (h p rfl) d _
      · exact .refl K d
  | rename p q =>
    simp only [effect]
    split
    · exact (Disk.EqOff.setFile (h p (.inl rfl)) d _).trans (.setFile (h q (.inr rfl)) _ _)
    · exact .refl K d
  | removeDirAll p =>
    simp only [effect]
    split
    · have out : ∀ q, ¬ K q → ¬ p <+: q := fun q hq below => hq (h q below)
      exact ⟨fun q hq => by simp [Disk.removeTree, out q hq],
        fun q hq hd => by simp [Disk.removeTree, out q hq, hd]⟩
    · exact .refl K d
  | openAppend p =>
    simp only [effect]
    split
    · exact .refl K d
    · split
      · exact .setFile (h p rfl) d _
      · exact .refl K d
  | append p b =>
    simp only [effect]
    split
    · split
      · exact .setFile (h p rfl) d _
      · exact .refl K d
    · exact .refl K d
  | truncate p =>
    simp only [effect]
    split
    · exact .setFile (h p rfl) d _
    · exact .refl K d
  | read | pathExists | openRead | fileLen | sync =>
    simp only [effect]
    (try split) <;> exact .refl K d

theorem Torn.eqOff {c : Call} {K : Path → Prop} {d d' : Disk} (torn : c.Torn d d')
    (h : ∀ q, c.Touches q → K q) : d.EqOff K d' := by
  cases c with
  | createDirAll p =>
    refine ⟨fun q _ => congrFun torn.1 q, fun q _ hd => ?_⟩
    obtain same | ⟨made, -⟩ := torn.2 q
    · exact same.trans hd
    · exact made
  | write p b =>
    obtain rfl | ⟨-, n, rfl⟩ := torn
    · exact .refl K _
    · exact .setFile (h p rfl) d _
  | rename p q =>
    obtain rfl | rfl := torn
    · exact .refl K _
    · exact effect_eqOff h d
  | removeDirAll p =>
    constructor <;> intro q hq
    · obtain same | ⟨below, -⟩ := torn q
      · exact same.1
      · exact absurd (h q below) hq
    · obtain same | ⟨below, -⟩ := torn q
      · exact fun hd => same.2.trans hd
      · exact absurd (h q below) hq
  | openAppend p =>
    obtain rfl | rfl := torn
    · exact .refl K _
    · exact effect_eqOff h d
  | append p b =>
    obtain rfl | ⟨x, n, -, rfl⟩ := torn
    · exact .refl K _
    · exact .setFile (h p rfl) d _
  | truncate p =>
    obtain rfl | rfl := torn
    · exact .refl K _
    · exact effect_eqOff h d
  | read | pathExists | openRead | fileLen | sync =>
    cases torn
    exact .refl K _

theorem ReadOnly.effect_eq {c : Call} (h : c.ReadOnly) (d : Disk) : (c.effect d).2 = d := by
  cases c <;> simp only [ReadOnly] at h <;> simp only [effect] <;> (try split) <;> rfl

theorem ReadOnly.torn_eq {c : Call} (h : c.ReadOnly) {d d' : Disk} (torn : c.Torn d d') :
    d' = d := by
  cases c <;> simp only [ReadOnly] at h <;> exact torn

end Call

end FileSystem
