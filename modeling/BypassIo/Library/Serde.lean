import BypassIo.Library.Outcome
import BypassIo.Library.Toml

/-!
# Derived readers of TOML values

What `#[derive(Deserialize)]` makes of a `Toml.Value`. A structure is read from a table, or
from a sequence of its fields; `fields` finds the values of its fields and `field` reads one.

## Main definitions

* `Error`: why a value is refused.
* `De`: readers.
-/

namespace Serde
open Toml
open Rust (mapM_eq_ok_forall₂)

inductive Error where
  | invalidType (expected : String)
  | invalidValue (expected : String)
  | invalidLength (length : Nat)
  | missingField (name : String)
  | unknownField (name : String)
  | unknownVariant (name : String)
  /-- No variant of an untagged enumeration. -/
  | noVariant

abbrev De (α : Type) := Value → Except Error α

variable {α : Type}

/-! ## Strings, numbers and sequences -/

def string : De String
  | .scalar (.string s) => .ok s
  | _ => .error (.invalidType "a string")

/-- An integer from `0` to `max`. -/
def unsigned (type : String) (max : Nat) : De Nat
  | .scalar (.integer i) =>
    if 0 ≤ i ∧ i ≤ max then .ok i.toNat else .error (.invalidValue type)
  | _ => .error (.invalidType type)

def u16 : De UInt16 := fun v => (unsigned "u16" (2 ^ 16 - 1) v).map UInt16.ofNat

def u32 : De UInt32 := fun v => (unsigned "u32" (2 ^ 32 - 1) v).map UInt32.ofNat

def usize : De UInt64 := fun v => (unsigned "usize" (2 ^ 64 - 1) v).map UInt64.ofNat

def elements : De (List Value)
  | .array items => .ok (items.map .scalar)
  | .tables items => .ok (items.map (.table true))
  | _ => .error (.invalidType "a sequence")

def vec (item : De α) : De (List α) := fun v => do (← elements v).mapM item

/-! ## Structures -/

/-- The entries of a map. -/
def entries : De Table
  | .table _ t => .ok t
  | .inlineTable t => .ok (t.map fun e => (e.1, .scalar e.2))
  | _ => .error (.invalidType "a map")

/-- The values of the fields, with `deny_unknown_fields`. -/
def fields (names : List String) (v : Value) : Except Error Table :=
  match elements v with
  | .ok items =>
    if items.length < names.length then .error (.invalidLength items.length)
    else .ok (names.zip items)
  | .error _ => do
    let t ← entries v
    match t.find? fun e => !names.contains e.1 with
    | some e => .error (.unknownField e.1)
    | none => return t

def field (name : String) (read : De α) (t : Table) : Except Error α :=
  match t.lookup name with
  | some v => read v
  | none => .error (.missingField name)

/-! ## Reading what was written -/

@[simp] theorem string_string (s : String) : string (.scalar (.string s)) = .ok s := rfl

theorem unsigned_natCast {type : String} {max n : Nat} (fits : n ≤ max) :
    unsigned type max (.scalar (.integer n)) = .ok n := by
  have range : 0 ≤ (n : Int) ∧ (n : Int) ≤ max := ⟨by omega, by omega⟩
  simp only [unsigned, if_pos range, Int.toNat_natCast]

@[simp] theorem u16_toNat (n : UInt16) : u16 (.scalar (.integer n.toNat)) = .ok n := by
  rw [u16, unsigned_natCast (Nat.le_sub_one_of_lt n.toNat_lt), Except.map, UInt16.ofNat_toNat]

@[simp] theorem u32_toNat (n : UInt32) : u32 (.scalar (.integer n.toNat)) = .ok n := by
  rw [u32, unsigned_natCast (Nat.le_sub_one_of_lt n.toNat_lt), Except.map, UInt32.ofNat_toNat]

@[simp] theorem usize_toNat (n : UInt64) : usize (.scalar (.integer n.toNat)) = .ok n := by
  rw [usize, unsigned_natCast (Nat.le_sub_one_of_lt n.toNat_lt), Except.map, UInt64.ofNat_toNat]

theorem vec_array {item : De α} {write : α → Scalar} {as : List α}
    (read : ∀ a ∈ as, item (.scalar (write a)) = .ok a) :
    vec item (.array (as.map write)) = .ok as := by
  refine mapM_eq_ok_forall₂.mpr ?_
  rw [List.map_map, List.forall₂_map_left_iff, List.forall₂_same]
  exact read

theorem vec_tables {item : De α} {ts : List Table} {as : List α}
    (read : List.Forall₂ (fun t a => item (.table true t) = .ok a) ts as) :
    vec item (.tables ts) = .ok as :=
  mapM_eq_ok_forall₂.mpr (List.forall₂_map_left_iff.mpr read)

theorem fields_table {names : List String} {t : Table} (known : ∀ e ∈ t, e.1 ∈ names)
    (defined : Bool) : fields names (.table defined t) = .ok t := by
  have all : (t.find? fun e => !names.contains e.1) = none := by
    simpa [List.find?_eq_none] using known
  change (match t.find? fun e => !names.contains e.1 with
    | some e => Except.error (Error.unknownField e.1)
    | none => pure t) = .ok t
  rw [all]
  rfl

@[simp] theorem field_cons_self (name : String) (read : De α) (v : Value) (t : Table) :
    field name read ((name, v) :: t) = read v := by
  simp [field]

@[simp] theorem field_cons {name name' : String} (other : name ≠ name') (read : De α) (v : Value)
    (t : Table) : field name read ((name', v) :: t) = field name read t := by
  simp only [field, List.lookup_cons, beq_eq_false_iff_ne.mpr other]

end Serde
