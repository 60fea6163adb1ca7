import Mathlib.Algebra.Group.Nat.Defs
import BypassIo.Library.Columns

/-!
# Results of Rust calls

A call returns a value, returns an error value, or panics. Sizes are natural numbers;
the bounds of `usize` and of an allocation appear where a call checks them.
-/

namespace Rust
open Columns

/-- How a call ends without a value: with an error value, or unwinding. -/
inductive Fault (ε : Type) where
  | error (e : ε)
  | panic
  deriving DecidableEq, Repr

abbrev Outcome (ε α : Type) := Except (Fault ε) α

variable {ε α β γ : Type}

/-- `Result::map_err` before `?`. -/
def mapErr {ε' : Type} (f : ε → ε') : Outcome ε α → Outcome ε' α
  | .ok a => .ok a
  | .error (.error e) => .error (.error (f e))
  | .error .panic => .error .panic

/-- A plain `Result` as an outcome that never panics. -/
def ofResult : Except ε α → Outcome ε α
  | .ok a => .ok a
  | .error e => .error (.error e)

@[simp] theorem mapErr_ok {ε' : Type} (f : ε → ε') (a : α) :
    mapErr f (.ok a : Outcome ε α) = .ok a := rfl

@[simp] theorem mapErr_eq_ok {ε' : Type} {f : ε → ε'} {x : Outcome ε α} {a : α} :
    mapErr f x = .ok a ↔ x = .ok a := by
  rcases x with (e | _) | b <;> simp [mapErr]

@[simp] theorem ofResult_ok (a : α) : ofResult (.ok a : Except ε α) = .ok a := rfl
@[simp] theorem ofResult_error (e : ε) :
    ofResult (.error e : Except ε α) = .error (.error e) := rfl

@[simp] theorem ofResult_eq_ok {x : Except ε α} {a : α} : ofResult x = .ok a ↔ x = .ok a := by
  cases x <;> simp [ofResult]

/-! ## Sequencing -/

section Bind

theorem bind_eq_ok {ε : Type} {x : Except ε α} {f : α → Except ε β} {b : β} :
    (x >>= f) = .ok b ↔ ∃ a, x = .ok a ∧ f a = .ok b := by
  cases x <;> simp [bind, Except.bind]

theorem bind_eq_error {ε : Type} {x : Except ε α} {f : α → Except ε β} {e : ε} :
    (x >>= f) = .error e ↔ x = .error e ∨ ∃ a, x = .ok a ∧ f a = .error e := by
  cases x <;> simp [bind, Except.bind]

/-- An error of a loop is an error of one of its turns. -/
theorem mapM_eq_error {ε : Type} {f : α → Except ε β} {as : List α} {e : ε}
    (h : as.mapM f = .error e) : ∃ a ∈ as, f a = .error e := by
  induction as with
  | nil => cases h
  | cons a as ih =>
    rw [List.mapM_cons, bind_eq_error] at h
    rcases h with here | ⟨b, -, h⟩
    · exact ⟨a, List.mem_cons_self, here⟩
    · rcases bind_eq_error.mp h with later | ⟨rest, -, done⟩
      · obtain ⟨a', mem, failed⟩ := ih later
        exact ⟨a', List.mem_cons_of_mem _ mem, failed⟩
      · cases done

theorem mapM_cons_eq_ok {ε : Type} {f : α → Except ε β} {a : α} {as : List α} {bs : List β} :
    (a :: as).mapM f = .ok bs ↔ ∃ b rest, f a = .ok b ∧ as.mapM f = .ok rest ∧ bs = b :: rest := by
  simp only [List.mapM_cons, bind_eq_ok, pure, Except.pure, Except.ok.injEq]
  constructor
  · rintro ⟨b, hb, rest, hrest, rfl⟩
    exact ⟨b, rest, hb, hrest, rfl⟩
  · rintro ⟨b, rest, hb, hrest, rfl⟩
    exact ⟨b, hb, rest, hrest, rfl⟩

theorem mapM_eq_ok_forall₂ {ε : Type} {f : α → Except ε β} {as : List α} {bs : List β} :
    as.mapM f = .ok bs ↔ List.Forall₂ (fun a b => f a = .ok b) as bs := by
  induction as generalizing bs with
  | nil => cases bs <;> simp [pure, Except.pure]
  | cons a as ih =>
    rw [mapM_cons_eq_ok]
    constructor
    · rintro ⟨b, rest, hb, hrest, rfl⟩
      exact .cons hb (ih.mp hrest)
    · rintro (_ | ⟨hb, hrest⟩)
      exact ⟨_, _, hb, ih.mpr hrest, rfl⟩

/-- A loop over two lists is two loops. -/
theorem mapM_append_eq_ok {ε : Type} {f : α → Except ε β} {front back : List α} {bs : List β} :
    (front ++ back).mapM f = .ok bs ↔
      ∃ as as', front.mapM f = .ok as ∧ back.mapM f = .ok as' ∧ bs = as ++ as' := by
  rw [List.mapM_append, bind_eq_ok]
  constructor
  · intro ⟨as, first, rest⟩
    obtain ⟨as', second, done⟩ := bind_eq_ok.mp rest
    exact ⟨as, as', first, second, (Except.ok.inj done).symm⟩
  · intro ⟨as, as', first, second, same⟩
    exact ⟨as, first, bind_eq_ok.mpr ⟨as', second, congrArg Except.ok same.symm⟩⟩

/-- A loop whose turns all succeed succeeds. -/
theorem mapM_ok_of_forall {ε : Type} {f : α → Except ε β} {as : List α}
    (h : ∀ a ∈ as, ∃ b, f a = .ok b) : ∃ bs, as.mapM f = .ok bs := by
  induction as with
  | nil => exact ⟨[], rfl⟩
  | cons a as ih =>
    obtain ⟨b, hb⟩ := h a List.mem_cons_self
    obtain ⟨rest, hrest⟩ := ih fun a ha => h a (List.mem_cons_of_mem _ ha)
    exact ⟨b :: rest, mapM_cons_eq_ok.mpr ⟨b, rest, hb, hrest, rfl⟩⟩

end Bind

/-! ## Sizes -/

/-- The largest `usize` on a 64-bit target. -/
def usizeMax : Nat := 2 ^ 64 - 1

/-- The largest `isize`: no allocation is larger. -/
def isizeMax : Nat := 2 ^ 63 - 1

/-- The largest `u32`. -/
def u32Max : Nat := 2 ^ 32 - 1

theorem toNat_le_usizeMax (x : UInt64) : x.toNat ≤ usizeMax := by
  have := x.toNat_lt
  unfold usizeMax
  omega

theorem toNat_le_u32Max (x : UInt32) : x.toNat ≤ u32Max := by
  have := x.toNat_lt
  unfold u32Max
  omega

def checkedAdd (a b : Nat) : Option Nat := if a + b ≤ usizeMax then some (a + b) else none

def checkedMul (a b : Nat) : Option Nat := if a * b ≤ usizeMax then some (a * b) else none

/-- A product in a release build, where it wraps. -/
def wrappingMul (a b : Nat) : Nat := a * b % 2 ^ 64

def saturatingAdd (a b : Nat) : Nat := min (a + b) usizeMax

/-- `u64::checked_add`. -/
def checkedAdd64 (a b : UInt64) : Option UInt64 :=
  if a.toNat + b.toNat < 2 ^ 64 then some (a + b) else none

theorem checkedAdd_eq_some {a b c : Nat} :
    checkedAdd a b = some c ↔ a + b ≤ usizeMax ∧ c = a + b := by
  unfold checkedAdd
  split <;> grind

theorem checkedMul_eq_some {a b c : Nat} :
    checkedMul a b = some c ↔ a * b ≤ usizeMax ∧ c = a * b := by
  unfold checkedMul
  split <;> grind

theorem checkedAdd64_eq_some {a b c : UInt64} :
    checkedAdd64 a b = some c ↔ a.toNat + b.toNat < 2 ^ 64 ∧ c = a + b := by
  unfold checkedAdd64
  split <;> grind

theorem toNat_of_checkedAdd64 {a b c : UInt64} (h : checkedAdd64 a b = some c) :
    c.toNat = a.toNat + b.toNat := by
  unfold checkedAdd64 at h
  split at h
  · cases h
    rename_i fits
    rw [UInt64.toNat_add, Nat.mod_eq_of_lt fits]
  · cases h

/-- `Vec::with_capacity`: panics when the byte size passes `isize::MAX`. -/
def withCapacity (elemSize count : Nat) : Outcome ε Unit :=
  if elemSize * count ≤ isizeMax then .ok () else .error .panic

theorem withCapacity_of_le {elemSize count : Nat} (h : elemSize * count ≤ isizeMax) :
    (withCapacity elemSize count : Outcome ε Unit) = .ok () := if_pos h

theorem withCapacity_eq_ok {elemSize count : Nat} {u : Unit} :
    (withCapacity elemSize count : Outcome ε Unit) = .ok u ↔ elemSize * count ≤ isizeMax := by
  unfold withCapacity
  split <;> simp_all

theorem withCapacity_eq_error {elemSize count : Nat} {fault : Fault ε} :
    withCapacity elemSize count = .error fault ↔ fault = .panic ∧ isizeMax < elemSize * count := by
  unfold withCapacity
  split <;> grind

/-- Whether a build wraps the sums and products that leave `usize`, or panics there. -/
inductive Build where
  | release
  | debug

/-- `a + b` -/
def Build.add (build : Build) (a b : Nat) : Outcome ε Nat :=
  match build with
  | .release => .ok ((a + b) % 2 ^ 64)
  | .debug => if a + b ≤ usizeMax then .ok (a + b) else .error .panic

theorem Build.add_of_le {a b : Nat} (h : a + b ≤ usizeMax) (build : Build) :
    (build.add a b : Outcome ε Nat) = .ok (a + b) := by
  cases build with
  | release =>
    have wraps : (a + b) % 2 ^ 64 = a + b := Nat.mod_eq_of_lt (by unfold usizeMax at h; omega)
    exact congrArg Except.ok wraps
  | debug => exact if_pos h

/-- `a * b` -/
def Build.mul (build : Build) (a b : Nat) : Outcome ε Nat :=
  match build with
  | .release => .ok (wrappingMul a b)
  | .debug => if a * b ≤ usizeMax then .ok (a * b) else .error .panic

theorem wrappingMul_eq_iff {a b : Nat} : wrappingMul a b = a * b ↔ a * b ≤ usizeMax := by
  unfold wrappingMul usizeMax
  constructor
  · intro same
    have small : a * b % 2 ^ 64 < 2 ^ 64 := Nat.mod_lt _ (by omega)
    omega
  · intro fits
    exact Nat.mod_eq_of_lt (by omega)

theorem Build.mul_of_le {a b : Nat} (h : a * b ≤ usizeMax) (build : Build) :
    (build.mul a b : Outcome ε Nat) = .ok (a * b) := by
  cases build with
  | release => exact congrArg Except.ok (wrappingMul_eq_iff.mpr h)
  | debug => exact if_pos h

/-! ## Indexing -/

/-- `values[idx]`: panics out of bounds. -/
def index (xs : List α) (i : Nat) : Outcome ε α :=
  match xs[i]? with
  | some x => .ok x
  | none => .error .panic

theorem mapM_index {xs : List α} {is : List Nat} (h : ∀ i ∈ is, i < xs.length) :
    is.mapM (index xs) = (.ok (gather xs is) : Outcome ε (List α)) := by
  induction is with
  | nil => rfl
  | cons i is ih =>
    have hi := h i List.mem_cons_self
    have hget := List.getElem?_eq_getElem hi
    refine mapM_cons_eq_ok.mpr ⟨xs[i], _, ?_, ih fun j hj => h j (List.mem_cons_of_mem _ hj), ?_⟩
    · simp [index, hget]
    · rw [gather_cons hget]

end Rust
