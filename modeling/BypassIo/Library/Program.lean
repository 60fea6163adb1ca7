import BypassIo.Library.Disk
import BypassIo.Library.Outcome

/-!
# Programs over a file system and their crash logic

A program is a tree of system calls. The same tree has a fault-free execution, runs in
which chosen calls fail, and crashes at any point of any call. `Prog.wp` is the weakest
precondition over all of them: its postcondition holds of every run, its crash condition
of every disk an interrupted call leaves.

## Main definitions

* `Prog.exec`, `Prog.Runs`, `Prog.Crashes`: the three executions.
* `Prog.wp`: weakest precondition with a crash condition.
* `Prog.Confined`: every call touches only files of a given set.
* `Query`, `Method`: fallible programs, the second with a state that survives errors.
* `Query.FailsAs`, `Method.FailsAs`: a failed call ends the program with an error of a given set.
-/

namespace FileSystem
open Octet Rust

inductive Prog (α : Type) : Type where
  | ret (a : α)
  | call (c : Call) (k : Except IoError c.Reply → Prog α)

namespace Prog

variable {α β : Type}

def bind : Prog α → (α → Prog β) → Prog β
  | .ret a, f => f a
  | .call c k, f => .call c fun r => (k r).bind f

instance : Monad Prog where
  pure := .ret
  bind := Prog.bind

@[simp] theorem pure_eq (a : α) : (pure a : Prog α) = .ret a := rfl
@[simp] theorem ret_bind (a : α) (f : α → Prog β) : (Prog.ret a >>= f) = f a := rfl
@[simp] theorem call_bind (c : Call) (k : Except IoError c.Reply → Prog α) (f : α → Prog β) :
    (Prog.call c k >>= f) = .call c fun r => k r >>= f := rfl

theorem bind_ret (p : Prog α) : (p >>= Prog.ret) = p := by
  induction p with
  | ret a => rfl
  | call c k ih => simp [ih]

theorem bind_assoc {γ : Type} (p : Prog α) (f : α → Prog β) (g : β → Prog γ) :
    (p >>= f >>= g) = p >>= fun a => f a >>= g := by
  induction p with
  | ret a => rfl
  | call c k ih => simp [ih]

instance : LawfulMonad Prog := LawfulMonad.mk' Prog bind_ret (fun _ _ => rfl) bind_assoc

/-- A single call. -/
def perform (c : Call) : Prog (Except IoError c.Reply) := .call c .ret

/-! ## Executions -/

/-- The execution without faults. -/
def exec : Prog α → Disk → α × Disk
  | .ret a, d => (a, d)
  | .call c k, d => (k (c.effect d).1).exec (c.effect d).2

/-- The runs in which the calls in `may` can fail, leaving any torn state. -/
inductive Runs (may : Call → Prop) : Prog α → Disk → α → Disk → Prop where
  | ret (a d) : Runs may (.ret a) d a d
  | done {c k d a d'} : Runs may (k (c.effect d).1) (c.effect d).2 a d' →
      Runs may (.call c k) d a d'
  | failed {c k d e u a d'} : may c → c.Torn d u → Runs may (k (.error e)) u a d' →
      Runs may (.call c k) d a d'

/-- The disks left when the process is killed inside some call. -/
inductive Crashes : Prog α → Disk → Disk → Prop where
  | here {c k d d'} : c.Torn d d' → Crashes (.call c k) d d'
  | later {c k d d'} : Crashes (k (c.effect d).1) (c.effect d).2 d' →
      Crashes (.call c k) d d'

@[simp] theorem exec_ret (a : α) (d : Disk) : (Prog.ret a).exec d = (a, d) := rfl

@[simp] theorem exec_bind (p : Prog α) (f : α → Prog β) (d : Disk) :
    (p >>= f).exec d = (f (p.exec d).1).exec (p.exec d).2 := by
  induction p generalizing d with
  | ret a => rfl
  | call c k ih => exact ih _ _

@[simp] theorem exec_perform (c : Call) (d : Disk) : (perform c).exec d = c.effect d := rfl

theorem runs_exec (may : Call → Prop) (p : Prog α) (d : Disk) :
    Runs may p d (p.exec d).1 (p.exec d).2 := by
  induction p generalizing d with
  | ret a => exact .ret a d
  | call c k ih => exact .done (ih _ _)

theorem Runs.bind {may : Call → Prop} {p : Prog α} {f : α → Prog β} {d d₁ d' : Disk} {a : α}
    {b : β} (first : Runs may p d a d₁) (rest : Runs may (f a) d₁ b d') :
    Runs may (p >>= f) d b d' := by
  induction first with
  | ret a d => exact rest
  | done _ ih => exact .done (ih rest)
  | failed m t _ ih => exact .failed m t (ih rest)

/-- More calls may fail. -/
theorem Runs.mono {may may' : Call → Prop} {p : Prog α} {d d' : Disk} {a : α}
    (h : Runs may p d a d') (le : ∀ c, may c → may' c) : Runs may' p d a d' := by
  induction h with
  | ret a d => exact .ret a d
  | done _ ih => exact .done ih
  | failed m t _ ih => exact .failed (le _ m) t ih

/-- Without faults the only run is the execution. -/
theorem exec_of_runs {p : Prog α} {d d' : Disk} {a : α} (h : Runs (fun _ => False) p d a d') :
    p.exec d = (a, d') := by
  induction h with
  | ret a d => rfl
  | done _ ih => exact ih
  | failed m => exact m.elim

/-! ## Weakest preconditions -/

/-- `Q` holds after every run whose failing calls lie in `may`, and `C` holds of every disk
that an interrupted call of such a run leaves. -/
def wp (may : Call → Prop) : Prog α → (α → Disk → Prop) → (Disk → Prop) → Disk → Prop
  | .ret a, Q, _, d => Q a d
  | .call c k, Q, C, d =>
    (∀ d', c.Torn d d' → C d') ∧
    (k (c.effect d).1).wp may Q C (c.effect d).2 ∧
    ∀ e d', may c → c.Torn d d' → (k (.error e)).wp may Q C d'

section Rules

variable {may : Call → Prop} {Q : α → Disk → Prop} {C : Disk → Prop}

@[simp] theorem wp_ret (a : α) (d : Disk) : (Prog.ret a).wp may Q C d ↔ Q a d := Iff.rfl

theorem wp_bind (p : Prog α) (f : α → Prog β) (Q : β → Disk → Prop) (C : Disk → Prop)
    (d : Disk) : (p >>= f).wp may Q C d ↔ p.wp may (fun a => (f a).wp may Q C) C d := by
  induction p generalizing d with
  | ret a => rfl
  | call c k ih => simp only [call_bind, wp, ih]

theorem wp_mono {p : Prog α} {d : Disk} {Q' : α → Disk → Prop} {C' : Disk → Prop}
    (h : p.wp may Q C d) (hQ : ∀ a d', Q a d' → Q' a d') (hC : ∀ d', C d' → C' d') :
    p.wp may Q' C' d := by
  induction p generalizing d with
  | ret a => exact hQ a d h
  | call c k ih =>
    obtain ⟨torn, done, failed⟩ := h
    exact ⟨fun d' t => hC d' (torn d' t), ih _ done, fun e d' m t => ih _ (failed e d' m t)⟩

theorem wp_and {p : Prog α} {d : Disk} {Q' : α → Disk → Prop} {C' : Disk → Prop}
    (h : p.wp may Q C d) (h' : p.wp may Q' C' d) :
    p.wp may (fun a d' => Q a d' ∧ Q' a d') (fun d' => C d' ∧ C' d') d := by
  induction p generalizing d with
  | ret a => exact ⟨h, h'⟩
  | call c k ih =>
    obtain ⟨torn, done, failed⟩ := h
    obtain ⟨torn', done', failed'⟩ := h'
    exact ⟨fun d' t => ⟨torn d' t, torn' d' t⟩, ih _ done done',
      fun e d' m t => ih _ (failed e d' m t) (failed' e d' m t)⟩

/-- Fewer faults keep a weakest precondition. -/
theorem wp_restrict {p : Prog α} {d : Disk} {may' : Call → Prop} (h : p.wp may Q C d)
    (le : ∀ c, may' c → may c) : p.wp may' Q C d := by
  induction p generalizing d with
  | ret a => exact h
  | call c k ih =>
    obtain ⟨torn, done, failed⟩ := h
    exact ⟨torn, ih _ done, fun e d' m t => ih _ (failed e d' (le c m) t)⟩

theorem wp_runs {p : Prog α} {d d' : Disk} {a : α} (h : p.wp may Q C d)
    (run : Runs may p d a d') : Q a d' := by
  induction run with
  | ret a d => exact h
  | done _ ih => exact ih h.2.1
  | failed m t _ ih => exact ih (h.2.2 _ _ m t)

theorem wp_exec {p : Prog α} {d : Disk} (h : p.wp may Q C d) : Q (p.exec d).1 (p.exec d).2 :=
  wp_runs h (runs_exec may p d)

theorem wp_crashes {p : Prog α} {d d' : Disk} (h : p.wp may Q C d) (crash : Crashes p d d') :
    C d' := by
  induction crash with
  | here t => exact h.1 _ t
  | later _ ih => exact ih h.2.1

/-- Without a demand on crashes, a fault-free weakest precondition is the execution. -/
theorem wp_of_exec {p : Prog α} {d : Disk} (h : Q (p.exec d).1 (p.exec d).2) :
    p.wp (fun _ => False) Q (fun _ => True) d := by
  induction p generalizing d with
  | ret a => exact h
  | call c k ih => exact ⟨fun _ _ => trivial, ih _ h, fun _ _ m => m.elim⟩

end Rules

/-! ## Confinement -/

/-- Every call of the program, whatever the replies, touches only files of `K`. -/
def Confined (K : Path → Prop) : Prog α → Prop
  | .ret _ => True
  | .call c k => (∀ q, c.Touches q → K q) ∧ ∀ r, (k r).Confined K

section Confined

variable {K : Path → Prop}

theorem Confined.bind {p : Prog α} {f : α → Prog β} (hp : p.Confined K)
    (hf : ∀ a, (f a).Confined K) : (p >>= f).Confined K := by
  induction p with
  | ret a => exact hf a
  | call c k ih => exact ⟨hp.1, fun r => ih r (hp.2 r)⟩

theorem Confined.mono {L : Path → Prop} {p : Prog α} (h : p.Confined K)
    (le : ∀ q, K q → L q) : p.Confined L := by
  induction p with
  | ret a => trivial
  | call c k ih => exact ⟨fun q hq => le q (h.1 q hq), fun r => ih r (h.2 r)⟩

/-- A confined program leaves every other file alone, also when it is interrupted. -/
theorem Confined.wp {may : Call → Prop} {p : Prog α} (h : p.Confined K) (d : Disk) :
    p.wp may (fun _ d' => d.EqOff K d') (fun d' => d.EqOff K d') d := by
  suffices ∀ d₀ : Disk, d₀.EqOff K d →
      p.wp may (fun _ d' => d₀.EqOff K d') (fun d' => d₀.EqOff K d') d
    from this d (.refl K d)
  induction p generalizing d with
  | ret a => exact fun d₀ h₀ => h₀
  | call c k ih =>
    intro d₀ h₀
    refine ⟨fun d' t => h₀.trans (t.eqOff h.1), ih _ (h.2 _) _ _ ?_, fun e d' _ t => ?_⟩
    · exact h₀.trans (Call.effect_eqOff h.1 d)
    · exact ih _ (h.2 _) _ _ (h₀.trans (t.eqOff h.1))

theorem Confined.exec {p : Prog α} (h : p.Confined K) (d : Disk) :
    d.EqOff K (p.exec d).2 := wp_exec (@Confined.wp _ _ (fun _ => False) _ h d)

end Confined

/-! ## Reading programs -/

/-- Every call of the program only looks. -/
def ReadOnly : Prog α → Prop
  | .ret _ => True
  | .call c k => c.ReadOnly ∧ ∀ r, (k r).ReadOnly

theorem ReadOnly.bind {p : Prog α} {f : α → Prog β} (hp : p.ReadOnly)
    (hf : ∀ a, (f a).ReadOnly) : (p >>= f).ReadOnly := by
  induction p with
  | ret a => exact hf a
  | call c k ih => exact ⟨hp.1, fun r => ih r (hp.2 r)⟩

theorem ReadOnly.exec {p : Prog α} (h : p.ReadOnly) (d : Disk) : (p.exec d).2 = d := by
  induction p generalizing d with
  | ret a => rfl
  | call c k ih => simp only [Prog.exec, ih _ (h.2 _), h.1.effect_eq]

/-- A reading program returns what its execution returns, or what it returns after a fault;
it never moves the disk. -/
theorem ReadOnly.wp {may : Call → Prop} {p : Prog α} (h : p.ReadOnly) (d : Disk) :
    p.wp may (fun _ d' => d' = d) (fun d' => d' = d) d := by
  induction p with
  | ret a => rfl
  | call c k ih =>
    have moved := h.1.effect_eq d
    refine ⟨fun d' t => h.1.torn_eq t, ?_, fun e d' _ t => ?_⟩
    · rw [moved]
      exact ih _ (h.2 _)
    · cases h.1.torn_eq t
      exact ih _ (h.2 _)

end Prog

/-! ## Fallible programs -/

/-- A program that can end with an error. -/
abbrev Query (ε α : Type) := ExceptT (Fault ε) Prog α

namespace Query

variable {ε α β : Type} {may : Call → Prop}

/-- A call followed by `map_err(f)?`. -/
def io (f : IoError → ε) (c : Call) : Query ε c.Reply :=
  ExceptT.mk (Prog.call c fun
    | .ok a => .ret (.ok a)
    | .error e => .ret (.error (.error (f e))))

/-- A pure fallible step. -/
def pureStep (x : Outcome ε α) : Query ε α := ExceptT.mk (.ret x)

/-- `map_err` over a whole program. -/
def mapErr {ε' : Type} (f : ε → ε') (p : Query ε α) : Query ε' α :=
  ExceptT.mk (p.run >>= fun r => .ret (Rust.mapErr f r))

@[simp] theorem run_bind (p : Query ε α) (f : α → Query ε β) :
    (p >>= f).run = p.run >>= fun
      | .ok a => (f a).run
      | .error e => Prog.ret (.error e) := by
  simp only [ExceptT.run_bind]
  congr 1
  funext r
  cases r <;> rfl

@[simp] theorem run_pure (a : α) : (pure a : Query ε α).run = Prog.ret (.ok a) := rfl

@[simp] theorem run_pureStep (x : Outcome ε α) : (pureStep x).run = Prog.ret x := rfl

@[simp] theorem run_throw (e : Fault ε) :
    (throw e : Query ε α).run = Prog.ret (.error e) := rfl

@[simp] theorem run_mapErr {ε' : Type} (f : ε → ε') (p : Query ε α) :
    (p.mapErr f).run = p.run >>= fun r => Prog.ret (Rust.mapErr f r) := rfl

theorem run_io (f : IoError → ε) (c : Call) :
    (io f c).run = Prog.call c fun
      | .ok a => .ret (.ok a)
      | .error e => .ret (.error (.error (f e))) := rfl

/-- The execution without faults. -/
def exec (p : Query ε α) (d : Disk) : Outcome ε α × Disk := p.run.exec d

/-- `Prog.wp` of a fallible program. -/
def wp (may : Call → Prop) (p : Query ε α) (Q : Outcome ε α → Disk → Prop) (C : Disk → Prop)
    (d : Disk) : Prop := p.run.wp may Q C d

@[simp] theorem exec_pure (a : α) (d : Disk) : (pure a : Query ε α).exec d = (.ok a, d) := rfl

@[simp] theorem exec_throw (e : Fault ε) (d : Disk) :
    (throw e : Query ε α).exec d = (.error e, d) := rfl

@[simp] theorem exec_pureStep (x : Outcome ε α) (d : Disk) : (pureStep x).exec d = (x, d) := rfl

theorem exec_bind (p : Query ε α) (f : α → Query ε β) (d : Disk) :
    (p >>= f).exec d = match p.exec d with
      | (.ok a, d') => (f a).exec d'
      | (.error e, d') => (.error e, d') := by
  simp only [exec, run_bind, Prog.exec_bind]
  obtain ⟨r | r, d'⟩ := p.run.exec d <;> rfl

theorem exec_bind_ok {p : Query ε α} {f : α → Query ε β} {d d' : Disk} {a : α}
    (h : p.exec d = (.ok a, d')) : (p >>= f).exec d = (f a).exec d' := by
  rw [exec_bind, h]

/-- A sequence succeeds when both parts do. -/
theorem exec_bind_eq_ok {p : Query ε α} {f : α → Query ε β} {d d' : Disk} {b : β} :
    (p >>= f).exec d = (.ok b, d') ↔
      ∃ a d₁, p.exec d = (.ok a, d₁) ∧ (f a).exec d₁ = (.ok b, d') := by
  rw [exec_bind]
  obtain ⟨r | r, d₁⟩ := p.exec d
  · simp
  · constructor
    · exact fun h => ⟨r, d₁, rfl, h⟩
    · rintro ⟨a, d₂, h, k⟩
      cases h
      exact k

theorem exec_pureStep_bind_eq_ok {x : Outcome ε α} {f : α → Query ε β} {d d' : Disk} {b : β} :
    (pureStep x >>= f).exec d = (.ok b, d') ↔ ∃ a, x = .ok a ∧ (f a).exec d = (.ok b, d') := by
  rw [exec_bind, exec_pureStep]
  cases x <;> simp

theorem exec_pure_eq_ok {a b : α} {d d' : Disk} :
    (pure a : Query ε α).exec d = (.ok b, d') ↔ b = a ∧ d' = d := by
  rw [exec_pure, Prod.mk.injEq, Except.ok.injEq, eq_comm, eq_comm (a := d)]

theorem exec_mapErr {ε' : Type} (f : ε → ε') (p : Query ε α) (d : Disk) :
    (p.mapErr f).exec d = (Rust.mapErr f (p.exec d).1, (p.exec d).2) := by
  simp [exec]

theorem exec_mapErr_eq_ok {ε' : Type} {f : ε → ε'} {p : Query ε α} {d d' : Disk} {a : α} :
    (p.mapErr f).exec d = (.ok a, d') ↔ p.exec d = (.ok a, d') := by
  rw [exec_mapErr, Prod.mk.injEq, mapErr_eq_ok, Prod.ext_iff]

theorem exec_io (f : IoError → ε) (c : Call) (d : Disk) :
    (io f c).exec d = match c.effect d with
      | (.ok a, d') => (.ok a, d')
      | (.error e, d') => (.error (.error (f e)), d') := by
  simp only [exec, run_io, Prog.exec]
  obtain ⟨r | r, d'⟩ := c.effect d <;> rfl

theorem exec_io_eq_ok {f : IoError → ε} {c : Call} {d d' : Disk} {a : c.Reply} :
    (io f c).exec d = (.ok a, d') ↔ c.effect d = (.ok a, d') := by
  rw [exec_io]
  obtain ⟨r | r, d₁⟩ := c.effect d <;> simp

/-- A successful write. -/
theorem exec_write_eq_ok {f : IoError → ε} {p : Path} {b : Bytes} {d d' : Disk} :
    (io f (.write p b)).exec d = (.ok (), d') ↔
      (p.hasNul = false ∧ d.dirs p.dropLast = true) ∧ d' = d.setFile p (some b) := by
  rw [exec_io_eq_ok, Call.effect]
  cases nul : p.hasNul with
  | true => simp
  | false => cases dir : d.dirs p.dropLast <;> simp [eq_comm]

/-- A successful read. -/
theorem exec_read_eq_ok {f : IoError → ε} {p : Path} {b : Bytes} {d d' : Disk} :
    (io f (.read p)).exec d = (.ok b, d') ↔ d.files p = some b ∧ d' = d := by
  rw [exec_io_eq_ok, Call.effect]
  cases found : d.files p with
  | none => simp
  | some x => simp [eq_comm (a := d), eq_comm (a := x)]

theorem exec_openRead_eq_ok {f : IoError → ε} {p : Path} {d d' : Disk} :
    (io f (.openRead p)).exec d = (.ok (), d') ↔ (d.files p).isSome = true ∧ d' = d := by
  rw [exec_io_eq_ok, Call.effect]
  cases found : d.files p with
  | none => simp
  | some x => simp [eq_comm (a := d)]

theorem exec_fileLen_eq_ok {f : IoError → ε} {p : Path} {n : Nat} {d d' : Disk} :
    (io f (.fileLen p)).exec d = (.ok n, d') ↔ (∃ x, d.files p = some x ∧ n = x.length) ∧ d' = d := by
  rw [exec_io_eq_ok, Call.effect]
  cases found : d.files p with
  | none => simp
  | some x => simp [eq_comm (a := d), eq_comm (a := n)]

/-- A call that fails. -/
theorem runs_io_failed {f : IoError → ε} {c : Call} {d d' : Disk} (m : may c)
    (torn : c.Torn d d') (e : IoError) :
    Prog.Runs may (io f c).run d (.error (.error (f e))) d' := .failed m torn (.ret _ _)

theorem runs_bind_error {p : Query ε α} {f : α → Query ε β} {d d' : Disk} {e : Fault ε}
    (first : Prog.Runs may p.run d (.error e) d') :
    Prog.Runs may (p >>= f).run d (.error e) d' := by
  rw [run_bind]
  exact Prog.Runs.bind first (.ret _ _)

section Rules

variable {Q : Outcome ε α → Disk → Prop} {C : Disk → Prop} {d : Disk}

@[simp] theorem wp_pure (a : α) : (pure a : Query ε α).wp may Q C d ↔ Q (.ok a) d := Iff.rfl

@[simp] theorem wp_throw (e : Fault ε) :
    (throw e : Query ε α).wp may Q C d ↔ Q (.error e) d := Iff.rfl

@[simp] theorem wp_pureStep (x : Outcome ε α) : (pureStep x).wp may Q C d ↔ Q x d := Iff.rfl

theorem wp_mono {p : Query ε α} {Q' : Outcome ε α → Disk → Prop} {C' : Disk → Prop}
    (h : p.wp may Q C d) (hQ : ∀ r d', Q r d' → Q' r d') (hC : ∀ d', C d' → C' d') :
    p.wp may Q' C' d := Prog.wp_mono h hQ hC

theorem wp_bind {p : Query ε β} {f : β → Query ε α} :
    (p >>= f).wp may Q C d ↔ p.wp may (fun r d' => match r with
      | .ok a => (f a).wp may Q C d'
      | .error e => Q (.error e) d') C d := by
  simp only [wp, run_bind, Prog.wp_bind]
  apply iff_of_eq
  congr 1
  funext r d'
  cases r <;> rfl

/-- Continue after a specified first part. -/
theorem wp_seq {p : Query ε β} {f : β → Query ε α} {R : Outcome ε β → Disk → Prop}
    {D : Disk → Prop} (first : p.wp may R D d)
    (ok : ∀ a d', R (.ok a) d' → (f a).wp may Q C d')
    (error : ∀ e d', R (.error e) d' → Q (.error e) d') (crash : ∀ d', D d' → C d') :
    (p >>= f).wp may Q C d := by
  refine wp_bind.mpr (wp_mono first ?_ crash)
  rintro (e | a) d' h
  · exact error e d' h
  · exact ok a d' h

/-- Continue after a first part that is known to succeed. -/
theorem wp_ok_seq {p : Query ε β} {f : β → Query ε α} {a : β} {e : Disk} {D : Disk → Prop}
    (first : p.wp may (fun r d' => r = .ok a ∧ d' = e) D d) (rest : (f a).wp may Q C e)
    (crash : ∀ d', D d' → C d') : (p >>= f).wp may Q C d := by
  refine wp_seq first ?_ ?_ crash
  · rintro b d' ⟨same, rfl⟩
    cases same
    exact rest
  · rintro e d' ⟨failed, -⟩
    cases failed

theorem wp_mapErr {ε' : Type} {f : ε → ε'} {p : Query ε α} {Q : Outcome ε' α → Disk → Prop} :
    (p.mapErr f).wp may Q C d ↔ p.wp may (fun r d' => Q (Rust.mapErr f r) d') C d := by
  rw [wp, run_mapErr, Prog.wp_bind]
  rfl

/-- A call: its regular outcome, its failures, its crashes. -/
theorem wp_io {f : IoError → ε} {c : Call} {Q : Outcome ε c.Reply → Disk → Prop}
    (crash : ∀ d', c.Torn d d' → C d')
    (done : Q ((io f c).exec d).1 ((io f c).exec d).2)
    (failed : ∀ e d', may c → c.Torn d d' → Q (.error (.error (f e))) d') :
    (io f c).wp may Q C d := by
  refine ⟨crash, ?_, failed⟩
  rw [exec_io] at done
  revert done
  obtain ⟨r | r, d'⟩ := c.effect d <;> exact id

theorem wp_exec {p : Query ε α} (h : p.wp may Q C d) : Q (p.exec d).1 (p.exec d).2 :=
  Prog.wp_exec h

end Rules

/-! ### Programs without recovery -/

/-- Whatever fails, a returned value is the one of the execution without faults. -/
def Strict (p : Query ε α) : Prop :=
  ∀ may d, p.wp may (fun r d' => ∀ a, r = .ok a → p.exec d = (.ok a, d')) (fun _ => True) d

theorem strict_pure (a : α) : (pure a : Query ε α).Strict := fun _ _ _ h => h ▸ rfl

theorem strict_throw (e : Fault ε) : (throw e : Query ε α).Strict := fun _ _ _ h => nomatch h

theorem strict_pureStep (x : Outcome ε α) : (pureStep x).Strict := fun _ _ _ h => h ▸ rfl

theorem strict_io (f : IoError → ε) (c : Call) : (io f c).Strict := fun may d => by
  refine wp_io (fun _ _ => trivial) ?_ (fun _ _ _ _ _ h => nomatch h)
  intro a h
  rw [← h]

theorem Strict.bind {p : Query ε α} {f : α → Query ε β} (hp : p.Strict)
    (hf : ∀ a, (f a).Strict) : (p >>= f).Strict := by
  intro may d
  refine wp_seq (hp may d) ?_ (fun _ _ _ _ h => nomatch h) fun _ _ => trivial
  intro a d₁ done
  refine wp_mono (hf a may d₁) ?_ fun _ _ => trivial
  intro r d' rest b hr
  rw [exec_bind_ok (done a rfl)]
  exact rest b hr

theorem Strict.mapErr {ε' : Type} {f : ε → ε'} {p : Query ε α} (hp : p.Strict) :
    (p.mapErr f).Strict := by
  intro may d
  refine wp_mapErr.mpr (wp_mono (hp may d) ?_ fun _ h => h)
  rintro (e | x) d' done a hr
  · cases e <;> cases hr
  · cases hr
    rw [exec_mapErr, done x rfl]
    rfl

theorem strict_mapM {f : α → Query ε β} (h : ∀ a, (f a).Strict) (as : List α) :
    (as.mapM f).Strict := by
  induction as with
  | nil => exact strict_pure []
  | cons a as ih =>
    rw [List.mapM_cons]
    exact (h a).bind fun _ => ih.bind fun _ => strict_pure _

/-- Every call touches only files of `K`. -/
def Confined (K : Path → Prop) (p : Query ε α) : Prop := p.run.Confined K

section Confined

variable {K : Path → Prop}

theorem confined_pure (a : α) : (pure a : Query ε α).Confined K := trivial

theorem confined_pureStep (x : Outcome ε α) : (pureStep x).Confined K := trivial

theorem confined_io {f : IoError → ε} {c : Call} (h : ∀ q, c.Touches q → K q) :
    (io f c).Confined K := ⟨h, fun r => by cases r <;> trivial⟩

theorem Confined.bind {p : Query ε α} {f : α → Query ε β} (hp : p.Confined K)
    (hf : ∀ a, (f a).Confined K) : (p >>= f).Confined K := by
  rw [Confined, run_bind]
  refine Prog.Confined.bind hp ?_
  rintro (e | a)
  · trivial
  · exact hf a

theorem confined_pureStep_bind {x : Outcome ε α} {f : α → Query ε β}
    (h : ∀ a, x = .ok a → (f a).Confined K) : (pureStep x >>= f).Confined K := by
  rw [Confined, run_bind]
  obtain e | a := x
  · trivial
  · exact h a rfl

theorem confined_mapM {f : α → Query ε β} {as : List α} (h : ∀ a ∈ as, (f a).Confined K) :
    (as.mapM f).Confined K := by
  induction as with
  | nil => trivial
  | cons a as ih =>
    rw [List.mapM_cons]
    exact (h a List.mem_cons_self).bind fun _ =>
      (ih fun b hb => h b (List.mem_cons_of_mem _ hb)).bind fun _ => trivial

theorem Confined.mono {L : Path → Prop} {p : Query ε α} (h : p.Confined K)
    (le : ∀ q, K q → L q) : p.Confined L := Prog.Confined.mono h le

theorem Confined.exec {p : Query ε α} (h : p.Confined K) (d : Disk) : d.EqOff K (p.exec d).2 :=
  Prog.Confined.exec h d

/-- The rule for a confined program without recovery: it is framed in every case, and a
returned value is the one of the execution. -/
theorem Confined.wp {p : Query ε α} (h : p.Confined K) (strict : p.Strict) (d : Disk) :
    p.wp may (fun r d' => d.EqOff K d' ∧ ∀ a, r = .ok a → p.exec d = (.ok a, d'))
      (fun d' => d.EqOff K d') d :=
  Prog.wp_mono (Prog.wp_and (Prog.Confined.wp h d) (strict may d)) (fun _ _ h => h)
    fun _ h => h.1

end Confined

/-- Every call only looks. -/
def ReadOnly (p : Query ε α) : Prop := p.run.ReadOnly

theorem readOnly_pure (a : α) : (pure a : Query ε α).ReadOnly := trivial

theorem readOnly_throw (e : Fault ε) : (throw e : Query ε α).ReadOnly := trivial

theorem readOnly_pureStep (x : Outcome ε α) : (pureStep x).ReadOnly := trivial

theorem readOnly_io {f : IoError → ε} {c : Call} (h : c.ReadOnly) : (io f c).ReadOnly :=
  ⟨h, fun r => by cases r <;> trivial⟩

theorem ReadOnly.bind {p : Query ε α} {f : α → Query ε β} (hp : p.ReadOnly)
    (hf : ∀ a, (f a).ReadOnly) : (p >>= f).ReadOnly := by
  rw [ReadOnly, run_bind]
  refine Prog.ReadOnly.bind hp ?_
  rintro (e | a)
  · trivial
  · exact hf a

theorem readOnly_io_bind {f : IoError → ε} {c : Call} {k : c.Reply → Query ε β}
    (h : c.ReadOnly) (hk : ∀ a, (k a).ReadOnly) : (io f c >>= k).ReadOnly :=
  (readOnly_io h).bind hk

theorem ReadOnly.mapErr {ε' : Type} {f : ε → ε'} {p : Query ε α} (hp : p.ReadOnly) :
    (p.mapErr f).ReadOnly := Prog.ReadOnly.bind hp fun _ => trivial

theorem readOnly_mapM {f : α → Query ε β} (h : ∀ a, (f a).ReadOnly) (as : List α) :
    (as.mapM f).ReadOnly := by
  induction as with
  | nil => trivial
  | cons a as ih =>
    rw [List.mapM_cons]
    exact (h a).bind fun _ => ih.bind fun _ => trivial

theorem ReadOnly.exec_snd {p : Query ε α} (h : p.ReadOnly) (d : Disk) : (p.exec d).2 = d :=
  Prog.ReadOnly.exec h d

/-- The rule for a reading program without recovery. -/
theorem ReadOnly.wp {p : Query ε α} (h : p.ReadOnly) (strict : p.Strict) (d : Disk) :
    p.wp may (fun r d' => d' = d ∧ ∀ a, r = .ok a → p.exec d = (.ok a, d)) (fun d' => d' = d) d := by
  refine Prog.wp_mono (Prog.wp_and (Prog.ReadOnly.wp h d) (strict may d)) ?_ fun _ h => h.1
  rintro r d' ⟨rfl, done⟩
  exact ⟨rfl, done⟩

/-- Without faults a specified program ends as its execution does. -/
theorem wp_exact {p : Query ε α} {Q : Outcome ε α → Disk → Prop} {C : Disk → Prop} {d : Disk}
    (h : p.wp may Q C d) :
    p.wp (fun _ => False) (fun r d' => p.exec d = (r, d') ∧ Q r d') C d := by
  have runs : Prog.wp (fun _ => False) p.run (fun r d' => p.exec d = (r, d')) (fun _ => True) d :=
    Prog.wp_of_exec rfl
  refine Prog.wp_mono (Prog.wp_and runs (Prog.wp_restrict h fun _ no => no.elim)) ?_ ?_
  · exact fun _ _ h => h
  · exact fun _ h => h.2

/-- Without faults a reading program returns what its execution returns. -/
theorem ReadOnly.wp_ok {p : Query ε α} {d : Disk} {a : α} (h : p.ReadOnly)
    (ok : p.exec d = (.ok a, d)) :
    p.wp (fun _ => False) (fun r d' => r = .ok a ∧ d' = d) (fun d' => d' = d) d := by
  have frame : p.wp (fun _ => False) (fun _ d' => d' = d) (fun d' => d' = d) d :=
    Prog.ReadOnly.wp h d
  refine wp_mono (wp_exact frame) ?_ fun _ h => h
  rintro r d' ⟨exec, rfl⟩
  exact ⟨(Prod.mk.inj (exec.symm.trans ok)).1, rfl⟩

theorem exec_mapM_ok {f : α → Query ε β} {d : Disk} {as : List α} {bs : List β}
    (h : List.Forall₂ (fun a b => (f a).exec d = (.ok b, d)) as bs) :
    (as.mapM f).exec d = (.ok bs, d) := by
  induction h with
  | nil => rfl
  | cons hb _ ih =>
    rw [List.mapM_cons, exec_bind_ok hb, exec_bind_ok ih]
    rfl

/-- Each turn of a loop that succeeds has succeeded, on some disk. -/
theorem exec_mapM_eq_ok_mem {f : α → Query ε β} {d d' : Disk} {as : List α} {bs : List β}
    (h : (as.mapM f).exec d = (.ok bs, d')) {a : α} (ha : a ∈ as) :
    ∃ b d₁ d₂, (f a).exec d₁ = (.ok b, d₂) := by
  induction as generalizing d d' bs with
  | nil => cases ha
  | cons c as ih =>
    rw [List.mapM_cons] at h
    obtain ⟨b, d₁, first, h⟩ := exec_bind_eq_ok.mp h
    obtain ⟨rest, d₂, later, -⟩ := exec_bind_eq_ok.mp h
    obtain rfl | mem := List.mem_cons.mp ha
    · exact ⟨b, d, d₁, first⟩
    · exact ih later mem

/-- A loop of reading programs succeeds when every turn does. -/
theorem ReadOnly.exec_mapM_eq_ok {f : α → Query ε β} (h : ∀ a, (f a).ReadOnly) {d d' : Disk}
    {as : List α} {bs : List β} :
    (as.mapM f).exec d = (.ok bs, d') ↔
      d' = d ∧ List.Forall₂ (fun a b => (f a).exec d = (.ok b, d)) as bs := by
  constructor
  · intro run
    have kept := (readOnly_mapM h as).exec_snd d
    rw [run] at kept
    obtain rfl : d' = d := kept
    refine ⟨rfl, ?_⟩
    induction as generalizing bs with
    | nil =>
      cases run
      exact .nil
    | cons a as ih =>
      rw [List.mapM_cons] at run
      obtain ⟨b, d₁, first, run⟩ := exec_bind_eq_ok.mp run
      have same := (h a).exec_snd d'
      rw [first] at same
      obtain rfl : d₁ = d' := same
      obtain ⟨rest, d₂, later, run⟩ := exec_bind_eq_ok.mp run
      obtain ⟨rfl, rfl⟩ := exec_pure_eq_ok.mp run
      exact .cons first (ih later)
  · rintro ⟨rfl, each⟩
    exact exec_mapM_ok each

end Query

/-- A fallible program over a state; the state keeps its changes when the program fails. -/
abbrev Method (σ ε α : Type) := ExceptT (Fault ε) (StateT σ Prog) α

namespace Method

variable {σ τ ε α β : Type} {may : Call → Prop}

/-- Run a program that does not see the state. -/
def query (p : Query ε α) : Method σ ε α :=
  ExceptT.mk fun s => p.run >>= fun r => .ret (r, s)

/-- The run from a state: the outcome with the state it leaves. -/
def start (p : Method σ ε α) (s : σ) : Prog (Outcome ε α × σ) := p.run s

/-- A method of a field, with its error wrapped. -/
def onField {ε' : Type} (get : σ → τ) (set : τ → σ → σ) (f : ε → ε') (p : Method τ ε α) :
    Method σ ε' α :=
  ExceptT.mk fun s => p.start (get s) >>= fun r => .ret (Rust.mapErr f r.1, set r.2 s)

@[simp] theorem start_bind (p : Method σ ε α) (f : α → Method σ ε β) (s : σ) :
    (p >>= f).start s = p.start s >>= fun r => match r with
      | (.ok a, t) => (f a).start t
      | (.error e, t) => Prog.ret (.error e, t) := by
  simp only [start, ExceptT.run_bind]
  change (p.run s >>= fun r => _) = _
  congr 1
  funext r
  obtain ⟨a | a, t⟩ := r <;> rfl

@[simp] theorem start_pure (a : α) (s : σ) :
    (pure a : Method σ ε α).start s = Prog.ret (.ok a, s) := rfl

@[simp] theorem start_throw (e : Fault ε) (s : σ) :
    (throw e : Method σ ε α).start s = Prog.ret (.error e, s) := rfl

@[simp] theorem start_query (p : Query ε α) (s : σ) :
    (query p : Method σ ε α).start s = p.run >>= fun r => Prog.ret (r, s) := rfl

@[simp] theorem start_get (s : σ) : (get : Method σ ε σ).start s = Prog.ret (.ok s, s) := rfl

@[simp] theorem start_set (s t : σ) :
    (set t : Method σ ε PUnit).start s = Prog.ret (.ok ⟨⟩, t) := rfl

@[simp] theorem start_modify (f : σ → σ) (s : σ) :
    (modify f : Method σ ε PUnit).start s = Prog.ret (.ok ⟨⟩, f s) := rfl

/-- The execution without faults. -/
def exec (p : Method σ ε α) (s : σ) (d : Disk) : (Outcome ε α × σ) × Disk := (p.start s).exec d

@[simp] theorem exec_pure (a : α) (s : σ) (d : Disk) :
    (pure a : Method σ ε α).exec s d = ((.ok a, s), d) := rfl

@[simp] theorem exec_throw (e : Fault ε) (s : σ) (d : Disk) :
    (throw e : Method σ ε α).exec s d = ((.error e, s), d) := rfl

theorem exec_bind (p : Method σ ε α) (f : α → Method σ ε β) (s : σ) (d : Disk) :
    (p >>= f).exec s d = match p.exec s d with
      | ((.ok a, t), d') => (f a).exec t d'
      | ((.error e, t), d') => ((.error e, t), d') := by
  simp only [exec, start_bind, Prog.exec_bind]
  obtain ⟨⟨r | r, t⟩, d'⟩ := (p.start s).exec d <;> rfl

theorem exec_bind_ok {p : Method σ ε α} {f : α → Method σ ε β} {s t : σ} {d d' : Disk} {a : α}
    (h : p.exec s d = ((.ok a, t), d')) : (p >>= f).exec s d = (f a).exec t d' := by
  rw [exec_bind, h]

theorem exec_bind_error {p : Method σ ε α} {f : α → Method σ ε β} {s t : σ} {d d' : Disk}
    {e : Fault ε} (h : p.exec s d = ((.error e, t), d')) :
    (p >>= f).exec s d = ((.error e, t), d') := by
  rw [exec_bind, h]

theorem exec_get_bind (f : σ → Method σ ε α) (s : σ) (d : Disk) :
    (get >>= f).exec s d = (f s).exec s d := rfl

theorem exec_set_bind (f : PUnit → Method σ ε α) (s t : σ) (d : Disk) :
    (set t >>= f).exec s d = (f ⟨⟩).exec t d := rfl

theorem exec_query (p : Query ε α) (s : σ) (d : Disk) :
    (query p : Method σ ε α).exec s d = (((p.exec d).1, s), (p.exec d).2) := by
  simp only [exec, start_query, Prog.exec_bind]
  rfl

theorem exec_onField {ε' : Type} (get : σ → τ) (set : τ → σ → σ) (f : ε → ε')
    (p : Method τ ε α) (s : σ) (d : Disk) :
    (p.onField get set f).exec s d =
      ((Rust.mapErr f (p.exec (get s) d).1.1, set (p.exec (get s) d).1.2 s),
        (p.exec (get s) d).2) := by
  simp only [exec, start, onField, ExceptT.run_mk]
  rw [Prog.exec_bind]
  rfl

/-- The runs in which the calls in `may` can fail. -/
def Runs (may : Call → Prop) (p : Method σ ε α) (s : σ) (d : Disk) (r : Outcome ε α) (t : σ)
    (d' : Disk) : Prop := Prog.Runs may (p.start s) d (r, t) d'

section Runs

variable {p : Method σ ε β} {f : β → Method σ ε α} {s t u : σ} {d d₁ d' : Disk}

theorem runs_of_exec {r : Outcome ε β} (h : p.exec s d = ((r, t), d')) :
    p.Runs may s d r t d' := by
  have run := Prog.runs_exec may (p.start s) d
  rwa [show (p.start s).exec d = ((r, t), d') from h] at run

theorem exec_of_runs {r : Outcome ε β} (h : p.Runs (fun _ => False) s d r t d') :
    p.exec s d = ((r, t), d') := Prog.exec_of_runs h

theorem runs_bind_ok {b : β} {r : Outcome ε α} (first : p.Runs may s d (.ok b) t d₁)
    (rest : (f b).Runs may t d₁ r u d') : (p >>= f).Runs may s d r u d' := by
  rw [Runs, start_bind]
  exact Prog.Runs.bind first rest

theorem runs_bind_error {e : Fault ε} (first : p.Runs may s d (.error e) t d') :
    (p >>= f).Runs may s d (.error e) t d' := by
  rw [Runs, start_bind]
  exact Prog.Runs.bind first (.ret _ _)

theorem runs_get_bind {f : σ → Method σ ε α} {r : Outcome ε α} :
    (get >>= f).Runs may s d r u d' ↔ (f s).Runs may s d r u d' := by
  rw [Runs, start_bind, start_get]
  rfl

theorem runs_modify_bind {f : PUnit → Method σ ε α} {g : σ → σ} {r : Outcome ε α} :
    (modify g >>= f).Runs may s d r u d' ↔ (f ⟨⟩).Runs may (g s) d r u d' := by
  rw [Runs, start_bind, start_modify]
  rfl

theorem runs_set_bind {f : PUnit → Method σ ε α} {r : Outcome ε α} {v : σ} :
    (set v >>= f).Runs may s d r u d' ↔ (f ⟨⟩).Runs may v d r u d' := by
  rw [Runs, start_bind, start_set]
  rfl

/-- A program that does not see the state. -/
theorem runs_query {p : Query ε β} {r : Outcome ε β} (h : Prog.Runs may p.run d r d') :
    (query p).Runs may s d r s d' := by
  rw [Runs, start_query]
  exact Prog.Runs.bind h (.ret _ _)

theorem runs_query_bind {p : Query ε β} {b : β} {r : Outcome ε α} (first : p.exec d = (.ok b, d₁))
    (rest : (f b).Runs may s d₁ r u d') : (query p >>= f).Runs may s d r u d' := by
  refine runs_bind_ok (runs_of_exec ?_) rest
  rw [exec_query, first]

end Runs

/-- `Prog.wp` of a method. -/
def wp (may : Call → Prop) (p : Method σ ε α) (Q : Outcome ε α → σ → Disk → Prop)
    (C : Disk → Prop) (s : σ) (d : Disk) : Prop :=
  (p.start s).wp may (fun r d' => Q r.1 r.2 d') C d

section Rules

variable {Q : Outcome ε α → σ → Disk → Prop} {C : Disk → Prop} {s : σ} {d : Disk}

@[simp] theorem wp_pure (a : α) : (pure a : Method σ ε α).wp may Q C s d ↔ Q (.ok a) s d :=
  Iff.rfl

@[simp] theorem wp_throw (e : Fault ε) :
    (throw e : Method σ ε α).wp may Q C s d ↔ Q (.error e) s d := Iff.rfl

/-- Continue after a specified first part. -/
theorem wp_seq {p : Method σ ε β} {f : β → Method σ ε α}
    {R : Outcome ε β → σ → Disk → Prop} {D : Disk → Prop} (first : p.wp may R D s d)
    (ok : ∀ b t d', R (.ok b) t d' → (f b).wp may Q C t d')
    (error : ∀ e t d', R (.error e) t d' → Q (.error e) t d') (crash : ∀ d', D d' → C d') :
    (p >>= f).wp may Q C s d := by
  rw [wp, start_bind, Prog.wp_bind]
  refine Prog.wp_mono first ?_ crash
  rintro ⟨e | b, t⟩ d' h
  · exact error e t d' h
  · exact ok b t d' h

/-- A program that does not see the state leaves it alone. -/
theorem wp_query {p : Query ε α} :
    (query p : Method σ ε α).wp may Q C s d ↔ p.wp may (fun r d' => Q r s d') C d := by
  rw [wp, start_query, Prog.wp_bind]
  rfl

/-- Continue after a program that does not see the state. -/
theorem wp_query_seq {p : Query ε β} {f : β → Method σ ε α} {R : Outcome ε β → Disk → Prop}
    {D : Disk → Prop} (first : p.wp may R D d)
    (ok : ∀ b d', R (.ok b) d' → (f b).wp may Q C s d')
    (error : ∀ e d', R (.error e) d' → Q (.error e) s d') (crash : ∀ d', D d' → C d') :
    (query p >>= f).wp may Q C s d := by
  refine wp_seq (R := fun r t d' => t = s ∧ R r d') (D := D) ?_ ?_ ?_ crash
  · exact wp_query.mpr (Query.wp_mono first (fun _ _ h => ⟨rfl, h⟩) fun _ h => h)
  · rintro b t d' ⟨rfl, h⟩
    exact ok b d' h
  · rintro e t d' ⟨rfl, h⟩
    exact error e d' h

/-- A method of a field runs from the field and puts the outcome back. -/
theorem wp_onField {ε' : Type} {get : σ → τ} {set : τ → σ → σ} {f : ε → ε'} {p : Method τ ε β}
    {Q : Outcome ε' β → σ → Disk → Prop} :
    (p.onField get set f).wp may Q C s d ↔
      p.wp may (fun r u d' => Q (Rust.mapErr f r) (set u s) d') C (get s) d := by
  rw [wp, start, onField, ExceptT.run_mk, wp]
  exact Prog.wp_bind _ _ _ _ _

theorem wp_get_bind {f : σ → Method σ ε α} :
    (get >>= f).wp may Q C s d ↔ (f s).wp may Q C s d := by
  rw [wp, start_bind, start_get]
  rfl

theorem wp_modify_bind {f : PUnit → Method σ ε α} {g : σ → σ} :
    (modify g >>= f).wp may Q C s d ↔ (f ⟨⟩).wp may Q C (g s) d := by
  rw [wp, start_bind, start_modify]
  rfl

theorem wp_set_bind {f : PUnit → Method σ ε α} {t : σ} :
    (set t >>= f).wp may Q C s d ↔ (f ⟨⟩).wp may Q C t d := by
  rw [wp, start_bind, start_set]
  rfl

theorem wp_runs {p : Method σ ε α} {r : Outcome ε α} {t : σ} {d' : Disk} (h : p.wp may Q C s d)
    (run : p.Runs may s d r t d') : Q r t d' := by
  have ended := Prog.wp_runs h run
  exact ended

theorem wp_exec {p : Method σ ε α} (h : p.wp may Q C s d) :
    Q (p.exec s d).1.1 (p.exec s d).1.2 (p.exec s d).2 := Prog.wp_exec h

end Rules

end Method

/-! ## Programs that end at a failed call -/

namespace Prog

variable {α β : Type} {E : α → Prop} {E' : β → Prop}

/-- A run of the program is its execution, or a call has failed and the result is in `E`. -/
def FailsAs (E : α → Prop) (p : Prog α) : Prop :=
  ∀ may d, p.wp may (fun a d' => p.exec d = (a, d') ∨ E a) (fun _ => True) d

theorem failsAs_ret (a : α) : (Prog.ret a).FailsAs E := fun _ _ => .inl rfl

/-- A failed first part ends the program, and the results of the parts agree. -/
theorem FailsAs.bind {p : Prog α} {f : α → Prog β} (hp : p.FailsAs E)
    (hf : ∀ a, (f a).FailsAs E') (ends : ∀ a, E a → ∃ b, f a = .ret b ∧ E' b) :
    (p >>= f).FailsAs E' := by
  intro may d
  rw [wp_bind]
  refine wp_mono (hp may d) ?_ fun _ h => h
  rintro a d₁ (same | failed)
  · refine wp_mono (hf a may d₁) ?_ fun _ h => h
    rintro b d' (rest | failed)
    · exact .inl (by rw [exec_bind, same, rest])
    · exact .inr failed
  · obtain ⟨b, done, bad⟩ := ends a failed
    rw [done]
    exact .inr bad

theorem FailsAs.runs {p : Prog α} (h : p.FailsAs E) {may : Call → Prop} {d d' : Disk} {a : α}
    (run : Runs may p d a d') : p.exec d = (a, d') ∨ E a := wp_runs (h may d) run

end Prog

/-- The result is an error in `E`. -/
def IsError {ε α : Type} (E : ε → Prop) (r : Outcome ε α) : Prop := ∃ e, r = .error (.error e) ∧ E e

namespace Query

variable {ε ε' α β : Type} {E : ε → Prop} {E' : ε' → Prop}

/-- Every failed call ends the program with an error in `E`. -/
def FailsAs (E : ε → Prop) (p : Query ε α) : Prop := p.run.FailsAs (IsError E)

theorem failsAs_pure (a : α) : (pure a : Query ε α).FailsAs E := Prog.failsAs_ret _

theorem failsAs_pureStep (x : Outcome ε α) : (pureStep x).FailsAs E := Prog.failsAs_ret _

theorem failsAs_io {f : IoError → ε} (h : ∀ e, E (f e)) (c : Call) : (io f c).FailsAs E := by
  intro may d
  refine ⟨fun _ _ => trivial, ?_, fun e d' _ _ => .inr ⟨f e, rfl, h e⟩⟩
  rw [run_io, Prog.exec]
  cases (c.effect d).1 with
  | ok a => exact .inl rfl
  | error e => exact .inl rfl

theorem FailsAs.bind {p : Query ε α} {f : α → Query ε β} (hp : p.FailsAs E)
    (hf : ∀ a, (f a).FailsAs E) : (p >>= f).FailsAs E := by
  unfold FailsAs
  rw [run_bind]
  refine Prog.FailsAs.bind hp (fun r => ?_) ?_
  · cases r with
    | ok a => exact hf a
    | error e => exact Prog.failsAs_ret _
  · rintro _ ⟨e, rfl, bad⟩
    exact ⟨_, rfl, e, rfl, bad⟩

theorem FailsAs.mapErr {p : Query ε α} {f : ε → ε'} (hp : p.FailsAs E)
    (h : ∀ e, E e → E' (f e)) : (p.mapErr f).FailsAs E' := by
  unfold FailsAs
  rw [run_mapErr]
  refine Prog.FailsAs.bind hp (fun r => Prog.failsAs_ret _) ?_
  rintro _ ⟨e, rfl, bad⟩
  exact ⟨_, rfl, f e, rfl, h e bad⟩

theorem failsAs_mapM {f : α → Query ε β} (h : ∀ a, (f a).FailsAs E) (as : List α) :
    (as.mapM f).FailsAs E := by
  induction as with
  | nil => exact failsAs_pure _
  | cons a as ih =>
    rw [List.mapM_cons]
    exact (h a).bind fun b => ih.bind fun rest => failsAs_pure _

end Query

namespace Method

variable {σ τ ε ε' α β : Type} {E : ε → Prop} {E' : ε' → Prop}

/-- Every failed call ends the method with an error in `E`. -/
def FailsAs (E : ε → Prop) (p : Method σ ε α) : Prop :=
  ∀ s, (p.start s).FailsAs fun r => IsError E r.1

theorem failsAs_pure (a : α) : (pure a : Method σ ε α).FailsAs E := fun _ => Prog.failsAs_ret _

theorem failsAs_throw (e : Fault ε) : (throw e : Method σ ε α).FailsAs E :=
  fun _ => Prog.failsAs_ret _

theorem failsAs_get : (get : Method σ ε σ).FailsAs E := fun _ => Prog.failsAs_ret _

theorem failsAs_set (s : σ) : (set s : Method σ ε PUnit).FailsAs E := fun _ => Prog.failsAs_ret _

theorem failsAs_modify (f : σ → σ) : (modify f : Method σ ε PUnit).FailsAs E :=
  fun _ => Prog.failsAs_ret _

theorem FailsAs.bind {p : Method σ ε α} {f : α → Method σ ε β} (hp : p.FailsAs E)
    (hf : ∀ a, (f a).FailsAs E) : (p >>= f).FailsAs E := by
  intro s
  rw [start_bind]
  refine Prog.FailsAs.bind (hp s) ?_ ?_
  · rintro ⟨e | a, t⟩
    · exact Prog.failsAs_ret _
    · exact hf a t
  · rintro ⟨_, t⟩ ⟨e, rfl, bad⟩
    exact ⟨_, rfl, e, rfl, bad⟩

theorem failsAs_query {p : Query ε α} (hp : p.FailsAs E) :
    (query p : Method σ ε α).FailsAs E := by
  intro s
  rw [start_query]
  refine Prog.FailsAs.bind hp (fun r => Prog.failsAs_ret _) ?_
  rintro _ ⟨e, rfl, bad⟩
  exact ⟨_, rfl, e, rfl, bad⟩

theorem FailsAs.onField {p : Method τ ε α} {get : σ → τ} {set : τ → σ → σ} {f : ε → ε'}
    (hp : p.FailsAs E) (h : ∀ e, E e → E' (f e)) : (p.onField get set f).FailsAs E' := by
  intro s
  refine Prog.FailsAs.bind (hp (get s)) (fun r => Prog.failsAs_ret _) ?_
  rintro ⟨_, t⟩ ⟨e, rfl, bad⟩
  exact ⟨_, rfl, f e, rfl, h e bad⟩

/-- A run ends like the execution, or with the error of a failed call. -/
theorem FailsAs.runs {p : Method σ ε α} (h : p.FailsAs E) {may : Call → Prop} {s t : σ}
    {d d' : Disk} {r : Outcome ε α} (run : p.Runs may s d r t d') :
    p.exec s d = ((r, t), d') ∨ IsError E r := by
  obtain same | bad := Prog.FailsAs.runs (h s) run
  · exact .inl same
  · exact .inr bad

end Method
end FileSystem
