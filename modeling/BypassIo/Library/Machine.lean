import Mathlib.Algebra.Group.Nat.Defs
import Mathlib.Tactic.Common
import Mathlib.Data.List.Basic
import Mathlib.Logic.Function.Basic

/-!
# Event machines

A machine moves from state to state on events; an event that is not possible in a state has
no successor there. Threads that take turns and devices that decide are both events, so a
machine explores every order of them.

## Main definitions

* `Machine.Reach`: the states of the runs whose steps all meet a condition.
* `Machine.runs`: the state a list of events leads to.
* `Machine.interleave`: machines side by side.
-/

universe u v

/-- Start states, and the successor of a state under an event, if the event is possible. -/
structure Machine (σ : Type u) (ε : Type v) where
  start : σ → Prop
  step : σ → ε → Option σ

namespace Machine

variable {σ : Type u} {ε : Type v} {M : Machine σ ε} {allowed : σ → ε → Prop}
variable {I : σ → Prop} {s t : σ} {e : ε}

/-- The states of the runs in which each event is `allowed` in the state it meets. -/
inductive Reach (M : Machine σ ε) (allowed : σ → ε → Prop) : σ → Prop
  | start {s : σ} (h : M.start s) : Reach M allowed s
  | step {s t : σ} {e : ε} (h : Reach M allowed s) (ok : allowed s e)
      (run : M.step s e = some t) : Reach M allowed t

/-- Every event is allowed. -/
def Always (_ : σ) (_ : ε) : Prop := True

/-- What holds at the start and is kept by each allowed step holds throughout. -/
theorem Reach.invariant (init : ∀ s, M.start s → I s)
    (keeps : ∀ s e t, I s → allowed s e → M.step s e = some t → I t)
    (h : M.Reach allowed s) : I s := by
  induction h with
  | start h => exact init _ h
  | step _ ok run ih => exact keeps _ _ _ ih ok run

/-- A run under a stronger condition is a run under a weaker one. -/
theorem Reach.mono {allowed' : σ → ε → Prop} (weaker : ∀ s e, allowed s e → allowed' s e)
    (h : M.Reach allowed s) : M.Reach allowed' s := by
  induction h with
  | start h => exact .start h
  | step _ ok run ih => exact ih.step (weaker _ _ ok) run

/-- The state after a list of events, if each of them is possible. -/
def runs (M : Machine σ ε) : σ → List ε → Option σ
  | s, [] => some s
  | s, e :: es =>
    match M.step s e with
    | some t => M.runs t es
    | none => none

theorem runs_cons {es : List ε} (h : M.step s e = some t) : M.runs s (e :: es) = M.runs t es := by
  rw [Machine.runs, h]

/-- What each event of a list keeps holds after all of them. -/
theorem runs_invariant {es : List ε} (keeps : ∀ s e t, e ∈ es → I s → M.step s e = some t → I t)
    (init : I s) (run : M.runs s es = some t) : I t := by
  induction es generalizing s with
  | nil => exact Option.some.inj run ▸ init
  | cons e es ih =>
    cases first : M.step s e with
    | none => simp [runs, first] at run
    | some u =>
      rw [runs_cons first] at run
      exact ih (fun s e t mem => keeps s e t (List.mem_cons_of_mem _ mem))
        (keeps s e u List.mem_cons_self init first) run

/-- What each event keeps, with an account of the events so far. -/
theorem runs_foldl {β : Type*} {B : β → σ → Prop} {f : β → ε → β} {b : β} {es : List ε}
    (keeps : ∀ b s e t, B b s → M.step s e = some t → B (f b e) t) (init : B b s)
    (run : M.runs s es = some t) : B (es.foldl f b) t := by
  induction es generalizing s b with
  | nil => exact Option.some.inj run ▸ init
  | cons e es ih =>
    unfold Machine.runs at run
    split at run
    · next first => exact ih (keeps b s e _ init first) run
    · cases run

theorem Reach.runs {es : List ε} (h : M.Reach Always s) (run : M.runs s es = some t) :
    M.Reach Always t := by
  induction es generalizing s with
  | nil =>
    obtain rfl := Option.some.inj run
    exact h
  | cons e es ih =>
    unfold Machine.runs at run
    split at run
    · next first => exact ih (h.step trivial first) run
    · cases run

/-- The state after a list of events, if each is possible and passes the check there. -/
def runsIf (M : Machine σ ε) (check : σ → ε → Bool) : σ → List ε → Option σ
  | s, [] => some s
  | s, e :: es =>
    if check s e then
      match M.step s e with
      | some t => M.runsIf check t es
      | none => none
    else none

theorem Reach.runsIf {check : σ → ε → Bool} (ok : ∀ s e, check s e → allowed s e) {es : List ε}
    (h : M.Reach allowed s) (run : M.runsIf check s es = some t) : M.Reach allowed t := by
  induction es generalizing s with
  | nil =>
    obtain rfl := Option.some.inj run
    exact h
  | cons e es ih =>
    obtain ⟨checked, run⟩ := Option.ite_none_right_eq_some.mp run
    split at run
    · next first => exact ih (h.step (ok s e checked) first) run
    · cases run

section Interleave

universe w

variable {ι : Type w} [DecidableEq ι] {N : ι → Machine σ ε} {x y : ι → σ} {i : ι}

/-- Machines side by side. An event is for one of them, and the others stay. -/
def interleave (N : ι → Machine σ ε) : Machine (ι → σ) (ι × ε) where
  start x := ∀ i, (N i).start (x i)
  step x e := ((N e.1).step (x e.1) e.2).map (Function.update x e.1)

theorem interleave_step {e : ε} (run : (interleave N).step x (i, e) = some y) :
    ∃ t, (N i).step (x i) e = some t ∧ y = Function.update x i t := by
  obtain ⟨t, step, same⟩ := Option.map_eq_some_iff.mp run
  exact ⟨t, step, same.symm⟩

/-- Each of the machines is in a state that it reaches on its own. -/
theorem Reach.component (h : (interleave N).Reach Always x) (i : ι) :
    (N i).Reach Always (x i) := by
  refine h.invariant (I := fun x => ∀ i, (N i).Reach Always (x i))
    (fun x (init : ∀ i, (N i).start (x i)) i => .start (init i)) (fun x (j, e) y own _ run i => ?_) i
  obtain ⟨t, step, rfl⟩ := interleave_step run
  by_cases same : i = j
  · subst same
    rw [Function.update_self]
    exact (own i).step trivial step
  · rw [Function.update_of_ne same]
    exact own i

/-- A run of one machine is a run of them all. -/
theorem interleave_runs {es : List ε} (run : (N i).runs (x i) es = some t) :
    (interleave N).runs x (es.map (i, ·)) = some (Function.update x i t) := by
  induction es generalizing x with
  | nil =>
    obtain rfl := Option.some.inj run
    exact congrArg some (Function.update_eq_self i x).symm
  | cons e es ih =>
    cases first : (N i).step (x i) e with
    | none => simp [runs, first] at run
    | some u =>
      rw [runs_cons first] at run
      have step : (interleave N).step x (i, e) = some (Function.update x i u) :=
        congrArg (Option.map _) first
      rw [List.map_cons, runs_cons step, ih (x := Function.update x i u) (by rwa [Function.update_self]),
        Function.update_idem]

end Interleave

end Machine
