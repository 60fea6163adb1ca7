import Mathlib.Tactic.Common

/-!
# Calls whose answers are given

A call of code that asks its environment, with the answers as inputs: it changes the state of
the environment and returns a value or an error. A run in which the environment gives an answer
it cannot give has no result.

`Ends x w Q` says that every result of the call `x` from the state `w` satisfies `Q`. There is
one rule for each way to make a call.
-/

universe u

/-- A call on the state `σ`, with errors `ε`. -/
abbrev Answered (σ ε α : Type u) := ExceptT ε (StateT σ Option) α

namespace Answered

variable {σ ε ε' α β : Type u} {w : σ} {x : Answered σ ε α}

/-- A change of the environment, possible or not. -/
def move (f : σ → Option σ) : Answered σ ε PUnit :=
  ExceptT.mk fun w => (f w).map (.ok ⟨⟩, ·)

/-- A question that the environment answers, and remembers. -/
def ask (f : σ → α × σ) : Answered σ ε α := ExceptT.mk fun w => some (.ok (f w).1, (f w).2)

/-- The result of a call as a value, for code that goes on after an error. -/
def attempt (x : Answered σ ε α) : Answered σ ε' (Except ε α) :=
  ExceptT.mk fun w => (x.run w).map fun (r, v) => (.ok r, v)

def ofResult (x : Except ε α) : Answered σ ε α := ExceptT.mk (pure x)

/-- Every result of the call satisfies `Q`. -/
def Ends (x : Answered σ ε α) (w : σ) (Q : Except ε α → σ → Prop) : Prop :=
  ∀ r w', x.run.run w = some (r, w') → Q r w'

/-- A call that has this result ends there. -/
theorem Ends.result {Q : Except ε α → σ → Prop} {r : Except ε α} {w' : σ} (h : Ends x w Q)
    (run : x.run.run w = some (r, w')) : Q r w' := h r w' run

theorem Ends.mono {Q Q' : Except ε α → σ → Prop} (h : Ends x w Q)
    (weaker : ∀ r w', Q r w' → Q' r w') : Ends x w Q' := fun r w' run => weaker r w' (h r w' run)

theorem Ends.pure {Q : Except ε α → σ → Prop} {a : α} (h : Q (.ok a) w) :
    Ends (Pure.pure a : Answered σ ε α) w Q := by
  intro r w' run
  cases run
  exact h

theorem Ends.throw {Q : Except ε α → σ → Prop} {e : ε} (h : Q (.error e) w) :
    Ends (MonadExcept.throw e : Answered σ ε α) w Q := by
  intro r w' run
  cases run
  exact h

theorem Ends.move {Q : Except ε PUnit → σ → Prop} {f : σ → Option σ}
    (h : ∀ w', f w = some w' → Q (.ok ⟨⟩) w') : Ends (Answered.move f) w Q := by
  intro r w' run
  obtain ⟨_, moved, same⟩ := Option.map_eq_some_iff.mp run
  obtain ⟨rfl, rfl⟩ := Prod.mk.inj same
  exact h _ moved

theorem Ends.ask {Q : Except ε α → σ → Prop} {f : σ → α × σ} (h : Q (.ok (f w).1) (f w).2) :
    Ends (Answered.ask f) w Q := by
  intro r w' run
  cases run
  exact h

theorem Ends.ofResult {Q : Except ε α → σ → Prop} {result : Except ε α} (h : Q result w) :
    Ends (Answered.ofResult result) w Q := by
  intro r w' run
  cases run
  exact h

/-- A sequence ends with its second part, or with the error of its first. -/
theorem Ends.bind {Q : Except ε β → σ → Prop} {f : α → Answered σ ε β}
    (h : Ends x w fun
      | .ok a, v => Ends (f a) v Q
      | .error e, v => Q (.error e) v) : Ends (x >>= f) w Q := by
  intro r w' run
  have unfolded : (x >>= f).run.run w = (x.run.run w).bind fun
      | (.ok a, v) => (f a).run.run v
      | (.error e, v) => some (.error e, v) := by
    simp only [ExceptT.run_bind, StateT.run_bind]
    refine bind_congr fun ⟨result, v⟩ => ?_
    cases result <;> rfl
  rw [unfolded, Option.bind_eq_some_iff] at run
  obtain ⟨⟨first | a, v⟩, first_run, run⟩ := run
  · cases run
    exact h _ _ first_run
  · exact h _ _ first_run _ _ run

theorem Ends.attempt {Q : Except ε' (Except ε α) → σ → Prop}
    (h : Ends x w fun r v => Q (.ok r) v) : Ends (Answered.attempt x) w Q := by
  intro r w' run
  have unfolded : (Answered.attempt x : Answered σ ε' _).run.run w =
      (x.run.run w).map fun (r, v) => (.ok r, v) := rfl
  rw [unfolded, Option.map_eq_some_iff] at run
  obtain ⟨⟨result, v⟩, run, same⟩ := run
  cases same
  exact h _ _ run

end Answered
