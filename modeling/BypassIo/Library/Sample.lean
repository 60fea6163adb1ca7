import Mathlib.Logic.Function.Basic
import BypassIo.Library.Counter
import BypassIo.Library.Machine

/-!
# The distance of two counters, sampled

A machine moves two wrapping counters, `head` in front of `tail`. Other threads sample their
distance: they load `head`, then `tail`, and subtract. The machine may move between the loads.

What a sample returns is compared with the unbounded counters. The field `counted` of a sample is
the unbounded `head` at its first load, and `empty` says whether the counters have met since the
call began; no step depends on them.

## Main definitions

* `Counters.watch`: the machine together with the threads that sample it.
* `Counters.Careful`: the steps between the loads that a sample can bear.

## Main results

* `Counts.sound`: in a run of careful steps every sample is in range.
* `Counts.exact`: any other step can be followed to a sample that is not.
-/

universe u v w

variable {σ : Type u} {ε : Type v} {O : Type w}

/-- The counters of a state, and the numbers they wrap. -/
structure Counters (σ : Type u) where
  head : σ → UInt64
  tail : σ → UInt64
  pushed : σ → Nat
  popped : σ → Nat

/-- Where a thread that samples the distance stands: each state is named after the load that
comes next. -/
inductive Sample
  | idle
  | loadHead (empty : Bool)
  | loadTail (head : UInt64) (counted : Nat) (empty : Bool)
  | returned (len : UInt64) (empty : Bool)

namespace Sample

def between : Sample → Bool
  | idle | returned _ _ => true
  | loadHead _ | loadTail _ _ _ => false

/-- The machine has moved, and the counters are where they met or not. -/
def sees (met : Bool) : Sample → Sample
  | idle => idle
  | loadHead empty => loadHead (empty || met)
  | loadTail head counted empty => loadTail head counted (empty || met)
  | returned len empty => returned len empty

end Sample

/-- A state with the threads that sample it. -/
structure Watched (O : Type w) (σ : Type u) where
  state : σ
  sample : O → Sample

/-- A step of the machine, or a thread begins a call or makes its next load. -/
inductive Watched.Event (O : Type w) (ε : Type v)
  | run (e : ε)
  | call (o : O)
  | load (o : O)

namespace Counters

variable (C : Counters σ)

def met (s : σ) : Bool := C.pushed s == C.popped s

variable [DecidableEq O]

def moveTo (w : Watched O σ) (o : O) (sample : Sample) : Watched O σ :=
  { w with sample := Function.update w.sample o sample }

@[simp] theorem moveTo_sample (w : Watched O σ) (o : O) (sample : Sample) :
    (moveTo w o sample).sample o = sample := Function.update_self ..

@[simp] theorem moveTo_state (w : Watched O σ) (o : O) (sample : Sample) :
    (moveTo w o sample).state = w.state := rfl

/-- The next load of a thread. -/
def load (w : Watched O σ) (o : O) : Option (Watched O σ) :=
  match w.sample o with
  | .idle | .returned _ _ => none
  | .loadHead empty => some (moveTo w o (.loadTail (C.head w.state) (C.pushed w.state) empty))
  | .loadTail head _ empty => some (moveTo w o (.returned (head - C.tail w.state) empty))

def watch (M : Machine σ ε) : Machine (Watched O σ) (Watched.Event O ε) where
  start w := M.start w.state ∧ ∀ o, w.sample o = .idle
  step w
    | .run e => (M.step w.state e).map fun t => ⟨t, fun o => (w.sample o).sees (C.met t)⟩
    | .call o =>
      if (w.sample o).between then some (moveTo w o (.loadHead (C.met w.state))) else none
    | .load o => C.load w o

end Counters

theorem Counters.load_head [DecidableEq O] {C : Counters σ} {w : Watched O σ} {o : O}
    {empty : Bool} (at_ : w.sample o = .loadHead empty) :
    C.load w o = some (moveTo w o (.loadTail (C.head w.state) (C.pushed w.state) empty)) := by
  simp only [load, at_]

theorem Counters.load_tail [DecidableEq O] {C : Counters σ} {w : Watched O σ} {o : O}
    {head : UInt64} {counted : Nat} {empty : Bool}
    (at_ : w.sample o = .loadTail head counted empty) :
    C.load w o = some (moveTo w o (.returned (head - C.tail w.state) empty)) := by
  simp only [load, at_]

/-- Every sample is at most the capacity, and is zero only if the counters met during the call. -/
def Watched.Sound (capacity : Nat) (w : Watched O σ) : Prop :=
  ∀ o len empty, w.sample o = .returned len empty →
    len.toNat ≤ capacity ∧ (len = 0 → empty = true)

/-! ## Careful steps -/

/-- A sample can bear that `tail` is moved on: it has not reached the `head` that was loaded, and
reaches it only where `head` is still the same or the counters have met before. -/
def Sample.Bears (pushed popped : Nat) : Sample → Prop
  | .loadTail _ counted empty =>
    popped < counted ∧ (popped + 1 = counted → pushed = counted ∨ empty = true)
  | _ => True

/-- The machine's step is allowed, and if it moves `tail` on every sample can bear it. -/
def Counters.Careful (C : Counters σ) (M : Machine σ ε) (allowed : σ → ε → Prop)
    (w : Watched O σ) : Watched.Event O ε → Prop
  | .run e => allowed w.state e ∧ ∀ t, M.step w.state e = some t →
      C.popped t = C.popped w.state + 1 →
        ∀ o, (w.sample o).Bears (C.pushed w.state) (C.popped w.state)
  | .call _ | .load _ => True

/-- What is asked of a machine: an invariant kept by the allowed steps, under which the counters
are those of the numbers and at most the capacity apart; each step moves one of them on by one or
none; and a step that is not allowed takes them a step further apart. -/
structure Counts (C : Counters σ) (M : Machine σ ε) (allowed : σ → ε → Prop) (capacity : Nat)
    (I : σ → Prop) : Prop where
  small : ∀ s, I s → capacity + 1 < 2 ^ 64
  start : ∀ s, M.start s → I s
  keeps : ∀ s e t, I s → allowed s e → M.step s e = some t → I t
  head : ∀ s, I s → C.head s = UInt64.ofNat (C.pushed s)
  tail : ∀ s, I s → C.tail s = UInt64.ofNat (C.popped s)
  popped_le : ∀ s, I s → C.popped s ≤ C.pushed s
  room : ∀ s, I s → C.pushed s ≤ C.popped s + capacity
  moves : ∀ s e t, M.step s e = some t →
    C.popped t = C.popped s ∧ C.pushed s ≤ C.pushed t ∨
      C.popped t = C.popped s + 1 ∧ C.pushed t = C.pushed s
  apart : ∀ s e t, I s → M.step s e = some t → ¬ allowed s e →
    C.head t = UInt64.ofNat (C.pushed t) ∧ C.tail t = UInt64.ofNat (C.popped t) ∧
      C.pushed t = C.popped t + (capacity + 1)

/-! ## Samples in range -/

/-- What a sample knows of the numbers. -/
def Sample.Knows (pushed popped capacity : Nat) : Sample → Prop
  | .idle => True
  | .loadHead empty => pushed = popped → empty = true
  | .loadTail head counted empty => head = UInt64.ofNat counted ∧ popped ≤ counted ∧
      counted ≤ pushed ∧ counted ≤ popped + capacity ∧ (popped = counted → empty = true)
  | .returned len empty => len.toNat ≤ capacity ∧ (len = 0 → empty = true)

theorem Sample.sees_knows {pushed popped pushed' popped' capacity : Nat} {x : Sample}
    (knows : x.Knows pushed popped capacity)
    (moves : popped' = popped ∧ pushed ≤ pushed' ∨
      popped' = popped + 1 ∧ pushed' = pushed ∧ x.Bears pushed popped) :
    (x.sees (pushed' == popped')).Knows pushed' popped' capacity := by
  cases x with
  | idle => trivial
  | loadHead empty =>
    intro same
    simp [same]
  | loadTail head counted empty =>
    obtain ⟨loaded, le, counts, near, met⟩ := knows
    rcases moves with ⟨rfl, later⟩ | ⟨rfl, rfl, before, last⟩
    · refine ⟨loaded, le, counts.trans later, near, fun same => ?_⟩
      simp [met same]
    · refine ⟨loaded, before, counts, by omega, fun same => ?_⟩
      rcases last same with here | earlier
      · simp [here, same]
      · simp [earlier]
  | returned len empty => exact knows

/-- A load at the end of a sample. -/
theorem Sample.knows_returned {counted popped capacity : Nat} {empty : Bool}
    (small : capacity + 1 < 2 ^ 64) (le : popped ≤ counted) (near : counted ≤ popped + capacity)
    (met : popped = counted → empty = true) :
    (Sample.returned (UInt64.ofNat counted - UInt64.ofNat popped) empty).Knows counted popped
      capacity := by
  have len := Counter.toNat_sub le (by omega)
  refine ⟨by omega, fun zero => met ?_⟩
  rw [zero, UInt64.toNat_zero] at len
  omega

namespace Counts

variable {C : Counters σ} {M : Machine σ ε} {allowed : σ → ε → Prop} {capacity : Nat}
  {I : σ → Prop}

/-- What every thread knows, in a state with the invariant. -/
structure Knows (C : Counters σ) (capacity : Nat) (I : σ → Prop) (w : Watched O σ) : Prop where
  state : I w.state
  samples : ∀ o, (w.sample o).Knows (C.pushed w.state) (C.popped w.state) capacity

theorem Knows.sound {w : Watched O σ} (h : Knows C capacity I w) : w.Sound capacity := by
  intro o len empty returned
  have := h.samples o
  rw [returned] at this
  exact this

variable [DecidableEq O]

theorem Knows.moveTo {w : Watched O σ} (h : Knows C capacity I w) {o : O} {x : Sample}
    (knows : x.Knows (C.pushed w.state) (C.popped w.state) capacity) :
    Knows C capacity I (Counters.moveTo w o x) := by
  refine ⟨h.state, fun o' => ?_⟩
  by_cases same : o' = o
  · subst same
    simpa [Counters.moveTo] using knows
  · simpa [Counters.moveTo, same] using h.samples o'

theorem knows_step (h : Counts C M allowed capacity I) {w u : Watched O σ}
    {e : Watched.Event O ε} (knows : Knows C capacity I w) (careful : C.Careful M allowed w e)
    (run : (C.watch M).step w e = some u) : Knows C capacity I u := by
  have popped_le := h.popped_le _ knows.state
  have room := h.room _ knows.state
  cases e with
  | run e =>
    obtain ⟨t, step, rfl⟩ := Option.map_eq_some_iff.mp run
    obtain ⟨fine, bears⟩ := careful
    refine ⟨h.keeps _ _ _ knows.state fine step, fun o => Sample.sees_knows (knows.samples o) ?_⟩
    rcases h.moves _ _ _ step with pushes | ⟨pops, same⟩
    · exact .inl pushes
    · exact .inr ⟨pops, same, bears t step pops o⟩
  | call o =>
    obtain ⟨-, run⟩ := Option.ite_none_right_eq_some.mp run
    obtain rfl := Option.some.inj run
    exact knows.moveTo fun same => by simp [Counters.met, same]
  | load o =>
    have here := knows.samples o
    change C.load w o = some u at run
    unfold Counters.load at run
    cases at_ : w.sample o with
    | idle | returned => simp [at_] at run
    | loadHead empty =>
      rw [at_] at here
      simp only [at_, Option.some.injEq] at run
      subst run
      exact knows.moveTo ⟨h.head _ knows.state, popped_le, le_rfl, room, fun same => here same.symm⟩
    | loadTail head counted empty =>
      rw [at_] at here
      obtain ⟨rfl, le, counts, near, met⟩ := here
      simp only [at_, Option.some.injEq] at run
      subst run
      rw [h.tail _ knows.state]
      exact knows.moveTo (Sample.knows_returned (h.small _ knows.state) le near met)

/-- In every run of careful steps, what each thread knows. -/
theorem knows_reach (h : Counts C M allowed capacity I) {w : Watched O σ}
    (reach : (C.watch M).Reach (C.Careful M allowed) w) : Knows C capacity I w := by
  apply reach.invariant
  · intro w start
    exact ⟨h.start _ start.1, fun o => by rw [start.2 o]; trivial⟩
  · exact fun w e u knows careful run => h.knows_step knows careful run

/-- In every run of careful steps every sample is in range. -/
theorem sound (h : Counts C M allowed capacity I) {w : Watched O σ}
    (reach : (C.watch M).Reach (C.Careful M allowed) w) : w.Sound capacity :=
  (h.knows_reach reach).sound

/-! ## Samples out of range -/

/-- A thread at its second load finishes its sample. -/
theorem runs_load {w : Watched O σ} {o : O} {head : UInt64} {counted : Nat} {empty : Bool}
    (at_ : w.sample o = .loadTail head counted empty) :
    (C.watch M).runs w [.load o] =
      some (Counters.moveTo w o (.returned (head - C.tail w.state) empty)) :=
  Machine.runs_cons (Counters.load_tail at_)

/-- A thread at its first load makes its sample while the machine stands still. -/
theorem runs_loads {w : Watched O σ} {o : O} {empty : Bool} (at_ : w.sample o = .loadHead empty) :
    ∃ v, (C.watch M).runs w [.load o, .load o] = some v ∧
      v.sample o = .returned (C.head w.state - C.tail w.state) empty := by
  have moved := Counters.load_head (C := C) at_
  have second := runs_load (C := C) (M := M) (Counters.moveTo_sample w o
    (.loadTail (C.head w.state) (C.pushed w.state) empty))
  exact ⟨_, (Machine.runs_cons moved).trans second, Counters.moveTo_sample ..⟩

/-- A thread can finish the call it is in, and make a sample, while the machine stands still. -/
theorem runs_sample (w : Watched O σ) (o : O) : ∃ es v empty, (C.watch M).runs w es = some v ∧
    v.sample o = .returned (C.head w.state - C.tail w.state) empty := by
  have called : ∀ w : Watched O σ, (w.sample o).between → ∃ es v empty,
      (C.watch M).runs w es = some v ∧
        v.sample o = .returned (C.head w.state - C.tail w.state) empty := by
    intro w between
    have call : (C.watch M).step w (.call o) =
        some (Counters.moveTo w o (.loadHead (C.met w.state))) := if_pos between
    obtain ⟨v, run, sample⟩ := runs_loads (C := C) (M := M)
      (Counters.moveTo_sample w o (.loadHead (C.met w.state)))
    exact ⟨_, v, _, (Machine.runs_cons call).trans run, sample⟩
  cases at_ : w.sample o with
  | idle | returned => exact called w (by rw [at_]; rfl)
  | loadHead empty =>
    obtain ⟨v, run, sample⟩ := runs_loads (C := C) (M := M) at_
    exact ⟨_, v, _, run, sample⟩
  | loadTail head counted empty =>
    obtain ⟨es, v, empty', run, sample⟩ := called
      (Counters.moveTo w o (.returned (head - C.tail w.state) empty))
      (by simp [Counters.moveTo, Sample.between])
    exact ⟨.load o :: es, v, empty', (Machine.runs_cons (Counters.load_tail at_)).trans run, sample⟩

/-- A step that is not careful can be followed to a sample out of range. -/
theorem exact (h : Counts C M allowed capacity I) {w u : Watched O σ} {e : Watched.Event O ε}
    (reach : (C.watch M).Reach (C.Careful M allowed) w) (run : (C.watch M).step w e = some u)
    (careless : ¬ C.Careful M allowed w e) (o : O) :
    ∃ es v, (C.watch M).runs u es = some v ∧ ¬ v.Sound capacity := by
  have knows := h.knows_reach reach
  have small := h.small _ knows.state
  cases e with
  | call | load => exact absurd trivial careless
  | run e =>
    obtain ⟨t, step, rfl⟩ := Option.map_eq_some_iff.mp run
    by_cases fine : allowed w.state e
    swap
    · obtain ⟨head, tail, apart⟩ := h.apart _ _ _ knows.state step fine
      obtain ⟨es, v, empty, run, sample⟩ := runs_sample (C := C) (M := M)
        ⟨t, fun o => (w.sample o).sees (C.met t)⟩ o
      refine ⟨es, v, run, fun sound => ?_⟩
      have range := (sound o _ _ sample).1
      rw [head, tail, apart, Counter.toNat_sub (by omega) (by omega)] at range
      omega
    · simp only [Counters.Careful, fine, true_and, not_forall] at careless
      obtain ⟨t', again, pops, o, unborne⟩ := careless
      obtain rfl := Option.some.inj (step.symm.trans again)
      have here := knows.samples o
      cases at_ : w.sample o with
      | idle | loadHead | returned => simp [at_, Sample.Bears] at unborne
      | loadTail head counted empty =>
        rw [at_] at here unborne
        obtain ⟨rfl, le, counts, near, met⟩ := here
        have next : Sample.sees (C.met t) (.loadTail (UInt64.ofNat counted) counted empty) =
            .loadTail (UInt64.ofNat counted) counted (empty || C.met t) := rfl
        have loaded : (Watched.mk t fun o => (w.sample o).sees (C.met t)).sample o =
            .loadTail (UInt64.ofNat counted) counted (empty || C.met t) := by
          dsimp only
          rw [at_, next]
        refine ⟨_, _, runs_load (C := C) (M := M) loaded, fun sound => ?_⟩
        have range := sound o _ _ (Counters.moveTo_sample ..)
        rw [h.tail t (h.keeps _ _ _ knows.state fine step), pops] at range
        have still : C.pushed t = C.pushed w.state := by
          have := h.moves _ _ _ step
          omega
        by_cases last : C.popped w.state + 1 = counted
        · simp only [Sample.Bears, last, true_imp_iff, not_and_or, not_or] at unborne
          rw [last, UInt64.sub_self] at range
          have met := range.2 rfl
          simp only [Counters.met, Bool.or_eq_true, beq_iff_eq] at met
          rcases unborne with before | ⟨later, unmet⟩
          · omega
          · rcases met with earlier | here
            · exact unmet earlier
            · omega
        · have past : C.popped w.state = counted := by
            simp only [Sample.Bears, last, false_imp_iff, and_true] at unborne
            omega
          have wrapped := Counter.toNat_sub_succ counted
          rw [past] at range
          omega

end Counts
