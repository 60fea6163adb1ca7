import Mathlib.Logic.Function.Basic
import BypassIo.Library.Machine

/-!
# The poll reactor

Any number of reactors that share a backend, each with its thread and its stop flag. The thread
pins itself to a core and polls the backend until a load of the flag returns `true`. The loads and
the store are relaxed: a load that follows the store of `shutdown` may still return `false`, and
none returns `true` before it. A poll may panic, which ends the thread.

## Main definitions

* `setCpuAffinity`: the mask that pins a thread.
* `PollReactor.step`: what the thread of a reactor and the owner of its handle do.

## Main results

* `reactor_sound`: where a thread polls, how it ends and what `shutdown` returns.
* `shutdown_quiesces`: once `shutdown` has returned, the reactor does nothing any more.
* `shutdown_finishes`: a `shutdown` that has stored the flag can always return.
-/

namespace BypassIo.Reactor

universe u

/-! ## Affinity -/

def cpuSetsize : UInt64 := 1024
def wordBits : UInt64 := 64
def cpuWords : Nat := 16

inductive AffinityError
  | invalidInput (detail : String)
  | os
  deriving DecidableEq

/-- The words of a mask that holds one core. -/
def mask (cpu : UInt64) : List UInt64 :=
  (List.replicate cpuWords 0).modify (cpu / wordBits).toNat (· ||| 1 <<< (cpu % wordBits))

/-- `set_cpu_affinity`, with what `sched_setaffinity` answers, and the mask it is called with. -/
def setCpuAffinity (cpu : UInt64) (rc : Int32) : Except AffinityError (List UInt64) :=
  if cpu ≥ cpuSetsize then .error (.invalidInput "cpu index exceeds CPU_SETSIZE")
  else if rc = 0 then .ok (mask cpu)
  else .error .os

/-- The core is in the mask, as the kernel reads it. -/
def Holds (words : List UInt64) (core : Nat) : Prop :=
  ∃ word, words[core / 64]? = some word ∧ word.toNat.testBit (core % 64) = true

/-! ## Reactors -/

/-- Where the thread stands: before it pins itself, at the condition of the loop, in a poll, or
ended. -/
inductive ThreadState
  | pin
  | load
  | poll
  | exited
  | panicked
  deriving DecidableEq

/-- What the owner has: the reactor, no reactor after a failed spawn, a handle, a call of
`shutdown` that has stored the flag, its result, or no handle. -/
inductive Owner
  | reactor
  | failed
  | handle
  | stopping
  | joined (ok : Bool)
  | dropped
  deriving DecidableEq

structure PollReactor where
  cpu : UInt64
  stop : Bool
  thread : Option ThreadState
  owner : Owner
  affinity : Option (List UInt64)
  polls : Nat
  deriving DecidableEq

inductive Event
  | spawn (succeeds : Bool)
  | pin (rc : Int32)
  | load (seen : Bool)
  | poll (completions : Option Nat)
  | store
  | join
  | dropHandle

namespace PollReactor

def new (cpu : UInt64) : PollReactor := ⟨cpu, false, none, .reactor, none, 0⟩

def step (r : PollReactor) : Event → Option PollReactor
  | .spawn succeeds =>
    if r.owner = .reactor then
      if succeeds then some { r with thread := some .pin, owner := .handle }
      else some { r with owner := .failed }
    else none
  | .pin rc =>
    if r.thread = some .pin then
      match setCpuAffinity r.cpu rc with
      | .ok mask => some { r with thread := some .load, affinity := some mask }
      | .error _ => some { r with thread := some .exited }
    else none
  | .load seen =>
    if r.thread = some .load ∧ (seen = true → r.stop = true) then
      if seen then some { r with thread := some .exited }
      else some { r with thread := some .poll, polls := r.polls + 1 }
    else none
  | .poll completions =>
    if r.thread = some .poll then
      match completions with
      -- The number only decides on a hint to the processor.
      | some _ => some { r with thread := some .load }
      | none => some { r with thread := some .panicked }
    else none
  | .store =>
    if r.owner = .handle then some { r with stop := true, owner := .stopping } else none
  | .join =>
    if r.owner = .stopping then
      match r.thread with
      | some .exited => some { r with owner := .joined true }
      | some .panicked => some { r with owner := .joined false }
      | _ => none
    else none
  | .dropHandle => if r.owner = .handle then some { r with owner := .dropped } else none

def machine (cpu : UInt64) : Machine PollReactor Event where
  start := (· = .new cpu)
  step := step

end PollReactor

/-- Reactors side by side. -/
def machine {ι : Type u} [DecidableEq ι] (cpu : ι → UInt64) : Machine (ι → PollReactor) (ι × Event) :=
  .interleave fun i => PollReactor.machine (cpu i)

/-! ## The mask -/

/-- The word of a mask that holds a core. -/
theorem toNat_bit (cpu : UInt64) :
    ((0 : UInt64) ||| 1 <<< (cpu % wordBits)).toNat = 2 ^ (cpu.toNat % 64) := by
  have small : cpu.toNat % 64 < 64 := Nat.mod_lt _ (by decide)
  have word : (cpu % wordBits).toNat = cpu.toNat % 64 := by
    rw [UInt64.toNat_mod]
    rfl
  rw [UInt64.zero_or, UInt64.toNat_shiftLeft, word, Nat.mod_eq_of_lt small, UInt64.toNat_one,
    Nat.one_shiftLeft, Nat.mod_eq_of_lt (Nat.pow_lt_pow_right (by decide) small)]

/-- The mask of a core below 1024 holds this core and no other. -/
theorem holds_mask {cpu : UInt64} (small : cpu < cpuSetsize) (core : Nat) :
    Holds (mask cpu) core ↔ core = cpu.toNat := by
  have below : cpu.toNat < 1024 := UInt64.lt_iff_toNat_lt.mp small
  have word : (cpu / wordBits).toNat = cpu.toNat / 64 := by
    rw [UInt64.toNat_div]
    rfl
  have entry : (mask cpu)[core / 64]? = if core / 64 < cpuWords then
      some (if cpu.toNat / 64 = core / 64 then (0 : UInt64) ||| 1 <<< (cpu % wordBits) else 0)
      else none := by
    rw [mask, List.getElem?_modify, List.getElem?_replicate, word]
    by_cases room : core / 64 < cpuWords
    · rw [if_pos room, if_pos room]
      rfl
    · rw [if_neg room, if_neg room]
      rfl
  unfold Holds
  rw [entry]
  constructor
  · rintro ⟨w, found, bit⟩
    obtain ⟨-, found⟩ := Option.ite_none_right_eq_some.mp found
    obtain rfl := Option.some.inj found
    by_cases same : cpu.toNat / 64 = core / 64
    · rw [if_pos same, toNat_bit, Nat.testBit_two_pow] at bit
      have rest := of_decide_eq_true bit
      omega
    · rw [if_neg same] at bit
      simp at bit
  · rintro rfl
    refine ⟨_, if_pos (by unfold cpuWords; omega), ?_⟩
    rw [if_pos rfl, toNat_bit, Nat.testBit_two_pow]
    exact decide_eq_true rfl

/-! ## One reactor -/

namespace PollReactor

/-- What holds of a reactor in every state. -/
structure Sound (r : PollReactor) : Prop where
  /-- The thread polls only on its core. -/
  pinned : 0 < r.polls ∨ r.thread = some .load ∨ r.thread = some .poll →
    r.cpu < cpuSetsize ∧ ∃ words, r.affinity = some words ∧
      ∀ core, Holds words core ↔ core = r.cpu.toNat
  /-- The flag is stored by `shutdown` alone. -/
  stored : r.stop = true ↔ r.owner = .stopping ∨ ∃ ok, r.owner = .joined ok
  /-- The thread ends by itself only where it cannot pin itself. -/
  exits : r.thread = some .exited → r.stop = true ∨ r.affinity = none
  /-- `shutdown` returns after the thread has ended, with an error if this panicked. -/
  joined : ∀ ok, r.owner = .joined ok →
    r.thread = some (if ok then .exited else .panicked)
  unpinned : r.thread = none ∨ r.thread = some .pin → r.affinity = none ∧ r.polls = 0
  /-- There is a thread from the spawn on. -/
  spawned : r.thread = none ↔ r.owner = .reactor ∨ r.owner = .failed

variable {r t : PollReactor} {cpu : UInt64} {e : Event}

theorem step_cpu (run : r.step e = some t) : t.cpu = r.cpu := by
  unfold step at run
  grind

theorem sound_new (cpu : UInt64) : (new cpu).Sound where
  pinned h := by simp [new] at h
  stored := by simp [new]
  exits := nofun
  joined := nofun
  unpinned _ := ⟨rfl, rfl⟩
  spawned := by simp [new]

/-- A thread that is pinned has the mask of its core. -/
theorem affinity_of_ok {rc : Int32} {words : List UInt64}
    (pinned : setCpuAffinity r.cpu rc = .ok words) :
    r.cpu < cpuSetsize ∧ ∀ core, Holds words core ↔ core = r.cpu.toNat := by
  unfold setCpuAffinity at pinned
  split at pinned
  next => cases pinned
  next small =>
    have small := UInt64.not_le.mp small
    split at pinned
    · obtain rfl := Except.ok.inj pinned
      exact ⟨small, holds_mask small⟩
    · cases pinned

theorem sound_step (h : r.Sound) (run : r.step e = some t) : t.Sound := by
  obtain ⟨pinned, stored, exits, joined, unpinned, spawned⟩ := h
  cases e with
  | spawn succeeds =>
    obtain ⟨fresh, run⟩ := Option.ite_none_right_eq_some.mp run
    cases succeeds <;> obtain rfl := Option.some.inj run <;> constructor <;> grind
  | pin rc =>
    obtain ⟨at_, run⟩ := Option.ite_none_right_eq_some.mp run
    cases result : setCpuAffinity r.cpu rc with
    | ok words =>
      rw [result] at run
      obtain rfl := Option.some.inj run
      obtain ⟨small, holds⟩ := affinity_of_ok result
      exact ⟨fun _ => ⟨small, words, rfl, holds⟩, stored, nofun, by grind, by grind,
        by grind⟩
    | error error =>
      rw [result] at run
      obtain rfl := Option.some.inj run
      constructor <;> grind
  | load seen =>
    obtain ⟨⟨at_, coherent⟩, run⟩ := Option.ite_none_right_eq_some.mp run
    cases seen <;> obtain rfl := Option.some.inj run <;> constructor <;> grind
  | poll completions =>
    obtain ⟨at_, run⟩ := Option.ite_none_right_eq_some.mp run
    cases completions <;> obtain rfl := Option.some.inj run <;> constructor <;> grind
  | store =>
    obtain ⟨held, run⟩ := Option.ite_none_right_eq_some.mp run
    obtain rfl := Option.some.inj run
    constructor <;> grind
  | join =>
    obtain ⟨stopping, run⟩ := Option.ite_none_right_eq_some.mp run
    constructor <;> grind
  | dropHandle =>
    obtain ⟨held, run⟩ := Option.ite_none_right_eq_some.mp run
    obtain rfl := Option.some.inj run
    constructor <;> grind

theorem Sound.step_of_joined {ok : Bool} (h : r.Sound) (joined : r.owner = .joined ok) :
    r.step e = none := by
  have ended := h.joined ok joined
  cases e with
  | poll completions => cases completions <;> grind [step]
  | _ => grind [step]

/-- After the store, whatever the kernel and the backend answer, the thread ends with its next load
that is not stale, and `shutdown` returns. -/
theorem Sound.finishes (h : r.Sound) (cpu : UInt64) (stopping : r.owner = .stopping) (rc : Int32)
    (completions : Option Nat) : ∃ (es : List Event) (t : PollReactor) (ok : Bool),
      es.length ≤ 3 ∧ (∀ e ∈ es, e ∈ [.pin rc, .poll completions, .load true, .join]) ∧
      (PollReactor.machine cpu).runs r es = some t ∧ t.owner = .joined ok := by
  have stop : r.stop = true := h.stored.mpr (.inl stopping)
  cases at_ : r.thread with
  | none => grind [h.spawned]
  | some thread =>
    cases thread with
    | exited =>
      refine ⟨[.join], { r with owner := .joined true }, true, by simp, by simp, ?_, rfl⟩
      simp [Machine.runs, PollReactor.machine, step, stopping, at_]
    | panicked =>
      refine ⟨[.join], { r with owner := .joined false }, false, by simp, by simp, ?_, rfl⟩
      simp [Machine.runs, PollReactor.machine, step, stopping, at_]
    | load =>
      refine ⟨[.load true, .join], { r with thread := some .exited, owner := .joined true }, true,
        by simp, by simp, ?_, rfl⟩
      simp [Machine.runs, PollReactor.machine, step, stopping, at_, stop]
    | poll =>
      cases completions with
      | some n =>
        refine ⟨[.poll (some n), .load true, .join],
          { r with thread := some .exited, owner := .joined true }, true, by simp, by simp, ?_, rfl⟩
        simp [Machine.runs, PollReactor.machine, step, stopping, at_, stop]
      | none =>
        refine ⟨[.poll none, .join], { r with thread := some .panicked, owner := .joined false },
          false, by simp, by simp, ?_, rfl⟩
        simp [Machine.runs, PollReactor.machine, step, stopping, at_]
    | pin =>
      cases pinned : setCpuAffinity r.cpu rc with
      | ok words =>
        refine ⟨[.pin rc, .load true, .join],
          { r with thread := some .exited, owner := .joined true, affinity := some words }, true,
          by simp, by simp, ?_, rfl⟩
        simp [Machine.runs, PollReactor.machine, step, stopping, at_, stop, pinned]
      | error e =>
        refine ⟨[.pin rc, .join], { r with thread := some .exited, owner := .joined true }, true,
          by simp, by simp, ?_, rfl⟩
        simp [Machine.runs, PollReactor.machine, step, stopping, at_, pinned]

end PollReactor

section System

variable {ι : Type u} [DecidableEq ι] {cpu : ι → UInt64} {s t : ι → PollReactor} {i : ι}

theorem reach_sound (h : (machine cpu).Reach Machine.Always s) (i : ι) :
    (s i).cpu = cpu i ∧ (s i).Sound := by
  refine (Machine.Reach.component h i).invariant
    (I := fun r => r.cpu = cpu i ∧ r.Sound) ?_ fun r e t sound _ run => ?_
  · rintro r rfl
    exact ⟨rfl, PollReactor.sound_new _⟩
  · exact ⟨(PollReactor.step_cpu run).trans sound.1, PollReactor.sound_step sound.2 run⟩

/-- Whatever is loaded, answered and polled, in whatever order the reactors and their owners take
their turns: a thread polls on its core alone, ends only after `shutdown` has stored its flag, in a
panic or without a core, and `shutdown` returns after it has ended, with an error if it panicked. -/
theorem reactor_sound (h : (machine cpu).Reach Machine.Always s) (i : ι) :
    (0 < (s i).polls → cpu i < cpuSetsize ∧ ∃ words, (s i).affinity = some words ∧
      ∀ core, Holds words core ↔ core = (cpu i).toNat) ∧
    ((s i).thread = some .exited → (s i).owner = .stopping ∨ (∃ ok, (s i).owner = .joined ok) ∨
      (s i).polls = 0) ∧
    ∀ ok, (s i).owner = .joined ok → (s i).thread = some (if ok then .exited else .panicked) := by
  obtain ⟨own, sound⟩ := reach_sound h i
  refine ⟨fun polled => own ▸ sound.pinned (.inl polled), fun exited => ?_, sound.joined⟩
  rcases sound.exits exited with stop | none
  · exact (sound.stored.mp stop).imp_right .inl
  · refine .inr (.inr (Nat.eq_zero_of_not_pos fun polled => ?_))
    obtain ⟨-, words, some, -⟩ := sound.pinned (.inl polled)
    rw [none] at some
    cases some

/-- Once `shutdown` has returned, nothing changes about the reactor: no poll is going on, and none
begins. -/
theorem shutdown_quiesces {ok : Bool} {events : List (ι × Event)}
    (h : (machine cpu).Reach Machine.Always s) (joined : (s i).owner = .joined ok)
    (run : (machine cpu).runs s events = some t) :
    t i = s i ∧ (t i).thread ≠ some .poll := by
  have sound := (reach_sound h i).2
  have same : t i = s i := by
    refine Machine.runs_invariant (I := fun u => u i = s i) (fun u (j, e) v _ kept step => ?_) rfl run
    obtain ⟨w, moved, rfl⟩ := Machine.interleave_step step
    by_cases own : i = j
    · subst own
      rw [kept] at moved
      cases (sound.step_of_joined joined).symm.trans moved
    · rw [Function.update_of_ne own, kept]
  refine ⟨same, fun polling => ?_⟩
  have ended := sound.joined ok joined
  rw [same, ended] at polling
  cases ok <;> cases polling

/-- A `shutdown` that has stored the flag returns in three steps, if the next load is not stale. -/
theorem shutdown_finishes (h : (machine cpu).Reach Machine.Always s)
    (stopping : (s i).owner = .stopping) (rc : Int32) (completions : Option Nat) :
    ∃ (es : List Event) (t : PollReactor) (ok : Bool), es.length ≤ 3 ∧
      (∀ e ∈ es, e ∈ [.pin rc, .poll completions, .load true, .join]) ∧
      (machine cpu).runs s (es.map (i, ·)) = some (Function.update s i t) ∧ t.owner = .joined ok := by
  obtain ⟨es, t, ok, short, events, run, joined⟩ :=
    (reach_sound h i).2.finishes (cpu i) stopping rc completions
  exact ⟨es, t, ok, short, events, Machine.interleave_runs run, joined⟩

end System

/-! ## Two reactors -/

def pair (b : Bool) : UInt64 := if b then 65 else 1023

/-- The second of two reactors polls once more after the store, with a stale load, and panics. -/
def pairEvents : List (Bool × Event) :=
  [(true, .spawn true), (false, .spawn true), (true, .pin 0), (false, .pin 0), (true, .load false),
    (true, .store), (true, .poll (some 2)), (true, .load false)]

def after (events : List (Bool × Event)) : Bool → PollReactor :=
  ((machine pair).runs (fun b => .new (pair b)) events).getD fun b => .new (pair b)

theorem reach_after {events : List (Bool × Event)}
    (run : (machine pair).runs (fun b => .new (pair b)) events = some (after events)) :
    (machine pair).Reach Machine.Always (after events) :=
  (Machine.Reach.start fun _ => rfl).runs run

theorem reactor_sound_pair : pair true < cpuSetsize ∧
    ∃ words, (after pairEvents true).affinity = some words ∧
      ∀ core, Holds words core ↔ core = (pair true).toNat :=
  (reactor_sound (reach_after rfl) true).1 (by decide)

theorem shutdown_finishes_pair : ∃ (es : List Event) (t : PollReactor) (ok : Bool), es.length ≤ 3 ∧
    (∀ e ∈ es, e ∈ [.pin 0, .poll none, .load true, .join]) ∧
    (machine pair).runs (after pairEvents) (es.map (true, ·)) =
      some (Function.update (after pairEvents) true t) ∧ t.owner = .joined ok :=
  shutdown_finishes (reach_after rfl) rfl 0 none

/-- A reactor that could not pin itself. -/
def unpinnedEvents : List (Bool × Event) :=
  [(true, .spawn true), (true, .pin (-1)), (true, .store), (true, .join)]

theorem shutdown_quiesces_pair :
    after (unpinnedEvents ++ [(false, .spawn true)]) true = after unpinnedEvents true ∧
      (after (unpinnedEvents ++ [(false, .spawn true)]) true).thread ≠ some .poll := by
  have joined : (after unpinnedEvents true).owner = .joined true := rfl
  have run : (machine pair).runs (after unpinnedEvents) [(false, .spawn true)] =
    some (after (unpinnedEvents ++ [(false, .spawn true)])) := rfl
  exact shutdown_quiesces (reach_after rfl) joined run

end BypassIo.Reactor
