import BypassIo.Backend.UringSafety
import Mathlib.Data.List.Nodup
import Mathlib.Data.List.Perm.Basic

/-!
# io_uring calls when submissions fail

Runs without any condition: system calls may fail, waits may be interrupted, and entries and
completions of calls that have returned stay in the ring for later calls to find. The kernel may
also stop early: the system call then takes only the first entries of the queue, and returns without
waiting. What it has not taken stays in the submission queue.

A token is handed out once in `2 ^ 64` calls, so a call that returns `Ok` returns the completion of
its own entry (`results_own`). A full queue is an error before the next system call: once the
system calls have left as many entries behind as the queue has, no call submits anything any more
(`dead_iff`).
-/

namespace BypassIo.Backend.Uring

universe u

variable {T : Type u} [DecidableEq T] {s t : UringBackend T} {entries : Nat} {thread : T}
variable {e : Event T} {c : Call}

/-! ## A kernel that may stop -/

/-- An event of a ring whose system call may take a part of the queue only. -/
inductive FaultyEvent (T : Type u)
  | event (e : Event T)
  | partly (thread : T) (taken : Nat)
  deriving DecidableEq

namespace UringBackend

/-- The kernel takes the first entries of the queue. -/
def take (s : UringBackend T) (thread : T) (call : Call) (taken : Nat) : UringBackend T :=
  { s.moveTo thread (.wait call) with
    queued := s.queued.drop taken
    inFlight := s.inFlight ++ s.queued.take taken }

def faultyStep (entries : Nat) (s : UringBackend T) : FaultyEvent T → Option (UringBackend T)
  | .event e => s.step entries e
  | .partly thread taken =>
    match s.threads thread with
    | .enter call => if taken < s.queued.length then some (s.take thread call taken) else none
    | _ => none

theorem partly_eq {taken : Nat} (run : s.faultyStep entries (.partly thread taken) = some t) :
    ∃ c, s.threads thread = .enter c ∧ taken < s.queued.length ∧ t = s.take thread c taken := by
  simp only [faultyStep] at run
  split at run
  · next c at_ =>
    obtain ⟨part, run⟩ := Option.ite_none_right_eq_some.mp run
    exact ⟨c, at_, part, (Option.some.inj run).symm⟩
  · cases run

/-- A system call that takes all entries. -/
theorem take_length (s : UringBackend T) (thread : T) (call : Call) :
    s.take thread call s.queued.length = { s.moveTo thread (.wait call) with
      queued := []
      inFlight := s.inFlight ++ s.queued } := by
  rw [take, List.drop_length, List.take_length]

end UringBackend

/-- The backend with its threads and such a kernel. -/
def faultyMachine (T : Type u) [DecidableEq T] (entries : Nat) :
    Machine (UringBackend T) (FaultyEvent T) where
  start s := s = .new
  step := UringBackend.faultyStep entries

/-! ## Tokens -/

/-- The token of the call with this serial number: the counter starts at one and wraps. -/
def tokenOf (serial : Nat) : UInt64 := UInt64.ofNat (serial + 1)

theorem tokenOf_injective {i j : Nat} (hi : i < 2 ^ 64) (hj : j < 2 ^ 64)
    (same : tokenOf i = tokenOf j) : i = j := by
  have words := congrArg UInt64.toNat same
  simp only [tokenOf, UInt64.toNat_ofNat'] at words
  omega

theorem tokenOf_succ (n : Nat) : tokenOf n + 1 = tokenOf (n + 1) := by
  simp [tokenOf]

/-- The call has not pushed its entry. -/
def CallState.unpushed : CallState → Option Call
  | .lock call | .push call => some call
  | _ => none

namespace UringBackend

/-- The serial numbers of the entries that were ever pushed: queued, in the kernel, completed. -/
def pushed (s : UringBackend T) : List Nat :=
  (s.queued ++ s.inFlight).map (·.serial) ++ s.finished.map (·.1)

end UringBackend

/-- Every entry and completion is of one call, and no two are of the same. -/
structure Tracked (s : UringBackend T) : Prop where
  counter : s.nextToken = tokenOf s.calls
  calls : ∀ thread call, (s.threads thread).call = some call →
    call.serial < s.calls ∧ call.token = tokenOf call.serial
  distinct : ∀ thread thread' call call', (s.threads thread).call = some call →
    (s.threads thread').call = some call' → call.serial = call'.serial → thread = thread'
  entries : ∀ entry ∈ s.queued ++ s.inFlight,
    entry.serial < s.calls ∧ entry.userData = tokenOf entry.serial
  finished : ∀ done ∈ s.finished, done.1 < s.calls
  completed : ∀ completion ∈ s.completed, (completion.serial, completion.result) ∈ s.finished ∧
    completion.userData = tokenOf completion.serial
  once : s.pushed.Nodup
  unpushed : ∀ thread call, (s.threads thread).unpushed = some call → call.serial ∉ s.pushed
  results : s.calls ≤ 2 ^ 64 → ∀ thread call value,
    s.threads thread = .returned (some call) (.ok value) →
    ∃ n : Int, (call.serial, n) ∈ s.finished ∧ 0 ≤ n ∧ value = call.op.value n.toNat

namespace Tracked

omit [DecidableEq T] in
theorem new : Tracked (UringBackend.new : UringBackend T) := by
  constructor <;> simp [UringBackend.new, UringBackend.pushed, CallState.call, CallState.unpushed,
    tokenOf]

/-- A thread moves on with its call unchanged or without one, and returns no `Ok`. -/
theorem moveTo {x : CallState} {holder : Option T} (h : Tracked s)
    (same : x.call = none ∨ x.call = (s.threads thread).call)
    (kept : x.unpushed = none ∨ x.unpushed = (s.threads thread).unpushed)
    (error : ∀ call value, x ≠ .returned (some call) (.ok value)) :
    Tracked { s.moveTo thread x with holder := holder } := by
  obtain ⟨counter, calls, distinct, entries, finished, completed, once, unpushed, results⟩ := h
  constructor <;> simp only [UringBackend.moveTo, Function.update_apply, UringBackend.pushed] at * <;>
    grind

theorem nextToken {op : Op} (h : Tracked s) :
    Tracked { s.moveTo thread (.lock ⟨op, s.nextToken, s.calls⟩) with
      nextToken := s.nextToken + 1, calls := s.calls + 1 } := by
  have fresh : s.calls ∉ s.pushed := by
    simp only [UringBackend.pushed, List.mem_append, List.mem_map]
    rintro (⟨entry, mem, same⟩ | ⟨done, mem, same⟩)
    · exact absurd (h.entries entry (List.mem_append.mpr mem)).1 (by omega)
    · exact absurd (h.finished done mem) (by omega)
  obtain ⟨counter, calls, distinct, entries, finished, completed, once, unpushed, results⟩ := h
  constructor
  · simp only [counter, tokenOf_succ]
  all_goals
    simp only [UringBackend.moveTo, Function.update_apply, UringBackend.pushed] at *
    grind [CallState.call, CallState.unpushed]

/-- A call pushes its entry. -/
theorem push (h : Tracked s) (at_ : s.threads thread = .push c) :
    Tracked { s.moveTo thread (.enter c) with queued := s.queued ++ [c.entry] } := by
  have own := h.calls thread c (by rw [at_]; rfl)
  have perm : ({ s.moveTo thread (.enter c) with queued := s.queued ++ [c.entry] } :
      UringBackend T).pushed.Perm (c.serial :: s.pushed) := by
    simp only [UringBackend.pushed, UringBackend.moveTo, List.map_append, List.append_assoc]
    exact List.perm_middle
  have absent : c.serial ∉ s.pushed := h.unpushed thread c (by rw [at_]; rfl)
  have others : ∀ other call, other ≠ thread → (s.threads other).unpushed = some call →
      call.serial ≠ c.serial := by
    intro other call ne early same
    have call_eq : (s.threads other).call = some call := by
      cases state : s.threads other <;> simp_all [CallState.unpushed, CallState.call]
    exact ne (h.distinct other thread call c call_eq (by rw [at_]; rfl) same)
  obtain ⟨counter, calls, distinct, entries, finished, completed, once, unpushed, results⟩ := h
  constructor
  case once => exact perm.nodup_iff.mpr (List.nodup_cons.mpr ⟨absent, once⟩)
  case unpushed =>
    intro other call early
    rw [perm.mem_iff, List.mem_cons]
    simp only [UringBackend.moveTo, Function.update_apply] at early
    grind [CallState.unpushed]
  all_goals
    simp only [UringBackend.moveTo, Function.update_apply] at *
    grind [CallState.call, Call.entry]

/-- The kernel takes entries of the submission queue. -/
theorem take (h : Tracked s) (at_ : s.threads thread = .enter c) (taken : Nat) :
    Tracked (s.take thread c taken) := by
  have moved : (s.queued.drop taken ++ (s.inFlight ++ s.queued.take taken)).Perm
      (s.queued ++ s.inFlight) := by
    have back : (s.queued.drop taken ++ s.inFlight ++ s.queued.take taken).Perm
        (s.queued.take taken ++ (s.queued.drop taken ++ s.inFlight)) := List.perm_append_comm
    rwa [← List.append_assoc, List.take_append_drop, List.append_assoc] at back
  have perm : (s.take thread c taken).pushed.Perm s.pushed := (moved.map _).append_right _
  obtain ⟨counter, calls, distinct, entries, finished, completed, once, unpushed, results⟩ := h
  constructor
  case entries => exact fun entry mem => entries entry (moved.mem_iff.mp mem)
  case once => exact perm.nodup_iff.mpr once
  case unpushed =>
    intro other call early
    rw [perm.mem_iff]
    simp only [UringBackend.take, UringBackend.moveTo, Function.update_apply] at early
    grind [CallState.unpushed]
  all_goals
    simp only [UringBackend.take, UringBackend.moveTo, Function.update_apply] at *
    grind [CallState.call]

omit [DecidableEq T] in
/-- The kernel completes an operation. -/
theorem complete {index : Nat} {result : Int} {entry : Entry} (h : Tracked s)
    (at_ : s.inFlight[index]? = some entry) :
    Tracked { s with
      inFlight := s.inFlight.eraseIdx index
      completed := s.completed ++ [⟨entry.userData, result, entry.serial⟩]
      finished := s.finished ++ [(entry.serial, result)] } := by
  obtain ⟨lt, held⟩ := List.getElem?_eq_some_iff.mp at_
  have mem : entry ∈ s.queued ++ s.inFlight :=
    List.mem_append_right _ (List.mem_of_getElem? at_)
  have split : s.inFlight.Perm (entry :: s.inFlight.eraseIdx index) := by
    subst held
    exact (List.getElem_cons_eraseIdx_perm lt).symm
  have taken : ((s.queued ++ s.inFlight).map (·.serial)).Perm
      (entry.serial :: (s.queued ++ s.inFlight.eraseIdx index).map (·.serial)) :=
    ((split.append_left s.queued).trans List.perm_middle).map _
  have perm : ({ s with
      inFlight := s.inFlight.eraseIdx index
      completed := s.completed ++ [⟨entry.userData, result, entry.serial⟩]
      finished := s.finished ++ [(entry.serial, result)] } : UringBackend T).pushed.Perm
      s.pushed := by
    simp only [UringBackend.pushed, List.map_append, List.map_cons, List.map_nil] at taken ⊢
    rw [← List.append_assoc _ _ [_]]
    exact (List.perm_append_singleton _ _).trans (taken.symm.append_right _)
  have rest : ∀ x ∈ s.inFlight.eraseIdx index, x ∈ s.inFlight := fun x hx =>
    List.mem_of_mem_eraseIdx hx
  have owned := h.entries entry mem
  obtain ⟨counter, calls, distinct, entries, finished, completed, once, unpushed, results⟩ := h
  constructor
  case once => exact perm.nodup_iff.mpr once
  case unpushed =>
    intro other call early
    rw [perm.mem_iff]
    exact unpushed other call early
  case results =>
    intro few other call value returned
    obtain ⟨n, done, rest⟩ := results few other call value returned
    exact ⟨n, List.mem_append_left _ done, rest⟩
  all_goals
    simp only at *
    grind

/-- A call returns what a completion with its token says, and later completions are left. -/
theorem found {completion : Completion} {rest : List Completion} (h : Tracked s)
    (at_ : s.threads thread = .find c) (mem : completion ∈ s.completed)
    (token : completion.userData = c.token) (sub : ∀ x ∈ rest, x ∈ s.completed) :
    Tracked { s.finish thread c (completion.value c.op) with completed := rest } := by
  have own := h.calls thread c (by rw [at_]; rfl)
  obtain ⟨done, userData⟩ := h.completed completion mem
  have bound := h.finished _ done
  have result : s.calls ≤ 2 ^ 64 → ∀ value, completion.value c.op = .ok value →
      ∃ n : Int, (c.serial, n) ∈ s.finished ∧ 0 ≤ n ∧ value = c.op.value n.toNat := by
    intro few value ok
    have same : completion.serial = c.serial :=
      tokenOf_injective (by omega) (by omega) (userData.symm.trans (token.trans own.2))
    unfold Completion.value at ok
    split at ok
    · cases ok
    · next nonneg =>
      refine ⟨completion.result, ?_, by omega, (Except.ok.inj ok).symm⟩
      rwa [← same]
  obtain ⟨counter, calls, distinct, entries, finished, completed, once, unpushed, results⟩ := h
  constructor
  case results =>
    intro few other call value returned
    simp only [UringBackend.finish, UringBackend.moveTo, Function.update_apply] at returned ⊢
    split at returned
    · obtain ⟨rfl, ok⟩ : c = call ∧ completion.value c.op = .ok value := by
        simpa using returned
      exact result few value ok
    · exact results few other call value returned
  all_goals
    simp only [UringBackend.finish, UringBackend.moveTo, Function.update_apply,
      UringBackend.pushed] at *
    grind [CallState.call, CallState.unpushed]

/-- A call returns an error. -/
theorem failed {error : IoError} {completed : List Completion} (h : Tracked s)
    (same : (s.threads thread).call = some c) (sub : ∀ x ∈ completed, x ∈ s.completed) :
    Tracked { s.finish thread c (.error error) with completed := completed } := by
  obtain ⟨counter, calls, distinct, entries, finished, completed, once, unpushed, results⟩ := h
  constructor <;>
    simp only [UringBackend.finish, UringBackend.moveTo, Function.update_apply,
      UringBackend.pushed] at * <;>
    grind [CallState.call, CallState.unpushed]

theorem begin {request : Request} (h : Tracked s) (run : s.begin thread request = some t) :
    Tracked t := by
  have outside : ∃ x, t = s.moveTo thread x ∧ x.call = none ∧ x.unpushed = none ∧
      ∀ call value, x ≠ .returned (some call) (.ok value) := by
    unfold UringBackend.begin at run
    grind [CallState.call, CallState.unpushed]
  obtain ⟨x, rfl, call, unpushed, error⟩ := outside
  exact h.moveTo (.inl call) (.inl unpushed) error

theorem step (h : Tracked s) (run : s.step entries e = some t) : Tracked t := by
  cases e with
  | call thread request => exact h.begin run
  | nextToken thread =>
    simp only [UringBackend.step] at run
    split at run
    · obtain rfl := Option.some.inj run
      exact h.nextToken
    · cases run
  | lock thread =>
    simp only [UringBackend.step] at run
    split at run
    · next c at_ free =>
      split at run
      · obtain rfl := Option.some.inj run
        exact h.moveTo (.inr (by rw [at_]; rfl)) (.inl rfl) (by simp)
      · obtain rfl := Option.some.inj run
        exact h.moveTo (.inr (by rw [at_]; rfl)) (.inr (by rw [at_]; rfl)) (by simp)
    · cases run
  | push thread =>
    simp only [UringBackend.step] at run
    split at run
    · next c at_ =>
      split at run
      · obtain rfl := Option.some.inj run
        exact h.push at_
      · obtain rfl := Option.some.inj run
        exact h.failed (by rw [at_]; rfl) fun _ mem => mem
    · cases run
  | enter thread outcome =>
    obtain ⟨c, at_, ⟨code, -, rfl⟩ | ⟨-, rfl⟩⟩ := UringBackend.enter_eq run
    · exact h.failed (by rw [at_]; rfl) fun _ mem => mem
    · exact UringBackend.take_length s thread c ▸ h.take at_ _
  | wake thread interrupted =>
    simp only [UringBackend.step] at run
    split at run
    · next c at_ =>
      obtain ⟨_, run⟩ := Option.ite_none_right_eq_some.mp run
      obtain rfl := Option.some.inj run
      exact h.moveTo (.inr (by rw [at_]; rfl)) (.inl rfl) (by simp)
    · cases run
  | find thread =>
    obtain ⟨c, at_, ⟨completion, rest, split, rfl⟩ | ⟨-, rfl⟩⟩ := UringBackend.find_eq run
    · have suffix := List.dropWhile_suffix (l := s.completed) (·.userData ≠ c.token)
      rw [split] at suffix
      have stop := List.head?_dropWhile_not (·.userData ≠ c.token) s.completed
      rw [split] at stop
      exact h.found at_ (suffix.mem List.mem_cons_self) (by simpa using stop) fun _ mem =>
        suffix.mem (List.mem_cons_of_mem _ mem)
    · exact h.failed (by rw [at_]; rfl) (by simp)
  | complete index result =>
    simp only [UringBackend.step] at run
    split at run
    · next at_ =>
      obtain rfl := Option.some.inj run
      exact h.complete at_
    · cases run

theorem faultyStep {e : FaultyEvent T} (h : Tracked s) (run : s.faultyStep entries e = some t) :
    Tracked t := by
  cases e with
  | event e => exact h.step run
  | partly thread taken =>
    obtain ⟨c, at_, -, rfl⟩ := UringBackend.partly_eq run
    exact h.take at_ taken

end Tracked

theorem reach_tracked (h : (faultyMachine T entries).Reach Machine.Always s) : Tracked s := by
  apply h.invariant
  · rintro s rfl
    exact Tracked.new
  · exact fun s e t tracked _ run => tracked.faultyStep run

/-- Whatever failed before, a call that has returned `Ok` returned the one completion of its own
entry, and nothing of it is left in the ring; no entry is pushed or completed twice. -/
theorem results_own (h : (faultyMachine T entries).Reach Machine.Always s) (few : s.calls ≤ 2 ^ 64) :
    s.pushed.Nodup ∧ ∀ thread call value,
      s.threads thread = .returned (some call) (.ok value) →
      (∀ entry ∈ s.queued ++ s.inFlight, entry.serial ≠ call.serial) ∧
      ∃ n : Int, (∀ m, (call.serial, m) ∈ s.finished ↔ m = n) ∧ 0 ≤ n ∧
        value = call.op.value n.toNat := by
  have tracked := reach_tracked h
  obtain ⟨-, finished, apart⟩ := List.nodup_append.mp tracked.once
  refine ⟨tracked.once, fun thread call value returned => ?_⟩
  obtain ⟨n, mem, nonneg, same⟩ := tracked.results few thread call value returned
  have reported : call.serial ∈ s.finished.map (·.1) := List.mem_map_of_mem mem
  refine ⟨fun entry held own => ?_, n, fun m => ⟨fun other => ?_, fun eq => eq ▸ mem⟩, nonneg, same⟩
  · exact apart _ (List.mem_map_of_mem held) _ reported own
  · exact congrArg Prod.snd (List.inj_on_of_nodup_map finished other mem rfl)

/-- The system call of a write fails; the read after it gets its own result, and the late result
of the write is dropped. -/
theorem results_own_late : ∃ s : UringBackend Unit,
    (faultyMachine Unit 8).Reach Machine.Always s ∧ s.pushed.Nodup ∧
    s.finished = [(0, 5), (1, 8)] ∧
    s.threads () = .returned (some ⟨.readAt 3 ⟨8192, 8⟩ 0, 2, 1⟩) (.ok (.size 8)) := by
  obtain ⟨s, run, few, finished, returned⟩ : ∃ s : UringBackend Unit,
      (faultyMachine Unit 8).runs .new
        (.map .event [.call () (.inherent (.writeAt 3 ⟨4096, 5⟩ 4)), .nextToken (), .lock (),
          .push (), .enter () (.failed 11), .call () (.inherent (.readAt 3 ⟨8192, 8⟩ 0)),
          .nextToken (), .lock (), .push (), .enter () .submitted, .complete 0 5, .complete 0 8,
          .wake () false, .find ()]) = some s ∧
      s.calls ≤ 2 ^ 64 ∧ s.finished = [(0, 5), (1, 8)] ∧
      s.threads () = .returned (some ⟨.readAt 3 ⟨8192, 8⟩ 0, 2, 1⟩) (.ok (.size 8)) :=
    ⟨_, rfl, by decide, rfl, rfl⟩
  have reach : (faultyMachine Unit 8).Reach Machine.Always s :=
    Machine.Reach.runs (.start rfl) run
  exact ⟨s, reach, (results_own reach few).1, finished, returned⟩

/-! ## A queue that nobody drains -/

/-- The thread is at the system call. -/
def CallState.entering : CallState → Bool
  | .enter _ => true
  | _ => false

/-- The event is a system call. -/
def FaultyEvent.Submits : FaultyEvent T → Prop
  | .event (.enter _ _) | .partly _ _ => True
  | .event _ => False

/-- The entries in the queue after a system call; its own call has pushed one. -/
def leftAfter (left : Nat) : FaultyEvent T → Nat
  | .event (.enter _ (.failed _)) => left + 1
  | .event (.enter _ .submitted) => 0
  | .partly _ taken => left + 1 - taken
  | .event _ => left

/-- The entries that the system calls have left behind. -/
def left (events : List (FaultyEvent T)) : Nat := events.foldl leftAfter 0

/-- Failed system calls since the last one that submitted. -/
def failuresAfter (failures : Nat) : Event T → Nat
  | .enter _ (.failed _) => failures + 1
  | .enter _ .submitted => 0
  | _ => failures

def failures (events : List (Event T)) : Nat := events.foldl failuresAfter 0

omit [DecidableEq T] in
/-- A kernel that does not stop leaves the entries of failed calls behind. -/
theorem left_event (events : List (Event T)) : left (events.map .event) = failures events := by
  have same : ∀ n (e : Event T), leftAfter n (.event e) = failuresAfter n e := by
    intro n e
    cases e with
    | enter thread outcome => cases outcome <;> rfl
    | _ => rfl
  simp only [left, failures, List.foldl_map, same]

/-- The submission queue holds the entries that system calls have left behind, and that of the call
that is about to make one. -/
structure Backlog (entries left : Nat) (s : UringBackend T) : Prop where
  inside : ∀ thread, s.holder = some thread ↔ (s.threads thread).inside
  sound : s.poisoned = false
  idle : (∀ thread, ¬ (s.threads thread).entering) → s.queued.length = left
  entering : ∀ thread, (s.threads thread).entering → s.queued.length = left + 1
  fits : s.queued.length ≤ entries

namespace Backlog

variable {n : Nat}

omit [DecidableEq T] in
theorem new : Backlog entries 0 (UringBackend.new : UringBackend T) := by
  constructor <;> simp [UringBackend.new, CallState.inside, CallState.entering]

omit [DecidableEq T] in
/-- One thread at most is at the system call. -/
theorem alone (h : Backlog entries n s) {other : T} (at_ : (s.threads thread).inside)
    (entering : (s.threads other).entering) : other = thread := by
  have inside : (s.threads other).inside := by
    cases state : s.threads other <;> simp_all [CallState.entering, CallState.inside]
  have := (h.inside other).mpr inside
  rw [(h.inside thread).mpr at_] at this
  exact (Option.some.inj this).symm

theorem begin {request : Request} (h : Backlog entries n s)
    (run : s.begin thread request = some t) : Backlog entries n t := by
  have outside : ∃ x, t = s.moveTo thread x ∧ x.entering = false ∧ x.inside = false ∧
      (s.threads thread).entering = false ∧ (s.threads thread).inside = false := by
    unfold UringBackend.begin at run
    grind [CallState.entering, CallState.inside]
  obtain ⟨x, rfl, away, outside', away', outside⟩ := outside
  obtain ⟨inside, sound, idle, entering, fits⟩ := h
  constructor <;> simp only [UringBackend.moveTo, Function.update_apply] at * <;> grind

theorem step (h : Backlog entries n s) (run : s.step entries e = some t) :
    Backlog entries (leftAfter n (.event e)) t := by
  cases e with
  | call thread request => exact h.begin run
  | complete index result =>
    simp only [UringBackend.step] at run
    split at run <;> cases run
    exact ⟨h.inside, h.sound, h.idle, h.entering, h.fits⟩
  | enter thread outcome =>
    obtain ⟨c, at_, ⟨code, rfl, rfl⟩ | ⟨rfl, rfl⟩⟩ := UringBackend.enter_eq run
    all_goals
      have only : ∀ other, (s.threads other).entering → other = thread :=
        fun other => h.alone (by rw [at_]; rfl)
      obtain ⟨inside, sound, idle, entering, fits⟩ := h
      constructor <;> simp only [UringBackend.finish, UringBackend.moveTo,
        Function.update_apply, leftAfter] at * <;>
        grind [CallState.entering, CallState.inside]
  | push thread =>
    simp only [UringBackend.step] at run
    split at run
    · next c at_ =>
      have only : ∀ other, (s.threads other).entering → other = thread :=
        fun other => h.alone (by rw [at_]; rfl)
      obtain ⟨inside, sound, idle, entering, fits⟩ := h
      split at run <;> cases run <;> constructor <;> simp only [UringBackend.finish,
        UringBackend.moveTo, Function.update_apply, leftAfter] at * <;>
        grind [CallState.entering, CallState.inside]
    · cases run
  | find thread =>
    obtain ⟨c, at_, ⟨completion, rest, -, rfl⟩ | ⟨-, rfl⟩⟩ := UringBackend.find_eq run
    all_goals
      obtain ⟨inside, sound, idle, entering, fits⟩ := h
      constructor <;> simp only [UringBackend.finish, UringBackend.moveTo,
        Function.update_apply, leftAfter] at * <;>
        grind [CallState.entering, CallState.inside]
  | _ =>
    obtain ⟨inside, sound, idle, entering, fits⟩ := h
    simp only [UringBackend.step] at run
    repeat' split at run
    all_goals cases run
    all_goals
      constructor <;> simp only [UringBackend.moveTo, Function.update_apply, leftAfter] at * <;>
        grind [CallState.entering, CallState.inside]

theorem faultyStep {e : FaultyEvent T} (h : Backlog entries n s)
    (run : s.faultyStep entries e = some t) : Backlog entries (leftAfter n e) t := by
  cases e with
  | event e => exact h.step run
  | partly thread taken =>
    obtain ⟨c, at_, part, rfl⟩ := UringBackend.partly_eq run
    have only : ∀ other, (s.threads other).entering → other = thread :=
      fun other => h.alone (by rw [at_]; rfl)
    obtain ⟨inside, sound, idle, entering, fits⟩ := h
    constructor <;> simp only [UringBackend.take, UringBackend.moveTo, Function.update_apply,
      leftAfter, List.length_drop] at * <;> grind [CallState.entering, CallState.inside]

theorem runs {events : List (FaultyEvent T)}
    (run : (faultyMachine T entries).runs .new events = some s) : Backlog entries (left events) s :=
  Machine.runs_foldl (fun _ _ _ _ h run => h.faultyStep run) new run

omit [DecidableEq T] in
theorem le (h : Backlog entries n s) : n ≤ entries := by
  have fits := h.fits
  by_cases at_ : ∃ other, (s.threads other).entering
  · obtain ⟨other, at_⟩ := at_
    have := h.entering other at_
    omega
  · have := h.idle fun other entering => at_ ⟨other, entering⟩
    omega

omit [DecidableEq T] in
/-- With a full queue no thread is at the system call. -/
theorem not_entering (h : Backlog entries entries s) (other : T) :
    ¬ (s.threads other).entering := by
  intro at_
  have := h.entering other at_
  have := h.fits
  omega

/-- With a full queue no step submits, and the queue stays as it is. -/
theorem stays {e : FaultyEvent T} (h : Backlog entries entries s)
    (run : s.faultyStep entries e = some t) :
    Backlog entries entries t ∧ t.queued = s.queued ∧ ¬ e.Submits := by
  have full := h.idle h.not_entering
  have next := h.faultyStep run
  cases e with
  | partly thread taken =>
    obtain ⟨c, at_, -⟩ := UringBackend.partly_eq run
    exact absurd (by rw [at_]; rfl) (h.not_entering thread)
  | event e =>
    simp only [UringBackend.faultyStep] at run
    cases e with
    | enter thread outcome =>
      obtain ⟨c, at_, -⟩ := UringBackend.enter_eq run
      exact absurd (by rw [at_]; rfl) (h.not_entering thread)
    | push thread =>
      refine ⟨next, ?_, id⟩
      simp only [UringBackend.step, full, Nat.lt_irrefl, if_false] at run
      split at run <;> cases run
      rfl
    | find thread =>
      obtain ⟨c, -, ⟨completion, rest, -, rfl⟩ | ⟨-, rfl⟩⟩ := UringBackend.find_eq run <;>
        exact ⟨next, rfl, id⟩
    | call thread request =>
      refine ⟨next, ?_, id⟩
      simp only [UringBackend.step, UringBackend.begin] at run
      repeat' split at run
      all_goals cases run <;> rfl
    | _ =>
      refine ⟨next, ?_, id⟩
      simp only [UringBackend.step] at run
      repeat' split at run
      all_goals cases run <;> rfl

/-- A full queue stays as it is, and nothing is submitted. -/
theorem stuck {es : List (FaultyEvent T)} (h : Backlog entries entries s)
    (run : (faultyMachine T entries).runs s es = some t) :
    Backlog entries entries t ∧ t.queued = s.queued ∧ ∀ e ∈ es, ¬ e.Submits := by
  induction es generalizing s with
  | nil =>
    obtain rfl := Option.some.inj run
    exact ⟨h, rfl, by simp⟩
  | cons e es ih =>
    cases first : (faultyMachine T entries).step s e with
    | none => simp [Machine.runs, first] at run
    | some u =>
      rw [Machine.runs_cons first] at run
      obtain ⟨backlog, same, quiet⟩ := h.stays first
      obtain ⟨backlog', same', quiet'⟩ := ih backlog run
      exact ⟨backlog', same'.trans same, List.forall_mem_cons.mpr ⟨quiet, quiet'⟩⟩

end Backlog

/-! ## A backend that still submits -/

/-- Some continuation makes a system call. -/
def CanSubmit (entries : Nat) (s : UringBackend T) : Prop :=
  ∃ es t, (faultyMachine T entries).runs s es = some t ∧ ∃ e ∈ es, FaultyEvent.Submits e

namespace CanSubmit

theorem after (h : CanSubmit entries t) (run : s.step entries e = some t) :
    CanSubmit entries s := by
  obtain ⟨es, u, rest, submits⟩ := h
  refine ⟨.event e :: es, u, ?_, by simp [submits]⟩
  rw [Machine.runs_cons (show (faultyMachine T entries).step s (.event e) = some t from run), rest]

theorem enter (at_ : s.threads thread = .enter c) : CanSubmit entries s := by
  obtain ⟨t, step⟩ : ∃ t, (faultyMachine T entries).step s (.event (.enter thread .submitted)) =
      some t := by
    simp [faultyMachine, UringBackend.faultyStep, UringBackend.step, at_]
  exact ⟨[_], t, Machine.runs_cons step, _, List.mem_singleton_self _, trivial⟩

theorem push (at_ : s.threads thread = .push c) (room : s.queued.length < entries) :
    CanSubmit entries s := by
  obtain ⟨t, step, next⟩ : ∃ t, s.step entries (.push thread) = some t ∧
      t.threads thread = .enter c := by
    simp [UringBackend.step, at_, room, UringBackend.moveTo]
  exact (enter next).after step

theorem lock (at_ : s.threads thread = .lock c) (free : s.holder = none)
    (sound : s.poisoned = false) (room : s.queued.length < entries) : CanSubmit entries s := by
  obtain ⟨t, step, next, same⟩ : ∃ t, s.step entries (.lock thread) = some t ∧
      t.threads thread = .push c ∧ t.queued = s.queued := by
    simp [UringBackend.step, at_, free, sound, UringBackend.moveTo]
  exact (push next (same ▸ room)).after step

theorem nextToken {op : Op} (at_ : s.threads thread = .nextToken op) (free : s.holder = none)
    (sound : s.poisoned = false) (room : s.queued.length < entries) : CanSubmit entries s := by
  obtain ⟨t, step, next, same⟩ : ∃ t, s.step entries (.nextToken thread) = some t ∧
      t.threads thread = .lock ⟨op, s.nextToken, s.calls⟩ ∧
      t.holder = none ∧ t.poisoned = false ∧ t.queued = s.queued := by
    simp [UringBackend.step, at_, free, sound, UringBackend.moveTo]
  exact (lock next same.1 same.2.1 (same.2.2 ▸ room)).after step

/-- A thread that is in no call can make one. -/
theorem idle (at_ : s.threads thread = .idle ∨ ∃ call result, s.threads thread = .returned call result)
    (free : s.holder = none) (sound : s.poisoned = false) (room : s.queued.length < entries) :
    CanSubmit entries s := by
  obtain ⟨t, step, next, same⟩ : ∃ t, s.step entries (.call thread (.inherent (.fsync 0))) = some t ∧
      t.threads thread = .nextToken (.fsync 0) ∧
      t.holder = none ∧ t.poisoned = false ∧ t.queued = s.queued := by
    rcases at_ with at_ | ⟨call, result, at_⟩ <;>
      simp [UringBackend.step, UringBackend.begin, Request.op, Op.early, at_, free, sound,
        UringBackend.moveTo]
  exact (nextToken next same.1 same.2.1 (same.2.2 ▸ room)).after step

/-- With the mutex free and room in the queue, any thread can. -/
theorem free {n : Nat} (h : Backlog entries n s) (thread : T) (free : s.holder = none)
    (room : s.queued.length < entries) : CanSubmit entries s := by
  have outside : ¬ (s.threads thread).inside := fun inside => by
    simpa [free] using (h.inside thread).mpr inside
  cases at_ : s.threads thread with
  | idle => exact idle (.inl at_) free h.sound room
  | returned call result => exact idle (.inr ⟨call, result, at_⟩) free h.sound room
  | nextToken op => exact nextToken at_ free h.sound room
  | lock call => exact lock at_ free h.sound room
  | _ => exact absurd (by rw [at_]; rfl) outside

/-- The thread that has the mutex gives it up, or submits itself. -/
theorem find {n : Nat} (h : Backlog entries n s) (at_ : s.threads thread = .find c)
    (room : s.queued.length < entries) : CanSubmit entries s := by
  obtain ⟨t, step, same⟩ : ∃ t, s.step entries (.find thread) = some t ∧
      t.holder = none ∧ t.queued = s.queued := by
    simp only [UringBackend.step, at_]
    split <;> exact ⟨_, rfl, rfl, rfl⟩
  exact (free (h.step step) thread same.1 (same.2 ▸ room)).after step

theorem wait {n : Nat} (h : Backlog entries n s) (at_ : s.threads thread = .wait c)
    (room : s.queued.length < entries) : CanSubmit entries s := by
  obtain ⟨t, step, next, same⟩ : ∃ t, s.step entries (.wake thread true) = some t ∧
      t.threads thread = .find c ∧ t.queued = s.queued := by
    simp [UringBackend.step, at_, UringBackend.moveTo]
  exact (find (h.step step) next (same ▸ room)).after step

/-- As long as fewer entries are left behind than the queue has, a call can submit. -/
theorem of_backlog {n : Nat} (h : Backlog entries n s) (few : n < entries) (thread : T) :
    CanSubmit entries s := by
  by_cases entering : ∃ other, (s.threads other).entering
  · obtain ⟨other, at_⟩ := entering
    cases state : s.threads other <;> simp [state, CallState.entering] at at_
    exact enter state
  have room : s.queued.length < entries := by
    rw [h.idle fun other at_ => entering ⟨other, at_⟩]
    exact few
  cases holder : s.holder with
  | none => exact free h thread holder room
  | some other =>
    have inside := (h.inside other).mp holder
    cases state : s.threads other with
    | push call => exact push state room
    | enter call => exact enter state
    | wait call => exact wait h state room
    | find call => exact find h state room
    | _ => simp [state, CallState.inside] at inside

end CanSubmit

/-- The backend is dead exactly when the system calls have left as many entries behind as the queue
has: from then on no call makes a system call any more, the queue keeps these entries, and every
call that comes to push its own returns that the queue is full. With a kernel that does not stop
these are the entries of as many failed calls in a row. -/
theorem dead_iff [Nonempty T] {events : List (FaultyEvent T)}
    (run : (faultyMachine T entries).runs .new events = some s) :
    (left events = entries ↔
      ∀ es t, (faultyMachine T entries).runs s es = some t → ∀ e ∈ es, ¬ FaultyEvent.Submits e) ∧
    (left events = entries → ∀ es t, (faultyMachine T entries).runs s es = some t →
      t.queued = s.queued ∧ ∀ thread call, t.threads thread = .push call →
        t.step entries (.push thread) =
          some (t.finish thread call (.error (.wouldBlock "submission queue full")))) ∧
    ∀ calls, events = calls.map .event → left events = failures calls := by
  have backlog := Backlog.runs run
  refine ⟨⟨fun full es t more => ?_, fun dead => ?_⟩, fun full es t more => ?_, ?_⟩
  · rw [full] at backlog
    exact (backlog.stuck more).2.2
  · by_contra ne
    obtain ⟨thread⟩ := (inferInstance : Nonempty T)
    have few : left events < entries := Nat.lt_of_le_of_ne backlog.le ne
    obtain ⟨es, t, more, e, mem, submits⟩ := CanSubmit.of_backlog backlog few thread
    exact dead es t more e mem submits
  · rw [full] at backlog
    obtain ⟨later, same, -⟩ := backlog.stuck more
    refine ⟨same, fun thread call at_ => ?_⟩
    simp [UringBackend.step, at_, later.idle later.not_entering]
  · rintro calls rfl
    exact left_event calls

/-- A queue of two entries: a system call fails, the next one takes the entry of the first call and
stops, and the third one fails. Then the next call returns an error, and so does every later
one. -/
theorem dead_iff_single : ∃ s t : UringBackend Unit,
    (faultyMachine Unit 2).runs .new
      [.event (.call () (.inherent (.fsync 3))), .event (.nextToken ()), .event (.lock ()),
        .event (.push ()), .event (.enter () (.failed 11)),
        .event (.call () (.inherent (.fsync 3))), .event (.nextToken ()), .event (.lock ()),
        .event (.push ()), .partly () 1, .event (.wake () true), .event (.find ()),
        .event (.call () (.inherent (.fsync 3))), .event (.nextToken ()), .event (.lock ()),
        .event (.push ()), .event (.enter () (.failed 11))] = some s ∧
    (faultyMachine Unit 2).runs s
      [.event (.call () (.inherent (.fsync 3))), .event (.nextToken ()), .event (.lock ())] =
        some t ∧
    (∃ call, t.step 2 (.push ()) =
      some (t.finish () call (.error (.wouldBlock "submission queue full")))) ∧
    ∀ es u, (faultyMachine Unit 2).runs s es = some u → ∀ e ∈ es, ¬ FaultyEvent.Submits e := by
  obtain ⟨s, t, run, more, at_⟩ : ∃ s t : UringBackend Unit,
      (faultyMachine Unit 2).runs .new
        [.event (.call () (.inherent (.fsync 3))), .event (.nextToken ()), .event (.lock ()),
          .event (.push ()), .event (.enter () (.failed 11)),
          .event (.call () (.inherent (.fsync 3))), .event (.nextToken ()), .event (.lock ()),
          .event (.push ()), .partly () 1, .event (.wake () true), .event (.find ()),
          .event (.call () (.inherent (.fsync 3))), .event (.nextToken ()), .event (.lock ()),
          .event (.push ()), .event (.enter () (.failed 11))] = some s ∧
      (faultyMachine Unit 2).runs s
        [.event (.call () (.inherent (.fsync 3))), .event (.nextToken ()), .event (.lock ())] =
          some t ∧
      t.threads () = .push ⟨.fsync 3, 4, 3⟩ := ⟨_, _, rfl, rfl, rfl⟩
  obtain ⟨dead, full, -⟩ := dead_iff run
  exact ⟨s, t, run, more, ⟨_, (full rfl _ t more).2 () _ at_⟩, dead.mp rfl⟩

end BypassIo.Backend.Uring
