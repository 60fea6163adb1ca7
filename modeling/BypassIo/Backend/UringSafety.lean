import BypassIo.Backend.Uring

/-!
# When an io_uring call leaves nothing behind

The mutex lets one call at a time use the ring. As long as every submission succeeds and no
call looks at an empty completion queue, the ring holds the one entry of the call that has
the mutex, and nothing between calls. A call whose submission fails, or that finds the
completion queue empty, returns while its entry is queued or in the kernel.
-/

namespace BypassIo.Backend.Uring

universe u

variable {T : Type u} [DecidableEq T] {s t : UringBackend T} {entries : Nat} {thread : T}
variable {e : Event T} {c : Call}

/-! ## The property and its condition -/

/-- The call of a thread, if it has its token. -/
def CallState.call : CallState → Option Call
  | .lock call | .push call | .enter call | .wait call | .find call => some call
  | .returned call _ => call
  | _ => none

/-- The thread has the mutex. -/
def CallState.inside : CallState → Bool
  | .push _ | .enter _ | .wait _ | .find _ => true
  | _ => false

namespace UringBackend

/-- No entry of a call that has returned is queued or in the kernel, and an `Ok` is what the
kernel reported for the entry of the call. -/
def Settled (s : UringBackend T) : Prop :=
  ∀ thread call result, s.threads thread = .returned (some call) result →
    (∀ entry ∈ s.queued ++ s.inFlight, entry.serial ≠ call.serial) ∧
    ∀ value, result = .ok value →
      ∃ n : Int, (call.serial, n) ∈ s.finished ∧ 0 ≤ n ∧ value = call.op.value n.toNat

end UringBackend

/-- A submission succeeds, and the completion queue is not empty when it is searched. -/
def Met (s : UringBackend T) : Event T → Prop
  | .enter _ outcome => outcome = .submitted
  | .find _ => s.completed ≠ []
  | _ => True

instance (s : UringBackend T) (e : Event T) : Decidable (Met s e) :=
  match e with
  | .enter _ outcome => inferInstanceAs (Decidable (outcome = .submitted))
  | .find _ => inferInstanceAs (Decidable (s.completed ≠ []))
  | .call _ _ | .nextToken _ | .lock _ | .push _ | .wake _ _ | .complete _ _ =>
    inferInstanceAs (Decidable True)

/-! ## Steps -/

namespace UringBackend

theorem enter_eq {outcome : Submission} (run : s.step entries (.enter thread outcome) = some t) :
    ∃ c, s.threads thread = .enter c ∧
      ((∃ code, outcome = .failed code ∧ t = s.finish thread c (.error (.os code))) ∨
        outcome = .submitted ∧ t = { s.moveTo thread (.wait c) with
          queued := []
          inFlight := s.inFlight ++ s.queued }) := by
  simp only [step] at run
  split at run
  · next c code at_ => exact ⟨c, at_, .inl ⟨code, rfl, (Option.some.inj run).symm⟩⟩
  · next c at_ => exact ⟨c, at_, .inr ⟨rfl, (Option.some.inj run).symm⟩⟩
  · cases run

theorem find_eq (run : s.step entries (.find thread) = some t) :
    ∃ c, s.threads thread = .find c ∧
      ((∃ completion rest, s.completed.dropWhile (·.userData ≠ c.token) = completion :: rest ∧
          t = { s.finish thread c (completion.value c.op) with completed := rest }) ∨
        s.completed.dropWhile (·.userData ≠ c.token) = [] ∧
          t = { s.finish thread c
              (.error (.other "completion queue did not contain submitted token")) with
            completed := [] }) := by
  simp only [step] at run
  split at run
  · next c at_ =>
    refine ⟨c, at_, ?_⟩
    split at run
    · next completion rest found => exact .inl ⟨completion, rest, found, (Option.some.inj run).symm⟩
    · next missing => exact .inr ⟨missing, (Option.some.inj run).symm⟩
  · cases run

end UringBackend

/-! ## One entry at a time -/

/-- What the ring holds of the call that has the mutex. -/
def CallState.Owns (queued inFlight : List Entry) (completed : List Completion)
    (finished : List (Nat × Int)) : CallState → Prop
  | .enter call => queued = [call.entry] ∧ inFlight = [] ∧ completed = []
  | .wait call | .find call =>
    queued = [] ∧ (inFlight = [call.entry] ∧ completed = [] ∨
      inFlight = [] ∧ ∃ n, completed = [⟨call.token, n, call.serial⟩] ∧ (call.serial, n) ∈ finished)
  | _ => queued = [] ∧ inFlight = [] ∧ completed = []

/-- What is queued or in the kernel is the entry of the call that has the mutex. -/
theorem CallState.Owns.entry {x : CallState} {queued inFlight : List Entry}
    {completed : List Completion} {finished : List (Nat × Int)} {entry : Entry}
    (h : x.Owns queued inFlight completed finished) (mem : entry ∈ queued ++ inFlight) :
    ∃ c, x.call = some c ∧ entry = c.entry := by
  cases x <;> simp only [CallState.Owns] at h <;> grind [CallState.call]

structure Inv (s : UringBackend T) : Prop where
  free : s.holder = none → s.queued = [] ∧ s.inFlight = [] ∧ s.completed = []
  inside : ∀ thread, s.holder = some thread ↔ (s.threads thread).inside
  owns : ∀ thread, s.holder = some thread →
    (s.threads thread).Owns s.queued s.inFlight s.completed s.finished
  fresh : ∀ thread call, (s.threads thread).call = some call → call.serial < s.calls
  distinct : ∀ thread thread' call call', (s.threads thread).call = some call →
    (s.threads thread').call = some call' → call.serial = call'.serial → thread = thread'
  results : ∀ thread call value, s.threads thread = .returned (some call) (.ok value) →
    ∃ n : Int, (call.serial, n) ∈ s.finished ∧ 0 ≤ n ∧ value = call.op.value n.toNat

namespace Inv

omit [DecidableEq T] in
theorem new : Inv (UringBackend.new : UringBackend T) := by
  constructor <;> simp [UringBackend.new, CallState.inside, CallState.call]

omit [DecidableEq T] in
theorem settled (h : Inv s) : s.Settled := by
  intro thread call result returned
  refine ⟨fun entry mem => ?_, ?_⟩
  · cases holder : s.holder with
    | none => simp [h.free holder] at mem
    | some other =>
      obtain ⟨c, at_, rfl⟩ := (h.owns other holder).entry mem
      intro same
      have own := h.distinct other thread c call at_ (by rw [returned]; rfl) same
      have inside := (h.inside other).mp holder
      rw [own, returned] at inside
      cases inside
  · rintro value rfl
    exact h.results thread call value returned

/-- A thread moves on without having had the mutex, and with its call unchanged or new. -/
theorem moveTo {x : CallState} (h : Inv s) (outside : (s.threads thread).inside = false)
    (outside' : x.inside = false) (same : x.call = none ∨ x.call = (s.threads thread).call)
    (error : ∀ call value, x ≠ .returned (some call) (.ok value)) : Inv (s.moveTo thread x) := by
  obtain ⟨free, inside, owns, fresh, distinct, results⟩ := h
  constructor <;> simp only [UringBackend.moveTo, Function.update_apply] <;> grind

/-- A thread without the mutex takes it. -/
theorem lock (h : Inv s) (free : s.holder = none) (at_ : s.threads thread = .lock c) :
    Inv { s.moveTo thread (.push c) with holder := some thread } := by
  have empty := h.free free
  obtain ⟨_, inside, owns, fresh, distinct, results⟩ := h
  constructor <;> simp only [UringBackend.moveTo, Function.update_apply] <;>
    grind [CallState.inside, CallState.call, CallState.Owns]

/-- The thread that has the mutex moves on and keeps it. -/
theorem work {x : CallState} {q f : List Entry} {d : List Completion} (h : Inv s)
    (holder : s.holder = some thread) (inside' : x.inside)
    (same : x.call = (s.threads thread).call) (owns' : x.Owns q f d s.finished) :
    Inv { s.moveTo thread x with queued := q, inFlight := f, completed := d } := by
  obtain ⟨free, inside, owns, fresh, distinct, results⟩ := h
  constructor <;> simp only [UringBackend.moveTo, Function.update_apply] <;>
    grind [CallState.inside]

/-- The thread that has the mutex returns, with nothing left in the ring. -/
theorem finish {result : Except IoError Value} {q f : List Entry} {d : List Completion}
    (h : Inv s) (holder : s.holder = some thread) (same : (s.threads thread).call = some c)
    (empty : q = [] ∧ f = [] ∧ d = []) (ok : ∀ value, result = .ok value →
      ∃ n : Int, (c.serial, n) ∈ s.finished ∧ 0 ≤ n ∧ value = c.op.value n.toNat) :
    Inv { s.finish thread c result with queued := q, inFlight := f, completed := d } := by
  obtain ⟨free, inside, owns, fresh, distinct, results⟩ := h
  constructor <;> simp only [UringBackend.finish, UringBackend.moveTo, Function.update_apply] <;>
    grind [CallState.inside, CallState.call]

theorem begin {request : Request} (h : Inv s) (run : s.begin thread request = some t) :
    Inv t := by
  unfold UringBackend.begin at run
  split at run
  case h_3 => cases run
  all_goals
    next at_ =>
    have outside : (s.threads thread).inside = false := by rw [at_]; rfl
    split at run
    · obtain rfl := Option.some.inj run
      exact h.moveTo outside rfl (.inl rfl) (by simp)
    · split at run
      · obtain rfl := Option.some.inj run
        exact h.moveTo outside rfl (.inl rfl) (by simp)
      · obtain rfl := Option.some.inj run
        exact h.moveTo outside rfl (.inl rfl) (by simp)

theorem nextToken {op : Op} (h : Inv s) (at_ : s.threads thread = .nextToken op) :
    Inv { s.moveTo thread (.lock ⟨op, s.nextToken, s.calls⟩) with
      nextToken := s.nextToken + 1, calls := s.calls + 1 } := by
  obtain ⟨free, inside, owns, fresh, distinct, results⟩ := h
  constructor <;> simp only [UringBackend.moveTo, Function.update_apply] <;>
    grind [CallState.inside, CallState.call]

omit [DecidableEq T] in
/-- The kernel completes the operation it has. -/
theorem complete {index : Nat} {result : Int} {entry : Entry} (h : Inv s)
    (at_ : s.inFlight[index]? = some entry) :
    Inv { s with
      inFlight := s.inFlight.eraseIdx index
      completed := s.completed ++ [⟨entry.userData, result, entry.serial⟩]
      finished := s.finished ++ [(entry.serial, result)] } := by
  have mem := List.mem_of_getElem? at_
  obtain ⟨free, inside, owns, fresh, distinct, results⟩ := h
  constructor
  · intro none
    simp [free none] at mem
  · exact inside
  · intro thread holder
    have owns := owns thread holder
    simp only at holder
    have inside := (inside thread).mp holder
    cases at_ : s.threads thread <;> simp only [at_, CallState.Owns] at owns inside ⊢ <;>
      grind [Call.entry, CallState.inside]
  · exact fresh
  · exact distinct
  · intro thread call value returned
    obtain ⟨n, mem, rest⟩ := results thread call value returned
    exact ⟨n, List.mem_append_left _ mem, rest⟩

omit [DecidableEq T] in
/-- What the mutex guards, for a thread that is inside. -/
theorem guarded {x : CallState} (h : Inv s) (at_ : s.threads thread = x) (inside : x.inside) :
    s.holder = some thread ∧ x.Owns s.queued s.inFlight s.completed s.finished := by
  subst at_
  have holder := (h.inside thread).mpr inside
  exact ⟨holder, h.owns thread holder⟩

theorem step (h : Inv s) (met : Met s e) (run : s.step entries e = some t) : Inv t := by
  cases e with
  | call thread request => exact h.begin run
  | nextToken thread =>
    simp only [UringBackend.step] at run
    split at run
    · next at_ =>
      obtain rfl := Option.some.inj run
      exact h.nextToken at_
    · cases run
  | lock thread =>
    simp only [UringBackend.step] at run
    split at run
    · next at_ free =>
      split at run
      · obtain rfl := Option.some.inj run
        exact h.moveTo (by rw [at_]; rfl) rfl (.inr (by rw [at_]; rfl)) (by simp)
      · obtain rfl := Option.some.inj run
        exact h.lock free at_
    · cases run
  | push thread =>
    simp only [UringBackend.step] at run
    split at run
    · next c at_ =>
      obtain ⟨holder, queued, inFlight, completed⟩ := h.guarded at_ rfl
      split at run
      · obtain rfl := Option.some.inj run
        exact h.work (x := .enter c) holder rfl (by rw [at_]; rfl)
          ⟨by rw [queued]; rfl, inFlight, completed⟩
      · obtain rfl := Option.some.inj run
        exact h.finish holder (by rw [at_]; rfl) ⟨queued, inFlight, completed⟩ (by simp)
    · cases run
  | enter thread outcome =>
    obtain ⟨c, at_, ⟨code, rfl, -⟩ | ⟨-, rfl⟩⟩ := UringBackend.enter_eq run
    · cases met
    · obtain ⟨holder, queued, inFlight, completed⟩ := h.guarded at_ rfl
      exact h.work (x := .wait c) holder rfl (by rw [at_]; rfl)
        ⟨rfl, .inl ⟨by rw [inFlight, queued]; rfl, completed⟩⟩
  | wake thread interrupted =>
    simp only [UringBackend.step] at run
    split at run
    · next c at_ =>
      obtain ⟨_, run⟩ := Option.ite_none_right_eq_some.mp run
      obtain rfl := Option.some.inj run
      obtain ⟨holder, owns⟩ := h.guarded at_ rfl
      exact h.work (x := .find c) holder rfl (by rw [at_]; rfl) owns
    · cases run
  | find thread =>
    obtain ⟨c, at_, found⟩ := UringBackend.find_eq run
    obtain ⟨holder, queued, ⟨-, none⟩ | ⟨inFlight, n, completed, mem⟩⟩ := h.guarded at_ rfl
    · exact absurd none met
    · simp only [completed, List.dropWhile_cons, ne_eq, not_true_eq_false, decide_false] at found
      obtain ⟨completion, rest, same, rfl⟩ | ⟨none, -⟩ := found
      · obtain ⟨rfl, rfl⟩ := List.cons.inj same
        refine h.finish holder (by rw [at_]; rfl) ⟨queued, inFlight, rfl⟩ ?_
        intro value ok
        unfold Completion.value at ok
        split at ok
        · cases ok
        · next nonneg => exact ⟨n, mem, Int.not_lt.mp nonneg, (Except.ok.inj ok).symm⟩
      · cases none
  | complete index result =>
    simp only [UringBackend.step] at run
    split at run
    · next at_ =>
      obtain rfl := Option.some.inj run
      exact h.complete at_
    · cases run

omit [DecidableEq T] in
/-- A call that has returned with its entry in the ring. -/
theorem abandoned {result : Except IoError Value}
    (returned : s.threads thread = .returned (some c) result)
    (left : c.entry ∈ s.queued ++ s.inFlight) : ¬ s.Settled := fun settled =>
  (settled thread c result returned).1 c.entry left rfl

/-- A call that returns leaves its entry behind if the step does not meet the condition. -/
theorem unsettled (h : Inv s) (unmet : ¬ Met s e) (run : s.step entries e = some t) :
    ¬ t.Settled := by
  cases e with
  | enter thread outcome =>
    obtain ⟨c, at_, ⟨code, rfl, rfl⟩ | ⟨submitted, -⟩⟩ := UringBackend.enter_eq run
    · obtain ⟨-, queued, -, -⟩ := h.guarded at_ rfl
      exact abandoned (Function.update_self ..)
        (by simp [UringBackend.finish, UringBackend.moveTo, queued])
    · exact absurd submitted unmet
  | find thread =>
    have none : s.completed = [] := not_not.mp unmet
    obtain ⟨c, at_, found⟩ := UringBackend.find_eq run
    obtain ⟨-, -, ⟨inFlight, -⟩ | ⟨-, n, completed, -⟩⟩ := h.guarded at_ rfl
    · rw [none] at found
      obtain ⟨completion, rest, impossible, -⟩ | ⟨-, rfl⟩ := found
      · cases impossible
      · exact abandoned (Function.update_self ..)
          (by simp [UringBackend.finish, UringBackend.moveTo, inFlight])
    · simp [none] at completed
  | _ => exact absurd trivial unmet

end Inv

/-- Whoever returns with a token gives the mutex up. -/
theorem UringBackend.returned_free {result : Except IoError Value}
    (run : s.step entries e = some t) (now : s.threads thread ≠ t.threads thread)
    (returned : t.threads thread = .returned (some c) result) : t.holder = none := by
  cases e <;> simp only [UringBackend.step, UringBackend.begin] at run <;>
    repeat' split at run
  all_goals cases run
  all_goals
    first
    | rfl
    | simp only [UringBackend.moveTo, Function.update_apply] at now returned ⊢
      grind

theorem reach_inv (h : (machine T entries).Reach Met s) : Inv s := by
  apply h.invariant
  · rintro s rfl
    exact Inv.new
  · exact fun s e t inv met run => inv.step met run

/-! ## Calls that return -/

/-- In a run that met the condition so far, no call that has returned has an entry queued or
in the kernel, and an `Ok` is what the kernel reported for the call's own entry; the next
step keeps this exactly if it meets the condition, and then a call that returns leaves no
entry with its token. -/
theorem uring_settled_iff (h : (machine T entries).Reach Met s) :
    s.Settled ∧ ∀ e t, s.step entries e = some t → (t.Settled ↔ Met s e) ∧
      (Met s e → ∀ thread call result, s.threads thread ≠ t.threads thread →
        t.threads thread = .returned (some call) result →
        ∀ entry ∈ t.queued ++ t.inFlight, entry.userData ≠ call.token) := by
  have inv := reach_inv h
  refine ⟨inv.settled, fun e t run => ⟨⟨?_, fun met => (inv.step met run).settled⟩, ?_⟩⟩
  · intro settled
    by_contra unmet
    exact inv.unsettled unmet run settled
  · intro met thread call result now returned entry mem
    obtain ⟨queued, inFlight, _⟩ :=
      (inv.step met run).free (UringBackend.returned_free run now returned)
    rw [queued, inFlight] at mem
    cases mem

theorem uring_settled_iff_read : ∃ s t : UringBackend Unit,
    (machine Unit 8).Reach Met s ∧ s.step 8 (.find ()) = some t ∧ t.Settled ∧
    t.threads () = .returned (some ⟨.readAt 3 ⟨4096, 5⟩ 4, 1, 0⟩) (.ok (.size 5)) := by
  obtain ⟨s, t, run, next, met, returned⟩ : ∃ s t : UringBackend Unit,
      (machine Unit 8).runsIf (fun s e => decide (Met s e)) .new
        [.call () (.inherent (.readAt 3 ⟨4096, 5⟩ 4)), .nextToken (), .lock (), .push (),
          .enter () .submitted, .complete 0 5, .wake () false] = some s ∧
      s.step 8 (.find ()) = some t ∧ s.completed ≠ [] ∧
      t.threads () = .returned (some ⟨.readAt 3 ⟨4096, 5⟩ 4, 1, 0⟩) (.ok (.size 5)) :=
    ⟨_, _, rfl, rfl, by decide, rfl⟩
  have reach : (machine Unit 8).Reach Met s :=
    Machine.Reach.runsIf (fun _ _ => of_decide_eq_true) (.start rfl) run
  obtain ⟨-, steps⟩ := uring_settled_iff reach
  exact ⟨s, t, reach, next, (steps _ t next).1.mpr met, returned⟩

/-- A signal ends the wait of a read: the call returns an error, and the kernel still has the
operation that writes to its buffer. -/
theorem interrupted_leaves_entry : ∃ (s t : UringBackend Unit) (call : Call),
    (machine Unit 8).Reach Machine.Always s ∧ s.step 8 (.find ()) = some t ∧
    s.threads () ≠ t.threads () ∧ t.threads () = .returned (some call)
      (.error (.other "completion queue did not contain submitted token")) ∧
    ∃ entry ∈ t.queued ++ t.inFlight, entry.userData = call.token := by
  obtain ⟨s, t, run, next, before, returned, inFlight⟩ : ∃ s t : UringBackend Unit,
      (machine Unit 8).runs .new
        [.call () (.inherent (.readAt 3 ⟨4096, 5⟩ 4)), .nextToken (), .lock (), .push (),
          .enter () .submitted, .wake () true] = some s ∧
      s.step 8 (.find ()) = some t ∧
      s.threads () = .find ⟨.readAt 3 ⟨4096, 5⟩ 4, 1, 0⟩ ∧
      t.threads () = .returned (some ⟨.readAt 3 ⟨4096, 5⟩ 4, 1, 0⟩)
        (.error (.other "completion queue did not contain submitted token")) ∧
      t.queued ++ t.inFlight = [⟨.read 3 4096 5 4, 1, 0⟩] :=
    ⟨_, _, rfl, rfl, rfl, rfl, rfl⟩
  refine ⟨s, t, _, Machine.Reach.runs (.start rfl) run, next, ?_, returned, ?_⟩
  · rw [before, returned]
    simp
  · rw [inFlight]
    exact ⟨_, List.mem_singleton_self _, rfl⟩

end BypassIo.Backend.Uring
