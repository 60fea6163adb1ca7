import BypassIo.Backend.Spdk

/-!
# When a call of the SPDK runtime leaves nothing in flight

The mutex lets one call at a time use a queue pair. As long as no call gives up while its
command is in flight, a queue pair holds at most the command of the call that has its mutex.
A call that times out, or whose poll returns a negative code, returns with its command in
flight, and a later poll writes the completion to a context that is gone.
-/

namespace BypassIo.Backend.Spdk

universe u

variable {T : Type u} {s t : RuntimeState T} {rt : NativeSpdkRuntime} {thread : T}
variable {e : Event T} {f : Frame} {x : CallState}

/-! ## The property and its condition -/

/-- The frame of a thread whose call has a queue pair. -/
def CallState.frame : CallState → Option Frame
  | .submit f | .check f | .poll f => some f
  | _ => none

namespace RuntimeState

/-- Every command in flight is of a call that has not returned, and no completion was written
to the context of a call that has. -/
def Settled (s : RuntimeState T) : Prop :=
  s.stray = [] ∧ ∀ q, ∀ command ∈ s.inFlight q,
    ∃ thread f, (s.threads thread).frame = some f ∧ f.command = command

/-- The completion that the thread waits for has been delivered. -/
def Completed (s : RuntimeState T) (thread : T) : Prop :=
  ∃ f completion, (s.threads thread).frame = some f ∧ s.contexts f.context = some completion ∧
    completion.done

end RuntimeState

/-- The time limit does not pass before the completion, and a waiting call's poll does not
return a negative code. -/
def Met (s : RuntimeState T) : Event T → Prop
  | .check thread expired => expired → s.Completed thread
  | .poll _ (.negative _) => False
  | _ => True

instance (s : RuntimeState T) (thread : T) : Decidable (s.Completed thread) :=
  decidable_of_iff
    (((s.threads thread).frame.bind fun f => s.contexts f.context).any (·.done) = true)
    (by
      simp only [RuntimeState.Completed, Option.any_eq_true, Option.bind_eq_some_iff]
      grind)

instance (s : RuntimeState T) (e : Event T) : Decidable (Met s e) :=
  match e with
  | .check thread expired => inferInstanceAs (Decidable (expired → s.Completed thread))
  | .poll _ (.negative _) => inferInstanceAs (Decidable False)
  | .poll _ (.completions _) | .call _ _ | .lock _ | .submit _ _
  | .processCompletions _ _ _ _ => inferInstanceAs (Decidable True)

/-! ## One command at a time -/

/-- What the queue pair and the context of a call that has its mutex hold. -/
def CallState.Owns (inFlight : List Command) (completion : Option NativeCompletion) :
    CallState → Prop
  | .submit _ => inFlight = [] ∧ completion = some ⟨false, false⟩
  | .check f => inFlight = [f.command] ∧ completion = some ⟨false, false⟩ ∨
      inFlight = [] ∧ ∃ failed, completion = some ⟨true, failed⟩
  | .poll f => inFlight = [f.command] ∧ completion = some ⟨false, false⟩
  | _ => True

structure Inv (s : RuntimeState T) : Prop where
  stray : s.stray = []
  free : ∀ q, s.holders q = none → s.inFlight q = []
  holds : ∀ thread f, (s.threads thread).frame = some f → s.holders f.qpair = some thread
  held : ∀ q thread, s.holders q = some thread →
    ∃ f, (s.threads thread).frame = some f ∧ f.qpair = q
  owns : ∀ thread f, (s.threads thread).frame = some f →
    (s.threads thread).Owns (s.inFlight f.qpair) (s.contexts f.context)
  fresh : ∀ thread f, (s.threads thread).frame = some f → f.context < s.calls
  distinct : ∀ thread thread' f f', (s.threads thread).frame = some f →
    (s.threads thread').frame = some f' → f.context = f'.context → thread = thread'

@[simp] theorem Vectored.start_frame (v : Vectored) : v.start.frame = none := by
  unfold Vectored.start
  split <;> rfl

@[simp] theorem Io.succeed_frame (io : Io) : io.succeed.frame = none := by
  unfold Io.succeed
  split
  · rfl
  · dsimp only
    split
    · exact Vectored.start_frame _
    · rfl
  · rfl

@[simp] theorem Request.start_frame (request : Request) : request.start.frame = none := by
  cases request with
  | readv ns qpair segments range => exact Vectored.start_frame _
  | writev ns qpair segments range => exact Vectored.start_frame _
  | _ => rfl

/-! ### Deliveries -/

namespace RuntimeState

/-- A queue pair without commands delivers nothing. -/
theorem deliver_none {q : Nat} {delivered : List (Nat × Bool)} (empty : s.inFlight q = [])
    (run : s.deliver q delivered = some t) : t = s := by
  cases delivered with
  | nil => exact (Option.some.inj run).symm
  | cons first rest =>
    unfold deliver at run
    simp only [empty, List.getElem?_nil] at run
    cases run

/-- A queue pair with one command delivers nothing or the completion of that command. -/
theorem deliver_one {q : Nat} {delivered : List (Nat × Bool)} {command : Command}
    {completion : NativeCompletion} (one : s.inFlight q = [command])
    (live : s.contexts command.context = some completion)
    (run : s.deliver q delivered = some t) :
    t = s ∨ ∃ failed, t = { s with
      inFlight := Function.update s.inFlight q []
      contexts := Function.update s.contexts command.context (some ⟨true, failed⟩) } := by
  cases delivered with
  | nil => exact .inl (Option.some.inj run).symm
  | cons first rest =>
    obtain ⟨position, failed⟩ := first
    unfold deliver at run
    split at run
    · next found at_ =>
      obtain ⟨rfl, rfl⟩ : position = 0 ∧ command = found := by
        rw [one] at at_
        cases position with
        | zero => exact ⟨rfl, Option.some.inj at_⟩
        | succ _ => cases at_
      simp only [nativeIoCompletion, live, one, List.eraseIdx_cons_zero] at run
      exact .inr ⟨failed, deliver_none (Function.update_self ..) run⟩
    · cases run

/-- `process_completions` finds nothing to deliver on queue pairs that are free and empty. -/
theorem processCompletions_eq [DecidableEq T] {qpair : IoQueuePair} {maxCompletions : Nat}
    {outcome : Poll} (free : ∀ q, s.holders q = none → s.inFlight q = [])
    (run : s.step rt (.processCompletions thread qpair maxCompletions outcome) = some t) :
    (s.threads thread).frame = none ∧
      ∃ x : CallState, x.frame = none ∧ t = s.moveTo thread x := by
  simp only [step] at run
  split at run
  case h_3 => cases run
  all_goals
    next at_ =>
    refine ⟨by rw [at_]; rfl, ?_⟩
    split at run
    · exact ⟨_, rfl, (Option.some.inj run).symm⟩
    · next q _ =>
      obtain ⟨unlocked, run⟩ := Option.ite_none_right_eq_some.mp run
      cases outcome with
      | negative rc =>
        obtain ⟨_, run⟩ := Option.ite_none_right_eq_some.mp run
        exact ⟨_, rfl, (Option.some.inj run).symm⟩
      | completions delivered =>
        obtain ⟨_, run⟩ := Option.ite_none_right_eq_some.mp run
        obtain ⟨s', delivers, rfl⟩ := Option.map_eq_some_iff.mp run
        obtain rfl := deliver_none (free q unlocked) delivers
        exact ⟨_, rfl, rfl⟩

/-! ### Steps -/

section Steps

variable [DecidableEq T]

theorem call_eq {request : Request} (run : s.step rt (.call thread request) = some t) :
    (s.threads thread).frame = none ∧ t = s.moveTo thread request.start := by
  simp only [step] at run
  split at run
  case h_3 => cases run
  all_goals
    next at_ => exact ⟨by rw [at_]; rfl, (Option.some.inj run).symm⟩

theorem lock_eq (run : s.step rt (.lock thread) = some t) : (s.threads thread).frame = none ∧
    ((∃ e, t = s.moveTo thread (.returned (.error e))) ∨
      ∃ io q payload, s.holders q = none ∧
        t = { s.moveTo thread (.submit ⟨io, q, payload, s.calls⟩) with
          holders := Function.update s.holders q (some thread)
          contexts := Function.update s.contexts s.calls (some ⟨false, false⟩)
          calls := s.calls + 1 }) := by
  simp only [step] at run
  split at run
  · next io at_ =>
    refine ⟨by rw [at_]; rfl, ?_⟩
    split at run
    · exact .inl ⟨_, (Option.some.inj run).symm⟩
    · obtain ⟨free, run⟩ := Option.ite_none_right_eq_some.mp run
      exact .inr ⟨io, _, _, free, (Option.some.inj run).symm⟩
  · cases run

theorem submit_eq {rc : Int} (run : s.step rt (.submit thread rc) = some t) :
    ∃ f, s.threads thread = .submit f ∧
      (t = s.finish thread f (.returned (.error (.submitFailed rc))) ∨
        t = { s.moveTo thread (.check f) with
          inFlight := Function.update s.inFlight f.qpair (s.inFlight f.qpair ++ [f.command]) }) := by
  simp only [step] at run
  split at run
  · next f at_ =>
    refine ⟨f, at_, ?_⟩
    split at run
    · exact .inl (Option.some.inj run).symm
    · exact .inr (Option.some.inj run).symm
  · cases run

theorem check_eq {expired : Bool} (run : s.step rt (.check thread expired) = some t) :
    ∃ f completion, s.threads thread = .check f ∧ s.contexts f.context = some completion ∧
      (completion.done ∧ (∃ x : CallState, x.frame = none ∧ t = s.finish thread f x) ∨
        ¬ completion.done ∧ expired ∧
          t = s.finish thread f (.returned (.error .completionTimeout)) ∨
        ¬ completion.done ∧ ¬ expired ∧ t = s.moveTo thread (.poll f)) := by
  simp only [step] at run
  split at run
  · next f at_ =>
    split at run
    · next completion live =>
      refine ⟨f, completion, at_, live, ?_⟩
      split at run
      · next done =>
        refine .inl ⟨done, ?_⟩
        split at run
        · exact ⟨_, rfl, (Option.some.inj run).symm⟩
        · exact ⟨_, f.io.succeed_frame, (Option.some.inj run).symm⟩
      · next undone =>
        split at run
        · next late => exact .inr (.inl ⟨undone, late, (Option.some.inj run).symm⟩)
        · next early => exact .inr (.inr ⟨undone, early, (Option.some.inj run).symm⟩)
    · cases run
  · cases run

theorem poll_eq {outcome : Poll} (run : s.step rt (.poll thread outcome) = some t) :
    ∃ f, s.threads thread = .poll f ∧
      ((∃ rc, outcome = .negative rc ∧
          t = s.finish thread f (.returned (.error (.submitFailed rc)))) ∨
        ∃ delivered s', outcome = .completions delivered ∧
          s.deliver f.qpair delivered = some s' ∧ t = s'.moveTo thread (.check f)) := by
  simp only [step] at run
  split at run
  · next f rc at_ =>
    obtain ⟨-, run⟩ := Option.ite_none_right_eq_some.mp run
    exact ⟨f, at_, .inl ⟨rc, rfl, (Option.some.inj run).symm⟩⟩
  · next f delivered at_ =>
    obtain ⟨-, run⟩ := Option.ite_none_right_eq_some.mp run
    obtain ⟨s', delivers, rfl⟩ := Option.map_eq_some_iff.mp run
    exact ⟨f, at_, .inr ⟨delivered, s', rfl, delivers, rfl⟩⟩
  · cases run

end Steps

end RuntimeState

namespace Inv

theorem new : Inv (RuntimeState.new : RuntimeState T) := by
  constructor <;> simp [RuntimeState.new, CallState.frame]

/-- A command in flight is the command of the call that has the mutex of its queue pair. -/
theorem command {q : Nat} {command : Command} (h : Inv s) (mem : command ∈ s.inFlight q) :
    ∃ thread f, (s.threads thread).frame = some f ∧ f.command = command := by
  cases holder : s.holders q with
  | none => simp [h.free q holder] at mem
  | some thread =>
    obtain ⟨f, frame, rfl⟩ := h.held q thread holder
    have owns := h.owns thread f frame
    refine ⟨thread, f, frame, ?_⟩
    cases at_ : s.threads thread <;> simp only [at_, CallState.Owns] at owns <;>
      grind [CallState.frame]

/-- A command in flight keeps its context. -/
theorem live {q : Nat} {command : Command} (h : Inv s) (mem : command ∈ s.inFlight q) :
    s.contexts command.context ≠ none := by
  obtain ⟨thread, f, frame, rfl⟩ := h.command mem
  have owns := h.owns thread f frame
  cases at_ : s.threads thread <;> simp only [at_, CallState.Owns] at owns frame <;>
    grind [CallState.frame, Frame.command]

theorem settled (h : Inv s) : s.Settled := ⟨h.stray, fun _ _ mem => h.command mem⟩

theorem guarded (h : Inv s) (at_ : s.threads thread = x) (frame : x.frame = some f) :
    x.Owns (s.inFlight f.qpair) (s.contexts f.context) := by
  subst at_
  exact h.owns thread f frame

variable [DecidableEq T]

/-- A thread moves on without a queue pair. -/
theorem moveTo (h : Inv s) (outside : (s.threads thread).frame = none) (outside' : x.frame = none) :
    Inv (s.moveTo thread x) := by
  obtain ⟨stray, free, holds, held, owns, fresh, distinct⟩ := h
  constructor <;> simp only [RuntimeState.moveTo, Function.update_apply] <;> grind

/-- A thread takes the mutex of a free queue pair, with a new context. -/
theorem acquire {io : Io} {q : Nat} {payload : Payload} (h : Inv s)
    (free : s.holders q = none) (outside : (s.threads thread).frame = none) :
    Inv { s.moveTo thread (.submit ⟨io, q, payload, s.calls⟩) with
      holders := Function.update s.holders q (some thread)
      contexts := Function.update s.contexts s.calls (some ⟨false, false⟩)
      calls := s.calls + 1 } := by
  have empty := h.free q free
  obtain ⟨stray, _, holds, held, owns, fresh, distinct⟩ := h
  constructor <;> simp only [RuntimeState.moveTo, Function.update_apply]
  case held =>
    intro q' thread' holder
    split at holder
    · next same =>
      obtain rfl := Option.some.inj holder
      exact ⟨_, by rw [if_pos rfl]; rfl, same.symm⟩
    · grind
  all_goals grind [CallState.frame, CallState.Owns]

/-- The thread that has the queue pair moves on and keeps it. -/
theorem work {inFlight : List Command} {completion : Option NativeCompletion} (h : Inv s)
    (frame : (s.threads thread).frame = some f) (frame' : x.frame = some f)
    (owns' : x.Owns inFlight completion) :
    Inv { s.moveTo thread x with
      inFlight := Function.update s.inFlight f.qpair inFlight
      contexts := Function.update s.contexts f.context completion } := by
  obtain ⟨stray, free, holds, held, owns, fresh, distinct⟩ := h
  constructor <;> simp only [RuntimeState.moveTo, Function.update_apply] <;> grind

theorem keep (h : Inv s) (frame : (s.threads thread).frame = some f) (frame' : x.frame = some f)
    (owns' : x.Owns (s.inFlight f.qpair) (s.contexts f.context)) : Inv (s.moveTo thread x) := by
  have after := h.work frame frame' owns'
  rwa [Function.update_eq_self, Function.update_eq_self] at after

/-- The thread that has the queue pair gives it up, with no command left on it. -/
theorem finish (h : Inv s) (frame : (s.threads thread).frame = some f)
    (empty : s.inFlight f.qpair = []) (outside : x.frame = none) :
    Inv (s.finish thread f x) := by
  obtain ⟨stray, free, holds, held, owns, fresh, distinct⟩ := h
  constructor <;> simp only [RuntimeState.finish, RuntimeState.moveTo, Function.update_apply] <;>
    grind

theorem step (h : Inv s) (met : Met s e) (run : s.step rt e = some t) : Inv t := by
  cases e with
  | call thread request =>
    obtain ⟨outside, rfl⟩ := RuntimeState.call_eq run
    exact h.moveTo outside request.start_frame
  | lock thread =>
    obtain ⟨outside, ⟨e, rfl⟩ | ⟨io, q, payload, free, rfl⟩⟩ := RuntimeState.lock_eq run
    · exact h.moveTo outside rfl
    · exact h.acquire free outside
  | submit thread rc =>
    obtain ⟨f, at_, submitted⟩ := RuntimeState.submit_eq run
    have frame : (s.threads thread).frame = some f := by rw [at_]; rfl
    obtain ⟨empty, live⟩ := h.guarded at_ rfl
    obtain rfl | rfl := submitted
    · exact h.finish frame empty rfl
    · have after := h.work (x := .check f) frame rfl (.inl ⟨rfl, live⟩)
      rw [Function.update_eq_self] at after
      rwa [empty]
  | check thread expired =>
    obtain ⟨f, completion, at_, found, checked⟩ := RuntimeState.check_eq run
    have frame : (s.threads thread).frame = some f := by rw [at_]; rfl
    obtain ⟨one, live⟩ | ⟨empty, failed, live⟩ := h.guarded at_ rfl
    · obtain rfl := Option.some.inj (found.symm.trans live)
      obtain ⟨done, -⟩ | ⟨-, late, -⟩ | ⟨-, -, rfl⟩ := checked
      · cases done
      · obtain ⟨f', completion, frame', live', done⟩ := met late
        obtain rfl := Option.some.inj (frame.symm.trans frame')
        obtain rfl := Option.some.inj (live.symm.trans live')
        cases done
      · exact h.keep (x := .poll f) frame rfl ⟨one, live⟩
    · obtain rfl := Option.some.inj (found.symm.trans live)
      obtain ⟨-, x, outside, rfl⟩ | ⟨undone, -⟩ | ⟨undone, -⟩ := checked
      · exact h.finish frame empty outside
      · exact absurd rfl undone
      · exact absurd rfl undone
  | poll thread outcome =>
    obtain ⟨f, at_, polled⟩ := RuntimeState.poll_eq run
    have frame : (s.threads thread).frame = some f := by rw [at_]; rfl
    obtain ⟨one, live⟩ := h.guarded at_ rfl
    obtain ⟨rc, rfl, -⟩ | ⟨delivered, s', rfl, delivers, rfl⟩ := polled
    · cases met
    · obtain rfl | ⟨failed, rfl⟩ := RuntimeState.deliver_one one live delivers
      · exact h.keep (x := .check f) frame rfl (.inl ⟨one, live⟩)
      · exact h.work (x := .check f) frame rfl (.inr ⟨rfl, failed, rfl⟩)
  | processCompletions thread qpair maxCompletions outcome =>
    obtain ⟨outside, x, outside', rfl⟩ := RuntimeState.processCompletions_eq h.free run
    exact h.moveTo outside outside'

/-- A call that gives the queue pair up while its command is in flight leaves the command. -/
theorem abandon (h : Inv s) (frame : (s.threads thread).frame = some f)
    (one : s.inFlight f.qpair = [f.command]) (outside : x.frame = none) :
    ¬ (s.finish thread f x).Settled := by
  intro ⟨_, settled⟩
  obtain ⟨other, f', frame', same⟩ := settled f.qpair f.command
    (by simp only [RuntimeState.finish, RuntimeState.moveTo, one, List.mem_singleton])
  simp only [RuntimeState.finish, RuntimeState.moveTo, Function.update_apply] at frame'
  split at frame'
  · rw [outside] at frame'
    cases frame'
  · next ne => exact ne (h.distinct other thread f' f frame' frame (congrArg Command.context same))

theorem unsettled (h : Inv s) (unmet : ¬ Met s e) (run : s.step rt e = some t) :
    ¬ t.Settled := by
  cases e with
  | check thread expired =>
    obtain ⟨f, completion, at_, live, checked⟩ := RuntimeState.check_eq run
    have frame : (s.threads thread).frame = some f := by rw [at_]; rfl
    simp only [Met, Classical.not_imp] at unmet
    obtain ⟨late, incomplete⟩ := unmet
    have undone : ¬ completion.done := fun done => incomplete ⟨f, _, frame, live, done⟩
    obtain ⟨done, -⟩ | ⟨-, -, rfl⟩ | ⟨-, early, -⟩ := checked
    · exact absurd done undone
    · obtain ⟨one, -⟩ | ⟨-, failed, live'⟩ := h.guarded at_ rfl
      · exact h.abandon frame one rfl
      · obtain rfl := Option.some.inj (live.symm.trans live')
        exact absurd rfl undone
    · exact absurd late early
  | poll thread outcome =>
    obtain ⟨f, at_, ⟨rc, rfl, rfl⟩ | ⟨delivered, s', rfl, -⟩⟩ := RuntimeState.poll_eq run
    · obtain ⟨one, -⟩ := h.guarded at_ rfl
      exact h.abandon (by rw [at_]; rfl) one rfl
    · exact absurd trivial unmet
  | _ => exact absurd trivial unmet

end Inv

variable [DecidableEq T]

omit [DecidableEq T] in
theorem RuntimeState.deliver_threads {q : Nat} {delivered : List (Nat × Bool)}
    (run : s.deliver q delivered = some t) : t.threads = s.threads := by
  induction delivered generalizing s with
  | nil => rw [← Option.some.inj run]
  | cons first rest ih =>
    unfold deliver at run
    split at run
    · rw [ih run]
      unfold nativeIoCompletion
      split <;> rfl
    · cases run

/-- A thread that moves on with the frame it has. -/
theorem RuntimeState.kept (same : ∀ f, (s.threads thread).frame = some f → x.frame = some f)
    (threads : t.threads = Function.update s.threads thread x) (other : T) (f : Frame)
    (frame : (s.threads other).frame = some f) : (t.threads other).frame = some f := by
  rw [threads, Function.update_apply]
  split
  · next own => exact same f (own ▸ frame)
  · exact frame

/-- A step gives one queue pair up, or every call keeps the one it has. -/
theorem Inv.step_frame (h : Inv s) (run : s.step rt e = some t) :
    (∃ thread f x, t = s.finish thread f x ∧ (s.threads thread).frame = some f) ∨
      ∀ thread f, (s.threads thread).frame = some f → (t.threads thread).frame = some f := by
  cases e with
  | call thread request =>
    obtain ⟨outside, rfl⟩ := RuntimeState.call_eq run
    exact .inr (RuntimeState.kept (by simp [outside]) rfl)
  | lock thread =>
    obtain ⟨outside, ⟨e, rfl⟩ | ⟨io, q, payload, -, rfl⟩⟩ := RuntimeState.lock_eq run
    · exact .inr (RuntimeState.kept (by simp [outside]) rfl)
    · exact .inr (RuntimeState.kept (by simp [outside]) rfl)
  | submit thread rc =>
    obtain ⟨f, at_, rfl | rfl⟩ := RuntimeState.submit_eq run
    · exact .inl ⟨thread, f, _, rfl, by rw [at_]; rfl⟩
    · exact .inr (RuntimeState.kept (by simp [at_, CallState.frame]) rfl)
  | check thread expired =>
    obtain ⟨f, completion, at_, -, checked⟩ := RuntimeState.check_eq run
    have frame : (s.threads thread).frame = some f := by rw [at_]; rfl
    obtain ⟨-, x, -, rfl⟩ | ⟨-, -, rfl⟩ | ⟨-, -, rfl⟩ := checked
    · exact .inl ⟨thread, f, _, rfl, frame⟩
    · exact .inl ⟨thread, f, _, rfl, frame⟩
    · exact .inr (RuntimeState.kept (by simp [at_, CallState.frame]) rfl)
  | poll thread outcome =>
    obtain ⟨f, at_, ⟨rc, -, rfl⟩ | ⟨delivered, s', -, delivers, rfl⟩⟩ := RuntimeState.poll_eq run
    · exact .inl ⟨thread, f, _, rfl, by rw [at_]; rfl⟩
    · have threads : (s'.moveTo thread (.check f)).threads =
          Function.update s.threads thread (.check f) := by
        rw [RuntimeState.moveTo, RuntimeState.deliver_threads delivers]
      exact .inr (RuntimeState.kept (by simp [at_, CallState.frame]) threads)
  | processCompletions thread qpair maxCompletions outcome =>
    obtain ⟨outside, x, _, rfl⟩ := RuntimeState.processCompletions_eq h.free run
    exact .inr (RuntimeState.kept (by simp [outside]) rfl)

/-- A call that gives its queue pair up ends the life of its context. -/
theorem Inv.released (h : Inv s) (run : s.step rt e = some t)
    (before : (s.threads thread).frame = some f) (after : (t.threads thread).frame ≠ some f) :
    t.contexts f.context = none := by
  obtain ⟨other, g, x, rfl, frame⟩ | keeps := h.step_frame run
  · by_cases own : thread = other
    · subst own
      obtain rfl := Option.some.inj (frame.symm.trans before)
      exact Function.update_self ..
    · simp only [RuntimeState.finish, RuntimeState.moveTo, Function.update_of_ne own] at after
      exact absurd before after
  · exact absurd (keeps thread f before) after

theorem reach_inv (h : (machine T rt).Reach Met s) : Inv s := by
  apply h.invariant
  · rintro s rfl
    exact Inv.new
  · exact fun s e t inv met run => inv.step met run

/-! ## Calls that return -/

/-- In a run that met the condition so far, every command in flight is of a call that has not
returned, and no completion was written to the context of one that has; the next step keeps
this exactly if it meets the condition, and then a call that returns leaves no command with
its context. -/
theorem spdk_settled_iff (h : (machine T rt).Reach Met s) :
    s.Settled ∧ ∀ e t, s.step rt e = some t → (t.Settled ↔ Met s e) ∧
      (Met s e → ∀ thread f, (s.threads thread).frame = some f →
        (t.threads thread).frame ≠ some f → t.contexts f.context = none ∧
        ∀ q, ∀ command ∈ t.inFlight q, command.context ≠ f.context) := by
  have inv := reach_inv h
  refine ⟨inv.settled, fun e t run => ⟨⟨?_, fun met => (inv.step met run).settled⟩, ?_⟩⟩
  · intro settled
    by_contra unmet
    exact inv.unsettled unmet run settled
  · intro met thread f before after
    have gone := inv.released run before after
    refine ⟨gone, fun q command mem same => (inv.step met run).live mem ?_⟩
    rw [same]
    exact gone

/-- The runtime of the runs below. -/
def oneQueuePair : NativeSpdkRuntime := ⟨[1], 1⟩

def oneSector : Request :=
  .read ⟨1, 512, 8, 512, by decide, by decide, by decide, by decide⟩ ⟨0⟩
    ⟨4096, 512, .spdkDma⟩ ⟨0, 1⟩

theorem spdk_settled_iff_read : ∃ s t : RuntimeState Unit,
    (machine Unit oneQueuePair).Reach Met s ∧
    s.step oneQueuePair (.check () true) = some t ∧ t.Settled ∧
    t.threads () = .returned (.ok (.size 512)) ∧ t.inFlight 0 = [] := by
  obtain ⟨s, t, run, next, met, returned, inFlight⟩ : ∃ s t : RuntimeState Unit,
      (machine Unit oneQueuePair).runsIf (fun s e => decide (Met s e)) .new
        [.call () oneSector, .lock (), .submit () 0, .check () false,
          .poll () (.completions []), .check () false,
          .poll () (.completions [(0, false)])] = some s ∧
      s.step oneQueuePair (.check () true) = some t ∧ Met s (.check () true) ∧
      t.threads () = .returned (.ok (.size 512)) ∧ t.inFlight 0 = [] :=
    ⟨_, _, rfl, rfl, by decide, rfl, rfl⟩
  have reach : (machine Unit oneQueuePair).Reach Met s :=
    Machine.Reach.runsIf (fun _ _ => of_decide_eq_true) (.start rfl) run
  obtain ⟨-, steps⟩ := spdk_settled_iff reach
  exact ⟨s, t, reach, next, (steps _ t next).1.mpr met, returned, inFlight⟩

/-- A read times out with its command in flight, and the completion is written to its context
when the queue pair is polled after the call has returned. -/
theorem timeout_writes_stray : ∃ (s t : RuntimeState Unit) (f : Frame),
    (machine Unit oneQueuePair).Reach Machine.Always s ∧
    s.threads () = .returned (.error .completionTimeout) ∧ s.contexts f.context = none ∧
    s.inFlight f.qpair = [f.command] ∧
    s.step oneQueuePair (.processCompletions () ⟨0⟩ 0 (.completions [(0, false)])) = some t ∧
    t.stray = [f.context] := by
  obtain ⟨s, t, f, run, rest⟩ : ∃ (s t : RuntimeState Unit) (f : Frame),
      (machine Unit oneQueuePair).runs .new
        [.call () oneSector, .lock (), .submit () 0, .check () true] = some s ∧
      s.threads () = .returned (.error .completionTimeout) ∧ s.contexts f.context = none ∧
      s.inFlight f.qpair = [f.command] ∧
      s.step oneQueuePair (.processCompletions () ⟨0⟩ 0 (.completions [(0, false)])) = some t ∧
      t.stray = [f.context] :=
    ⟨_, _, ⟨.payload ⟨.read, ⟨1, 512, 8, 512, by decide, by decide, by decide, by decide⟩, ⟨0⟩,
      ⟨4096, 512, .spdkDma⟩, ⟨0, 1⟩⟩ none, 0, .io .read 1 4096 0 1, 0⟩, rfl, rfl, rfl, rfl, rfl, rfl⟩
  exact ⟨s, t, f, Machine.Reach.runs (.start rfl) run, rest⟩

end BypassIo.Backend.Spdk
