import BypassIo.Library.Counter
import BypassIo.Library.Machine

/-!
# The buffer pool

`BufPool` used by any number of threads, cut at every access to its queue and its counter. An
acquire pops a buffer and then decrements the counter; a drop pushes the buffer and then
increments it. The queue is linearizable: a pop finds nothing only when nothing is there.

The operations in progress are lists: the acquires between their pop and their decrement, the
drops that hold a buffer, and those between their push and their increment.

## Main results

* `Tally`: what holds in every run, with the counter wrapping.
* `pool_accounted`: what holds where no decrement overtakes the increments it needs.
-/

namespace BypassIo.Buf

universe u v

variable {T : Type v} {α : Type u}

/-- The free buffers and the counter, the live handles, and the operations in progress. -/
structure BufPool (T : Type v) (α : Type u) where
  free : List α
  available : UInt64
  handles : List α
  acquiring : List (T × α)
  dropping : List (T × α)
  returning : List T
  deriving DecidableEq

/-- A step of a thread: `acquire` pops and then decrements, `drop` takes the buffer of a handle,
pushes it and then increments. -/
inductive Event (T : Type v) (α : Type u)
  | pop (thread : T) (popped : Option α)
  | fetchSub (thread : T) (buf : α)
  | take (thread : T) (buf : α)
  | push (thread : T) (buf : α)
  | fetchAdd (thread : T)

namespace BufPool

/-- `BufPool::new`, with the buffers it allocates. -/
def new (bufs : List α) : BufPool T α := ⟨bufs, UInt64.ofNat bufs.length, [], [], [], []⟩

variable [DecidableEq T] [DecidableEq α]

/-- The thread is inside an operation. -/
def busy (s : BufPool T α) (thread : T) : Bool :=
  thread ∈ s.acquiring.map Prod.fst ∨ thread ∈ s.dropping.map Prod.fst ∨ thread ∈ s.returning

def step (s : BufPool T α) : Event T α → Option (BufPool T α)
  | .pop thread popped =>
    if s.busy thread ∨ s.free.head? ≠ popped then none
    else match popped with
      | none => some s
      | some buf =>
        some { s with free := s.free.tail, acquiring := (thread, buf) :: s.acquiring }
  | .fetchSub thread buf =>
    if (thread, buf) ∈ s.acquiring then
      some { s with
        available := s.available - 1
        acquiring := s.acquiring.erase (thread, buf)
        handles := buf :: s.handles }
    else none
  | .take thread buf =>
    if s.busy thread ∨ buf ∉ s.handles then none
    else some { s with
      handles := s.handles.erase buf
      dropping := (thread, buf) :: s.dropping }
  | .push thread buf =>
    if (thread, buf) ∈ s.dropping then
      some { s with
        free := s.free ++ [buf]
        dropping := s.dropping.erase (thread, buf)
        returning := thread :: s.returning }
    else none
  | .fetchAdd thread =>
    if thread ∈ s.returning then
      some { s with
        available := s.available + 1
        returning := s.returning.erase thread }
    else none

/-- The buffers, each in the list of its place: free, with a handle, or inside an operation. -/
def places (s : BufPool T α) : List α :=
  s.free ++ s.handles ++ s.acquiring.map Prod.snd ++ s.dropping.map Prod.snd

end BufPool

/-- A pool of these buffers and the threads that use it. -/
def machine (T : Type v) [DecidableEq T] [DecidableEq α] (bufs : List α) :
    Machine (BufPool T α) (Event T α) where
  start s := bufs.Nodup ∧ bufs.length < 2 ^ 64 ∧ s = .new bufs
  step := BufPool.step

variable {bufs : List α} {s t : BufPool T α} {e : Event T α}

/-! ## What a step does -/

/-- The steps, each with what it finds and what it leaves. -/
inductive Moves (s : BufPool T α) : Event T α → BufPool T α → Prop
  | empty {thread : T} (none_free : s.free = []) : Moves s (.pop thread none) s
  | pop {thread : T} {buf : α} {rest : List α} (first : s.free = buf :: rest) :
      Moves s (.pop thread (some buf))
        { s with free := rest, acquiring := (thread, buf) :: s.acquiring }
  | fetchSub {thread : T} {buf : α} {rest : List (T × α)}
      (mem : s.acquiring.Perm ((thread, buf) :: rest)) :
      Moves s (.fetchSub thread buf)
        { s with available := s.available - 1, acquiring := rest, handles := buf :: s.handles }
  | take {thread : T} {buf : α} {rest : List α} (mem : s.handles.Perm (buf :: rest)) :
      Moves s (.take thread buf)
        { s with handles := rest, dropping := (thread, buf) :: s.dropping }
  | push {thread : T} {buf : α} {rest : List (T × α)}
      (mem : s.dropping.Perm ((thread, buf) :: rest)) :
      Moves s (.push thread buf)
        { s with free := s.free ++ [buf], dropping := rest, returning := thread :: s.returning }
  | fetchAdd {thread : T} {rest : List T} (mem : s.returning.Perm (thread :: rest)) :
      Moves s (.fetchAdd thread) { s with available := s.available + 1, returning := rest }

/-- Every step moves a buffer from one place to another, or none. -/
theorem Moves.places (h : Moves s e t) : t.places.Perm s.places := by
  classical
  rw [List.perm_iff_count]
  intro x
  cases h with
  | empty => rfl
  | pop first =>
    simp only [BufPool.places, first, List.count_append, List.map_cons, List.count_cons]
    omega
  | fetchSub mem =>
    have moved := (mem.map Prod.snd).count_eq x
    simp only [BufPool.places, List.count_append, List.map_cons, List.count_cons] at moved ⊢
    omega
  | take mem =>
    have moved := mem.count_eq x
    simp only [BufPool.places, List.count_append, List.map_cons, List.count_cons] at moved ⊢
    omega
  | push mem =>
    have moved := (mem.map Prod.snd).count_eq x
    simp only [BufPool.places, List.count_append, List.map_cons, List.count_cons,
      List.count_nil] at moved ⊢
    omega
  | fetchAdd => rfl

/-- What the counter is short of, or over, is in the operations in progress. -/
def BufPool.Balanced (s : BufPool T α) : Prop :=
  s.available + UInt64.ofNat s.returning.length = UInt64.ofNat (s.free.length + s.acquiring.length)

theorem Moves.balanced (h : Moves s e t) (balanced : s.Balanced) : t.Balanced := by
  unfold BufPool.Balanced at balanced ⊢
  have one : UInt64.ofNat 1 = 1 := rfl
  cases h with
  | empty => exact balanced
  | pop first =>
    simp only [first, List.length_cons] at balanced ⊢
    rw [balanced]
    congr 1
    omega
  | fetchSub mem =>
    rw [mem.length_eq, List.length_cons, ← Nat.add_assoc, UInt64.ofNat_add, one] at balanced
    grind
  | take mem => exact balanced
  | push mem =>
    simp only [List.length_append, List.length_cons, List.length_nil, Nat.zero_add]
    rw [UInt64.ofNat_add, one, Nat.add_right_comm, UInt64.ofNat_add, one]
    grind
  | fetchAdd mem =>
    rw [mem.length_eq, List.length_cons, UInt64.ofNat_add, one] at balanced
    grind

/-- The buffers are where the pool put them, and the counter balances. -/
structure Tally (bufs : List α) (s : BufPool T α) : Prop where
  distinct : bufs.Nodup
  small : bufs.length < 2 ^ 64
  placed : s.places.Perm bufs
  balanced : s.Balanced

theorem Tally.new (distinct : bufs.Nodup) (small : bufs.length < 2 ^ 64) :
    Tally bufs (.new bufs : BufPool T α) := by
  refine ⟨distinct, small, ?_, ?_⟩
  · simp [BufPool.places, BufPool.new]
  · simp [BufPool.Balanced, BufPool.new]

theorem Tally.step (h : Tally bufs s) (moves : Moves s e t) : Tally bufs t :=
  ⟨h.distinct, h.small, moves.places.trans h.placed, moves.balanced h.balanced⟩

/-- The free buffers and those of the acquires in progress are some of the buffers. -/
theorem Tally.free_le (h : Tally bufs s) : s.free.length + s.acquiring.length ≤ bufs.length := by
  rw [← h.placed.length_eq]
  simp only [BufPool.places, List.length_append, List.length_map]
  omega

/-- Between operations the counter is the number of free buffers. -/
theorem Tally.available_eq (h : Tally bufs s) (acquiring : s.acquiring = [])
    (returning : s.returning = []) : s.available.toNat = s.free.length := by
  have balanced := h.balanced
  have fits := h.free_le
  have small := h.small
  have zero : UInt64.ofNat 0 = 0 := rfl
  simp only [BufPool.Balanced, acquiring, returning, List.length_nil, Nat.add_zero, zero,
    UInt64.add_zero] at balanced fits
  rw [balanced, UInt64.toNat_ofNat_of_lt']
  unfold UInt64.size
  omega

/-! ## The counter below zero -/

/-- A decrement runs only while fewer drops are between their push and their increment than
there are free buffers and acquires between their pop and their decrement. -/
def Careful (s : BufPool T α) : Event T α → Prop
  | .fetchSub _ _ => s.returning.length < s.free.length + s.acquiring.length
  | _ => True

/-- The counter has not wrapped. -/
def BufPool.Exact (s : BufPool T α) : Prop :=
  s.available.toNat + s.returning.length = s.free.length + s.acquiring.length

theorem Moves.exact (h : Moves s e t) (tally : Tally bufs s) (exact_ : s.Exact)
    (careful : Careful s e) : t.Exact := by
  unfold BufPool.Exact at exact_ ⊢
  have room := tally.free_le
  have small := tally.small
  cases h with
  | empty => exact exact_
  | pop first =>
    simp only [first, List.length_cons] at exact_ ⊢
    omega
  | fetchSub mem =>
    have length := mem.length_eq
    have positive : 1 ≤ s.available.toNat := by
      simp only [Careful] at careful
      omega
    have less : (s.available - 1).toNat = s.available.toNat - 1 :=
      UInt64.toNat_sub_of_le _ _ (UInt64.le_iff_toNat_le.mpr positive)
    simp only [List.length_cons] at length
    dsimp only
    rw [less]
    omega
  | take mem => exact exact_
  | push mem =>
    simp only [List.length_append, List.length_cons, List.length_nil]
    omega
  | fetchAdd mem =>
    have length := mem.length_eq
    simp only [List.length_cons] at length
    have more : (s.available + 1).toNat = s.available.toNat + 1 := by
      rw [UInt64.toNat_add]
      exact Nat.mod_eq_of_lt (by simp; omega)
    dsimp only
    rw [more]
    omega

/-! ## Runs -/

variable [DecidableEq T] [DecidableEq α]

theorem moves_of_step (run : s.step e = some t) : Moves s e t := by
  cases e with
  | pop thread popped =>
    simp only [BufPool.step, Option.ite_none_left_eq_some, not_or, not_not] at run
    obtain ⟨⟨-, found⟩, run⟩ := run
    cases popped with
    | none =>
      obtain rfl := Option.some.inj run
      exact .empty (List.head?_eq_none_iff.mp found)
    | some buf =>
      obtain rfl := Option.some.inj run
      obtain ⟨rest, first⟩ := List.head?_eq_some_iff.mp found
      rw [first]
      exact .pop first
  | fetchSub thread buf =>
    obtain ⟨mem, run⟩ := Option.ite_none_right_eq_some.mp run
    obtain rfl := Option.some.inj run
    exact .fetchSub (List.perm_cons_erase mem)
  | take thread buf =>
    simp only [BufPool.step, Option.ite_none_left_eq_some, not_or, not_not] at run
    obtain ⟨⟨-, mem⟩, run⟩ := run
    obtain rfl := Option.some.inj run
    exact .take (List.perm_cons_erase mem)
  | push thread buf =>
    obtain ⟨mem, run⟩ := Option.ite_none_right_eq_some.mp run
    obtain rfl := Option.some.inj run
    exact .push (List.perm_cons_erase mem)
  | fetchAdd thread =>
    obtain ⟨mem, run⟩ := Option.ite_none_right_eq_some.mp run
    obtain rfl := Option.some.inj run
    exact .fetchAdd (List.perm_cons_erase mem)

theorem Tally.reach {allowed : BufPool T α → Event T α → Prop}
    (h : (machine T bufs).Reach allowed s) : Tally bufs s := by
  refine h.invariant ?_ fun s e t tally _ run => tally.step (moves_of_step run)
  rintro _ ⟨distinct, small, rfl⟩
  exact .new distinct small

theorem exact_reach (h : (machine T bufs).Reach Careful s) : s.Exact := by
  have both : Tally bufs s ∧ s.Exact := by
    refine h.invariant (I := fun s => Tally bufs s ∧ s.Exact) ?_ ?_
    · rintro s ⟨distinct, small, rfl⟩
      refine ⟨.new distinct small, ?_⟩
      simp [BufPool.Exact, BufPool.new, UInt64.toNat_ofNat_of_lt' small]
    · rintro s e t ⟨tally, exact_⟩ careful run
      have moves := moves_of_step run
      exact ⟨tally.step moves, moves.exact tally exact_ careful⟩
  exact both.2

/-- What the pool promises. -/
structure Accounted (bufs : List α) (s : BufPool T α) : Prop where
  /-- No buffer is in two places, and every one is in one. -/
  placed : s.places.Nodup ∧ ∀ buf, buf ∈ s.places ↔ buf ∈ bufs
  refused : ∀ thread t, s.step (.pop thread none) = some t → s.free = []
  available_le : s.available.toNat ≤ bufs.length
  available_eq : s.acquiring = [] → s.dropping = [] → s.returning = [] →
    s.available.toNat = s.free.length

/-- Where every decrement is careful, the pool keeps its promises in every state. -/
theorem pool_accounted (h : (machine T bufs).Reach Careful s) : Accounted bufs s := by
  have tally := Tally.reach h
  have exact_ := exact_reach h
  have room := tally.free_le
  unfold BufPool.Exact at exact_
  refine ⟨⟨tally.placed.nodup_iff.mpr tally.distinct, fun buf => tally.placed.mem_iff⟩, ?_, ?_, ?_⟩
  · intro thread t run
    cases moves_of_step run with
    | empty none_free => exact none_free
  · omega
  · exact fun acquiring _ returning => tally.available_eq acquiring returning

instance (s : BufPool T α) (e : Event T α) : Decidable (Careful s e) := by
  unfold Careful
  split <;> infer_instance

/-- Two threads in turn: one acquires a buffer, the other acquires and drops the other one. -/
theorem pool_accounted_turns : ∃ s : BufPool Bool Nat, (machine Bool [7, 8]).Reach Careful s ∧
    s.available = 1 ∧ s.free = [8] ∧ Accounted [7, 8] s := by
  have turns : (machine Bool [7, 8]).runsIf (fun s e => decide (Careful s e)) (.new [7, 8])
      [.pop true (some 7), .pop false (some 8), .fetchSub false 8, .fetchSub true 7,
        .take false 8, .push false 8, .fetchAdd false] =
      some ⟨[8], 1, [7], [], [], []⟩ := by decide
  have start : (machine Bool [7, 8]).Reach Careful (.new [7, 8]) :=
    .start ⟨by decide, by decide, rfl⟩
  have run := start.runsIf (fun _ _ => of_decide_eq_true) turns
  exact ⟨_, run, rfl, rfl, pool_accounted run⟩

/-- One thread has pushed the buffer and not yet incremented the counter when another acquires
the buffer and decrements it. -/
theorem decrement_overtakes :
    ¬ ∀ (bufs : List Nat) (s : BufPool Bool Nat), (machine Bool bufs).Reach Machine.Always s →
      Accounted bufs s := by
  intro accounted
  have overtaken : (machine Bool [7]).runs (.new [7])
      [.pop true (some 7), .fetchSub true 7, .take true 7, .push true 7, .pop false (some 7),
        .fetchSub false 7] = some ⟨[], 0 - 1, [7], [], [], [true]⟩ := by decide
  have start : (machine Bool [7]).Reach Machine.Always (.new [7]) :=
    .start ⟨by decide, by decide, rfl⟩
  have below := (accounted _ _ (start.runs overtaken)).available_le
  simp at below

end BypassIo.Buf
