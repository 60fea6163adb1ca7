import BypassIo.Library.Sample
import BypassIo.Ring.MpscSafety
import BypassIo.Ring.SpscSafety

/-!
# The length of a ring

`len` of both rings, called by any threads while items are pushed and popped: it loads `head`, then
`tail`, and subtracts with wrapping. An item popped between the loads that was pushed after the
first makes the difference wrap; and the last item of those counted may be popped between them
while another is there.

## Main results

* `len_in_range`: the runs of both rings in which every length is in range, and every ring that
  seems empty was.
-/

namespace BypassIo.Ring

universe u v w

open Machine (Always)

variable {α : Type u} {P : Type v} {O : Type w} {capacity : UInt64}

/-- `is_empty`, on what `len` returns. -/
def isEmpty (len : UInt64) : Bool := len == 0

/-- Every call of `len` that has returned gave at most the capacity, and a call of `is_empty` gave
true only if at some moment of the call no item was reserved. -/
def InRange {σ : Type*} (capacity : UInt64) (w : Watched O σ) : Prop :=
  ∀ o len empty, w.sample o = .returned len empty →
    len ≤ capacity ∧ (isEmpty len → empty = true)

theorem inRange_iff {σ : Type*} {w : Watched O σ} :
    InRange capacity w ↔ w.Sound capacity.toNat := by
  unfold InRange Watched.Sound isEmpty
  simp only [UInt64.le_iff_toNat_le, beq_iff_eq]

namespace Spsc

/-- The counters of the ring, and the items that were accepted and popped. -/
def SpscRing.counters : Counters (SpscRing α) where
  head s := s.head
  tail s := s.tail
  pushed s := s.accepted.length
  popped s := s.popped.length

/-- The ring with the threads that call `len`. -/
def SpscRing.watched (O : Type w) [DecidableEq O] (α : Type u) (capacity : UInt64) :
    Machine (Watched O (SpscRing α)) (Watched.Event O (Event α)) :=
  SpscRing.counters.watch (SpscRing.machine α capacity)

/-- Between the loads of a call of `len`, no item is popped that was pushed after the first, and the
last item counted there is popped only if no other was pushed since or the ring was empty before. -/
def SpscRing.Careful [DecidableEq O] (capacity : UInt64) :
    Watched O (SpscRing α) → Watched.Event O (Event α) → Prop :=
  SpscRing.counters.Careful (SpscRing.machine α capacity) Always

theorem SpscRing.moves {s t : SpscRing α} {e : Event α} (run : s.step e = some t) :
    t.popped.length = s.popped.length ∧ s.accepted.length ≤ t.accepted.length ∨
      t.popped.length = s.popped.length + 1 ∧ t.accepted.length = s.accepted.length := by
  cases e <;> grind [SpscRing.step, SpscRing.push, SpscRing.pop]

theorem SpscRing.counts (capacity : UInt64) :
    Counts SpscRing.counters (SpscRing.machine α capacity) Always capacity.toNat
      fun s => ∃ k, capacity.toNat = 2 ^ k ∧ Inv k s where
  small := fun s ⟨_, power, inv⟩ => power ▸ Counter.two_pow_succ_lt inv.small
  start _ := SpscRing.new_inv
  keeps := by
    rintro s e t ⟨k, power, inv⟩ - run
    exact ⟨k, power, inv.step run⟩
  head := fun s ⟨_, _, inv⟩ => inv.head
  tail := fun s ⟨_, _, inv⟩ => inv.tail
  popped_le := fun s ⟨_, _, inv⟩ => inv.popped.length_le
  room := fun s ⟨_, power, inv⟩ => power ▸ inv.size ▸ inv.room
  moves _ _ _ := SpscRing.moves
  apart _ _ _ _ _ careless := absurd trivial careless

end Spsc

namespace Mpsc

/-- The counters of the ring, and the items that were reserved and popped. -/
def MpscRing.counters : Counters (MpscRing P α) where
  head s := s.head
  tail s := s.tail
  pushed s := s.reserved.length
  popped s := s.popped.length

/-- The ring with the threads that call `len`. -/
def MpscRing.watched (O : Type w) [DecidableEq O] (P : Type v) [DecidableEq P] (α : Type u)
    (capacity : UInt64) : Machine (Watched O (MpscRing P α)) (Watched.Event O (Event P α)) :=
  MpscRing.counters.watch (MpscRing.machine P α capacity)

variable [DecidableEq P]

/-- Between the loads of a call of `len` pops are as in the other ring, and no slot is reserved in a
ring that is full. -/
def MpscRing.Careful [DecidableEq O] (capacity : UInt64) :
    Watched O (MpscRing P α) → Watched.Event O (Event P α) → Prop :=
  MpscRing.counters.Careful (MpscRing.machine P α capacity) MpscRing.Spare

theorem MpscRing.moves {s t : MpscRing P α} {e : Event P α} (run : s.step e = some t) :
    t.popped.length = s.popped.length ∧ s.reserved.length ≤ t.reserved.length ∨
      t.popped.length = s.popped.length + 1 ∧ t.reserved.length = s.reserved.length := by
  cases e <;> grind [MpscRing.step, MpscRing.push, MpscRing.pop, MpscRing.moveTo]

theorem MpscRing.counts (capacity : UInt64) :
    Counts MpscRing.counters (MpscRing.machine P α capacity) MpscRing.Spare capacity.toNat
      fun s => ∃ k, capacity.toNat = 2 ^ k ∧ Inv k s where
  small := fun s ⟨_, power, inv⟩ => power ▸ Counter.two_pow_succ_lt inv.small
  start _ := MpscRing.new_inv
  keeps := by
    rintro s e t ⟨k, power, inv⟩ spare run
    exact ⟨k, power, inv.step spare run⟩
  head := fun s ⟨_, _, inv⟩ => inv.head
  tail := fun s ⟨_, _, inv⟩ => inv.tail
  popped_le := fun s ⟨_, _, inv⟩ => inv.popped_le
  room := fun s ⟨_, power, inv⟩ => power ▸ inv.size ▸ inv.room
  moves _ _ _ := MpscRing.moves
  apart := by
    rintro s e t ⟨k, power, inv⟩ run careless
    cases e with
    | callPush | callPop | pop => exact absurd trivial careless
    | push p spurious =>
      simp only [MpscRing.Spare, not_forall, not_not] at careless
      obtain ⟨item, head, seen, at_, rfl, taken, full⟩ := careless
      change s.push p spurious = some t at run
      simp only [MpscRing.push, at_] at run
      rw [if_pos ⟨trivial, taken⟩] at run
      obtain rfl := Option.some.inj run
      refine ⟨?_, inv.tail, ?_⟩
      · simp [counters, inv.head, UInt64.ofNat_add]
      · unfold MpscRing.Full at full
        simp [counters, MpscRing.moveTo, full, inv.size, power, Nat.add_assoc]

end Mpsc

open Spsc (SpscRing)
open Mpsc (MpscRing)

/-- In every run of careful steps of either ring every length is in range, and a ring that seems
empty was; and any other step of such a run can be followed to a length that is not in range or a
ring that seems empty and was not. -/
theorem len_in_range [DecidableEq O] [DecidableEq P] (capacity : UInt64) (o : O) :
    (∀ w, (SpscRing.watched O α capacity).Reach (SpscRing.Careful capacity) w →
      InRange capacity w ∧ ∀ e u, (SpscRing.watched O α capacity).step w e = some u →
        ¬ SpscRing.Careful capacity w e →
          ∃ es v, (SpscRing.watched O α capacity).runs u es = some v ∧ ¬ InRange capacity v) ∧
    ∀ w, (MpscRing.watched O P α capacity).Reach (MpscRing.Careful capacity) w →
      InRange capacity w ∧ ∀ e u, (MpscRing.watched O P α capacity).step w e = some u →
        ¬ MpscRing.Careful capacity w e →
          ∃ es v, (MpscRing.watched O P α capacity).runs u es = some v ∧ ¬ InRange capacity v := by
  simp only [inRange_iff]
  constructor
  · intro w reach
    have counts := SpscRing.counts (α := α) capacity
    exact ⟨counts.sound reach, fun e u run careless => counts.exact reach run careless o⟩
  · intro w reach
    have counts := MpscRing.counts (P := P) (α := α) capacity
    exact ⟨counts.sound reach, fun e u run careless => counts.exact reach run careless o⟩

/-- A call of `len` whose loads are before and after what the ring does. -/
def around {ε : Type*} (es : List ε) : List (Watched.Event Unit ε) :=
  .call () :: .load () :: es.map .run ++ [.load ()]

/-- A ring of one slot in which an item is pushed and popped between the loads, and one of two
slots in which the item that was there is popped after another was pushed. -/
theorem len_wraps :
    (∃ w, (SpscRing.watched Unit ℕ 1).Reach Always w ∧
      w.sample () = .returned 18446744073709551615 true ∧ ¬ InRange 1 w) ∧
    (∃ w, (SpscRing.watched Unit ℕ 2).Reach Always w ∧
      w.sample () = .returned 0 false ∧ ¬ InRange 2 w) ∧
    ∃ w, (MpscRing.watched Unit Unit ℕ 1).Reach Always w ∧
      w.sample () = .returned 18446744073709551615 true ∧ ¬ InRange 1 w := by
  refine ⟨?_, ?_, ?_⟩
  · have start : (SpscRing.watched Unit ℕ 1).Reach Always
        ⟨⟨0, 0, #[none], 0, .idle, .idle, [], []⟩, fun _ => .idle⟩ := .start ⟨rfl, fun _ => rfl⟩
    have reach := @Machine.Reach.runs _ _ _ _ _ (around [.callPush 7, .push, .push, .push, .push,
      .callPop, .pop, .pop, .pop, .pop]) start rfl
    refine ⟨_, reach, rfl, fun range => ?_⟩
    exact absurd (range () _ _ rfl).1 (by decide)
  · have start : (SpscRing.watched Unit ℕ 2).Reach Always
        ⟨⟨0, 0, #[none, none], 1, .idle, .idle, [], []⟩, fun _ => .idle⟩ :=
      .start ⟨rfl, fun _ => rfl⟩
    have first := @Machine.Reach.runs _ _ _ _ _ [.run (.callPush 7), .run .push, .run .push,
      .run .push, .run .push] start rfl
    have reach := @Machine.Reach.runs _ _ _ _ _ (around [.callPush 8, .push, .push, .push, .push,
      .callPop, .pop, .pop, .pop, .pop]) first rfl
    refine ⟨_, reach, rfl, fun range => ?_⟩
    exact absurd ((range () _ _ rfl).2 rfl) (by decide)
  · have start : (MpscRing.watched Unit Unit ℕ 1).Reach Always
        ⟨⟨0, 0, #[.uninit], 0, fun _ => .idle, .idle, [], [], []⟩, fun _ => .idle⟩ :=
      .start ⟨rfl, fun _ => rfl⟩
    have reach := @Machine.Reach.runs _ _ _ _ _ (around [.callPush () 7, .push () false,
      .push () false, .push () false, .push () false, .push () false, .callPop, .pop, .pop, .pop,
      .pop, .pop, .pop]) start rfl
    refine ⟨_, reach, rfl, fun range => ?_⟩
    exact absurd (range () _ _ rfl).1 (by decide)

end BypassIo.Ring
