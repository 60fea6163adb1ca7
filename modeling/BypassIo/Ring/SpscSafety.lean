import Mathlib.Data.List.Infix
import BypassIo.Library.Window
import BypassIo.Ring.Spsc

/-!
# The single-producer single-consumer ring is a bounded queue

Each side works from its own counter and a copy of the other's that may be stale. The copy
errs to the safe side: a slot that was free stays free until the producer uses it, an item
that was there stays there until the consumer takes it. The slots are a window onto the
list of the items written, from the first one not yet taken.
-/

namespace BypassIo.Ring.Spsc

universe u

open Machine (Always)
open RingBuffer (Window)

variable {α : Type u} {capacity head tail : UInt64} {s t : SpscRing α} {item : α}
variable {accepted : List α} {k n n' size : Nat}

/-! ## What each side knows -/

/-- The item in a slot that `head` does not cover yet. -/
def PushState.written : PushState α → List α
  | .storeHead item _ => [item]
  | _ => []

/-- The slots behind `tail` whose item has been moved out. -/
def PopState.taken : PopState α → Nat
  | .storeTail _ _ => 1
  | _ => 0

/-- The copy of `head` is current, and a slot found free is free. -/
def PushState.Knows (head : UInt64) (accepted popped size : Nat) : PushState α → Prop
  | .loadTail _ seen => seen = head
  | .writeSlot _ seen | .storeHead _ seen => seen = head ∧ accepted < popped + size
  | _ => True

/-- The copy of `tail` is current, and an item found is the next one. -/
def PopState.Knows (tail : UInt64) (accepted : List α) (popped : Nat) : PopState α → Prop
  | .loadHead seen => seen = tail
  | .readSlot seen => seen = tail ∧ popped < accepted.length
  | .storeTail item seen => seen = tail ∧ accepted[popped]? = some item
  | _ => True

theorem PushState.Knows.mono {p : PushState α} (h : p.Knows head k n size) (le : n ≤ n') :
    p.Knows head k n' size := by
  cases p with
  | writeSlot => exact ⟨h.1, by have := h.2; omega⟩
  | storeHead => exact ⟨h.1, by have := h.2; omega⟩
  | _ => exact h

theorem PopState.Knows.append {c : PopState α} (h : c.Knows tail accepted n) (item : α) :
    c.Knows tail (accepted ++ [item]) n := by
  cases c with
  | readSlot => exact ⟨h.1, by have := h.2; simp; omega⟩
  | storeTail =>
    refine ⟨h.1, ?_⟩
    rw [List.getElem?_append_left (List.getElem?_eq_some_iff.mp h.2).1, h.2]
  | _ => exact h

theorem PopState.Knows.taken_le {c : PopState α} (h : c.Knows tail accepted n)
    (le : n ≤ accepted.length) : n + c.taken ≤ accepted.length := by
  cases c with
  | storeTail => exact (List.getElem?_eq_some_iff.mp h.2).1
  | _ => exact le

theorem SpscRing.written_of_betweenPushes (h : s.betweenPushes) : s.producer.written = [] := by
  unfold SpscRing.betweenPushes at h
  split at h
  · next at_ => rw [at_]; rfl
  · next at_ => rw [at_]; rfl
  · cases h

theorem SpscRing.taken_of_betweenPops (h : s.betweenPops) : s.consumer.taken = 0 := by
  unfold SpscRing.betweenPops at h
  split at h
  · next at_ => rw [at_]; rfl
  · next at_ => rw [at_]; rfl
  · cases h

structure Inv (k : Nat) (s : SpscRing α) : Prop where
  small : k < 64
  size : s.buf.size = 2 ^ k
  mask : s.mask = UInt64.ofNat (2 ^ k) - 1
  head : s.head = UInt64.ofNat s.accepted.length
  tail : s.tail = UInt64.ofNat s.popped.length
  popped : s.popped <+: s.accepted
  room : s.accepted.length ≤ s.popped.length + s.buf.size
  producer : s.producer.Knows s.head s.accepted.length s.popped.length s.buf.size
  consumer : s.consumer.Knows s.tail s.accepted s.popped.length
  window : Window s.buf ((s.accepted ++ s.producer.written)[·]?)
    (s.popped.length + s.consumer.taken)

namespace Inv

theorem index_head (h : Inv k s) : s.index s.head = s.accepted.length % s.buf.size := by
  rw [SpscRing.index, h.head, h.mask, h.size, Counter.toNat_and_mask h.small]

theorem index_tail (h : Inv k s) : s.index s.tail = s.popped.length % s.buf.size := by
  rw [SpscRing.index, h.tail, h.mask, h.size, Counter.toNat_and_mask h.small]

theorem size_lt (h : Inv k s) : s.buf.size < 2 ^ 64 := by
  rw [h.size]
  exact Nat.pow_lt_pow_right (by decide) h.small

theorem size_pos (h : Inv k s) : 0 < s.buf.size := by
  rw [h.size]
  exact Nat.two_pow_pos k

/-- The check of `push` finds exactly the full ring. -/
theorem full_iff (h : Inv k s) :
    s.head - s.tail = s.capacity ↔ s.accepted.length = s.popped.length + s.buf.size := by
  have := h.popped.length_le
  have := h.room
  have := h.size_lt
  rw [SpscRing.capacity, h.head, h.tail]
  apply Counter.sub_eq_ofNat <;> omega

/-- The check of `pop` finds exactly the empty ring. -/
theorem empty_iff (h : Inv k s) : s.tail = s.head ↔ s.popped.length = s.accepted.length := by
  have := h.popped.length_le
  have := h.room
  have := h.size_lt
  rw [eq_comm, h.head, h.tail, eq_comm (a := s.popped.length)]
  apply Counter.ofNat_inj <;> omega

/-- The next item to pop is in the slot of the tail until it is taken. -/
theorem slot_tail (h : Inv k s) (untaken : s.consumer.taken = 0)
    (lt : s.popped.length < s.accepted.length) :
    s.buf[s.index s.tail]? = some (some s.accepted[s.popped.length]) := by
  have := h.size_pos
  have cell := h.window s.popped.length (by omega) (by omega)
  have next : (s.accepted ++ s.producer.written)[s.popped.length]? =
      some s.accepted[s.popped.length] := by
    rw [List.getElem?_append_left lt, List.getElem?_eq_getElem lt]
  rw [h.index_tail, cell]
  exact congrArg some next

/-- The slot of the head is empty until the producer writes it. -/
theorem slot_head (h : Inv k s) (unwritten : s.producer.written = [])
    (room : s.accepted.length < s.popped.length + s.buf.size) :
    s.buf[s.index s.head]? = some none := by
  have le := h.consumer.taken_le h.popped.length_le
  have cell := h.window s.accepted.length le (by omega)
  rw [h.index_head, cell, unwritten]
  simp

/-! ## Every access keeps the invariant -/

theorem push (h : Inv k s) (run : s.push = some t) : Inv k t := by
  unfold SpscRing.push at run
  have producer := h.producer
  have window := h.window
  cases at_ : s.producer with
  | idle => simp [at_] at run
  | returned result => simp [at_] at run
  | loadHead item =>
    simp only [at_] at run window
    obtain rfl := Option.some.inj run
    exact { h with producer := rfl, window }
  | loadTail item head =>
    simp only [at_] at run producer window
    split at run
    case isTrue full =>
      obtain rfl := Option.some.inj run
      exact { h with producer := trivial, window }
    case isFalse space =>
      obtain rfl := Option.some.inj run
      have current : head = s.head := producer
      rw [current, h.full_iff] at space
      have free : s.accepted.length < s.popped.length + s.buf.size := by
        have := h.room
        omega
      exact { h with producer := ⟨current, free⟩, window }
  | writeSlot item head =>
    simp only [at_] at run producer window
    obtain rfl := Option.some.inj run
    obtain ⟨rfl, space⟩ := producer
    have le := h.consumer.taken_le h.popped.length_le
    change Window s.buf ((s.accepted ++ [])[·]?) _ at window
    rw [List.append_nil] at window
    have wide := window.push le (by omega) item
    rw [← h.index_head] at wide
    exact { h with
      size := Array.size_setIfInBounds.trans h.size
      room := by simpa using h.room
      producer := ⟨rfl, by simpa using space⟩
      window := wide }
  | storeHead item head =>
    simp only [at_] at run producer window
    obtain rfl := Option.some.inj run
    obtain ⟨rfl, space⟩ := producer
    exact { h with
      head := by simp [h.head, UInt64.ofNat_add]
      popped := h.popped.trans (List.prefix_append _ _)
      room := by simp; omega
      producer := trivial
      consumer := h.consumer.append item
      window := by simpa [PushState.written] using window }

theorem pop (h : Inv k s) (run : s.pop = some t) : Inv k t := by
  unfold SpscRing.pop at run
  have consumer := h.consumer
  have window := h.window
  have le := h.popped.length_le
  cases at_ : s.consumer with
  | idle => simp [at_] at run
  | returned result => simp [at_] at run
  | loadTail =>
    simp only [at_] at run window
    obtain rfl := Option.some.inj run
    exact { h with consumer := rfl, window }
  | loadHead tail =>
    simp only [at_] at run consumer window
    split at run
    case isTrue empty =>
      obtain rfl := Option.some.inj run
      exact { h with consumer := trivial, window }
    case isFalse filled =>
      obtain rfl := Option.some.inj run
      have current : tail = s.tail := consumer
      rw [current, h.empty_iff] at filled
      have waiting : s.popped.length < s.accepted.length := by omega
      exact { h with consumer := ⟨current, waiting⟩, window }
  | readSlot tail =>
    simp only [at_] at run consumer window
    obtain ⟨rfl, filled⟩ := consumer
    rw [h.slot_tail (by rw [at_]; rfl) filled] at run
    obtain rfl := Option.some.inj run
    have bound : (s.accepted ++ s.producer.written).length ≤ s.popped.length + s.buf.size := by
      have room := h.room
      have knows := h.producer
      cases p : s.producer with
      | storeHead item head =>
        rw [p] at knows
        have space := knows.2
        simp only [PushState.written, List.length_append, List.length_singleton]
        omega
      | _ => simpa [PushState.written] using room
    change Window s.buf _ s.popped.length at window
    have rest := window.pop (by rw [List.length_append]; omega) bound
    rw [← h.index_tail] at rest
    exact { h with
      size := Array.size_setIfInBounds.trans h.size
      room := by simpa using h.room
      producer := by simpa using h.producer
      consumer := ⟨rfl, List.getElem?_eq_getElem filled⟩
      window := rest }
  | storeTail item tail =>
    simp only [at_] at run consumer window
    obtain rfl := Option.some.inj run
    obtain ⟨rfl, next⟩ := consumer
    obtain ⟨lt, same⟩ := List.getElem?_eq_some_iff.mp next
    have longer : s.popped ++ [item] <+: s.accepted := by
      rw [← same]
      exact List.concat_get_prefix h.popped lt
    exact { h with
      tail := by simp [h.tail, UInt64.ofNat_add]
      popped := longer
      room := by have := h.room; simp; omega
      producer := h.producer.mono (by simp)
      consumer := trivial
      window := by simpa [PopState.taken] using window }

theorem step {e : Event α} (h : Inv k s) (run : s.step e = some t) : Inv k t := by
  have window := h.window
  cases e with
  | push => exact h.push run
  | pop => exact h.pop run
  | callPush item =>
    obtain ⟨idle, run⟩ := Option.ite_none_right_eq_some.mp run
    obtain rfl := Option.some.inj run
    rw [SpscRing.written_of_betweenPushes idle] at window
    exact { h with producer := trivial, window }
  | callPop =>
    obtain ⟨idle, run⟩ := Option.ite_none_right_eq_some.mp run
    obtain rfl := Option.some.inj run
    rw [SpscRing.taken_of_betweenPops idle] at window
    exact { h with consumer := trivial, window }

end Inv

theorem SpscRing.new_inv (h : SpscRing.new capacity = some s) :
    ∃ k, capacity.toNat = 2 ^ k ∧ Inv k s := by
  unfold SpscRing.new at h
  obtain ⟨⟨k, power⟩, h⟩ := Option.ite_none_right_eq_some.mp h
  obtain ⟨_, h⟩ := Option.ite_none_right_eq_some.mp h
  obtain rfl := Option.some.inj h
  refine ⟨k, power, ?_, ?_, ?_, rfl, rfl, List.prefix_rfl, Nat.zero_le _, trivial, trivial, ?_⟩
  · exact (Nat.pow_lt_pow_iff_right (by decide)).mp (power ▸ capacity.toNat_lt)
  · exact Array.size_replicate.trans power
  · rw [← power, UInt64.ofNat_toNat]
  · intro i _ lt
    have bound : i % capacity.toNat < capacity.toNat :=
      Nat.mod_lt i (power ▸ Nat.two_pow_pos k)
    simp [PushState.written, bound]

/-- Which slots are in use and what is in them, in every state the ring gets into. -/
theorem reach_inv (h : (SpscRing.machine α capacity).Reach Always s) :
    ∃ k, capacity.toNat = 2 ^ k ∧ Inv k s := by
  apply h.invariant
  · exact fun s => SpscRing.new_inv
  · rintro s e t ⟨k, power, inv⟩ - run
    exact ⟨k, power, inv.step run⟩

/-! ## Dropping the ring -/

theorem Inv.popNow_none (h : Inv k s) (all : s.popped.length = s.accepted.length) :
    s.popNow = none := by
  rw [SpscRing.popNow, if_pos (h.empty_iff.mpr all)]

theorem Inv.popNow_some (h : Inv k s) (idle : s.betweenPops)
    (lt : s.popped.length < s.accepted.length) :
    ∃ t, s.popNow = some (s.accepted[s.popped.length], t) ∧ t.accepted = s.accepted ∧
      t.popped.length = s.popped.length + 1 ∧ t.betweenPops := by
  have filled : ¬ s.tail = s.head := by
    rw [h.empty_iff]
    omega
  rw [SpscRing.popNow, if_neg filled,
    h.slot_tail (SpscRing.taken_of_betweenPops idle) lt]
  exact ⟨_, rfl, rfl, by simp, rfl⟩

theorem drop_eq (h : (SpscRing.machine α capacity).Reach Always s) (idle : s.betweenPops) :
    s.drop = s.accepted.drop s.popped.length := by
  induction left : s.accepted.length - s.popped.length generalizing s with
  | zero =>
    obtain ⟨k, _, inv⟩ := reach_inv h
    have le := inv.popped.length_le
    rw [SpscRing.drop, inv.popNow_none (by omega), List.drop_eq_nil_of_le (by omega)]
  | succ left ih =>
    obtain ⟨k, _, inv⟩ := reach_inv h
    have lt : s.popped.length < s.accepted.length := by omega
    obtain ⟨t, popNow, accepted, popped, idle'⟩ := inv.popNow_some idle lt
    have reach := h.runs (SpscRing.popNow_runs idle popNow)
    have rest := ih reach idle' (by rw [accepted, popped]; omega)
    rw [SpscRing.drop, popNow]
    simp only [rest, accepted, popped]
    exact (List.drop_eq_getElem_cons lt).symm

/-! ## The queue -/

theorem SpscRing.push_error (run : s.push = some t) (h : t.producer = .returned (.error item)) :
    ∃ head, s.producer = .loadTail item head ∧ head - s.tail = s.capacity := by
  unfold SpscRing.push at run
  cases at_ : s.producer with
  | loadTail item' head =>
    simp only [at_] at run
    split at run
    case isTrue full =>
      obtain rfl := Option.some.inj run
      obtain rfl : item' = item := by simpa using h
      exact ⟨head, rfl, full⟩
    case isFalse =>
      obtain rfl := Option.some.inj run
      cases h
  | idle => simp [at_] at run
  | returned => simp [at_] at run
  | _ =>
    simp only [at_] at run
    obtain rfl := Option.some.inj run
    cases h

/-- In every order of the accesses of pushes and pops: what is popped is a prefix of what is
accepted, at most the capacity behind it; a slot is empty when it is written and holds
an item when it is read; an item is handed back only by a full ring; and a ring between
calls drops the items accepted and not popped. -/
theorem spsc_bounded_fifo (h : (SpscRing.machine α capacity).Reach Always s) :
    s.popped <+: s.accepted ∧
    s.accepted.length ≤ s.popped.length + capacity.toNat ∧
    (∀ item head, s.producer = .writeSlot item head → s.buf[s.index head]? = some none) ∧
    (∀ tail, s.consumer = .readSlot tail → ∃ item, s.buf[s.index tail]? = some (some item)) ∧
    (∀ t item, s.push = some t → t.producer = .returned (.error item) →
      s.accepted.length = s.popped.length + capacity.toNat) ∧
    (s.betweenPushes → s.betweenPops → s.drop = s.accepted.drop s.popped.length) := by
  obtain ⟨k, power, inv⟩ := reach_inv h
  have size : s.buf.size = capacity.toNat := inv.size.trans power.symm
  refine ⟨inv.popped, size ▸ inv.room, ?_, ?_, ?_, fun _ idle => drop_eq h idle⟩
  · intro item head at_
    have knows := inv.producer
    rw [at_] at knows
    rw [knows.1, inv.slot_head (by rw [at_]; rfl) knows.2]
  · intro tail at_
    have knows := inv.consumer
    rw [at_] at knows
    rw [knows.1]
    exact ⟨_, inv.slot_tail (by rw [at_]; rfl) knows.2⟩
  · intro t item run returned
    obtain ⟨head, at_, full⟩ := SpscRing.push_error run returned
    have knows := inv.producer
    rw [at_] at knows
    rw [← size, ← inv.full_iff, ← full, knows]

theorem spsc_bounded_fifo_pair : ∃ s, (SpscRing.machine ℕ 2).Reach Always s ∧
    s.accepted = [10, 20] ∧ s.popped = [10] ∧ s.drop = [20] := by
  have start : (SpscRing.machine ℕ 2).Reach Always
      ⟨0, 0, #[none, none], 1, .idle, .idle, [], []⟩ := .start rfl
  have run : (SpscRing.machine ℕ 2).runs ⟨0, 0, #[none, none], 1, .idle, .idle, [], []⟩
      [.callPush 10, .push, .push, .push, .push, .callPush 20, .push, .push, .push, .push,
        .callPop, .pop, .pop, .pop, .pop] =
      some ⟨2, 1, #[none, some 20], 1, .returned (.ok ()), .returned (some 10), [10, 20], [10]⟩ :=
    rfl
  have reach := start.runs run
  obtain ⟨-, -, -, -, -, dropped⟩ := spsc_bounded_fifo reach
  exact ⟨_, reach, rfl, rfl, dropped rfl rfl⟩

end BypassIo.Ring.Spsc
