import Mathlib.Data.List.Infix
import BypassIo.Library.Counter
import BypassIo.Library.Window
import BypassIo.Ring.Mpsc

/-!
# The multi-producer single-consumer ring is a bounded queue

The reservations are a list. What a slot holds follows from how far the producer of its
reservation and the consumer got, and the slots are a window onto that from the first
reservation not released by the consumer.
-/

namespace BypassIo.Ring.Mpsc

universe u v

open RingBuffer (Window)

variable {P : Type v} {α : Type u} {capacity head tail : UInt64} {s t : MpscRing P α}
variable {item : α} {p q : P} {k n i size place : Nat} {log reserved : List (P × α)}
variable {producer : P → PushState α}

/-! ## What is in a slot -/

/-- The slot reserved for an item at a place, as far as its producer got. -/
def PushState.slotAt (i : Nat) (item : α) : PushState α → Slot α
  | .writeSlot _ _ place => if place = i then ⟨false, none⟩ else ⟨true, some item⟩
  | .storeReady _ _ place => if place = i then ⟨false, some item⟩ else ⟨true, some item⟩
  | _ => ⟨true, some item⟩

/-- The item reserved for and not yet published. -/
def PushState.inFlight : PushState α → List α
  | .writeSlot item _ _ | .storeReady item _ _ => [item]
  | _ => []

/-- What the consumer leaves in the slot it is at. -/
def PopState.view : PopState α → Slot α → Slot α
  | .clearReady _ _, slot => { slot with value := none }
  | .storeTail _ _, _ => .uninit
  | _, slot => slot

theorem PushState.slotAt_of_between {x : PushState α} (h : x.between) (i : Nat) (item : α) :
    x.slotAt i item = ⟨true, some item⟩ := by
  cases x <;> first | rfl | cases h

theorem PushState.inFlight_of_between {x : PushState α} (h : x.between) : x.inFlight = [] := by
  cases x <;> first | rfl | cases h

theorem PopState.view_of_between {c : PopState α} (h : c.between) (slot : Slot α) :
    c.view slot = slot := by
  cases c <;> first | rfl | cases h

/-- The slot of a place as the producers leave it. -/
def filled (reserved : List (P × α)) (producer : P → PushState α) (i : Nat) : Slot α :=
  match reserved[i]? with
  | none => .uninit
  | some (p, item) => (producer p).slotAt i item

theorem filled_none (le : reserved.length ≤ i) : filled reserved producer i = .uninit := by
  rw [filled, List.getElem?_eq_none le]

theorem filled_some (at_ : reserved[i]? = some (p, item)) :
    filled reserved producer i = (producer p).slotAt i item := by
  rw [filled, at_]

theorem filled_append (lt : i < reserved.length) (e : P × α) :
    filled (reserved ++ [e]) producer i = filled reserved producer i := by
  rw [filled, filled, List.getElem?_append_left lt]

/-- A producer changes no slot but its own. -/
theorem filled_update [DecidableEq P] {x : PushState α}
    (same : ∀ item, x.slotAt i item = (producer p).slotAt i item) :
    filled reserved (Function.update producer p x) i = filled reserved producer i := by
  unfold filled
  split
  · rfl
  · next q item _ =>
    by_cases own : q = p
    · rw [own, Function.update_self, same]
    · rw [Function.update_of_ne own]

/-- The slot of a place. -/
def MpscRing.stream (s : MpscRing P α) (i : Nat) : Slot α :=
  if i = s.popped.length then s.consumer.view (filled s.reserved s.producer i)
  else filled s.reserved s.producer i

/-- A slot is ready with the item it was reserved for. -/
theorem filled_ready (h : (filled reserved producer i).ready) :
    ∃ p item, reserved[i]? = some (p, item) ∧
      filled reserved producer i = ⟨true, some item⟩ := by
  unfold filled at h ⊢
  cases at_ : reserved[i]? with
  | none => simp [at_, Slot.uninit] at h
  | some entry =>
    obtain ⟨p, item⟩ := entry
    refine ⟨p, item, rfl, ?_⟩
    simp only [at_] at h ⊢
    cases here : producer p <;> simp_all [PushState.slotAt] <;> grind

/-! ## What each side knows -/

def PushState.Knows (p : P) (reserved : List (P × α)) (popped size : Nat) : PushState α → Prop
  | .loadTail _ head seen => head = UInt64.ofNat seen ∧ seen ≤ reserved.length
  | .exchange _ head seen => head = UInt64.ofNat seen ∧ seen ≤ reserved.length ∧
    (seen = reserved.length → seen < popped + size)
  | .writeSlot item head place | .storeReady item head place =>
    head = UInt64.ofNat place ∧ popped ≤ place ∧ reserved[place]? = some (p, item)
  | _ => True

def PopState.Knows (tail : UInt64) (popped reserved : Nat) (next : Slot α) : PopState α → Prop
  | .loadHead seen => seen = tail
  | .loadReady seen => seen = tail ∧ popped < reserved
  | .readSlot seen => seen = tail ∧ next.ready
  | .clearReady item seen | .storeTail item seen => seen = tail ∧ next = ⟨true, some item⟩
  | _ => True

/-- What the consumer found ready stays. -/
theorem PopState.Knows.stable {c : PopState α} {m m' : Nat} {next next' : Slot α}
    (h : c.Knows tail n m next) (le : m ≤ m') (stays : next.ready → next' = next) :
    c.Knows tail n m' next' := by
  cases c with
  | loadReady seen => exact ⟨h.1, h.2.trans_le le⟩
  | readSlot seen => exact ⟨h.1, stays h.2 ▸ h.2⟩
  | clearReady item seen | storeTail item seen =>
    exact ⟨h.1, (stays (by rw [h.2])).trans h.2⟩
  | _ => exact h

/-- A reservation by any producer. -/
theorem PushState.Knows.reserve {x : PushState α} (h : x.Knows p log n size) (e : P × α) :
    x.Knows p (log ++ [e]) n size := by
  cases x <;> simp only [PushState.Knows] at h ⊢ <;> grind

/-- The consumer releases a slot it found ready, so no producer is at it. -/
theorem PushState.Knows.release (h : (producer p).Knows p log n size)
    (ready : (filled log producer n).ready) : (producer p).Knows p log (n + 1) size := by
  cases at_ : producer p with
  | writeSlot item head place | storeReady item head place =>
    rw [at_] at h
    obtain ⟨current, le, reserved⟩ := h
    have elsewhere : place ≠ n := by
      rintro rfl
      simp [filled_some reserved, at_, PushState.slotAt] at ready
    exact ⟨current, by omega, reserved⟩
  | exchange item head seen =>
    rw [at_] at h
    exact ⟨h.1, h.2.1, fun same => by have := h.2.2 same; omega⟩
  | _ =>
    rw [at_] at h
    exact h

/-! ## The invariant -/

/-- The items of one producer in a log. -/
def itemsOf [DecidableEq P] (p : P) (log : List (P × α)) : List α :=
  (log.filter (·.1 = p)).map (·.2)

@[simp, grind =] theorem itemsOf_append [DecidableEq P] (log log' : List (P × α)) :
    itemsOf p (log ++ log') = itemsOf p log ++ itemsOf p log' := by
  simp [itemsOf]

@[simp, grind =] theorem itemsOf_singleton [DecidableEq P] :
    itemsOf p [(q, item)] = if q = p then [item] else [] := by
  by_cases same : q = p <;> simp [itemsOf, same]

structure Inv [DecidableEq P] (k : Nat) (s : MpscRing P α) : Prop where
  small : k < 64
  size : s.slots.size = 2 ^ k
  mask : s.mask = UInt64.ofNat (2 ^ k) - 1
  head : s.head = UInt64.ofNat s.reserved.length
  tail : s.tail = UInt64.ofNat s.popped.length
  popped : s.popped <+: s.reserved.map Prod.snd
  room : s.reserved.length ≤ s.popped.length + s.slots.size
  accepted : ∀ p, itemsOf p s.accepted ++ (s.producer p).inFlight = itemsOf p s.reserved
  producers : ∀ p, (s.producer p).Knows p s.reserved s.popped.length s.slots.size
  consumer : s.consumer.Knows s.tail s.popped.length s.reserved.length
    (filled s.reserved s.producer s.popped.length)
  window : Window s.slots s.stream s.popped.length

namespace Inv

variable [DecidableEq P]

theorem index_ofNat (h : Inv k s) (n : Nat) :
    s.index (UInt64.ofNat n) = n % s.slots.size := by
  rw [MpscRing.index, h.mask, h.size, Counter.toNat_and_mask h.small]

theorem size_lt (h : Inv k s) : s.slots.size < 2 ^ 64 := by
  rw [h.size]
  exact Nat.pow_lt_pow_right (by decide) h.small

theorem size_pos (h : Inv k s) : 0 < s.slots.size := by
  rw [h.size]
  exact Nat.two_pow_pos k

theorem popped_le (h : Inv k s) : s.popped.length ≤ s.reserved.length := by
  simpa using h.popped.length_le

/-- A place that a producer is at is not one that the consumer found ready. -/
theorem view_filled (h : Inv k s) (unready : (filled s.reserved s.producer i).ready = false)
    (here : i = s.popped.length) (slot : Slot α) : s.consumer.view slot = slot := by
  have knows := h.consumer
  subst here
  cases at_ : s.consumer <;> simp only [at_, PopState.Knows] at knows <;>
    first | rfl | simp [knows.2] at unready

theorem stream_eq (h : Inv k s) (unready : (filled s.reserved s.producer i).ready = false) :
    s.stream i = filled s.reserved s.producer i := by
  unfold MpscRing.stream
  split
  · next here => exact h.view_filled unready here _
  · rfl

/-- A producer that is at no slot before and after moves on. -/
theorem moveTo (h : Inv k s) {x : PushState α}
    (same : ∀ i item, x.slotAt i item = (s.producer p).slotAt i item)
    (none : x.inFlight = (s.producer p).inFlight)
    (knows : x.Knows p s.reserved s.popped.length s.slots.size) : Inv k (s.moveTo p x) := by
  have filled_eq : filled (s.moveTo p x).reserved (s.moveTo p x).producer =
      filled s.reserved s.producer :=
    funext fun i => filled_update (same i)
  have stream_eq : (s.moveTo p x).stream = s.stream := by
    unfold MpscRing.stream
    rw [filled_eq]
    rfl
  exact { h with
    accepted := fun q => by
      by_cases own : q = p
      · subst own
        simpa [MpscRing.moveTo, none] using h.accepted q
      · simpa [MpscRing.moveTo, own] using h.accepted q
    producers := fun q => by
      by_cases own : q = p
      · subst own
        simpa [MpscRing.moveTo] using knows
      · simpa [MpscRing.moveTo, own] using h.producers q
    consumer := by
      rw [filled_eq]
      exact h.consumer
    window := by
      rw [stream_eq]
      exact h.window }

/-- A producer changes the slot it reserved and moves on. -/
theorem modify (h : Inv k s) {x : PushState α} {change : Slot α → Slot α}
    (at_ : s.reserved[place]? = some (p, item)) (le : s.popped.length ≤ place)
    (unready : ((s.producer p).slotAt place item).ready = false)
    (changed : x.slotAt place item = change ((s.producer p).slotAt place item))
    (others : ∀ i, i ≠ place → ∀ item, x.slotAt i item = (s.producer p).slotAt i item)
    (knows : x.Knows p s.reserved s.popped.length s.slots.size) (log : List (P × α))
    (accepted : ∀ q, itemsOf q log ++ ((s.moveTo p x).producer q).inFlight =
      itemsOf q s.reserved) :
    Inv k { s.moveTo p x with
      slots := s.slots.modify (s.index (UInt64.ofNat place)) change
      accepted := log } := by
  obtain ⟨lt, _⟩ := List.getElem?_eq_some_iff.mp at_
  have room := h.room
  have before : filled s.reserved s.producer place = (s.producer p).slotAt place item :=
    filled_some at_
  have after : filled s.reserved (Function.update s.producer p x) place =
      change (filled s.reserved s.producer place) := by
    rw [filled_some at_, Function.update_self, changed, before]
  have elsewhere : ∀ i, i ≠ place → filled s.reserved (Function.update s.producer p x) i =
      filled s.reserved s.producer i := fun i ne => filled_update (others i ne)
  have window := h.window.modify le (by omega) change
  rw [← h.index_ofNat, h.stream_eq (by rw [before, unready])] at window
  exact { h with
    size := Array.size_modify.trans h.size
    room := by simpa [MpscRing.moveTo] using h.room
    accepted := accepted
    producers := fun q => by
      by_cases own : q = p
      · subst own
        simpa [MpscRing.moveTo] using knows
      · simpa [MpscRing.moveTo, own] using h.producers q
    consumer := h.consumer.stable le_rfl fun ready => by
      apply elsewhere
      intro (same : s.popped.length = place)
      rw [same, before, unready] at ready
      cases ready
    window := window.congr fun i _ _ => by
      by_cases here : i = place
      · subst here
        rw [Function.update_self, ← after]
        unfold MpscRing.stream
        split
        · next first => exact (h.view_filled (by rw [before, unready]) first _).symm
        · rfl
      · rw [Function.update_of_ne here]
        simp only [MpscRing.stream, MpscRing.moveTo, elsewhere i here] }

/-- A reservation leaves every slot as it is. -/
theorem filled_reserve {head : UInt64} {seen : Nat}
    (at_ : s.producer p = .exchange item head seen) (i : Nat) :
    filled (s.reserved ++ [(p, item)])
      (Function.update s.producer p (.writeSlot item s.head s.reserved.length)) i =
    filled s.reserved s.producer i := by
  rcases Nat.lt_trichotomy i s.reserved.length with lt | rfl | gt
  · rw [filled_append lt]
    apply filled_update
    intro item'
    simp [PushState.slotAt, at_, Nat.ne_of_gt lt]
  · rw [filled_none le_rfl, filled_some (List.getElem?_concat_length ..), Function.update_self]
    simp [PushState.slotAt, Slot.uninit]
  · rw [filled_none (by simp; omega), filled_none gt.le]

theorem reserve (h : Inv k s) {head : UInt64} {seen : Nat}
    (at_ : s.producer p = .exchange item head seen)
    (space : s.reserved.length < s.popped.length + s.slots.size) :
    Inv k { s.moveTo p (.writeSlot item s.head s.reserved.length) with
      head := s.head + 1
      reserved := s.reserved ++ [(p, item)] } := by
  have same := filled_reserve at_
  exact { h with
    head := by simp [h.head, UInt64.ofNat_add]
    popped := by
      rw [List.map_append]
      exact h.popped.trans (List.prefix_append _ _)
    room := by
      rw [List.length_append]
      exact space
    accepted := fun q => by
      have accepted := h.accepted q
      by_cases own : q = p
      · subst own
        simpa [MpscRing.moveTo, PushState.inFlight, at_] using accepted
      · simpa [MpscRing.moveTo, own, Ne.symm own] using accepted
    producers := fun q => by
      by_cases own : q = p
      · subst own
        simpa [MpscRing.moveTo, PushState.Knows, h.head] using h.popped_le
      · simpa [MpscRing.moveTo, own] using (h.producers q).reserve _
    consumer := h.consumer.stable (by simp) fun _ => same _
    window := by
      have stream_eq : MpscRing.stream { s.moveTo p (.writeSlot item s.head s.reserved.length) with
          head := s.head + 1
          reserved := s.reserved ++ [(p, item)] } = s.stream := by
        funext i
        simp only [MpscRing.stream, MpscRing.moveTo, same i]
      rw [stream_eq]
      exact h.window }

/-- What the check of `push` says of a `head` loaded earlier. -/
theorem full_of_check (h : Inv k s) {seen : Nat} (le : seen ≤ s.reserved.length)
    (awake : s.reserved.length < seen + 2 ^ 64)
    (check : UInt64.ofNat seen - s.tail = s.capacity) :
    s.Full ∨ s.popped.length = seen + 2 ^ 64 - s.slots.size := by
  have popped := h.popped_le
  have room := h.room
  have small := h.size_lt
  rw [MpscRing.capacity, h.tail] at check
  rcases Nat.le_total s.popped.length seen with ahead | behind
  · rw [Counter.sub_eq_ofNat ahead (by omega) small] at check
    left
    unfold MpscRing.Full
    omega
  · right
    have same : UInt64.ofNat seen = UInt64.ofNat (s.popped.length + s.slots.size) := by
      rw [UInt64.ofNat_add, ← check, UInt64.add_comm, UInt64.sub_add_cancel]
    have turn := congrArg UInt64.toNat same
    simp only [UInt64.toNat_ofNat'] at turn
    have := h.size_pos
    omega

/-- A producer that did not sleep through a turn of `head` finds a free slot, or its exchange
fails. -/
theorem spare (h : Inv k s) (awake : s.Awake) (e : Event P α) : s.Spare e := by
  cases e with
  | push p spurious =>
    intro item head seen at_ current _ full
    have knows := h.producers p
    rw [at_] at knows
    obtain ⟨rfl, le, space⟩ := knows
    have same : s.reserved.length = seen := by
      rw [← Counter.ofNat_inj le (awake p item _ seen (.inr at_)), ← h.head, current]
    have free := space same.symm
    unfold MpscRing.Full at full
    omega
  | callPush | callPop | pop => trivial

theorem push (h : Inv k s) {spurious : Bool} (spare : s.Spare (.push p spurious))
    (run : s.push p spurious = some t) : Inv k t := by
  unfold MpscRing.push at run
  have knows := h.producers p
  cases at_ : s.producer p with
  | idle => simp [at_] at run
  | returned result => simp [at_] at run
  | loadHead item =>
    simp only [at_] at run
    obtain rfl := Option.some.inj run
    exact h.moveTo (by rw [at_]; exact fun _ _ => rfl) (by rw [at_]; rfl) ⟨h.head, le_rfl⟩
  | loadTail item head seen =>
    simp only [at_] at run knows
    obtain ⟨rfl, le⟩ := knows
    split at run
    · obtain rfl := Option.some.inj run
      exact h.moveTo (by rw [at_]; exact fun _ _ => rfl) (by rw [at_]; rfl) trivial
    · next check =>
      obtain rfl := Option.some.inj run
      refine h.moveTo (by rw [at_]; exact fun _ _ => rfl) (by rw [at_]; rfl) ⟨rfl, le, ?_⟩
      rintro rfl
      have room := h.room
      have small := h.size_lt
      rw [MpscRing.capacity, h.tail, Counter.sub_eq_ofNat h.popped_le (by omega) small] at check
      omega
  | exchange item head seen =>
    simp only [at_] at run
    split at run
    · next taken =>
      obtain rfl := Option.some.inj run
      have free := spare item head seen at_ taken.1 taken.2
      have room := h.room
      have reserved := h.reserve at_ (by unfold MpscRing.Full at free; omega)
      rwa [taken.1] at reserved
    · obtain rfl := Option.some.inj run
      exact h.moveTo (by rw [at_]; exact fun _ _ => rfl) (by rw [at_]; rfl) ⟨h.head, le_rfl⟩
  | writeSlot item head place =>
    simp only [at_] at run knows
    obtain ⟨rfl, le, reserved⟩ := knows
    obtain rfl := Option.some.inj run
    apply h.modify (x := .storeReady item (UInt64.ofNat place) place) reserved le
    · simp [at_, PushState.slotAt]
    · simp [at_, PushState.slotAt]
    · intro i ne item'
      simp [at_, PushState.slotAt, ne.symm]
    · exact ⟨rfl, le, reserved⟩
    · intro q
      by_cases own : q = p
      · subst own
        simpa [MpscRing.moveTo, PushState.inFlight, at_] using h.accepted q
      · simpa [MpscRing.moveTo, own] using h.accepted q
  | storeReady item head place =>
    simp only [at_] at run knows
    obtain ⟨rfl, le, reserved⟩ := knows
    obtain rfl := Option.some.inj run
    apply h.modify (x := .returned (.ok ())) reserved le
    · simp [at_, PushState.slotAt]
    · simp [at_, PushState.slotAt]
    · intro i ne item'
      simp [at_, PushState.slotAt, ne.symm]
    · trivial
    · intro q
      by_cases own : q = p
      · subst own
        simpa [MpscRing.moveTo, at_, PushState.inFlight] using h.accepted q
      · simpa [MpscRing.moveTo, own, Ne.symm own] using h.accepted q

/-- The slot the consumer is at. -/
theorem slot_tail (h : Inv k s) :
    s.slots[s.index s.tail]? =
      some (s.consumer.view (filled s.reserved s.producer s.popped.length)) := by
  have cell := h.window s.popped.length le_rfl (by have := h.size_pos; omega)
  rw [MpscRing.stream, if_pos rfl] at cell
  rw [h.tail, h.index_ofNat, cell]

/-- The consumer changes the slot it is at and moves on. -/
theorem consume (h : Inv k s) {c : PopState α} {change : Slot α → Slot α}
    (changed : ∀ slot, c.view slot = change (s.consumer.view slot))
    (knows : c.Knows s.tail s.popped.length s.reserved.length
      (filled s.reserved s.producer s.popped.length)) :
    Inv k { s with slots := s.slots.modify (s.index s.tail) change, consumer := c } := by
  have window := h.window.modify le_rfl (by have := h.size_pos; omega) change
  rw [← h.index_ofNat, ← h.tail] at window
  exact { h with
    size := Array.size_modify.trans h.size
    room := by simpa using h.room
    producers := by simpa using h.producers
    consumer := knows
    window := window.congr fun i _ _ => by
      by_cases here : i = s.popped.length
      · subst here
        simp [MpscRing.stream, changed]
      · rw [Function.update_of_ne here]
        simp [MpscRing.stream, here] }

/-- The consumer gives its slot back. -/
theorem release (h : Inv k s) (at_ : s.consumer = .storeTail item s.tail)
    (full : filled s.reserved s.producer s.popped.length = ⟨true, some item⟩) :
    Inv k { s with
      tail := s.tail + 1
      consumer := .returned (some item)
      popped := s.popped ++ [item] } := by
  have room := h.room
  have ready : (filled s.reserved s.producer s.popped.length).ready := by rw [full]
  obtain ⟨p, item', next, same⟩ := filled_ready ready
  obtain rfl : item' = item := by simpa [full] using same.symm
  obtain ⟨lt, entry⟩ := List.getElem?_eq_some_iff.mp next
  have longer : s.popped ++ [item'] <+: s.reserved.map Prod.snd := by
    have extended := List.concat_get_prefix h.popped (by simpa using lt)
    simpa [entry] using extended
  have lap : s.stream (s.popped.length + s.slots.size) = s.stream s.popped.length := by
    have := h.size_pos
    rw [MpscRing.stream, if_neg (by omega), filled_none room, MpscRing.stream, if_pos rfl, at_]
    rfl
  exact { h with
    tail := by simp [h.tail, UInt64.ofNat_add]
    popped := longer
    room := by simp; omega
    producers := fun q => by simpa using (h.producers q).release ready
    consumer := trivial
    window := by
      rw [List.length_append]
      refine (h.window.advance lap).congr fun i le _ => ?_
      rw [MpscRing.stream, if_neg (by omega), MpscRing.stream]
      split <;> rfl }

theorem pop (h : Inv k s) (run : s.pop = some t) : Inv k t := by
  unfold MpscRing.pop at run
  have knows := h.consumer
  have slot := h.slot_tail
  have window := h.window
  have popped_le := h.popped_le
  unfold MpscRing.stream at window
  cases at_ : s.consumer with
  | idle => simp [at_] at run
  | returned item => simp [at_] at run
  | loadTail =>
    simp only [at_] at run window
    obtain rfl := Option.some.inj run
    exact { h with consumer := rfl, window }
  | loadHead tail =>
    simp only [at_] at run knows window
    split at run
    · obtain rfl := Option.some.inj run
      exact { h with consumer := trivial, window }
    · next unequal =>
      obtain rfl := Option.some.inj run
      have filled : s.popped.length < s.reserved.length := by
        rcases Nat.lt_or_eq_of_le popped_le with lt | same
        · exact lt
        · rw [knows, h.tail, h.head, same] at unequal
          exact absurd rfl unequal
      exact { h with consumer := ⟨knows, filled⟩, window }
  | loadReady tail =>
    simp only [at_] at run knows window slot
    obtain ⟨rfl, filled⟩ := knows
    rw [slot] at run
    simp only at run
    split at run
    · next ready =>
      obtain rfl := Option.some.inj run
      exact { h with consumer := ⟨rfl, ready⟩, window }
    · obtain rfl := Option.some.inj run
      exact { h with consumer := trivial, window }
  | readSlot tail =>
    simp only [at_] at run knows slot
    obtain ⟨rfl, ready⟩ := knows
    obtain ⟨p, item, _, full⟩ := filled_ready ready
    rw [slot, full] at run
    obtain rfl := Option.some.inj run
    exact h.consume (by rw [at_]; exact fun _ => rfl) ⟨rfl, full⟩
  | clearReady item tail =>
    simp only [at_] at run knows
    obtain ⟨rfl, full⟩ := knows
    obtain rfl := Option.some.inj run
    exact h.consume (by rw [at_]; exact fun _ => rfl) ⟨rfl, full⟩
  | storeTail item tail =>
    simp only [at_] at run knows
    obtain ⟨rfl, full⟩ := knows
    obtain rfl := Option.some.inj run
    exact h.release at_ full

theorem step {e : Event P α} (h : Inv k s) (spare : s.Spare e) (run : s.step e = some t) :
    Inv k t := by
  cases e with
  | push p spurious => exact h.push spare run
  | pop => exact h.pop run
  | callPush p item =>
    obtain ⟨idle, run⟩ := Option.ite_none_right_eq_some.mp run
    obtain rfl := Option.some.inj run
    exact h.moveTo (fun _ _ => (PushState.slotAt_of_between idle _ _).symm)
      (PushState.inFlight_of_between idle).symm trivial
  | callPop =>
    obtain ⟨idle, run⟩ := Option.ite_none_right_eq_some.mp run
    obtain rfl := Option.some.inj run
    exact { h with
      consumer := trivial
      window := h.window.congr fun i _ _ => by
        simp only [MpscRing.stream, PopState.view_of_between idle]
        rfl }

end Inv

theorem MpscRing.new_inv [DecidableEq P] (h : MpscRing.new capacity = some s) :
    ∃ k, capacity.toNat = 2 ^ k ∧ Inv k s := by
  unfold MpscRing.new at h
  obtain ⟨⟨k, power⟩, h⟩ := Option.ite_none_right_eq_some.mp h
  obtain ⟨_, h⟩ := Option.ite_none_right_eq_some.mp h
  obtain rfl := Option.some.inj h
  refine ⟨k, power, ?_, ?_, ?_, rfl, rfl, List.prefix_rfl, Nat.zero_le _, fun _ => rfl,
    fun _ => trivial, trivial, ?_⟩
  · exact (Nat.pow_lt_pow_iff_right (by decide)).mp (power ▸ capacity.toNat_lt)
  · exact Array.size_replicate.trans power
  · rw [← power, UInt64.ofNat_toNat]
  · intro i _ lt
    have bound : i % capacity.toNat < capacity.toNat :=
      Nat.mod_lt i (power ▸ Nat.two_pow_pos k)
    simp [MpscRing.stream, filled, PopState.view, bound]

theorem reach_inv [DecidableEq P]
    (h : (MpscRing.machine P α capacity).Reach (fun s _ => s.Awake) s) :
    ∃ k, capacity.toNat = 2 ^ k ∧ Inv k s := by
  apply h.invariant
  · exact fun s => MpscRing.new_inv
  · rintro s e t ⟨k, power, inv⟩ awake run
    exact ⟨k, power, inv.step (inv.spare awake e) run⟩

/-! ## Dropping the ring -/

theorem Inv.drop_perm [DecidableEq P] (h : Inv k s) (quiet : s.Quiet) :
    s.drop.Perm ((s.reserved.drop s.popped.length).map fun e => some e.2) := by
  obtain ⟨producers, consumer⟩ := quiet
  have popped_le := h.popped_le
  have room := h.room
  have stream_eq : ∀ i, s.stream i = match s.reserved[i]? with
      | none => .uninit
      | some e => ⟨true, some e.2⟩ := by
    intro i
    simp only [MpscRing.stream, PopState.view_of_between consumer, ite_self, filled,
      PushState.slotAt_of_between (producers _)]
    cases s.reserved[i]? <;> rfl
  have slots : (List.range s.slots.size).map (fun i => s.stream (s.popped.length + i)) =
      (s.reserved.drop s.popped.length).map (fun e => (⟨true, some e.2⟩ : Slot α)) ++
        List.replicate (s.slots.size - (s.reserved.length - s.popped.length)) Slot.uninit := by
    apply List.ext_getElem?
    intro i
    simp only [stream_eq, List.getElem?_map, List.getElem?_append, List.getElem?_drop,
      List.getElem?_replicate, List.length_map, List.length_drop]
    grind
  have order := (h.window.perm.filter (·.ready)).map (·.value)
  rw [slots] at order
  refine order.trans (List.Perm.of_eq ?_)
  rw [List.filter_append, List.filter_map]
  simp [Slot.uninit, Function.comp_def]

/-! ## Short runs -/

theorem MpscRing.step_reserved_le [DecidableEq P] {e : Event P α} (run : s.step e = some t) :
    s.reserved.length ≤ t.reserved.length := by
  cases e with
  | callPush p item => grind [MpscRing.step, MpscRing.moveTo]
  | push p spurious => grind [MpscRing.step, MpscRing.push, MpscRing.moveTo]
  | callPop => grind [MpscRing.step]
  | pop => grind [MpscRing.step, MpscRing.pop]

/-- A run of fewer reservations than a turn has no producer that slept through one. -/
theorem reach_awake [DecidableEq P] {start : MpscRing P α → Prop}
    {allowed : MpscRing P α → Event P α → Prop}
    (h : Machine.Reach ⟨start, MpscRing.step⟩ allowed s) (short : s.reserved.length < 2 ^ 64) :
    Machine.Reach ⟨start, MpscRing.step⟩ (fun s e => s.Awake ∧ allowed s e) s := by
  induction h with
  | start h => exact .start h
  | step _ ok run ih =>
    have le := MpscRing.step_reserved_le run
    refine (ih (by omega)).step ⟨?_, ok⟩ run
    intro p item head seen _
    omega

/-! ## The queue -/

theorem Inv.slot_free [DecidableEq P] (h : Inv k s)
    (at_ : s.producer p = .writeSlot item head place) :
    s.slots[s.index head]? = some .uninit := by
  have knows := h.producers p
  rw [at_] at knows
  obtain ⟨rfl, le, reserved⟩ := knows
  have empty : filled s.reserved s.producer place = .uninit := by
    rw [filled_some reserved, at_]
    simp [PushState.slotAt, Slot.uninit]
  have lt := (List.getElem?_eq_some_iff.mp reserved).1
  have cell := h.window place le (by have := h.room; omega)
  rw [h.index_ofNat, cell, h.stream_eq (by rw [empty]; rfl), empty]

theorem Inv.slot_filled [DecidableEq P] (h : Inv k s) (at_ : s.consumer = .readSlot tail) :
    ∃ item, s.slots[s.index tail]? = some ⟨true, some item⟩ := by
  have knows := h.consumer
  have slot := h.slot_tail
  rw [at_] at knows slot
  obtain ⟨rfl, ready⟩ := knows
  obtain ⟨p, item, _, full⟩ := filled_ready ready
  exact ⟨item, by rw [slot, full]; rfl⟩

theorem MpscRing.push_error [DecidableEq P] {spurious : Bool} (run : s.push p spurious = some t)
    (h : t.producer p = .returned (.error item)) :
    ∃ head seen, s.producer p = .loadTail item head seen ∧ head - s.tail = s.capacity := by
  unfold MpscRing.push at run
  cases at_ : s.producer p with
  | loadTail item' head seen =>
    simp only [at_] at run
    split at run
    · next full =>
      obtain rfl := Option.some.inj run
      obtain rfl : item' = item := by simpa [MpscRing.moveTo] using h
      exact ⟨head, seen, rfl, full⟩
    · obtain rfl := Option.some.inj run
      simp [MpscRing.moveTo] at h
  | exchange item' head seen =>
    simp only [at_] at run
    split at run <;> obtain rfl := Option.some.inj run <;> simp [MpscRing.moveTo] at h
  | idle => simp [at_] at run
  | returned => simp [at_] at run
  | _ =>
    simp only [at_] at run
    obtain rfl := Option.some.inj run
    simp [MpscRing.moveTo] at h

/-- In every order of the accesses of pushes and pops by producers that do not sleep through a
turn of `head`: what is popped is a prefix of the reservations, at most the capacity behind
them; the reservations of a producer are its accepted items and then the one it is filling;
a slot is empty when it is written and holds an item when it is read; an item is handed back
only by a full ring, or where the consumer passed the `head` the producer had loaded by a
turn less the capacity; and a ring between calls drops the items reserved and not popped. -/
theorem mpsc_bounded_fifo [DecidableEq P]
    (h : (MpscRing.machine P α capacity).Reach (fun s _ => s.Awake) s) (awake : s.Awake) :
    s.popped <+: s.reserved.map Prod.snd ∧
    s.reserved.length ≤ s.popped.length + capacity.toNat ∧
    (∀ p, itemsOf p s.accepted ++ (s.producer p).inFlight = itemsOf p s.reserved) ∧
    (∀ p item head place, s.producer p = .writeSlot item head place →
      s.slots[s.index head]? = some .uninit) ∧
    (∀ tail, s.consumer = .readSlot tail →
      ∃ item, s.slots[s.index tail]? = some ⟨true, some item⟩) ∧
    (∀ p spurious t item, s.push p spurious = some t →
      t.producer p = .returned (.error item) →
      s.reserved.length = s.popped.length + capacity.toNat ∨
      ∃ head seen, s.producer p = .loadTail item head seen ∧
        s.popped.length = seen + 2 ^ 64 - capacity.toNat) ∧
    (s.Quiet → s.drop.Perm ((s.reserved.drop s.popped.length).map fun e => some e.2)) := by
  obtain ⟨k, power, inv⟩ := reach_inv h
  have size : s.slots.size = capacity.toNat := inv.size.trans power.symm
  refine ⟨inv.popped, size ▸ inv.room, inv.accepted, fun _ _ _ _ => inv.slot_free,
    fun _ => inv.slot_filled, ?_, inv.drop_perm⟩
  intro p spurious t item run returned
  obtain ⟨head, seen, at_, check⟩ := MpscRing.push_error run returned
  have knows := inv.producers p
  rw [at_] at knows
  obtain ⟨rfl, le⟩ := knows
  rcases inv.full_of_check le (awake p item _ seen (.inl at_)) check with full | passed
  · exact .inl (size ▸ full)
  · exact .inr ⟨_, seen, at_, size ▸ passed⟩

theorem update_true {β : Type*} (f : Bool → β) (b : β) :
    Function.update f true b = fun p => if p then b else f false := by
  funext p
  cases p <;> rfl

theorem update_false {β : Type*} (f : Bool → β) (b : β) :
    Function.update f false b = fun p => if p then f true else b := by
  funext p
  cases p <;> rfl

theorem mpsc_bounded_fifo_two : ∃ s : MpscRing Bool ℕ,
    (MpscRing.machine Bool ℕ 2).Reach (fun s _ => s.Awake) s ∧ s.Quiet ∧
    s.reserved = [(false, 1), (true, 2)] ∧ s.accepted = [(true, 2), (false, 1)] ∧
    s.popped = [1] ∧ s.drop.Perm [some 2] := by
  have start : (MpscRing.machine Bool ℕ 2).Reach Machine.Always
      ⟨0, 0, #[.uninit, .uninit], 1, fun _ => .idle, .idle, [], [], []⟩ := .start rfl
  have run : (MpscRing.machine Bool ℕ 2).runs
      ⟨0, 0, #[.uninit, .uninit], 1, fun _ => .idle, .idle, [], [], []⟩
      [.callPush false 1, .push false false, .push false false, .push false false,
        .callPush true 2, .push true false, .push true false, .push true true, .push true false,
        .push true false, .push true false, .push true false, .push false false,
        .push false false, .callPop, .pop, .pop, .pop, .pop, .pop, .pop] =
      some ⟨2, 1, #[.uninit, ⟨true, some 2⟩], 1, fun _ => .returned (.ok ()),
        .returned (some 1), [(false, 1), (true, 2)], [(true, 2), (false, 1)], [1]⟩ := by
    simp [Machine.runs, MpscRing.machine, MpscRing.step, PushState.between, PopState.between,
      MpscRing.moveTo, MpscRing.push, MpscRing.pop, MpscRing.index, MpscRing.capacity,
      update_true, update_false, Slot.uninit]
  have reach := (reach_awake (start.runs run) (by decide)).mono fun _ _ h => h.1
  have quiet : MpscRing.Quiet (⟨2, 1, #[.uninit, ⟨true, some 2⟩], 1,
      fun _ => .returned (.ok ()), .returned (some 1), [(false, 1), (true, 2)],
      [(true, 2), (false, 1)], [1]⟩ : MpscRing Bool ℕ) := ⟨fun _ => rfl, rfl⟩
  have awake : MpscRing.Awake (⟨2, 1, #[.uninit, ⟨true, some 2⟩], 1,
      fun _ => .returned (.ok ()), .returned (some 1), [(false, 1), (true, 2)],
      [(true, 2), (false, 1)], [1]⟩ : MpscRing Bool ℕ) := by
    simp [MpscRing.Awake]
  obtain ⟨-, -, -, -, -, -, dropped⟩ := mpsc_bounded_fifo reach awake
  exact ⟨_, reach, quiet, rfl, rfl, rfl, dropped quiet⟩

/-! ## A producer that sleeps almost a turn -/

/-- One producer waits with the `head` it loaded; the other has pushed `n` items, which were
popped. -/
def lap (n : Nat) (x : PushState ℕ) (c : PopState ℕ) : MpscRing Bool ℕ :=
  ⟨UInt64.ofNat n, UInt64.ofNat n, #[.uninit, .uninit], 1,
    fun p => if p then x else .loadTail 7 0 0, c,
    List.replicate n (true, 0), List.replicate n (true, 0), List.replicate n 0⟩

/-- The other producer pushes an item, and it is popped. -/
def round : List (Event Bool ℕ) :=
  [.callPush true 0, .push true false, .push true false, .push true false, .push true false,
    .push true false, .callPop, .pop, .pop, .pop, .pop, .pop, .pop]

/-- At most one slot of two is reserved, and the waiting producer begins no call. -/
def roomy (s : MpscRing Bool ℕ) (e : Event Bool ℕ) : Bool :=
  s.reserved.length ≤ s.popped.length + 1 && s.slots.size == 2 &&
    match e with
    | .callPush p _ => p
    | _ => true

section Lap

variable {start : MpscRing Bool ℕ → Prop} {x : PushState ℕ} {c : PopState ℕ}

theorem lap_round (hx : x.between) (hc : c.between) (n : Nat) :
    Machine.runsIf ⟨start, MpscRing.step⟩ roomy (lap n x c) round =
      some (lap (n + 1) (.returned (.ok ())) (.returned (some 0))) := by
  rcases Nat.mod_two_eq_zero_or_one n with parity | parity <;>
    simp [Machine.runsIf, round, roomy, lap, MpscRing.step, hx, hc, MpscRing.moveTo,
      MpscRing.push, MpscRing.pop, MpscRing.index, parity, MpscRing.capacity, update_true,
      Slot.uninit, List.replicate_succ']

/-- The steps of a call of the waiting producer in which the ring is never full. -/
def Unfilled (s : MpscRing Bool ℕ) (e : Event Bool ℕ) : Prop :=
  ¬ s.Full ∧ ∀ item, e ≠ .callPush false item

theorem unfilled_of_roomy (s : MpscRing Bool ℕ) (e : Event Bool ℕ) (h : roomy s e) :
    Unfilled s e := by
  simp only [roomy, Bool.and_eq_true, decide_eq_true_eq, beq_iff_eq] at h
  obtain ⟨⟨room, size⟩, event⟩ := h
  constructor
  · unfold MpscRing.Full
    omega
  · rintro item rfl
    cases event

theorem lap_unfilled
    (h : Machine.Reach ⟨start, MpscRing.step⟩ Unfilled (lap 0 .idle .idle)) (n : Nat) :
    ∃ x c, x.between ∧ c.between ∧ Machine.Reach ⟨start, MpscRing.step⟩ Unfilled (lap n x c) := by
  induction n with
  | zero => exact ⟨_, _, rfl, rfl, h⟩
  | succ n ih =>
    obtain ⟨x, c, hx, hc, reach⟩ := ih
    exact ⟨_, _, rfl, rfl, reach.runsIf unfilled_of_roomy (lap_round hx hc n)⟩

/-- The check mistakes a `head` that is a turn less the capacity behind for a full ring. -/
theorem lap_refused {n : Nat} (h : 0 - UInt64.ofNat n = 2) :
    (lap n x c).push false false =
      some ((lap n x c).moveTo false (.returned (.error 7))) := by
  rw [UInt64.zero_sub] at h
  simp [lap, MpscRing.push, MpscRing.capacity, h]

end Lap

/-- The call of the waiting producer begins. -/
def called : MpscRing Bool ℕ :=
  { lap 0 .idle .idle with producer := fun p => if p then .idle else .loadHead 7 }

theorem called_reach : (MpscRing.machine Bool ℕ 2).Reach Machine.Always called := by
  have start : (MpscRing.machine Bool ℕ 2).Reach Machine.Always
      ⟨0, 0, #[.uninit, .uninit], 1, fun _ => .idle, .idle, [], [], []⟩ := .start rfl
  apply start.step (e := .callPush false 7) trivial
  simp [MpscRing.machine, MpscRing.step, PushState.between, MpscRing.moveTo, update_false, called,
    lap]

/-- The item is handed back although at every moment of the call a slot was free. -/
theorem lap_end {n : Nat} (check : 0 - UInt64.ofNat n = 2) (lt : n < 2 ^ 64) :
    ∃ t : MpscRing Bool ℕ,
      Machine.Reach ⟨(· = called), MpscRing.step⟩ (fun s e => s.Awake ∧ Unfilled s e) t ∧
      t.Awake ∧ ¬ t.Full ∧ t.producer false = .returned (.error 7) := by
  have loads : called.push false false = some (lap 0 .idle .idle) := by
    simp [called, lap, MpscRing.push, MpscRing.moveTo, update_false]
  have first : Machine.Reach ⟨(· = called), MpscRing.step⟩ Unfilled (lap 0 .idle .idle) :=
    Machine.Reach.step (.start rfl) (unfilled_of_roomy called (.push false false) rfl) loads
  obtain ⟨x, c, -, -, later⟩ := lap_unfilled first n
  have roomy : roomy (lap n x c) (.push false false) := by simp [roomy, lap]
  have last := later.step (unfilled_of_roomy _ _ roomy) (lap_refused check)
  have short : ((lap n x c).moveTo false (.returned (.error 7))).reserved.length < 2 ^ 64 := by
    simpa [lap, MpscRing.moveTo] using lt
  refine ⟨_, reach_awake last short, ?_, ?_, by simp [MpscRing.moveTo]⟩
  · intro p item head seen _
    omega
  · simp [MpscRing.Full, lap, MpscRing.moveTo]

theorem push_refuses_unfilled : ∃ s t : MpscRing Bool ℕ,
    (MpscRing.machine Bool ℕ 2).Reach (fun s _ => s.Awake) s ∧ s.producer false = .loadHead 7 ∧
    Machine.Reach ⟨(· = s), MpscRing.step⟩ (fun s e => s.Awake ∧ Unfilled s e) t ∧
    t.Awake ∧ ¬ t.Full ∧ t.producer false = .returned (.error 7) := by
  have awake := (reach_awake called_reach (by simp [called, lap])).mono fun _ _ h => h.1
  obtain ⟨t, refused⟩ := lap_end (n := 2 ^ 64 - 2) (by decide) (by decide)
  exact ⟨called, t, awake, rfl, refused⟩

end BypassIo.Ring.Mpsc
