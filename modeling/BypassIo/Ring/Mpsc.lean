import Mathlib.Logic.Function.Basic
import BypassIo.Library.Machine

/-!
# The multi-producer single-consumer ring

`MpscRing` with any number of producers and one consumer, cut at every access to shared
memory. A producer reserves a slot by a compare-and-exchange on `head`, writes its item and
then sets the slot's `ready`; an exchange may fail although `head` is as expected. A slot
holds an item from its write until the item is moved out of it.

`reserved`, `accepted` and `popped` record the exchanges that succeeded, the calls that
returned `Ok` and the items of the calls that returned `Some`. The numbers `seen` and
`place` in a producer's state record how many reservations there were when it loaded `head`
and when it made its own; no step depends on them.
-/

namespace BypassIo.Ring.Mpsc

universe u v

variable {P : Type v} {α : Type u}

/-- Where a producer stands: each state is named after the access that comes next. -/
inductive PushState (α : Type u)
  | idle
  | loadHead (item : α)
  | loadTail (item : α) (head : UInt64) (seen : Nat)
  | exchange (item : α) (head : UInt64) (seen : Nat)
  | writeSlot (item : α) (reserved : UInt64) (place : Nat)
  | storeReady (item : α) (reserved : UInt64) (place : Nat)
  | returned (result : Except α Unit)

/-- Where the consumer stands. -/
inductive PopState (α : Type u)
  | idle
  | loadTail
  | loadHead (tail : UInt64)
  | loadReady (tail : UInt64)
  | readSlot (tail : UInt64)
  | clearReady (item : α) (tail : UInt64)
  | storeTail (item : α) (tail : UInt64)
  | returned (item : Option α)

structure Slot (α : Type u) where
  ready : Bool
  value : Option α

def Slot.uninit : Slot α := ⟨false, none⟩

structure MpscRing (P : Type v) (α : Type u) where
  head : UInt64
  tail : UInt64
  slots : Array (Slot α)
  mask : UInt64
  producer : P → PushState α
  consumer : PopState α
  reserved : List (P × α)
  accepted : List (P × α)
  popped : List α

/-- The producer is between two pushes. -/
def PushState.between : PushState α → Bool
  | .idle | .returned _ => true
  | _ => false

/-- The consumer is between two pops. -/
def PopState.between : PopState α → Bool
  | .idle | .returned _ => true
  | _ => false

/-- What happens next: a call begins, or a call in progress makes its next access. An
exchange that is `spurious` fails whatever it finds. -/
inductive Event (P : Type v) (α : Type u)
  | callPush (producer : P) (item : α)
  | push (producer : P) (spurious : Bool)
  | callPop
  | pop

namespace MpscRing

/-- The ring of `capacity` slots; other capacities than powers of two panic. -/
def new (capacity : UInt64) : Option (MpscRing P α) :=
  if capacity.toNat.isPowerOfTwo then
    if capacity > 0 then
      some ⟨0, 0, Array.replicate capacity.toNat .uninit, capacity - 1, fun _ => .idle, .idle,
        [], [], []⟩
    else none
  else none

def capacity (s : MpscRing P α) : UInt64 := UInt64.ofNat s.slots.size

/-- The slot of a counter. -/
def index (s : MpscRing P α) (counter : UInt64) : Nat := (counter &&& s.mask).toNat

section Push

variable [DecidableEq P]

/-- The producer moves on. -/
def moveTo (s : MpscRing P α) (p : P) (state : PushState α) : MpscRing P α :=
  { s with producer := Function.update s.producer p state }

/-- The next access of the `push` of a producer. -/
def push (s : MpscRing P α) (p : P) (spurious : Bool) : Option (MpscRing P α) :=
  match s.producer p with
  | .idle | .returned _ => none
  | .loadHead item => some (s.moveTo p (.loadTail item s.head s.reserved.length))
  | .loadTail item head seen =>
    if head - s.tail = s.capacity then some (s.moveTo p (.returned (.error item)))
    else some (s.moveTo p (.exchange item head seen))
  | .exchange item head _ =>
    if s.head = head ∧ ¬ spurious then
      some { s.moveTo p (.writeSlot item head s.reserved.length) with
        head := head + 1
        reserved := s.reserved ++ [(p, item)] }
    else some (s.moveTo p (.loadTail item s.head s.reserved.length))
  | .writeSlot item reserved place =>
    some { s.moveTo p (.storeReady item reserved place) with
      slots := s.slots.modify (s.index reserved) fun slot => { slot with value := some item } }
  | .storeReady item reserved _ =>
    some { s.moveTo p (.returned (.ok ())) with
      slots := s.slots.modify (s.index reserved) fun slot => { slot with ready := true }
      accepted := s.accepted ++ [(p, item)] }

end Push

/-- The next access of `pop`. A slot without an item has none to move out. -/
def pop (s : MpscRing P α) : Option (MpscRing P α) :=
  match s.consumer with
  | .idle | .returned _ => none
  | .loadTail => some { s with consumer := .loadHead s.tail }
  | .loadHead tail =>
    if tail = s.head then some { s with consumer := .returned none }
    else some { s with consumer := .loadReady tail }
  | .loadReady tail =>
    match s.slots[s.index tail]? with
    | some slot =>
      if slot.ready then some { s with consumer := .readSlot tail }
      else some { s with consumer := .returned none }
    | none => none
  | .readSlot tail =>
    match s.slots[s.index tail]? with
    | some ⟨_, some item⟩ =>
      some { s with
        slots := s.slots.modify (s.index tail) fun slot => { slot with value := none }
        consumer := .clearReady item tail }
    | _ => none
  | .clearReady item tail =>
    some { s with
      slots := s.slots.modify (s.index tail) fun slot => { slot with ready := false }
      consumer := .storeTail item tail }
  | .storeTail item tail =>
    some { s with
      tail := tail + 1
      consumer := .returned (some item)
      popped := s.popped ++ [item] }

def step [DecidableEq P] (s : MpscRing P α) : Event P α → Option (MpscRing P α)
  | .callPush p item =>
    if (s.producer p).between then some (s.moveTo p (.loadHead item)) else none
  | .push p spurious => s.push p spurious
  | .callPop => if s.consumer.between then some { s with consumer := .loadTail } else none
  | .pop => s.pop

/-- The ring, its producers and its consumer, in every order of their accesses. -/
def machine (P : Type v) [DecidableEq P] (α : Type u) (capacity : UInt64) :
    Machine (MpscRing P α) (Event P α) where
  start s := new capacity = some s
  step := step

/-- `drop`: what is dropped in place, slot by slot. -/
def drop (s : MpscRing P α) : List (Option α) :=
  (s.slots.toList.filter (·.ready)).map (·.value)

/-- The ring is used by no call, as it must be to be dropped. -/
def Quiet (s : MpscRing P α) : Prop := (∀ p, (s.producer p).between) ∧ s.consumer.between

/-- No producer has slept through a turn of `head` since it loaded it. -/
def Awake (s : MpscRing P α) : Prop :=
  ∀ p item head seen, s.producer p = .loadTail item head seen ∨
    s.producer p = .exchange item head seen → s.reserved.length < seen + 2 ^ 64

/-- As many slots are reserved as there are. -/
def Full (s : MpscRing P α) : Prop := s.reserved.length = s.popped.length + s.slots.size

/-- An exchange succeeds only while a slot is free. -/
def Spare (s : MpscRing P α) : Event P α → Prop
  | .push p spurious => ∀ item head seen, s.producer p = .exchange item head seen →
      s.head = head → ¬ spurious → ¬ s.Full
  | .callPush _ _ | .callPop | .pop => True

end MpscRing

end BypassIo.Ring.Mpsc
