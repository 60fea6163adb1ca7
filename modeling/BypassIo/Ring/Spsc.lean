import BypassIo.Library.Counter
import BypassIo.Library.Machine

/-!
# The single-producer single-consumer ring

`SpscRing` with one producer and one consumer, cut at every access to shared memory: the
loads and stores of `head` and `tail` and the accesses of the slots. A slot holds an item
from its write until the item is moved out of it. `accepted` and `popped` record the items
of the calls that returned `Ok` and `Some`.
-/

namespace BypassIo.Ring.Spsc

universe u

variable {α : Type u}

/-- Where the producer stands: each state is named after the access that comes next. -/
inductive PushState (α : Type u)
  | idle
  | loadHead (item : α)
  | loadTail (item : α) (head : UInt64)
  | writeSlot (item : α) (head : UInt64)
  | storeHead (item : α) (head : UInt64)
  | returned (result : Except α Unit)
  deriving DecidableEq

/-- Where the consumer stands. -/
inductive PopState (α : Type u)
  | idle
  | loadTail
  | loadHead (tail : UInt64)
  | readSlot (tail : UInt64)
  | storeTail (item : α) (tail : UInt64)
  | returned (item : Option α)
  deriving DecidableEq

structure SpscRing (α : Type u) where
  head : UInt64
  tail : UInt64
  buf : Array (Option α)
  mask : UInt64
  producer : PushState α
  consumer : PopState α
  accepted : List α
  popped : List α
  deriving DecidableEq

namespace SpscRing

/-- The ring of `capacity` slots; other capacities than powers of two panic. -/
def new (capacity : UInt64) : Option (SpscRing α) :=
  if capacity.toNat.isPowerOfTwo then
    if capacity > 0 then
      some ⟨0, 0, Array.replicate capacity.toNat none, capacity - 1, .idle, .idle, [], []⟩
    else none
  else none

def capacity (s : SpscRing α) : UInt64 := UInt64.ofNat s.buf.size

/-- The slot of a counter. -/
def index (s : SpscRing α) (counter : UInt64) : Nat := (counter &&& s.mask).toNat

/-- The next access of `push`. -/
def push (s : SpscRing α) : Option (SpscRing α) :=
  match s.producer with
  | .idle | .returned _ => none
  | .loadHead item => some { s with producer := .loadTail item s.head }
  | .loadTail item head =>
    if head - s.tail = s.capacity then some { s with producer := .returned (.error item) }
    else some { s with producer := .writeSlot item head }
  | .writeSlot item head =>
    some { s with
      buf := s.buf.setIfInBounds (s.index head) (some item)
      producer := .storeHead item head }
  | .storeHead item head =>
    some { s with
      head := head + 1
      producer := .returned (.ok ())
      accepted := s.accepted ++ [item] }

/-- The next access of `pop`. A slot without an item has none to move out. -/
def pop (s : SpscRing α) : Option (SpscRing α) :=
  match s.consumer with
  | .idle | .returned _ => none
  | .loadTail => some { s with consumer := .loadHead s.tail }
  | .loadHead tail =>
    if tail = s.head then some { s with consumer := .returned none }
    else some { s with consumer := .readSlot tail }
  | .readSlot tail =>
    match s.buf[s.index tail]? with
    | some (some item) =>
      some { s with
        buf := s.buf.setIfInBounds (s.index tail) none
        consumer := .storeTail item tail }
    | _ => none
  | .storeTail item tail =>
    some { s with
      tail := tail + 1
      consumer := .returned (some item)
      popped := s.popped ++ [item] }

end SpscRing

/-- What happens next: a call begins, or the call in progress makes its next access. -/
inductive Event (α : Type u)
  | callPush (item : α)
  | push
  | callPop
  | pop
  deriving DecidableEq

namespace SpscRing

/-- The producer is between two pushes. -/
def betweenPushes (s : SpscRing α) : Bool :=
  match s.producer with
  | .idle | .returned _ => true
  | _ => false

/-- The consumer is between two pops. -/
def betweenPops (s : SpscRing α) : Bool :=
  match s.consumer with
  | .idle | .returned _ => true
  | _ => false

def step (s : SpscRing α) : Event α → Option (SpscRing α)
  | .callPush item => if s.betweenPushes then some { s with producer := .loadHead item } else none
  | .push => s.push
  | .callPop => if s.betweenPops then some { s with consumer := .loadTail } else none
  | .pop => s.pop

/-- The ring, its producer and its consumer, in every order of their accesses. -/
def machine (α : Type u) (capacity : UInt64) : Machine (SpscRing α) (Event α) where
  start s := new capacity = some s
  step := step

/-! ## Dropping the ring -/

/-- A pop that nothing interrupts. -/
def popNow (s : SpscRing α) : Option (α × SpscRing α) :=
  if s.tail = s.head then none
  else match s.buf[s.index s.tail]? with
    | some (some item) =>
      some (item, { s with
        buf := s.buf.setIfInBounds (s.index s.tail) none
        tail := s.tail + 1
        consumer := .returned (some item)
        popped := s.popped ++ [item] })
    | _ => none

/-- The pops of the ring as a call of its own would make them. -/
theorem popNow_runs {capacity : UInt64} {s t : SpscRing α} {item : α} (idle : s.betweenPops)
    (h : s.popNow = some (item, t)) :
    (machine α capacity).runs s [.callPop, .pop, .pop, .pop, .pop] = some t := by
  unfold popNow at h
  split at h
  · cases h
  case isFalse unequal =>
    split at h
    case h_1 held =>
      obtain ⟨rfl, rfl⟩ := Prod.mk.inj (Option.some.inj h)
      simp only [index] at held
      simp only [Machine.runs, machine, step, idle, pop, unequal, index, held, if_true, if_false]
    · cases h

theorem popNow_shrinks {s t : SpscRing α} {item : α} (h : s.popNow = some (item, t)) :
    (t.head - t.tail).toNat < (s.head - s.tail).toNat := by
  unfold popNow at h
  split at h
  · cases h
  case isFalse unequal =>
    split at h
    · obtain ⟨rfl, rfl⟩ := Prod.mk.inj (Option.some.inj h)
      exact Counter.sub_succ_lt (Ne.symm unequal)
    · cases h

/-- `drop`: the items that are popped, and with it dropped, until a pop returns `None`. -/
def drop (s : SpscRing α) : List α :=
  match _h : s.popNow with
  | none => []
  | some (item, t) => item :: t.drop
termination_by (s.head - s.tail).toNat
decreasing_by exact popNow_shrinks _h

end SpscRing

end BypassIo.Ring.Spsc
