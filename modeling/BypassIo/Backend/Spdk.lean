import Mathlib.Logic.Function.Basic
import BypassIo.Library.Machine
import BypassIo.Backend.Device

/-!
# The native SPDK runtime

`NativeSpdkRuntime` called from any number of threads, with its queue pairs as lists of the
commands in flight. Each command refers to the buffer of the call that submitted it and to
that call's completion context, a variable on its stack. The device delivers completions only
while a queue pair is polled: any of its commands in any order, or a negative code. A
submission that returns a code other than zero has queued nothing.

A context is live from the start of a call of `submit_payload_io` or `flush` to its return;
`contexts` is `none` before and after. A completion written to a context that is not live is
recorded in `stray`.
-/

namespace BypassIo.Backend.Spdk

universe u

variable {T : Type u}

inductive SpdkError
  | runtimeUnavailable (detail : String)
  | invalidTarget (expected : String)
  | invalidNamespace (detail : String)
  | namespaceNotFound (nsid : UInt32)
  | noQueuePairsConfigured
  | zeroLengthIo
  | unalignedIo (offset len : UInt64) (sectorSize : UInt32)
  | ioTooLarge (len max : UInt64)
  | ioOutOfRange (lba lbaCount capacity : UInt64)
  | dmaBufferUnavailable (detail : String)
  | lengthOverflow
  | submitFailed (rc : Int)
  | completionTimeout
  | completionFailed (status : UInt16)
  deriving DecidableEq

inductive HugeBufBacking
  | spdkDma
  | hugePage
  | lockedFallback
  | pageableFallback
  deriving DecidableEq

structure NvmeNamespace where
  nsid : UInt32
  sectorSize : UInt32
  capacitySectors : UInt64
  maxIoSize : UInt32
  nsid_ne : nsid ≠ 0
  sectorSize_ne : sectorSize ≠ 0
  capacitySectors_ne : capacitySectors ≠ 0
  maxIoSize_ne : maxIoSize ≠ 0
  deriving DecidableEq

def NvmeNamespace.new (nsid sectorSize : UInt32) (capacitySectors : UInt64) (maxIoSize : UInt32) :
    Except SpdkError NvmeNamespace :=
  if h : nsid = 0 then .error (.invalidNamespace "namespace id must be non-zero")
  else if h' : sectorSize = 0 then .error (.invalidNamespace "sector size must be non-zero")
  else if h'' : capacitySectors = 0 then .error (.invalidNamespace "capacity must be non-zero")
  else if h''' : maxIoSize = 0 then .error (.invalidNamespace "max I/O size must be non-zero")
  else .ok ⟨nsid, sectorSize, capacitySectors, maxIoSize, h, h', h'', h'''⟩

structure NvmeLbaRange where
  lba : UInt64
  lbaCount : UInt64
  deriving DecidableEq

structure IoQueuePair where
  id : Nat
  deriving DecidableEq

structure SpdkBufferSegment where
  addr : UInt64
  len : UInt64
  backing : HugeBufBacking
  deriving DecidableEq

/-- The namespaces and the number of queue pairs that were set up. -/
structure NativeSpdkRuntime where
  namespaces : List UInt32
  qpairs : Nat

inductive Direction
  | read
  | write
  deriving DecidableEq

/-- The arguments of `submit_payload_io`. -/
structure PayloadIo where
  direction : Direction
  nvmeNamespace : NvmeNamespace
  qpair : IoQueuePair
  segment : SpdkBufferSegment
  range : NvmeLbaRange
  deriving DecidableEq

/-- The loop of `readv` or `writev`: what is left, where it goes, and the bytes done. -/
structure Vectored where
  direction : Direction
  nvmeNamespace : NvmeNamespace
  qpair : IoQueuePair
  segments : List SpdkBufferSegment
  lba : UInt64
  total : UInt64
  deriving DecidableEq

/-- A call that submits a command: `submit_payload_io`, alone or in a loop, or `flush`. -/
inductive Io
  | payload (io : PayloadIo) (loop : Option Vectored)
  | flush (nvmeNamespace : NvmeNamespace) (qpair : IoQueuePair)
  deriving DecidableEq

/-- What the device is asked to do. -/
inductive Payload
  | io (direction : Direction) (nsid : UInt32) (buf : UInt64) (lba : UInt64) (lbaCount : UInt32)
  | flush (nsid : UInt32)
  deriving DecidableEq

structure Command where
  payload : Payload
  context : Nat
  deriving DecidableEq

structure NativeCompletion where
  done : Bool
  failed : Bool
  deriving DecidableEq

namespace NativeSpdkRuntime

def hasNamespace (rt : NativeSpdkRuntime) (nsid : UInt32) : Except SpdkError Unit :=
  if nsid ∈ rt.namespaces then .ok () else .error (.namespaceNotFound nsid)

def qpair (rt : NativeSpdkRuntime) (qpair : IoQueuePair) : Except SpdkError Nat :=
  if qpair.id < rt.qpairs then .ok qpair.id else .error .noQueuePairsConfigured

def checkSegment (segment : SpdkBufferSegment) : Except SpdkError SpdkBufferSegment :=
  if segment.backing ≠ .spdkDma then
    .error (.dmaBufferUnavailable
      "native SPDK I/O requires buffers allocated after SPDK environment initialization")
  else .ok segment

/-- The checks before the queue pair is locked: the queue pair and the command to submit. -/
def prepare (rt : NativeSpdkRuntime) : Io → Except SpdkError (Nat × Payload)
  | .payload io _ => do
    let segment ← checkSegment io.segment
    rt.hasNamespace io.nvmeNamespace.nsid
    let lbaCount ← if io.range.lbaCount.toNat < 2 ^ 32 then .ok io.range.lbaCount.toUInt32
      else .error .lengthOverflow
    let qpair ← rt.qpair io.qpair
    return (qpair, .io io.direction io.nvmeNamespace.nsid segment.addr io.range.lba lbaCount)
  | .flush nvmeNamespace q => do
    rt.hasNamespace nvmeNamespace.nsid
    let qpair ← rt.qpair q
    return (qpair, .flush nvmeNamespace.nsid)

end NativeSpdkRuntime

inductive Value
  | size (n : UInt64)
  | unit
  deriving DecidableEq

/-- A call that holds a queue pair. -/
structure Frame where
  io : Io
  qpair : Nat
  payload : Payload
  context : Nat
  deriving DecidableEq

def Frame.command (f : Frame) : Command := ⟨f.payload, f.context⟩

/-- Where a thread stands: before the checks and the lock, before the submission, at the
condition of the polling loop, before a poll, or returned. -/
inductive CallState
  | idle
  | lock (io : Io)
  | submit (f : Frame)
  | check (f : Frame)
  | poll (f : Frame)
  | returned (result : Except SpdkError Value)
  deriving DecidableEq

def checkedAdd (a b : UInt64) : Except SpdkError UInt64 :=
  if a.toNat + b.toNat < 2 ^ 64 then .ok (a + b) else .error .lengthOverflow

/-- The head of the loop of `readv` and `writev`. -/
def Vectored.start (v : Vectored) : CallState :=
  match v.segments with
  | [] => .returned (.ok (.size v.total))
  | segment :: segments =>
    let lbaCount := segment.len / v.nvmeNamespace.sectorSize.toUInt64
    .lock (.payload ⟨v.direction, v.nvmeNamespace, v.qpair, segment, ⟨v.lba, lbaCount⟩⟩
      (some { v with segments }))

/-- The number of bytes `submit_payload_io` returns. -/
def PayloadIo.size (io : PayloadIo) : UInt64 :=
  io.range.lbaCount * io.nvmeNamespace.sectorSize.toUInt64

/-- What follows a call of `submit_payload_io` or `flush` that returned `Ok`. -/
def Io.succeed : Io → CallState
  | .payload io none => .returned (.ok (.size io.size))
  | .payload io (some v) =>
    let next : Except SpdkError Vectored := do
      let lba ← checkedAdd v.lba io.range.lbaCount
      let total ← checkedAdd v.total io.size
      return { v with lba, total }
    match next with
    | .ok v => v.start
    | .error e => .returned (.error e)
  | .flush _ _ => .returned (.ok .unit)

/-- A call of the runtime that submits commands. -/
inductive Request
  | read (nvmeNamespace : NvmeNamespace) (qpair : IoQueuePair) (segment : SpdkBufferSegment)
      (range : NvmeLbaRange)
  | write (nvmeNamespace : NvmeNamespace) (qpair : IoQueuePair) (segment : SpdkBufferSegment)
      (range : NvmeLbaRange)
  | readv (nvmeNamespace : NvmeNamespace) (qpair : IoQueuePair)
      (segments : List SpdkBufferSegment) (range : NvmeLbaRange)
  | writev (nvmeNamespace : NvmeNamespace) (qpair : IoQueuePair)
      (segments : List SpdkBufferSegment) (range : NvmeLbaRange)
  | flush (nvmeNamespace : NvmeNamespace) (qpair : IoQueuePair)

def Request.start : Request → CallState
  | read ns qpair segment range => .lock (.payload ⟨.read, ns, qpair, segment, range⟩ none)
  | write ns qpair segment range => .lock (.payload ⟨.write, ns, qpair, segment, range⟩ none)
  | readv ns qpair segments range => Vectored.start ⟨.read, ns, qpair, segments, range.lba, 0⟩
  | writev ns qpair segments range => Vectored.start ⟨.write, ns, qpair, segments, range.lba, 0⟩
  | flush ns qpair => .lock (.flush ns qpair)

/-- What a poll of a queue pair does: a negative code, or completions, each of the command at
a position of the list at that time and with an error status or not. -/
inductive Poll
  | negative (rc : Int)
  | completions (delivered : List (Nat × Bool))

inductive Event (T : Type u)
  | call (thread : T) (request : Request)
  | lock (thread : T)
  | submit (thread : T) (rc : Int)
  | check (thread : T) (expired : Bool)
  | poll (thread : T) (outcome : Poll)
  | processCompletions (thread : T) (qpair : IoQueuePair) (maxCompletions : Nat) (outcome : Poll)

/-- The threads, and for each queue pair its mutex and its commands. -/
structure RuntimeState (T : Type u) where
  threads : T → CallState
  holders : Nat → Option T
  inFlight : Nat → List Command
  contexts : Nat → Option NativeCompletion
  calls : Nat
  stray : List Nat

def completionsPerPoll : Nat := 256

namespace RuntimeState

def new : RuntimeState T := ⟨fun _ => .idle, fun _ => none, fun _ => [], fun _ => none, 0, []⟩

/-- `native_io_completion`. -/
def nativeIoCompletion (s : RuntimeState T) (context : Nat) (failed : Bool) : RuntimeState T :=
  match s.contexts context with
  | some _ => { s with contexts := Function.update s.contexts context (some ⟨true, failed⟩) }
  | none => { s with stray := s.stray ++ [context] }

/-- The completions of one poll, one after the other. -/
def deliver (qpair : Nat) : List (Nat × Bool) → RuntimeState T → Option (RuntimeState T)
  | [], s => some s
  | (position, failed) :: rest, s =>
    match (s.inFlight qpair)[position]? with
    | some command =>
      deliver qpair rest (nativeIoCompletion
        { s with inFlight :=
            Function.update s.inFlight qpair ((s.inFlight qpair).eraseIdx position) }
        command.context failed)
    | none => none

variable [DecidableEq T]

def moveTo (s : RuntimeState T) (thread : T) (state : CallState) : RuntimeState T :=
  { s with threads := Function.update s.threads thread state }

/-- `submit_payload_io` or `flush` returns: its context is gone and the queue pair unlocked. -/
def finish (s : RuntimeState T) (thread : T) (f : Frame) (next : CallState) : RuntimeState T :=
  { s.moveTo thread next with
    holders := Function.update s.holders f.qpair none
    contexts := Function.update s.contexts f.context none }

def step (rt : NativeSpdkRuntime) (s : RuntimeState T) : Event T → Option (RuntimeState T)
  | .call thread request =>
    match s.threads thread with
    | .idle | .returned _ => some (s.moveTo thread request.start)
    | _ => none
  | .lock thread =>
    match s.threads thread with
    | .lock io =>
      match rt.prepare io with
      | .error e => some (s.moveTo thread (.returned (.error e)))
      | .ok (qpair, payload) =>
        if s.holders qpair = none then
          some { s.moveTo thread (.submit ⟨io, qpair, payload, s.calls⟩) with
            holders := Function.update s.holders qpair (some thread)
            contexts := Function.update s.contexts s.calls (some ⟨false, false⟩)
            calls := s.calls + 1 }
        else none
    | _ => none
  | .submit thread rc =>
    match s.threads thread with
    | .submit f =>
      if rc ≠ 0 then some (s.finish thread f (.returned (.error (.submitFailed rc))))
      else some { s.moveTo thread (.check f) with
        inFlight := Function.update s.inFlight f.qpair (s.inFlight f.qpair ++ [f.command]) }
    | _ => none
  | .check thread expired =>
    match s.threads thread with
    | .check f =>
      match s.contexts f.context with
      | some completion =>
        if completion.done then
          if completion.failed then
            some (s.finish thread f (.returned (.error (.completionFailed 1))))
          else some (s.finish thread f f.io.succeed)
        else if expired then some (s.finish thread f (.returned (.error .completionTimeout)))
        else some (s.moveTo thread (.poll f))
      | none => none
    | _ => none
  | .poll thread outcome =>
    match s.threads thread, outcome with
    | .poll f, .negative rc =>
      if rc < 0 then some (s.finish thread f (.returned (.error (.submitFailed rc)))) else none
    | .poll f, .completions delivered =>
      if delivered.length ≤ completionsPerPoll then
        (s.deliver f.qpair delivered).map (·.moveTo thread (.check f))
      else none
    | _, _ => none
  | .processCompletions thread qpair maxCompletions outcome =>
    match s.threads thread with
    | .idle | .returned _ =>
      match rt.qpair qpair with
      | .error _ => some (s.moveTo thread (.returned (.ok (.size 0))))
      | .ok q =>
        if s.holders q = none then
          match outcome with
          | .negative rc =>
            if rc < 0 then some (s.moveTo thread (.returned (.ok (.size 0)))) else none
          | .completions delivered =>
            if maxCompletions = 0 ∨ delivered.length ≤ maxCompletions then
              (s.deliver q delivered).map
                (·.moveTo thread (.returned (.ok (.size (UInt64.ofNat delivered.length)))))
            else none
        else none
    | _ => none

end RuntimeState

/-- The runtime, its threads and the device. -/
def machine (T : Type u) [DecidableEq T] (rt : NativeSpdkRuntime) :
    Machine (RuntimeState T) (Event T) where
  start s := s = .new
  step := RuntimeState.step rt

end BypassIo.Backend.Spdk
