import Mathlib.Logic.Function.Basic
import BypassIo.Library.Machine
import BypassIo.Backend.Device

/-!
# The io_uring backend

`UringBackend` called from any number of threads, with the kernel's side of the ring: the
submission queue, the operations the kernel has taken and not finished, and the completion
queue. A call is cut where another thread or the kernel can act: at the token, the mutex, the
push, the system call that submits, its return, and the search of the completion queue.

The kernel is free to complete the operations it has taken in any order and at any time. The
system call either fails with the submission queue unchanged, or takes all queued entries; it
then returns when a completion is available, or on a signal before that.

`serial`, `calls` and `finished` record which call an entry is of and what the kernel
reported for it; no step depends on them.
-/

namespace BypassIo.Backend.Uring

universe u

variable {T : Type u}

inductive IoError
  | invalidInput (message : String)
  | wouldBlock (message : String)
  | other (message : String)
  | os (code : Int)
  deriving DecidableEq

/-- The operations of the backend with their arguments. -/
inductive Op
  | readAt (fd : RawFd) (buf : Region) (offset : UInt64)
  | writeAt (fd : RawFd) (buf : Region) (offset : UInt64)
  | readvAt (fd : RawFd) (bufs : List Region) (offset : UInt64)
  | writevAt (fd : RawFd) (bufs : List Region) (offset : UInt64)
  | fsync (fd : RawFd)
  deriving DecidableEq

/-- What a call returns: a number of bytes, or nothing for `fsync`. -/
inductive Value
  | size (n : Nat)
  | unit
  deriving DecidableEq

/-- What the kernel is asked to do. -/
inductive Opcode
  | read (fd : RawFd) (buf : UInt64) (len : UInt32) (offset : UInt64)
  | write (fd : RawFd) (buf : UInt64) (len : UInt32) (offset : UInt64)
  | readv (fd : RawFd) (iovecs : List Region) (len : UInt32) (offset : UInt64)
  | writev (fd : RawFd) (iovecs : List Region) (len : UInt32) (offset : UInt64)
  | fsync (fd : RawFd)
  deriving DecidableEq

namespace Op

def build : Op → Opcode
  | readAt fd buf offset => .read fd buf.ptr buf.len.toUInt32 offset
  | writeAt fd buf offset => .write fd buf.ptr buf.len.toUInt32 offset
  | readvAt fd bufs offset => .readv fd bufs (UInt32.ofNat bufs.length) offset
  | writevAt fd bufs offset => .writev fd bufs (UInt32.ofNat bufs.length) offset
  | fsync fd => .fsync fd

/-- `libc_iovecs` and `libc_iovecs_mut`. -/
def libcIovecs (bufs : List Region) : Except IoError (List Region) :=
  if bufs.length > 2 ^ 32 - 1 then .error (.invalidInput "too many iovecs for io_uring")
  else .ok bufs

/-- What is returned before anything is submitted. -/
def early : Op → Option (Except IoError Value)
  | readvAt _ bufs _ | writevAt _ bufs _ =>
    match libcIovecs bufs with
    | .error e => some (.error e)
    | .ok iovecs => if iovecs.isEmpty then some (.ok (.size 0)) else none
  | _ => none

def value : Op → Nat → Value
  | fsync _, _ => .unit
  | _, n => .size n

end Op

/-- The operations of the trait `IoBackend`; a flush is an fsync. -/
inductive BackendOp
  | read (buf : Region) (offset : UInt64)
  | write (buf : Region) (offset : UInt64)
  | readv (bufs : List Region) (offset : UInt64)
  | writev (bufs : List Region) (offset : UInt64)
  | flush
  deriving DecidableEq

def BackendOp.op (fd : RawFd) : BackendOp → Op
  | read buf offset => .readAt fd buf offset
  | write buf offset => .writeAt fd buf offset
  | readv bufs offset => .readvAt fd bufs offset
  | writev bufs offset => .writevAt fd bufs offset
  | flush => .fsync fd

/-- A call of the backend itself or through the trait. -/
inductive Request
  | inherent (op : Op)
  | backend (target : DeviceTarget) (op : BackendOp)
  deriving DecidableEq

def Request.op : Request → Except IoError Op
  | inherent op => .ok op
  | backend (.fd fd) op => .ok (op.op fd)
  | backend _ _ => .error (.invalidInput "UringBackend requires DeviceTarget::Fd")

/-- A call that has its token. -/
structure Call where
  op : Op
  token : UInt64
  serial : Nat
  deriving DecidableEq

/-- An entry of the submission queue, and later an operation of the kernel. -/
structure Entry where
  opcode : Opcode
  userData : UInt64
  serial : Nat
  deriving DecidableEq

def Call.entry (call : Call) : Entry := ⟨call.op.build, call.token, call.serial⟩

structure Completion where
  userData : UInt64
  result : Int
  serial : Nat
  deriving DecidableEq

/-- Where a thread stands. -/
inductive CallState
  | idle
  | nextToken (op : Op)
  | lock (call : Call)
  | push (call : Call)
  | enter (call : Call)
  | wait (call : Call)
  | find (call : Call)
  | returned (call : Option Call) (result : Except IoError Value)
  deriving DecidableEq

/-- How the system call ends: with an error and nothing submitted, or not. -/
inductive Submission
  | failed (code : Int)
  | submitted
  deriving DecidableEq

inductive Event (T : Type u)
  | call (thread : T) (request : Request)
  | nextToken (thread : T)
  | lock (thread : T)
  | push (thread : T)
  | enter (thread : T) (outcome : Submission)
  | wake (thread : T) (interrupted : Bool)
  | find (thread : T)
  | complete (index : Nat) (result : Int)
  deriving DecidableEq

structure UringBackend (T : Type u) where
  nextToken : UInt64
  poisoned : Bool
  holder : Option T
  threads : T → CallState
  queued : List Entry
  inFlight : List Entry
  completed : List Completion
  calls : Nat
  finished : List (Nat × Int)

/-- `completion.result()` as the result of the call. -/
def Completion.value (c : Completion) (op : Op) : Except IoError Value :=
  if c.result < 0 then .error (.os (-c.result)) else .ok (op.value c.result.toNat)

namespace UringBackend

def new : UringBackend T :=
  ⟨1, false, none, fun _ => .idle, [], [], [], 0, []⟩

variable [DecidableEq T]

def moveTo (s : UringBackend T) (thread : T) (state : CallState) : UringBackend T :=
  { s with threads := Function.update s.threads thread state }

/-- The call returns and drops its guard of the mutex. -/
def finish (s : UringBackend T) (thread : T) (call : Call) (result : Except IoError Value) :
    UringBackend T :=
  { s.moveTo thread (.returned (some call) result) with holder := none }

/-- A thread that is in no call begins one. -/
def begin (s : UringBackend T) (thread : T) (request : Request) : Option (UringBackend T) :=
  match s.threads thread with
  | .idle | .returned _ _ =>
    match request.op with
    | .error e => some (s.moveTo thread (.returned none (.error e)))
    | .ok op =>
      match op.early with
      | some result => some (s.moveTo thread (.returned none result))
      | none => some (s.moveTo thread (.nextToken op))
  | _ => none

/-- The next access of a call; `entries` is the size of the submission queue. -/
def step (entries : Nat) (s : UringBackend T) : Event T → Option (UringBackend T)
  | .call thread request => s.begin thread request
  | .nextToken thread =>
    match s.threads thread with
    | .nextToken op =>
      some { s.moveTo thread (.lock ⟨op, s.nextToken, s.calls⟩) with
        nextToken := s.nextToken + 1
        calls := s.calls + 1 }
    | _ => none
  | .lock thread =>
    match s.threads thread, s.holder with
    | .lock call, none =>
      if s.poisoned then
        some (s.moveTo thread (.returned (some call) (.error (.other "io_uring mutex poisoned"))))
      else some { s.moveTo thread (.push call) with holder := some thread }
    | _, _ => none
  | .push thread =>
    match s.threads thread with
    | .push call =>
      if s.queued.length < entries then
        some { s.moveTo thread (.enter call) with queued := s.queued ++ [call.entry] }
      else some (s.finish thread call (.error (.wouldBlock "submission queue full")))
    | _ => none
  | .enter thread outcome =>
    match s.threads thread, outcome with
    | .enter call, .failed code => some (s.finish thread call (.error (.os code)))
    | .enter call, .submitted =>
      some { s.moveTo thread (.wait call) with
        queued := []
        inFlight := s.inFlight ++ s.queued }
    | _, _ => none
  | .wake thread interrupted =>
    match s.threads thread with
    | .wait call =>
      if s.completed ≠ [] ∨ interrupted then some (s.moveTo thread (.find call)) else none
    | _ => none
  | .find thread =>
    match s.threads thread with
    | .find call =>
      match s.completed.dropWhile (·.userData ≠ call.token) with
      | completion :: rest =>
        some { s.finish thread call (completion.value call.op) with completed := rest }
      | [] =>
        some { s.finish thread call
            (.error (.other "completion queue did not contain submitted token")) with
          completed := [] }
    | _ => none
  | .complete index result =>
    match s.inFlight[index]? with
    | some entry =>
      some { s with
        inFlight := s.inFlight.eraseIdx index
        completed := s.completed ++ [⟨entry.userData, result, entry.serial⟩]
        finished := s.finished ++ [(entry.serial, result)] }
    | none => none

end UringBackend

/-- The backend with a submission queue of `entries`, its threads and the kernel. -/
def machine (T : Type u) [DecidableEq T] (entries : Nat) :
    Machine (UringBackend T) (Event T) where
  start s := s = .new
  step := UringBackend.step entries

end BypassIo.Backend.Uring
