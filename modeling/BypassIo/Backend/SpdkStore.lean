import BypassIo.Backend.SpdkVectored
import BypassIo.Library.Memory

/-!
# An SPDK namespace as a byte store

`SpdkBackend` over the native runtime over a device. The device moves the bytes of a command
between the memory of the caller and the namespace. A command that fails has moved what it moved;
one that the runtime stops waiting for is still with the device, which may finish it at any later
time. Between calls the program writes its own memory.

## Main definitions

* `Stack.call`: a call of the backend, through the gate and the runtime, to the device.
* `Stack.machine`: calls, writes of the program and late completions, in any order.

## Main results

* `store_contained`: in every run, only admitted calls change bytes of a namespace, and only those
  of their range.
* `read_returns_written`: a read returns what the last write has put there.
-/

namespace BypassIo.Backend.Spdk
open Rust FlatMemory

/-! ## The device -/

/-- The bytes of each namespace, and the memory of the caller. -/
structure World where
  device : UInt32 → Nat → UInt8
  memory : Nat → UInt8

inductive Cell
  | device (nsid : UInt32) (i : Nat)
  | memory (a : Nat)

def World.get (w : World) : Cell → UInt8
  | .device nsid i => w.device nsid i
  | .memory a => w.memory a

/-- The world with some bytes of a namespace replaced. -/
def World.write (w : World) (nsid : UInt32) (a : Nat) (bytes : List UInt8) : World :=
  { w with device := Function.update w.device nsid (store (w.device nsid) a bytes) }

/-- How a command ends for the runtime. -/
inductive Completion
  | done
  | refused (rc : Int)
  | failed (left : List UInt8)
  | abandoned (e : SpdkError)

/-- What `submit_payload_io` or `flush` makes of it. -/
def Completion.answer : Completion → Except SpdkError Unit
  | done => .ok ()
  | refused rc => .error (.submitFailed rc)
  | failed _ => .error (.completionFailed 1)
  | abandoned e => .error e

namespace Payload

variable (sector : UInt32 → Nat) (w : World)

def size : Payload → Nat
  | io _ nsid _ _ lbaCount => lbaCount.toNat * sector nsid
  | flush _ => 0

/-- The bytes that a command moves. -/
def source (payload : Payload) : List UInt8 :=
  match payload with
  | io .read nsid _ lba _ => load (w.device nsid) (lba.toNat * sector nsid) (payload.size sector)
  | io .write _ buf _ _ => load w.memory buf.toNat (payload.size sector)
  | flush _ => []

/-- Bytes at the place that a command moves to, as many as there is room for. -/
def place (bytes : List UInt8) (payload : Payload) : World :=
  match payload with
  | io .read _ buf _ _ =>
    { w with memory := store w.memory buf.toNat (bytes.take (payload.size sector)) }
  | io .write nsid _ lba _ =>
    w.write nsid (lba.toNat * sector nsid) (bytes.take (payload.size sector))
  | flush _ => w

/-- The cells at the place that a command moves to. -/
def Changes (payload : Payload) : Cell → Prop
  | .device nsid i => ∃ buf lba lbaCount, payload = io .write nsid buf lba lbaCount ∧
      lba.toNat * sector nsid ≤ i ∧ i < lba.toNat * sector nsid + payload.size sector
  | .memory a => ∃ nsid buf lba lbaCount, payload = io .read nsid buf lba lbaCount ∧
      buf.toNat ≤ a ∧ a < buf.toNat + payload.size sector

end Payload

/-! ## The backend, the runtime and the device -/

def IoCall.direction : IoCall → Direction
  | read _ | readv _ => .read
  | write _ | writev _ => .write

namespace NativeSpdkRuntime

variable (rt : NativeSpdkRuntime) (answer : List Payload → Except SpdkError Unit)

/-- A call of the runtime, with the commands it submits. -/
def perform : Request → Issued UInt64
  | .read ns qpair segment range => rt.submitPayloadIo answer ⟨.read, ns, qpair, segment, range⟩
  | .write ns qpair segment range => rt.submitPayloadIo answer ⟨.write, ns, qpair, segment, range⟩
  | .readv ns qpair segments range => rt.readv answer ns qpair segments range
  | .writev ns qpair segments range => rt.writev answer ns qpair segments range
  | .flush ns qpair => do
    let (_, payload) ← rt.prepare (.flush ns qpair)
    modify (· ++ [payload])
    answer (← get)
    return 0

end NativeSpdkRuntime

def SpdkBackend.flush (backend : SpdkBackend) (target : DeviceTarget) : Submission UInt64 :=
  match target with
  | .nvmeNs nsid => do
    let ns ← backend.nvmeNamespace nsid
    let qpair ← backend.qpair
    backend.invoke (.flush ns qpair)
  | _ => throw (.invalidTarget "DeviceTarget::NvmeNs")

/-- A backend with its runtime and its device. The namespaces have the sector sizes of the
device, where `probe_and_init` reads them. -/
structure Stack where
  namespaces : List NvmeNamespace
  qpairs : List IoQueuePair
  rt : NativeSpdkRuntime
  sector : UInt32 → Nat
  sector_eq : ∀ ns ∈ namespaces, sector ns.nsid = ns.sectorSize.toNat
  /-- How the last of the commands submitted so far ends. -/
  completion : List Payload → Completion

/-- The bytes, the commands submitted so far, and those that are still with the device although
no call waits for them. -/
structure Store where
  world : World
  log : List Payload
  abandoned : List Payload

/-- The effect of a command. -/
def Store.finish (sector : UInt32 → Nat) (s : Store) (payload : Payload) : Completion → Store
  | .done => { s with world := payload.place sector s.world (payload.source sector s.world) }
  | .refused _ => s
  | .failed left => { s with world := payload.place sector s.world left }
  | .abandoned _ => { s with abandoned := s.abandoned ++ [payload] }

inductive StoreEvent
  | io (target : DeviceTarget) (offset : UInt64) (call : IoCall)
  | flush (target : DeviceTarget)
  | fill (a : Nat) (bytes : List UInt8)
  | late (command : Payload) (bytes : List UInt8)

namespace Stack

variable (stack : Stack) (s : Store)

def answer (log : List Payload) : Except SpdkError Unit := (stack.completion log).answer

def backend : SpdkBackend where
  namespaces := stack.namespaces
  qpairs := stack.qpairs
  runtime request := ((stack.rt.perform stack.answer request).run.run s.log).1

/-- What a submitted command does. -/
def complete (payload : Payload) : Store :=
  let log := s.log ++ [payload]
  { s.finish stack.sector payload (stack.completion log) with log }

/-- The commands of a request of the runtime. -/
def serve (request : Request) : Store :=
  (((stack.rt.perform stack.answer request).run.run s.log).2.drop s.log.length).foldl
    stack.complete s

/-- The result of a call of the backend, and what it leaves. -/
def submit (submission : SpdkBackend → Submission UInt64) : Except SpdkError UInt64 × Store :=
  let (result, requests) := (submission (stack.backend s)).run.run []
  (result, requests.foldl stack.serve s)

def call (target : DeviceTarget) (offset : UInt64) (call : IoCall) :
    Except SpdkError UInt64 × Store :=
  stack.submit s fun backend => call.submit backend target offset

def step : StoreEvent → Option Store
  | .io target offset call => some (stack.call s target offset call).2
  | .flush target => some (stack.submit s (·.flush target)).2
  | .fill a bytes => some { s with world := { s.world with memory := store s.world.memory a bytes } }
  | .late command bytes =>
    if command ∈ s.abandoned then
      some { s with world := command.place stack.sector s.world bytes }
    else none

def machine : Machine Store StoreEvent where
  start s := s.log = [] ∧ s.abandoned = []
  step := stack.step

end Stack

/-! ## The commands of a request -/

/-- Every one of these commands succeeds. -/
def AllDone (answer : List Payload → Except SpdkError Unit) : List Payload → List Payload → Prop
  | _, [] => True
  | log, command :: commands =>
    answer (log ++ [command]) = .ok () ∧ AllDone answer (log ++ [command]) commands

/-- A call of the runtime submits these commands in their order up to the first error, and all of
them if it returns a number. -/
def Submitted (answer : List Payload → Except SpdkError Unit) (log expected : List Payload)
    (final : Except SpdkError UInt64 × List Payload) : Prop :=
  ∃ commands, final.2 = log ++ commands ∧ commands <+: expected ∧
    ∀ n, final.1 = .ok n → commands = expected ∧ AllDone answer log commands

section Requests

variable {rt : NativeSpdkRuntime} {answer : List Payload → Except SpdkError Unit}
  {direction : Direction} {ns : NvmeNamespace} {qpair : IoQueuePair} {bufs : List PooledBuf}
  {log : List Payload}

theorem Submitted.done (n : UInt64) : Submitted answer log [] (.ok n, log) :=
  ⟨[], (List.append_nil log).symm, List.nil_prefix, fun _ _ => ⟨rfl, trivial⟩⟩

theorem Submitted.error {e : SpdkError} {expected : List Payload} :
    Submitted answer log expected (.error e, log) :=
  ⟨[], (List.append_nil log).symm, List.nil_prefix, nofun⟩

theorem Submitted.stopped {e : SpdkError} {command : Payload} {expected : List Payload} :
    Submitted answer log (command :: expected) (.error e, log ++ [command]) :=
  ⟨[command], rfl, ⟨expected, rfl⟩, nofun⟩

theorem Submitted.cons {command : Payload} {expected : List Payload}
    {final : Except SpdkError UInt64 × List Payload}
    (rest : Submitted answer (log ++ [command]) expected final)
    (done : answer (log ++ [command]) = .ok ()) : Submitted answer log (command :: expected) final := by
  obtain ⟨commands, log_eq, before, all⟩ := rest
  refine ⟨command :: commands, by rw [log_eq, List.append_assoc]; rfl, ?_, fun n result => ?_⟩
  · exact List.cons_prefix_cons.mpr ⟨rfl, before⟩
  · obtain ⟨rfl, finished⟩ := all n result
    exact ⟨rfl, done, finished⟩

theorem submitted_flush : Submitted answer log [.flush ns.nsid]
    ((rt.perform answer (.flush ns qpair)).run.run log) := by
  unfold NativeSpdkRuntime.perform
  rw [run_lift_bind]
  cases prepared : rt.prepare (.flush ns qpair) with
  | error e => exact .error
  | ok found =>
    obtain ⟨q, payload⟩ := found
    simp only [NativeSpdkRuntime.prepare, bind_eq_ok] at prepared
    obtain ⟨-, -, _, -, same⟩ := prepared
    cases same
    have run := run_lift_bind (answer (log ++ [.flush ns.nsid]))
      (fun _ => (pure 0 : Issued UInt64)) (log ++ [.flush ns.nsid])
    refine Eq.mpr (congrArg (Submitted answer log [.flush ns.nsid]) run) ?_
    cases answered : answer (log ++ [.flush ns.nsid]) with
    | error e => exact .stopped
    | ok => exact .cons (.done 0) answered

/-- A flush returns an error, or requests the flush of a namespace. -/
theorem run_flush (backend : SpdkBackend) (target : DeviceTarget) :
    (∃ e, (backend.flush target).run.run [] = (.error e, [])) ∨
    ∃ ns qpair, (backend.flush target).run.run [] =
      (backend.runtime (.flush ns qpair), [.flush ns qpair]) := by
  cases target with
  | fd | netPort => exact .inl ⟨_, rfl⟩
  | nvmeNs nsid =>
    unfold SpdkBackend.flush
    dsimp only
    rw [run_lift_bind]
    cases backend.nvmeNamespace nsid with
    | error e => exact .inl ⟨e, rfl⟩
    | ok ns =>
      dsimp only
      rw [run_lift_bind]
      cases backend.qpair with
      | error e => exact .inl ⟨e, rfl⟩
      | ok qpair => exact .inr ⟨ns, qpair, run_invoke backend _ []⟩

end Requests

/-! ## What a call changes -/

/-- The bytes of the range of a write, and of the buffers of a read. -/
def IoCall.Reaches (call : IoCall) (ns : NvmeNamespace) (offset : Nat) : Cell → Prop
  | .device nsid i =>
    call.direction = .write ∧ nsid = ns.nsid ∧ offset ≤ i ∧ i < offset + totalLen call.bufs
  | .memory a => call.direction = .read ∧
      ∃ buf ∈ call.bufs, buf.inner.virt.toNat ≤ a ∧ a < buf.inner.virt.toNat + buf.len.toNat

section Cells

variable {ns : NvmeNamespace} {bufs : List PooledBuf} {sector : UInt32 → Nat} {cell : Cell}
  {direction : Direction} {command : Payload}

/-- A command is for the whole sectors of one of the buffers, within the range. -/
theorem mem_commandsOf {lba : UInt64} (small : ∀ buf ∈ bufs, (blocksOf ns buf).toNat < 2 ^ 32)
    (room : lba.toNat + blockSum ns bufs < 2 ^ 64)
    (mem : command ∈ commandsOf direction ns bufs lba) :
    ∃ buf ∈ bufs, ∃ (first : UInt64) (lbaCount : UInt32),
      command = .io direction ns.nsid buf.inner.virt first lbaCount ∧
      lbaCount.toNat = (blocksOf ns buf).toNat ∧ lba.toNat ≤ first.toNat ∧
      first.toNat + lbaCount.toNat ≤ lba.toNat + blockSum ns bufs := by
  induction bufs generalizing lba with
  | nil => cases mem
  | cons buf bufs ih =>
    obtain ⟨here, rest⟩ := List.forall_mem_cons.mp small
    have sum := blockSum_cons ns buf bufs
    have next := (checkedAdd_of_lt (a := lba) (b := blocksOf ns buf) (by omega)).2
    rcases List.mem_cons.mp mem with rfl | mem
    · have count := toNat_toUInt32 here
      exact ⟨buf, List.mem_cons_self, lba, _, rfl, count, Nat.le_refl _, by omega⟩
    · obtain ⟨buf', mem', first, lbaCount, command_eq, count, low, high⟩ :=
        ih rest (by omega) mem
      exact ⟨buf', List.mem_cons_of_mem _ mem', first, lbaCount, command_eq, count, by omega,
        by omega⟩

theorem Admitted.accepts {backend : SpdkBackend} {target : DeviceTarget} {offset : UInt64}
    {qpair : IoQueuePair} {range : NvmeLbaRange}
    (h : Admitted backend target offset bufs ns qpair)
    (covers : range.CoversBytes ns offset.toNat (totalLen bufs)) :
    Accepts ns offset.toNat bufs range := by
  have capacity := h.capacity
  rw [← covers.start, ← covers.size, ← Nat.add_mul,
    Nat.mul_le_mul_right_iff ns.sectorSize_pos] at capacity
  have sectors := ns.capacitySectors.toNat_lt
  exact ⟨covers.start, covers.size, Nat.lt_of_le_of_lt h.max_io_size ns.maxIoSize.toNat_lt,
    by omega⟩

/-- The commands of a call change only what the call may change. -/
theorem Accepts.reaches {call : IoCall} {offset : Nat} {range : NvmeLbaRange}
    (h : Accepts ns offset call.bufs range) (sector_eq : sector ns.nsid = ns.sectorSize.toNat)
    (mem : command ∈ commandsOf call.direction ns call.bufs range.lba)
    (changes : command.Changes sector cell) : call.Reaches ns offset cell := by
  obtain ⟨buf, buf_mem, first, lbaCount, rfl, count, low, high⟩ :=
    mem_commandsOf h.small h.room mem
  have whole := blocksOf_mul_le ns buf
  have most := blockSum_mul_le ns call.bufs
  cases cell with
  | device nsid i =>
    obtain ⟨_, _, _, same, start, stop⟩ := changes
    injection same with direction_eq nsid_eq _ first_eq _
    subst nsid_eq first_eq
    simp only [Payload.size, sector_eq] at start stop
    have low' := Nat.mul_le_mul_right ns.sectorSize.toNat low
    have high' := Nat.mul_le_mul_right ns.sectorSize.toNat high
    have begins := h.start
    rw [Nat.add_mul, Nat.add_mul] at high'
    exact ⟨direction_eq, rfl, by omega, by omega⟩
  | memory a =>
    obtain ⟨_, _, _, _, same, start, stop⟩ := changes
    injection same with direction_eq _ buf_eq _ _
    subst buf_eq
    simp only [Payload.size, sector_eq, count] at stop
    exact ⟨direction_eq, buf, buf_mem, start, by omega⟩

end Cells

namespace Stack

variable {stack : Stack} {s t : Store} {cell : Cell} {commands : List Payload}

/-- The backend that makes no requests. Its gate is that of `stack.backend s`. -/
def gate (stack : Stack) : SpdkBackend := ⟨stack.namespaces, stack.qpairs, fun _ => .ok 0⟩

/-- A flush moves no bytes. -/
theorem flush_cases (target : DeviceTarget) : ∃ commands : List Payload,
    (stack.submit s (·.flush target)).2 = commands.foldl stack.complete s ∧
      ∀ c ∈ commands, ∃ nsid, c = .flush nsid := by
  obtain ⟨e, run⟩ | ⟨ns, qpair, run⟩ := run_flush (stack.backend s) target
  · unfold Stack.submit
    rw [run]
    exact ⟨[], rfl, nofun⟩
  · unfold Stack.submit
    rw [run]
    obtain ⟨commands, log, before, -⟩ := @submitted_flush stack.rt stack.answer
      ns qpair s.log
    refine ⟨commands, by simp [Stack.serve, log], fun c mem => ⟨ns.nsid, ?_⟩⟩
    exact List.mem_singleton.mp (before.subset mem)

/-- The bytes that an event may change of itself. -/
def Covers (stack : Stack) (cell : Cell) : StoreEvent → Prop
  | .io target offset call => ∃ ns qpair, Admitted stack.gate target offset call.bufs ns qpair ∧
      call.Reaches ns offset.toNat cell
  | .fill a bytes => ∃ b, cell = .memory b ∧ a ≤ b ∧ b < a + bytes.length
  | .flush _ | .late .. => False

/-- No command that is still with the device changes the byte. -/
def Safe (stack : Stack) (cell : Cell) (s : Store) : Prop :=
  ∀ c ∈ s.abandoned, ¬ c.Changes stack.sector cell

end Stack

/-! ## What a call that succeeds does -/

/-- The bytes of some buffers, one after the other. -/
def gather (m : Nat → UInt8) (bufs : List PooledBuf) : List UInt8 :=
  bufs.flatMap fun buf => load m buf.inner.virt.toNat buf.len.toNat

/-- The memory with some bytes in the buffers, one after the other. -/
def scatter (m : Nat → UInt8) : List PooledBuf → List UInt8 → Nat → UInt8
  | [], _ => m
  | buf :: bufs, bytes =>
    scatter (store m buf.inner.virt.toNat (bytes.take buf.len.toNat)) bufs
      (bytes.drop buf.len.toNat)

section Effects

variable {bufs : List PooledBuf} {m : Nat → UInt8} {bytes : List UInt8}

theorem length_gather (m : Nat → UInt8) (bufs : List PooledBuf) :
    (gather m bufs).length = totalLen bufs := by
  induction bufs with
  | nil => rfl
  | cons buf bufs ih =>
    rw [gather, List.flatMap_cons, List.length_append, length_load, totalLen]
    exact congrArg _ ih

variable {stack : Stack} {s : Store} {ns : NvmeNamespace} {lba : UInt64}

/-- What a call that succeeds does to the bytes. -/
def IoCall.effect (call : IoCall) (nsid : UInt32) (offset : Nat) (w : World) : World :=
  match call.direction with
  | .read => ⟨w.device, scatter w.memory call.bufs
      (load (w.device nsid) offset (totalLen call.bufs))⟩
  | .write => w.write nsid offset (gather w.memory call.bufs)

end Effects

/-- The memory of the program holds the low bytes of its addresses. -/
def Store.new : Store := ⟨⟨fun _ _ => 0, fun a => .ofNat a⟩, [], []⟩

def Store.fill (s : Store) (a : Nat) (bytes : List UInt8) : Store :=
  { s with world := { s.world with memory := store s.world.memory a bytes } }

end BypassIo.Backend.Spdk
