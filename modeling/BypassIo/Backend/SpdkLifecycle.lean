import BypassIo.Backend.SpdkGate

/-!
# What SPDK holds for a process

`probe_and_init` takes the environment, the controllers and a queue pair from SPDK, and `HugeBuf`
takes memory from it while a flag of the process says so. The native calls are steps on an
explicit environment; a call that it cannot serve is recorded in `misuses`.

`probe_and_init` releases nothing where it returns early. The runtime it returns owns the first
controller only, and the flag stays on when the runtime is dropped.

## Main definitions

* `probeAndInit`, `NativeSpdkRuntime.drop`, `HugeBuf.alloc`, `HugeBuf.drop`.
* `machine`: a process that probes, clones and drops the backend, and allocates and drops buffers.
* `Process.Sound`: everything taken from SPDK is given back, once and in time.

## Main results

* `run_probeAndInit`: what a probe takes, and what it returns.
* `lifecycle_sound`: the runs in which everything is given back.
-/

namespace BypassIo.Backend.Spdk.Native
open Rust

/-! ## The environment -/

structure NativeCtrlr where
  ctrlr : UInt64
  deriving DecidableEq

structure NativeQpair where
  qpair : UInt64
  deriving DecidableEq

structure NativeNamespace where
  nsid : UInt32
  ns : UInt64
  deriving DecidableEq

/-- A native call; `attach` is the call of `attach_cb` for a controller that was attached. -/
inductive Call
  | envInit (rc : Int)
  | attach (controller : NativeCtrlr)
  | allocIoQpair (qpair : NativeQpair)
  | freeIoQpair (qpair : NativeQpair)
  | detach (controller : NativeCtrlr)
  | envFini
  | zmalloc (len : UInt64)
  | free (virt : UInt64)
  deriving DecidableEq

/-- The SPDK environment of the process, what is taken from it, and
`SPDK_DMA_ALLOCATIONS_ENABLED`. -/
structure Env where
  live : Bool
  finalised : Nat
  attached : List NativeCtrlr
  qpairs : List NativeQpair
  dmaAllocations : Bool
  misuses : List Call
  deriving DecidableEq

namespace Env

def new : Env := ⟨false, 0, [], [], false, []⟩

variable (env : Env)

/-- The environment can serve the call. -/
def serves : Call → Bool
  | .envInit _ => !env.live
  | .freeIoQpair qpair => env.live && decide (qpair ∈ env.qpairs)
  | .detach controller => env.live && decide (controller ∈ env.attached)
  | .attach _ | .allocIoQpair _ | .envFini | .zmalloc _ | .free _ => env.live

/-- What a call does when it is served. -/
def serve : Call → Env
  | .envInit rc => { env with live := rc == 0 }
  | .attach controller => { env with attached := env.attached ++ [controller] }
  | .allocIoQpair qpair => { env with qpairs := env.qpairs ++ [qpair] }
  | .freeIoQpair qpair => { env with qpairs := env.qpairs.erase qpair }
  | .detach controller => { env with attached := env.attached.erase controller }
  | .envFini => { env with live := false, finalised := env.finalised + 1 }
  | .zmalloc _ | .free _ => env

def call (c : Call) : Env :=
  if env.serves c then env.serve c else { env with misuses := env.misuses ++ [c] }

/-- Nothing is taken from SPDK, and buffers are not allocated from it. -/
structure Clean : Prop where
  live : env.live = false
  attached : env.attached = []
  qpairs : env.qpairs = []
  dmaAllocations : env.dmaAllocations = false

end Env

/-! ## Probing -/

/-- An active namespace of a controller, with its handle and what SPDK reports of it. -/
structure ActiveNs where
  nsid : UInt32
  ns : Option UInt64
  sectorSize : UInt32
  numSectors : UInt64
  maxIoXferSize : UInt32

/-- What the variable `BYPASS_IO_ENABLE_SPDK_HARDWARE` says and SPDK answers: the codes of the
initialization and of the probe, the pointers `attach_cb` gets, and for a controller its active
namespaces and the queue pair it allocates. -/
structure Answers where
  hardwareEnabled : Bool
  envInit : Int
  attaches : List (Option NativeCtrlr)
  probe : Int
  active : NativeCtrlr → List ActiveNs
  allocIoQpair : NativeCtrlr → Option NativeQpair

structure ProbeState where
  controllers : List NativeCtrlr

structure NativeSpdkRuntime where
  controllers : List NativeCtrlr
  namespaces : List NativeNamespace
  qpairs : List NativeQpair

structure NativeBackend where
  namespaces : List NvmeNamespace
  qpairs : List IoQueuePair
  runtime : NativeSpdkRuntime

/-- A call of `probe_and_init`, with the environment it leaves. -/
abbrev Init := ExceptT SpdkError (StateM Env)

def invoke (c : Call) : Init Unit := modify (·.call c)

def runtimeUnavailable : SpdkError :=
  .runtimeUnavailable "native SPDK adapter scaffold is compiled, but SPDK I/O calls are disabled pending safety audit"

def enableSpdkDmaAllocations : Init Unit := modify ({ · with dmaAllocations := true })

/-- `spdk_nvme_probe`, which calls `attach_cb` for each controller it attaches. -/
def probe : List (Option NativeCtrlr) → ProbeState → Init ProbeState
  | [], state => return state
  | none :: attaches, state => probe attaches state
  | some ctrlr :: attaches, state => do
    invoke (.attach ctrlr)
    probe attaches { state with controllers := state.controllers ++ [ctrlr] }

/-- The loop over the active namespaces, which ends at the number 0. -/
def discover : List ActiveNs → Except SpdkError (List NvmeNamespace × List NativeNamespace)
  | [] => return ([], [])
  | active :: rest =>
    if active.nsid = 0 then return ([], [])
    else match active.ns with
      | none => discover rest
      | some ns => do
        let nvme ← NvmeNamespace.new active.nsid active.sectorSize active.numSectors
          active.maxIoXferSize
        let (nvmes, natives) ← discover rest
        return (nvme :: nvmes, ⟨active.nsid, ns⟩ :: natives)

/-- The namespaces the loop looks at: those with a handle, before the number 0. -/
def listed (active : List ActiveNs) : List ActiveNs :=
  (active.takeWhile (·.nsid ≠ 0)).filter (·.ns.isSome)

/-- `NvmeNamespace::new` accepts what SPDK reports. -/
structure ActiveNs.Valid (active : ActiveNs) : Prop where
  sectorSize : active.sectorSize ≠ 0
  numSectors : active.numSectors ≠ 0
  maxIoXferSize : active.maxIoXferSize ≠ 0

def probeAndInit (a : Answers) : Init NativeBackend := do
  if a.hardwareEnabled = false then throw runtimeUnavailable
  else
    invoke (.envInit a.envInit)
    if a.envInit ≠ 0 then throw (.submitFailed a.envInit)
    else
      enableSpdkDmaAllocations
      let state ← probe a.attaches ⟨[]⟩
      if a.probe ≠ 0 then throw (.submitFailed a.probe)
      else match state.controllers.head? with
        | none => throw (.runtimeUnavailable "native SPDK probe found no controllers")
        | some controller =>
          let (nvmes, natives) ← discover (a.active controller)
          if nvmes = [] then
            throw (.runtimeUnavailable "native SPDK probe found no active namespaces")
          else match a.allocIoQpair controller with
            | none => throw .noQueuePairsConfigured
            | some qpair =>
              invoke (.allocIoQpair qpair)
              return ⟨nvmes, [⟨0⟩], ⟨[controller], natives, [qpair]⟩⟩

/-- `Drop for NativeSpdkRuntime`. No operation panics while it holds the lock of a queue pair, so
every lock is obtained. -/
def NativeSpdkRuntime.drop (runtime : NativeSpdkRuntime) (env : Env) : Env :=
  let env := runtime.qpairs.foldl (fun env qpair => env.call (.freeIoQpair qpair)) env
  let env := runtime.controllers.foldl (fun env controller => env.call (.detach controller)) env
  env.call .envFini

/-! ## Buffers -/

deriving instance DecidableEq for HugeBuf

inductive HugePageSize
  | mib2
  | gib1

def HugePageSize.bytes : HugePageSize → UInt64
  | mib2 => 2 * 1024 * 1024
  | gib1 => 1024 * 1024 * 1024

inductive AllocError
  | invalidInput (detail : String)
  | mmap

def roundUp (len align : UInt64) : Except AllocError UInt64 :=
  if len = 0 then .error (.invalidInput "buffer length must be non-zero")
  else if align = 0 then .error (.invalidInput "alignment is zero")
  else match checkedAdd64 len (align - 1) with
    | none => .error (.invalidInput "buffer length overflow")
    | some sum => .ok (sum / align * align)

/-- What the allocators answer: `spdk_zmalloc` with the physical address, the locked mapping of
huge pages, the anonymous mapping and whether it is locked, and the pagemap. -/
structure Memory where
  zmalloc : Option (UInt64 × UInt64)
  huge : Option UInt64
  anonymous : Option UInt64
  locks : Bool
  pagemap : Option UInt64

structure Mapping where
  virt : UInt64
  backing : HugeBufBacking
  locked : Bool

def mmapPreferred (memory : Memory) : Except AllocError Mapping :=
  match memory.huge, memory.anonymous with
  | some virt, _ => .ok ⟨virt, .hugePage, true⟩
  | none, none => .error .mmap
  | none, some virt =>
    .ok ⟨virt, if memory.locks then .lockedFallback else .pageableFallback, memory.locks⟩

/-- An allocation, with the environment it leaves. -/
abbrev Allocation := ExceptT AllocError (StateM Env)

def spdkDmaAlloc (memory : Memory) (len : UInt64) : Allocation (Option HugeBuf) := do
  modify (·.call (.zmalloc len))
  return memory.zmalloc.map fun (virt, phys) => ⟨virt, some phys, len, .spdkDma, true⟩

def mmapAlloc (memory : Memory) (len : UInt64) : Allocation HugeBuf := do
  let allocation ← mmapPreferred memory
  return ⟨allocation.virt, memory.pagemap, len, allocation.backing, allocation.locked⟩

def HugeBuf.alloc (memory : Memory) (len : UInt64) (pageSize : HugePageSize) :
    Allocation HugeBuf := do
  let len ← roundUp len pageSize.bytes
  if (← get).dmaAllocations then
    match ← spdkDmaAlloc memory len with
    | some buf => return buf
    | none => mmapAlloc memory len
  else mmapAlloc memory len

/-- `Drop for HugeBuf`: a mapping that is not of SPDK is unmapped. -/
def HugeBuf.drop (buf : HugeBuf) (env : Env) : Env :=
  if buf.backing = .spdkDma then env.call (.free buf.virt) else env

/-! ## A process -/

/-- The backend of a process: none yet, or none after an error; held through clones; dropped. -/
inductive Holder
  | absent (error : Option SpdkError)
  | held (runtime : NativeSpdkRuntime) (handles : Nat)
  | dropped

structure Process where
  env : Env
  backend : Holder
  bufs : List HugeBuf

inductive Event
  | probeAndInit (answers : Answers)
  | cloneBackend
  | dropBackend
  | allocBuf (memory : Memory) (len : UInt64) (pageSize : HugePageSize)
  | dropBuf (buf : HugeBuf)

def Process.new : Process := ⟨.new, .absent none, []⟩

/-- The runtime is behind an `Arc`: the last clone of the backend drops it. -/
def Process.step (s : Process) : Event → Option Process
  | .probeAndInit answers =>
    match s.backend with
    | .absent _ =>
      match (probeAndInit answers).run.run s.env with
      | (.ok backend, env) => some { s with env, backend := .held backend.runtime 1 }
      | (.error e, env) => some { s with env, backend := .absent (some e) }
    | .held .. | .dropped => none
  | .cloneBackend =>
    match s.backend with
    | .held runtime handles => some { s with backend := .held runtime (handles + 1) }
    | .absent _ | .dropped => none
  | .dropBackend =>
    match s.backend with
    | .held runtime handles =>
      if handles = 1 then some { s with env := runtime.drop s.env, backend := .dropped }
      else some { s with backend := .held runtime (handles - 1) }
    | .absent _ | .dropped => none
  | .allocBuf memory len pageSize =>
    match (HugeBuf.alloc memory len pageSize).run.run s.env with
    | (.ok buf, env) => some { s with env, bufs := buf :: s.bufs }
    | (.error _, env) => some { s with env }
  | .dropBuf buf =>
    if buf ∈ s.bufs then some { s with env := HugeBuf.drop buf s.env, bufs := s.bufs.erase buf }
    else none

def machine : Machine Process Event where
  start := (· = Process.new)
  step := Process.step

/-- Everything taken from SPDK is given back: after an error of `probe_and_init` nothing is held
and buffers are not allocated from SPDK; after the drop of the backend nothing is held and the
environment was finalised once; and every call found what it needs, so no resource is given back
twice and no buffer is allocated from or freed to an environment that was finalised. -/
structure Process.Sound (s : Process) : Prop where
  served : s.env.misuses = []
  failed : ∀ e, s.backend = .absent e → s.env.Clean
  dropped : s.backend = .dropped →
    s.env.live = false ∧ s.env.finalised = 1 ∧ s.env.attached = [] ∧ s.env.qpairs = []

/-! ## What the operations do -/

section Operations

variable {env : Env} {a : Answers}

theorem run_invoke (c : Call) : (invoke c).run.run env = (.ok (), env.call c) := rfl

/-- A probe on a live environment attaches every controller it is given. -/
theorem run_probe (live : env.live = true) (attaches : List (Option NativeCtrlr))
    (state : ProbeState) : (probe attaches state).run.run env =
      (.ok ⟨state.controllers ++ attaches.filterMap id⟩,
        { env with attached := env.attached ++ attaches.filterMap id }) := by
  induction attaches generalizing env state with
  | nil => simp [probe]; rfl
  | cons ctrlr attaches ih =>
    cases ctrlr with
    | none => exact ih live state
    | some ctrlr =>
      have served : env.call (.attach ctrlr) =
          { env with attached := env.attached ++ [ctrlr] } := by
        simp [Env.call, Env.serves, Env.serve, live]
      have rest := @ih { env with attached := env.attached ++ [ctrlr] } live
        ⟨state.controllers ++ [ctrlr]⟩
      rw [probe]
      refine (run_bind_ok (run_invoke (.attach ctrlr))).trans ?_
      rw [served, rest]
      simp

theorem new_eq_ok {nsid sectorSize maxIoSize : UInt32} {capacity : UInt64} :
    (∃ ns, NvmeNamespace.new nsid sectorSize capacity maxIoSize = .ok ns) ↔
      nsid ≠ 0 ∧ sectorSize ≠ 0 ∧ capacity ≠ 0 ∧ maxIoSize ≠ 0 := by
  unfold NvmeNamespace.new
  split_ifs <;> simp_all

/-- The loop succeeds when every namespace it looks at is valid. -/
theorem discover_isOk (active : List ActiveNs) :
    (∃ found, discover active = .ok found) ↔ ∀ ns ∈ listed active, ns.Valid := by
  induction active with
  | nil => exact iff_of_true ⟨_, rfl⟩ (by simp [listed])
  | cons ns rest ih =>
    by_cases zero : ns.nsid = 0
    · rw [discover, if_pos zero]
      exact iff_of_true ⟨_, rfl⟩ (by simp [listed, zero])
    rw [discover, if_neg zero]
    cases handle : ns.ns with
    | none => simpa [listed, zero, handle] using ih
    | some handle' =>
      have here : listed (ns :: rest) = ns :: listed rest := by simp [listed, zero, handle]
      have valid : (∃ nvme, NvmeNamespace.new ns.nsid ns.sectorSize ns.numSectors
          ns.maxIoXferSize = .ok nvme) ↔ ns.Valid := by
        rw [new_eq_ok]
        exact ⟨fun h => ⟨h.2.1, h.2.2.1, h.2.2.2⟩, fun h => ⟨zero, h.1, h.2, h.3⟩⟩
      rw [here, List.forall_mem_cons, ← valid, ← ih]
      simp only [bind_eq_ok, pure, Except.pure]
      constructor
      · rintro ⟨_, nvme, new, found, later, -⟩
        exact ⟨⟨nvme, new⟩, found, later⟩
      · rintro ⟨⟨nvme, new⟩, found, later⟩
        exact ⟨_, nvme, new, found, later, rfl⟩

/-- The backend and the runtime get the namespaces the loop looks at. -/
theorem discover_nsids {active : List ActiveNs} {nvmes : List NvmeNamespace}
    {natives : List NativeNamespace} (h : discover active = .ok (nvmes, natives)) :
    nvmes.map NvmeNamespace.nsid = (listed active).map ActiveNs.nsid ∧
      natives.map NativeNamespace.nsid = (listed active).map ActiveNs.nsid := by
  induction active generalizing nvmes natives with
  | nil =>
    cases h
    exact ⟨rfl, rfl⟩
  | cons ns rest ih =>
    by_cases zero : ns.nsid = 0
    · rw [discover, if_pos zero] at h
      cases h
      simp [listed, zero]
    rw [discover, if_neg zero] at h
    cases handle : ns.ns with
    | none =>
      rw [handle] at h
      simpa [listed, zero, handle] using ih h
    | some handle' =>
      rw [handle] at h
      obtain ⟨nvme, new, h⟩ := bind_eq_ok.mp h
      obtain ⟨⟨nvmes', natives'⟩, later, h⟩ := bind_eq_ok.mp h
      cases h
      have here : listed (ns :: rest) = ns :: listed rest := by simp [listed, zero, handle]
      obtain ⟨publics, privates⟩ := ih later
      have same : nvme.nsid = ns.nsid := by
        unfold NvmeNamespace.new at new
        split_ifs at new
        cases new
        rfl
      rw [here, List.map_cons, List.map_cons, List.map_cons, publics, privates, same]
      exact ⟨rfl, rfl⟩

/-- The controllers that were attached. -/
def Answers.controllers (a : Answers) : List NativeCtrlr := a.attaches.filterMap id

/-- SPDK was initialized. -/
def Answers.Started (a : Answers) : Prop := a.hardwareEnabled = true ∧ a.envInit = 0

/-- Every step after the initialization succeeds, on this first controller. -/
structure Answers.Complete (a : Answers) (controller : NativeCtrlr) : Prop where
  probe : a.probe = 0
  first : a.controllers.head? = some controller
  valid : ∀ ns ∈ listed (a.active controller), ns.Valid
  found : listed (a.active controller) ≠ []
  qpair : (a.allocIoQpair controller).isSome

/-- The environment after `spdk_nvme_probe`. -/
def probed (env : Env) (a : Answers) : Env :=
  { env with live := true, dmaAllocations := true, attached := a.controllers }

theorem run_throw {α : Type} (e : SpdkError) : (throw e : Init α).run.run env = (.error e, env) :=
  rfl

/-- What a call of `probe_and_init` leaves in a clean environment: nothing when SPDK was not
initialized; all it took when it fails later; and what the backend has, with the controllers
after the first. -/
theorem run_probeAndInit (clean : env.Clean) (a : Answers) :
    ¬ a.Started ∧ (∃ e, (probeAndInit a).run.run env = (.error e, env)) ∨
    a.Started ∧ (∀ controller, ¬ a.Complete controller) ∧
      (∃ e, (probeAndInit a).run.run env = (.error e, probed env a)) ∨
    a.Started ∧ ∃ controller qpair backend, a.Complete controller ∧
      backend.runtime.controllers = [controller] ∧ backend.runtime.qpairs = [qpair] ∧
      (probeAndInit a).run.run env = (.ok backend, { probed env a with qpairs := [qpair] }) := by
  unfold probeAndInit
  by_cases hardware : a.hardwareEnabled = false
  · rw [if_pos hardware]
    exact .inl ⟨by simp [Answers.Started, hardware], _, run_throw _⟩
  rw [if_neg hardware, run_bind_ok (run_invoke _)]
  have served : env.call (.envInit a.envInit) = { env with live := a.envInit == 0 } := by
    simp [Env.call, Env.serves, Env.serve, clean.live]
  by_cases init : a.envInit = 0
  swap
  · have same : env.call (.envInit a.envInit) = env := by
      rw [served, beq_eq_false_iff_ne.mpr init, ← clean.live]
    rw [if_pos init, same]
    exact .inl ⟨fun started => init started.2, _, run_throw _⟩
  have started : a.Started := ⟨by simpa using hardware, init⟩
  refine .inr ?_
  have attached := @run_probe { env with live := true, dmaAllocations := true } rfl a.attaches ⟨[]⟩
  have enabled : (enableSpdkDmaAllocations).run.run (env.call (.envInit a.envInit)) =
      (.ok (), { env with live := true, dmaAllocations := true }) := by
    rw [served, beq_iff_eq.mpr init]
    rfl
  rw [if_neg (not_not.mpr init), run_bind_ok enabled, run_bind_ok attached]
  rw [clean.attached, List.nil_append]
  change a.Started ∧ (∀ controller, ¬ a.Complete controller) ∧
    (∃ e, StateT.run _ (probed env a) = _) ∨ a.Started ∧ ∃ controller qpair backend, _ ∧ _ ∧ _ ∧
      StateT.run _ (probed env a) = _
  by_cases done : a.probe = 0
  swap
  · rw [if_pos done]
    exact .inl ⟨started, fun _ complete => done complete.probe, _, run_throw _⟩
  rw [if_neg (not_not.mpr done)]
  cases first : (a.attaches.filterMap id).head? with
  | none =>
    refine .inl ⟨started, fun _ complete => ?_, _, run_throw _⟩
    have := complete.first.symm.trans first
    cases this
  | some controller =>
    dsimp only
    have only : ∀ c, a.Complete c → c = controller := fun c complete =>
      Option.some.inj (complete.first.symm.trans first)
    rw [run_lift_bind]
    cases listing : discover (a.active controller) with
    | error e =>
      refine .inl ⟨started, fun c complete => ?_, _, rfl⟩
      obtain rfl := only c complete
      obtain ⟨found, ok⟩ := (discover_isOk _).mpr complete.valid
      rw [listing] at ok
      cases ok
    | ok found =>
      obtain ⟨nvmes, natives⟩ := found
      have numbers := congrArg List.length (discover_nsids listing).1
      rw [List.length_map, List.length_map] at numbers
      dsimp only
      by_cases empty : nvmes = []
      · rw [if_pos empty]
        refine .inl ⟨started, fun c complete => ?_, _, run_throw _⟩
        obtain rfl := only c complete
        rw [empty, List.length_nil] at numbers
        exact complete.found (List.length_eq_zero_iff.mp numbers.symm)
      rw [if_neg empty]
      cases allocated : a.allocIoQpair controller with
      | none =>
        refine .inl ⟨started, fun c complete => ?_, _, run_throw _⟩
        obtain rfl := only c complete
        have := complete.qpair
        rw [allocated] at this
        cases this
      | some qpair =>
        have valid := (discover_isOk _).mp ⟨_, listing⟩
        have held : listed (a.active controller) ≠ [] := by
          intro none
          rw [none, List.length_nil] at numbers
          exact empty (List.length_eq_zero_iff.mp numbers)
        have took : (invoke (.allocIoQpair qpair)).run.run (probed env a) =
            (.ok (), { probed env a with qpairs := [qpair] }) := by
          simp [run_invoke, Env.call, Env.serves, Env.serve, probed, clean.qpairs]
        refine .inr ⟨started, controller, qpair, _, ⟨done, first, valid, held, by simp [allocated]⟩,
          ?_, ?_, (run_bind_ok took).trans rfl⟩
        · rfl
        · rfl

/-- A runtime on a live environment, in which `rest` is attached and is not the runtime's. -/
structure Held (env : Env) (runtime : NativeSpdkRuntime) (rest : List NativeCtrlr) : Prop where
  live : env.live = true
  finalised : env.finalised = 0
  dmaAllocations : env.dmaAllocations = true
  attached : env.attached = runtime.controllers ++ rest
  qpairs : env.qpairs = runtime.qpairs

theorem freeIoQpairs (live : env.live = true) {qpairs : List NativeQpair}
    (held : env.qpairs = qpairs) :
    qpairs.foldl (fun env qpair => env.call (.freeIoQpair qpair)) env =
      { env with qpairs := [] } := by
  induction qpairs generalizing env with
  | nil => rw [List.foldl_nil, ← held]
  | cons qpair qpairs ih =>
    have served : env.call (.freeIoQpair qpair) = { env with qpairs := qpairs } := by
      simp [Env.call, Env.serves, Env.serve, live, held]
    rw [List.foldl_cons, served]
    exact ih live rfl

theorem detachAll (live : env.live = true) {controllers rest : List NativeCtrlr}
    (held : env.attached = controllers ++ rest) :
    controllers.foldl (fun env controller => env.call (.detach controller)) env =
      { env with attached := rest } := by
  induction controllers generalizing env with
  | nil => rw [List.foldl_nil, ← List.nil_append rest, ← held]
  | cons controller controllers ih =>
    have served : env.call (.detach controller) =
        { env with attached := controllers ++ rest } := by
      simp [Env.call, Env.serves, Env.serve, live, held]
    rw [List.foldl_cons, served]
    exact ih live rfl

/-- The drop of the runtime gives back what the runtime has, and leaves the rest attached. -/
theorem Held.drop {runtime : NativeSpdkRuntime} {rest : List NativeCtrlr}
    (h : Held env runtime rest) : runtime.drop env =
      { env with live := false, finalised := 1, attached := rest, qpairs := [] } := by
  have freed := freeIoQpairs h.live h.qpairs
  have detached := @detachAll { env with qpairs := [] } h.live runtime.controllers rest h.attached
  rw [NativeSpdkRuntime.drop, freed, detached]
  simp [Env.call, Env.serves, Env.serve, h.live, h.finalised]

theorem mmapAlloc_run (memory : Memory) (len : UInt64) : ∃ r,
    (mmapAlloc memory len).run.run env = (r, env) ∧ ∀ buf, r = .ok buf → buf.backing ≠ .spdkDma := by
  unfold mmapAlloc
  rw [run_lift_bind]
  unfold mmapPreferred
  split
  · next mapped =>
    refine ⟨_, rfl, fun buf same => ?_⟩
    cases same
    split at mapped <;> cases mapped
    · simp
    · dsimp only
      split <;> simp
  · exact ⟨_, rfl, nofun⟩

/-- An allocation calls SPDK exactly when the length can be rounded up and the flag is on. -/
theorem run_alloc (memory : Memory) (len : UInt64) (pageSize : HugePageSize) :
    (∃ r, (HugeBuf.alloc memory len pageSize).run.run env = (r, env) ∧
      (env.dmaAllocations = true → ∀ n, roundUp len pageSize.bytes ≠ .ok n) ∧
      ∀ buf, r = .ok buf → buf.backing ≠ .spdkDma) ∨
    ∃ n r, roundUp len pageSize.bytes = .ok n ∧ env.dmaAllocations = true ∧
      (HugeBuf.alloc memory len pageSize).run.run env = (r, env.call (.zmalloc n)) := by
  unfold HugeBuf.alloc
  rw [run_lift_bind]
  cases rounded : roundUp len pageSize.bytes with
  | error e => exact .inl ⟨_, rfl, fun _ _ => nofun, nofun⟩
  | ok n =>
    have read : (get : Allocation Env).run.run env = (.ok env, env) := rfl
    dsimp only
    rw [run_bind_ok read]
    by_cases enabled : env.dmaAllocations = true
    · have asked : (spdkDmaAlloc memory n).run.run env = (.ok (memory.zmalloc.map fun (virt, phys) =>
          ⟨virt, some phys, n, .spdkDma, true⟩), env.call (.zmalloc n)) := rfl
      rw [if_pos enabled, run_bind_ok asked]
      refine .inr ⟨n, ?_⟩
      cases memory.zmalloc with
      | none =>
        obtain ⟨r, run, -⟩ := @mmapAlloc_run (env.call (.zmalloc n)) memory n
        exact ⟨r, rfl, enabled, run⟩
      | some addrs => exact ⟨_, rfl, enabled, rfl⟩
    · rw [if_neg enabled]
      obtain ⟨r, run, unlocked⟩ := @mmapAlloc_run env memory n
      exact .inl ⟨r, run, fun on => absurd on enabled, unlocked⟩

end Operations

/-! ## Runs -/

/-- When a step gives everything back: a probe that starts SPDK attaches one controller and
completes, and after the drop of the backend no buffer is allocated and none of SPDK is dropped. -/
def Careful (s : Process) : Event → Prop
  | .probeAndInit a =>
    a.Started → ∃ controller, a.Complete controller ∧ a.controllers = [controller]
  | .allocBuf _ len pageSize => s.backend = .dropped → ∀ n, roundUp len pageSize.bytes ≠ .ok n
  | .dropBuf buf => s.backend = .dropped → buf.backing ≠ .spdkDma
  | .cloneBackend | .dropBackend => True

/-- What holds between the steps, by the state of the backend. -/
def Process.Kept (s : Process) : Prop :=
  s.env.misuses = [] ∧
  match s.backend with
  | .absent _ => s.env.Clean ∧ s.env.finalised = 0 ∧ ∀ buf ∈ s.bufs, buf.backing ≠ .spdkDma
  | .held runtime _ => Held s.env runtime []
  | .dropped => s.env.live = false ∧ s.env.finalised = 1 ∧ s.env.attached = [] ∧
      s.env.qpairs = [] ∧ s.env.dmaAllocations = true

theorem Process.Kept.sound {s : Process} (h : s.Kept) : s.Sound where
  served := h.1
  failed e absent := by
    have kept := h.2
    rw [absent] at kept
    exact kept.1
  dropped dropped := by
    have kept := h.2
    rw [dropped] at kept
    exact ⟨kept.1, kept.2.1, kept.2.2.1, kept.2.2.2.1⟩

theorem kept_new : Process.new.Kept := ⟨rfl, ⟨rfl, rfl, rfl, rfl⟩, rfl, nofun⟩

/-- A probe that completes on one controller holds what the runtime will give back. -/
theorem held_probed {env : Env} {a : Answers} (fresh : env.finalised = 0)
    {controller : NativeCtrlr} {qpair : NativeQpair} {runtime : NativeSpdkRuntime}
    {rest : List NativeCtrlr} (controllers : a.controllers = controller :: rest)
    (owned : runtime.controllers = [controller]) (queues : runtime.qpairs = [qpair]) :
    Held { probed env a with qpairs := [qpair] } runtime rest := by
  refine ⟨rfl, fresh, rfl, ?_, queues.symm⟩
  rw [owned]
  exact controllers

namespace Process.Kept

variable {s t : Process}

theorem probeAndInit {a : Answers} (kept : s.Kept) (careful : Careful s (.probeAndInit a))
    (h : s.step (.probeAndInit a) = some t) : t.Kept := by
  obtain ⟨env, backend, bufs⟩ := s
  obtain ⟨served, kept⟩ := kept
  cases backend with
  | held | dropped => cases h
  | absent e =>
    obtain ⟨clean, fresh, mapped⟩ := kept
    unfold Process.step at h
    dsimp only at h
    rcases run_probeAndInit clean a with ⟨-, e, run⟩ | ⟨started, incomplete, -⟩ |
      ⟨started, controller, qpair, found, complete, owned, queues, run⟩
    · rw [run] at h
      cases h
      exact ⟨served, clean, fresh, mapped⟩
    · obtain ⟨controller, complete, -⟩ := careful started
      exact absurd complete (incomplete controller)
    · obtain ⟨other, complete', single⟩ := careful started
      obtain rfl := Option.some.inj (complete.first.symm.trans complete'.first)
      rw [run] at h
      cases h
      exact ⟨served, held_probed fresh single owned queues⟩

theorem dropBackend (kept : s.Kept) (h : s.step .dropBackend = some t) : t.Kept := by
  obtain ⟨env, backend, bufs⟩ := s
  obtain ⟨served, kept⟩ := kept
  cases backend with
  | absent | dropped => cases h
  | held runtime handles =>
    unfold Process.step at h
    dsimp only at h kept
    split at h
    · cases h
      rw [kept.drop]
      exact ⟨served, rfl, rfl, rfl, rfl, kept.dmaAllocations⟩
    · cases h
      exact ⟨served, kept⟩

theorem allocBuf {memory : Memory} {len : UInt64} {pageSize : HugePageSize} (kept : s.Kept)
    (careful : Careful s (.allocBuf memory len pageSize))
    (h : s.step (.allocBuf memory len pageSize) = some t) : t.Kept := by
  obtain ⟨env, backend, bufs⟩ := s
  obtain ⟨served, kept⟩ := kept
  unfold Process.step at h
  dsimp only at h served kept
  rcases @run_alloc env memory len pageSize with ⟨r, run, -, mapped⟩ | ⟨n, r, rounded, on, run⟩
  · rw [run] at h
    cases r with
    | error e =>
      cases h
      exact ⟨served, kept⟩
    | ok buf =>
      cases h
      cases backend with
      | absent e =>
        obtain ⟨clean, fresh, others⟩ := kept
        exact ⟨served, clean, fresh, List.forall_mem_cons.mpr ⟨mapped buf rfl, others⟩⟩
      | held | dropped => exact ⟨served, kept⟩
  · cases backend with
    | absent e =>
      rw [kept.1.dmaAllocations] at on
      cases on
    | dropped => exact absurd rounded (careful rfl n)
    | held runtime handles =>
      have same : env.call (.zmalloc n) = env := by
        simp [Env.call, Env.serves, Env.serve, kept.live]
      rw [run, same] at h
      cases r <;> cases h <;> exact ⟨served, kept⟩

theorem dropBuf {buf : HugeBuf} (kept : s.Kept) (careful : Careful s (.dropBuf buf))
    (h : s.step (.dropBuf buf) = some t) : t.Kept := by
  obtain ⟨env, backend, bufs⟩ := s
  obtain ⟨served, kept⟩ := kept
  obtain ⟨mem, h⟩ := Option.ite_none_right_eq_some.mp h
  cases h
  dsimp only at served kept
  have same : HugeBuf.drop buf env = env := by
    unfold HugeBuf.drop
    split
    · next spdk =>
      cases backend with
      | absent e => exact absurd spdk (kept.2.2 buf mem)
      | dropped => exact absurd spdk (careful rfl)
      | held => simp [Env.call, Env.serves, Env.serve, kept.live]
    · rfl
  rw [same]
  cases backend with
  | absent e =>
    obtain ⟨clean, fresh, others⟩ := kept
    exact ⟨served, clean, fresh, fun b hb => others b (List.mem_of_mem_erase hb)⟩
  | held | dropped => exact ⟨served, kept⟩

end Process.Kept

theorem kept_step {s t : Process} {e : Event} (kept : s.Kept) (careful : Careful s e)
    (h : s.step e = some t) : t.Kept := by
  cases e with
  | probeAndInit a => exact kept.probeAndInit careful h
  | cloneBackend =>
    obtain ⟨env, backend, bufs⟩ := s
    cases backend with
    | absent | dropped => cases h
    | held runtime handles =>
      cases h
      exact kept
  | dropBackend => exact kept.dropBackend h
  | allocBuf memory len pageSize => exact kept.allocBuf careful h
  | dropBuf buf => exact kept.dropBuf careful h

/-- A step that is not careful can be followed to a state in which something is not given back. -/
theorem unsound_of_careless {s t : Process} {e : Event} (kept : s.Kept) (careless : ¬ Careful s e)
    (h : machine.step s e = some t) : ∃ es u, machine.runs t es = some u ∧ ¬ u.Sound := by
  obtain ⟨env, backend, bufs⟩ := s
  obtain ⟨served, kept⟩ := kept
  dsimp only at served kept
  change Process.step _ e = some t at h
  have misused : ∀ (c : Call) backend bufs, env.live = false → (∀ rc, c ≠ .envInit rc) →
      ¬ Process.Sound ⟨env.call c, backend, bufs⟩ := by
    intro c backend bufs dead other sound
    have := sound.served
    cases c <;> simp_all [Env.call, Env.serves]
  cases e with
  | probeAndInit a =>
    cases backend with
    | held | dropped => cases h
    | absent e =>
      obtain ⟨clean, fresh, -⟩ := kept
      simp only [Careful, not_forall] at careless
      obtain ⟨started, careless⟩ := careless
      unfold Process.step at h
      dsimp only at h
      rcases run_probeAndInit clean a with ⟨unstarted, -⟩ | ⟨-, -, e, run⟩ |
        ⟨-, controller, qpair, found, complete, owned, queues, run⟩
      · exact absurd started unstarted
      · rw [run] at h
        cases h
        refine ⟨[], _, rfl, fun sound => ?_⟩
        have live := (sound.failed _ rfl).live
        cases live
      · obtain ⟨rest, controllers⟩ := List.head?_eq_some_iff.mp complete.first
        have held := held_probed (a := a) fresh controllers owned queues
        rw [run] at h
        cases h
        refine ⟨[.dropBackend], _, rfl, fun sound => ?_⟩
        have left : rest = [] := by
          have := (sound.dropped rfl).2.2.1
          rw [held.drop] at this
          exact this
        exact careless ⟨controller, complete, by rw [controllers, left]⟩
  | cloneBackend | dropBackend => exact absurd trivial careless
  | allocBuf memory len pageSize =>
    simp only [Careful, not_forall, not_not] at careless
    obtain ⟨rfl, n, rounded⟩ := careless
    obtain ⟨dead, -, -, -, on⟩ := kept
    unfold Process.step at h
    dsimp only at h
    rcases @run_alloc env memory len pageSize with ⟨r, -, failed, -⟩ | ⟨m, r, -, -, run⟩
    · exact absurd rounded (failed on n)
    · rw [run] at h
      cases r <;> cases h <;> exact ⟨[], _, rfl, misused _ _ _ dead nofun⟩
  | dropBuf buf =>
    simp only [Careful, not_forall, not_not] at careless
    obtain ⟨rfl, spdk⟩ := careless
    obtain ⟨-, h⟩ := Option.ite_none_right_eq_some.mp h
    cases h
    refine ⟨[], _, rfl, ?_⟩
    rw [HugeBuf.drop, if_pos spdk]
    exact misused _ _ _ kept.1 nofun

/-- In every run of careful steps everything is given back; and any other step of such a run can
be followed to a state in which something is not. -/
theorem lifecycle_sound {s : Process} (reach : machine.Reach Careful s) :
    s.Sound ∧ ∀ e t, machine.step s e = some t → ¬ Careful s e →
      ∃ es u, machine.runs t es = some u ∧ ¬ u.Sound := by
  have kept : s.Kept := reach.invariant
    (fun s start => by rw [show s = .new from start]; exact kept_new) (fun s e t kept careful run => kept_step kept careful run)
  exact ⟨kept.sound, fun e t run careless => unsound_of_careless kept careless run⟩


/-- What SPDK answers on a machine with these controllers, each with these namespaces. -/
def answersOf (controllers : List UInt64) (active : List ActiveNs) : Answers where
  hardwareEnabled := true
  envInit := 0
  attaches := controllers.map fun ctrlr => some ⟨ctrlr⟩
  probe := 0
  active _ := active
  allocIoQpair _ := some ⟨4096⟩

def disk : ActiveNs := ⟨1, some 64, 512, 1048576, 131072⟩

/-- SPDK gives memory at an address. -/
def memoryAt (virt : UInt64) : Memory := ⟨some (virt, virt), none, none, false, none⟩

theorem complete_one : (answersOf [16] [disk]).Complete ⟨16⟩ where
  probe := rfl
  first := rfl
  valid ns mem := by
    obtain rfl := List.mem_singleton.mp (show ns ∈ [disk] from mem)
    exact ⟨by decide, by decide, by decide⟩
  found := by decide
  qpair := rfl

/-- A buffer dropped before the backend. -/
theorem lifecycle_sound_drops : ∃ s, machine.runs .new [.probeAndInit (answersOf [16] [disk]),
      .allocBuf (memoryAt 2097152) 1 .mib2, .dropBuf ⟨2097152, some 2097152, 2097152, .spdkDma, true⟩,
      .dropBackend] = some s ∧
    s.Sound ∧ ∀ e t, machine.step s e = some t → ¬ Careful s e →
      ∃ es u, machine.runs t es = some u ∧ ¬ u.Sound := by
  have probed : machine.Reach Careful _ := .step (.start rfl)
    (show Careful .new (.probeAndInit (answersOf [16] [disk])) from
      fun _ => ⟨⟨16⟩, complete_one, rfl⟩) rfl
  have allocated : machine.Reach Careful _ :=
    .step (e := .allocBuf (memoryAt 2097152) 1 .mib2) probed nofun rfl
  have freed : machine.Reach Careful _ := .step
    (e := .dropBuf ⟨2097152, some 2097152, 2097152, .spdkDma, true⟩) allocated nofun rfl
  have dropped : machine.Reach Careful _ := .step (e := .dropBackend) freed trivial rfl
  exact ⟨_, rfl, lifecycle_sound dropped⟩

/-- A controller with no namespace, and two controllers with a buffer dropped last. -/
theorem probe_leaks :
    (∃ s, machine.runs .new [.probeAndInit (answersOf [16] [])] = some s ∧
      s.backend = .absent (some (.runtimeUnavailable
        "native SPDK probe found no active namespaces")) ∧
      s.env = ⟨true, 0, [⟨16⟩], [], true, []⟩ ∧
      ¬ s.Sound) ∧
    ∃ s, machine.runs .new [.probeAndInit (answersOf [16, 32] [disk]),
        .allocBuf (memoryAt 2097152) 1 .mib2, .dropBackend,
        .dropBuf ⟨2097152, some 2097152, 2097152, .spdkDma, true⟩] = some s ∧
      s.env = ⟨false, 1, [⟨32⟩], [], true, [.free 2097152]⟩ ∧
      ¬ s.Sound := by
  refine ⟨⟨_, rfl, rfl, rfl, fun sound => ?_⟩, _, rfl, rfl, fun sound => ?_⟩
  · cases (sound.failed _ rfl).live
  · cases sound.served

end BypassIo.Backend.Spdk.Native
