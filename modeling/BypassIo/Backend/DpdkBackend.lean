import Mathlib.Data.List.Nodup
import BypassIo.Backend.Device
import BypassIo.Backend.DpdkReads
import BypassIo.Backend.Packet
import BypassIo.Library.Answered

/-!
# The DPDK backend

What `DpdkBackend` checks before it calls its runtime, with the runtime as a parameter and its
requests recorded in their order; and what `init` of the native runtime and the C function behind
it, `bypass_dpdk_configure_port`, ask of DPDK.

## Main definitions

* `DpdkPortConfig`, `DpdkConfig`: configurations carry what their constructors check.
* `ApiCall.perform`: the calls of the backend.
* `configurePort`, `init`: the calls of DPDK, each with the code it answers.

## Main results

* `requests_valid`: whatever is called, every request is for the configured port and one of its
  queues.
* `init_ready`: an initialization succeeds exactly where the port is started, with every queue set
  up once.
-/

namespace BypassIo.Backend.Dpdk
open Answered

abbrev QueueId := UInt16

inductive QueueKind
  | rx
  | tx
  deriving DecidableEq

/-- The errors that the backend returns itself, and those of its runtime. -/
inductive BackendError
  | runtime (e : DpdkError)
  | invalidConfig (detail : String)
  | invalidTarget (expected : String)
  | portMismatch (requested configured : UInt16)
  | invalidQueue (queue configured : UInt16) (kind : QueueKind)
  | emptyPacketBatch
  | invalidMulticastGroup (groupIp : Ipv4Addr) (port : UInt16)
  deriving DecidableEq

/-! ## Configurations -/

structure DpdkPortConfig where
  portId : UInt16
  rxQueues : UInt16
  txQueues : UInt16
  rxDesc : UInt16
  txDesc : UInt16
  promiscuous : Bool
  rxQueues_ne : rxQueues ≠ 0
  txQueues_ne : txQueues ≠ 0
  rxDesc_ne : rxDesc ≠ 0
  txDesc_ne : txDesc ≠ 0

def DpdkPortConfig.new (portId rxQueues txQueues rxDesc txDesc : UInt16) (promiscuous : Bool) :
    Except BackendError DpdkPortConfig :=
  if h : rxQueues = 0 then .error (.invalidConfig "rx_queues must be non-zero")
  else if h' : txQueues = 0 then .error (.invalidConfig "tx_queues must be non-zero")
  else if h'' : rxDesc = 0 then .error (.invalidConfig "rx_desc must be non-zero")
  else if h''' : txDesc = 0 then .error (.invalidConfig "tx_desc must be non-zero")
  else .ok ⟨portId, rxQueues, txQueues, rxDesc, txDesc, promiscuous, h, h', h'', h'''⟩

structure DpdkConfig where
  ealArgs : List String
  port : DpdkPortConfig
  mbufs : UInt32
  mbufCache : UInt32
  dataRoomSize : UInt16
  socketId : Int32
  ealArgs_ne : ealArgs ≠ []
  ealArgs_all : ∀ arg ∈ ealArgs, arg ≠ ""
  mbufs_ne : mbufs ≠ 0
  dataRoomSize_ne : dataRoomSize ≠ 0

def DpdkConfig.new (ealArgs : List String) (port : DpdkPortConfig) (mbufs mbufCache : UInt32)
    (dataRoomSize : UInt16) (socketId : Int32) : Except BackendError DpdkConfig :=
  if h : ealArgs = [] then .error (.invalidConfig "at least one EAL argument is required")
  else if h' : ∃ arg ∈ ealArgs, arg = "" then
    .error (.invalidConfig "EAL arguments must be non-empty")
  else if h'' : mbufs = 0 then .error (.invalidConfig "mbufs must be non-zero")
  else if h''' : dataRoomSize = 0 then .error (.invalidConfig "data_room_size must be non-zero")
  else .ok ⟨ealArgs, port, mbufs, mbufCache, dataRoomSize, socketId, h,
    fun arg mem empty => h' ⟨arg, mem, empty⟩, h'', h'''⟩

def DpdkConfig.portId (config : DpdkConfig) : UInt16 := config.port.portId

structure MulticastGroup where
  groupIp : Ipv4Addr
  port : UInt16

/-- `Ipv4Addr::is_multicast`: 224.0.0.0 to 239.255.255.255. -/
def Ipv4Addr.isMulticast (addr : Ipv4Addr) : Bool := 224 ≤ addr.a && addr.a ≤ 239

def MulticastGroup.validate (group : MulticastGroup) : Except BackendError Unit :=
  if group.groupIp.isMulticast = false then
    .error (.invalidMulticastGroup group.groupIp group.port)
  else if group.port = 0 then .error (.invalidMulticastGroup group.groupIp group.port)
  else .ok ()

/-! ## The backend -/

/-- A request of the runtime. -/
inductive Request
  | rxBurst (port : UInt16) (queue : QueueId) (maxPackets : UInt16)
  | txBurst (port : UInt16) (queue : QueueId) (packets : List Packet)
  | joinMulticast (port : UInt16) (group : MulticastGroup) (queue : QueueId)
  | readPacket (port : UInt16) (queue : QueueId) (buf : PooledBuf)
  | writePacket (port : UInt16) (queue : QueueId) (buf : PooledBuf)
  | readPackets (port : UInt16) (queue : QueueId) (bufs : List PooledBuf)
  | writePackets (port : UInt16) (queue : QueueId) (bufs : List PooledBuf)
  | pollPort (port : UInt16)

/-- What a call returns. -/
inductive Reply
  | packets (packets : List Packet)
  | count (n : Nat)
  | unit

/-- The runtime answers a request after those made before it. -/
structure DpdkBackend where
  config : DpdkConfig
  runtime : List Request → Request → Except DpdkError Reply

abbrev Submission := ExceptT BackendError (StateM (List Request))

namespace DpdkBackend

variable (backend : DpdkBackend)

/-- A call of the runtime. -/
def invoke (request : Request) : Submission Reply := do
  let log ← get
  set (log ++ [request])
  match backend.runtime log request with
  | .ok reply => return reply
  | .error e => throw (.runtime e)

def checkRxQueue (queue : QueueId) : Except BackendError Unit :=
  if queue ≥ backend.config.port.rxQueues then
    .error (.invalidQueue queue backend.config.port.rxQueues .rx)
  else .ok ()

def checkTxQueue (queue : QueueId) : Except BackendError Unit :=
  if queue ≥ backend.config.port.txQueues then
    .error (.invalidQueue queue backend.config.port.txQueues .tx)
  else .ok ()

def ensureTarget (target : DeviceTarget) : Except BackendError Unit :=
  match target with
  | .netPort port =>
    if port ≠ backend.config.portId then .error (.portMismatch port backend.config.portId)
    else .ok ()
  | _ => .error (.invalidTarget "DeviceTarget::NetPort")

def rxBurst (queue : QueueId) (maxPackets : UInt16) : Submission Reply := do
  backend.checkRxQueue queue
  if maxPackets = 0 then return .packets []
  else backend.invoke (.rxBurst backend.config.portId queue maxPackets)

def txBurst (queue : QueueId) (packets : List Packet) : Submission Reply := do
  backend.checkTxQueue queue
  if packets = [] then throw .emptyPacketBatch
  else backend.invoke (.txBurst backend.config.portId queue packets)

def joinMulticast (group : MulticastGroup) (queue : QueueId) : Submission Reply := do
  backend.checkRxQueue queue
  group.validate
  backend.invoke (.joinMulticast backend.config.portId group queue)

def read (target : DeviceTarget) (buf : PooledBuf) : Submission Reply := do
  backend.ensureTarget target
  backend.invoke (.readPacket backend.config.portId 0 buf)

def write (target : DeviceTarget) (buf : PooledBuf) : Submission Reply := do
  backend.ensureTarget target
  backend.invoke (.writePacket backend.config.portId 0 buf)

def readv (target : DeviceTarget) (bufs : List PooledBuf) : Submission Reply := do
  backend.ensureTarget target
  if bufs = [] then return .count 0
  else backend.invoke (.readPackets backend.config.portId 0 bufs)

def writev (target : DeviceTarget) (bufs : List PooledBuf) : Submission Reply := do
  backend.ensureTarget target
  if bufs = [] then return .count 0
  else backend.invoke (.writePackets backend.config.portId 0 bufs)

def flush (target : DeviceTarget) : Submission Reply := do
  backend.ensureTarget target
  return .unit

def pollCompletions : Submission Reply := backend.invoke (.pollPort backend.config.portId)

end DpdkBackend

/-- A call of the backend. -/
inductive ApiCall
  | rxBurst (queue : QueueId) (maxPackets : UInt16)
  | txBurst (queue : QueueId) (packets : List Packet)
  | joinMulticast (group : MulticastGroup) (queue : QueueId)
  | read (target : DeviceTarget) (buf : PooledBuf)
  | write (target : DeviceTarget) (buf : PooledBuf)
  | readv (target : DeviceTarget) (bufs : List PooledBuf)
  | writev (target : DeviceTarget) (bufs : List PooledBuf)
  | flush (target : DeviceTarget)
  | pollCompletions

def ApiCall.perform (backend : DpdkBackend) : ApiCall → Submission Reply
  | rxBurst queue maxPackets => backend.rxBurst queue maxPackets
  | txBurst queue packets => backend.txBurst queue packets
  | joinMulticast group queue => backend.joinMulticast group queue
  | read target buf => backend.read target buf
  | write target buf => backend.write target buf
  | readv target bufs => backend.readv target bufs
  | writev target bufs => backend.writev target bufs
  | flush target => backend.flush target
  | pollCompletions => backend.pollCompletions

/-- The requests that some calls have made, whatever they returned. -/
def requests (backend : DpdkBackend) (calls : List ApiCall) : List Request :=
  calls.foldl (fun log call => ((call.perform backend).run.run log).2) []

/-! ## What reaches the runtime -/

/-- What the backend asks of a call. -/
def ApiCall.Admitted (config : DpdkConfig) : ApiCall → Prop
  | rxBurst queue _ => queue < config.port.rxQueues
  | txBurst queue packets => queue < config.port.txQueues ∧ packets ≠ []
  | joinMulticast group queue =>
    queue < config.port.rxQueues ∧ group.groupIp.isMulticast = true ∧ group.port ≠ 0
  | read target _ | write target _ | readv target _ | writev target _ | flush target =>
    target = .netPort config.portId
  | pollCompletions => True

instance (config : DpdkConfig) (call : ApiCall) : Decidable (call.Admitted config) := by
  cases call <;> unfold ApiCall.Admitted <;> infer_instance

/-- What an admitted call requests. A burst of no packets, a vector of no buffers and a flush
request nothing. -/
def ApiCall.request (config : DpdkConfig) : ApiCall → Option Request
  | rxBurst queue maxPackets =>
    if maxPackets = 0 then none else some (.rxBurst config.portId queue maxPackets)
  | txBurst queue packets => some (.txBurst config.portId queue packets)
  | joinMulticast group queue => some (.joinMulticast config.portId group queue)
  | read _ buf => some (.readPacket config.portId 0 buf)
  | write _ buf => some (.writePacket config.portId 0 buf)
  | readv _ bufs => if bufs = [] then none else some (.readPackets config.portId 0 bufs)
  | writev _ bufs => if bufs = [] then none else some (.writePackets config.portId 0 bufs)
  | flush _ => none
  | pollCompletions => some (.pollPort config.portId)

/-- The request is for the configured port, for one of the queues of its direction, and for
something. -/
def Request.Valid (config : DpdkConfig) : Request → Prop
  | rxBurst port queue maxPackets =>
    port = config.portId ∧ queue < config.port.rxQueues ∧ maxPackets ≠ 0
  | txBurst port queue packets =>
    port = config.portId ∧ queue < config.port.txQueues ∧ packets ≠ []
  | joinMulticast port group queue =>
    port = config.portId ∧ queue < config.port.rxQueues ∧ group.groupIp.isMulticast = true ∧
      group.port ≠ 0
  | readPacket port queue _ => port = config.portId ∧ queue < config.port.rxQueues
  | writePacket port queue _ => port = config.portId ∧ queue < config.port.txQueues
  | readPackets port queue bufs =>
    port = config.portId ∧ queue < config.port.rxQueues ∧ bufs ≠ []
  | writePackets port queue bufs =>
    port = config.portId ∧ queue < config.port.txQueues ∧ bufs ≠ []
  | pollPort port => port = config.portId

section Gate

variable {config : DpdkConfig} {backend : DpdkBackend} {call : ApiCall} {request : Request}
  {log : List Request}

/-- The first queue of a direction is one of the configured ones. -/
theorem zero_lt_queues {queues : UInt16} (ne : queues ≠ 0) : 0 < queues := by
  rw [UInt16.lt_iff_toNat_lt]
  exact Nat.pos_of_ne_zero fun zero => ne (UInt16.toNat_inj.mp zero)

theorem valid_of_admitted (admitted : call.Admitted config)
    (asks : call.request config = some request) : request.Valid config := by
  have rx := zero_lt_queues config.port.rxQueues_ne
  have tx := zero_lt_queues config.port.txQueues_ne
  cases call <;> grind [ApiCall.request, ApiCall.Admitted, Request.Valid]

theorem run_invoke (request : Request) : (backend.invoke request).run.run log =
    ((backend.runtime log request).mapError .runtime, log ++ [request]) := by
  show (ExceptT.run (match backend.runtime log request with
    | .ok reply => pure reply
    | .error e => throw (BackendError.runtime e)) : StateM _ _) (log ++ [request]) = _
  cases backend.runtime log request <;> rfl

theorem run_checked {check : Except BackendError Unit} {next : Submission Reply}
    (passes : check = .ok ()) :
    (do check; next : Submission Reply).run.run log = next.run.run log := by
  subst passes
  rfl

theorem run_refused {check : Except BackendError Unit} {next : Submission Reply} {e : BackendError}
    (refuses : check = .error e) :
    (do check; next : Submission Reply).run.run log = (.error e, log) := by
  subst refuses
  rfl

theorem checkRxQueue_eq (queue : QueueId) : backend.checkRxQueue queue =
    if queue < backend.config.port.rxQueues then .ok ()
    else .error (.invalidQueue queue backend.config.port.rxQueues .rx) := by
  grind [DpdkBackend.checkRxQueue, UInt16.not_lt]

theorem checkTxQueue_eq (queue : QueueId) : backend.checkTxQueue queue =
    if queue < backend.config.port.txQueues then .ok ()
    else .error (.invalidQueue queue backend.config.port.txQueues .tx) := by
  grind [DpdkBackend.checkTxQueue, UInt16.not_lt]

theorem ensureTarget_ok {target : DeviceTarget} (own : target = .netPort backend.config.portId) :
    backend.ensureTarget target = .ok () := by
  simp [DpdkBackend.ensureTarget, own]

theorem ensureTarget_error {target : DeviceTarget}
    (other : target ≠ .netPort backend.config.portId) :
    ∃ e, backend.ensureTarget target = .error e := by
  cases target <;> simp_all [DpdkBackend.ensureTarget]

theorem validate_eq (group : MulticastGroup) : group.validate =
    if group.groupIp.isMulticast = true ∧ group.port ≠ 0 then .ok ()
    else .error (.invalidMulticastGroup group.groupIp group.port) := by
  grind [MulticastGroup.validate]

/-- A call that is not admitted returns an error, and requests nothing. -/
theorem perform_refused (refused : ¬ call.Admitted backend.config) :
    ∃ e, (call.perform backend).run.run log = (.error e, log) := by
  cases call with
  | rxBurst queue maxPackets =>
    exact ⟨_, run_refused ((checkRxQueue_eq queue).trans (if_neg refused))⟩
  | txBurst queue packets =>
    by_cases own : queue < backend.config.port.txQueues
    · have checked := (checkTxQueue_eq queue).trans (if_pos own)
      refine ⟨.emptyPacketBatch, (run_checked checked).trans ?_⟩
      rw [if_pos (by_contra fun ne => refused ⟨own, ne⟩)]
      rfl
    · exact ⟨_, run_refused ((checkTxQueue_eq queue).trans (if_neg own))⟩
  | joinMulticast group queue =>
    by_cases own : queue < backend.config.port.rxQueues
    · have unicast := (validate_eq group).trans (if_neg fun multicast => refused ⟨own, multicast⟩)
      have checked := (checkRxQueue_eq queue).trans (if_pos own)
      exact ⟨_, (run_checked checked).trans (run_refused unicast)⟩
    · exact ⟨_, run_refused ((checkRxQueue_eq queue).trans (if_neg own))⟩
  | read target _ | write target _ | readv target _ | writev target _ | flush target =>
    obtain ⟨e, error⟩ := ensureTarget_error refused
    exact ⟨e, run_refused error⟩
  | pollCompletions => exact absurd trivial refused

/-- An admitted call makes its request, if it has one, and nothing else. -/
theorem perform_admitted (admitted : call.Admitted backend.config) :
    ((call.perform backend).run.run log).2 =
      log ++ (call.request backend.config).toList := by
  have nothing : ∀ reply, ((pure reply : Submission Reply).run.run log).2 = log ++ [] :=
    fun _ => (List.append_nil log).symm
  have asked : ∀ request, ((backend.invoke request).run.run log).2 = log ++ [request] :=
    fun request => congrArg Prod.snd (run_invoke request)
  cases call with
  | rxBurst queue maxPackets =>
    have checked := (checkRxQueue_eq queue).trans (if_pos admitted)
    refine (congrArg Prod.snd (run_checked checked)).trans ?_
    by_cases zero : maxPackets = 0
    · simpa [ApiCall.request, zero] using nothing (.packets [])
    · simpa [ApiCall.request, zero] using asked _
  | txBurst queue packets =>
    have checked := (checkTxQueue_eq queue).trans (if_pos admitted.1)
    refine (congrArg Prod.snd (run_checked checked)).trans ?_
    rw [if_neg admitted.2]
    exact asked _
  | joinMulticast group queue =>
    have checked := (checkRxQueue_eq queue).trans (if_pos admitted.1)
    have multicast := (validate_eq group).trans (if_pos admitted.2)
    refine (congrArg Prod.snd (run_checked checked)).trans ?_
    exact (congrArg Prod.snd (run_checked multicast)).trans (asked _)
  | read target buf | write target buf =>
    exact (congrArg Prod.snd (run_checked (ensureTarget_ok admitted))).trans (asked _)
  | readv target bufs | writev target bufs =>
    refine (congrArg Prod.snd (run_checked (ensureTarget_ok admitted))).trans ?_
    by_cases empty : bufs = []
    · simpa [ApiCall.request, empty] using nothing (.count 0)
    · simpa [ApiCall.request, empty] using asked _
  | flush target =>
    exact (congrArg Prod.snd (run_checked (ensureTarget_ok admitted))).trans (nothing .unit)
  | pollCompletions => exact asked _

end Gate

/-- Whatever is called, and whatever the runtime answers, it gets the requests of the admitted
calls in their order, and every one is for the configured port and one of its queues. -/
theorem requests_valid (backend : DpdkBackend) (calls : List ApiCall) :
    requests backend calls = calls.flatMap (fun call =>
      if call.Admitted backend.config then (call.request backend.config).toList else []) ∧
    ∀ request ∈ requests backend calls, request.Valid backend.config := by
  have log_eq : requests backend calls = calls.flatMap fun call =>
      if call.Admitted backend.config then (call.request backend.config).toList else [] := by
    suffices from_log : ∀ log, calls.foldl
        (fun log call => ((call.perform backend).run.run log).2) log = log ++ calls.flatMap
          fun call =>
            if call.Admitted backend.config then (call.request backend.config).toList else [] from
      from_log []
    induction calls with
    | nil => exact fun log => (List.append_nil log).symm
    | cons call calls ih =>
      intro log
      rw [List.foldl_cons, ih, List.flatMap_cons]
      split
      next admitted => rw [perform_admitted admitted, List.append_assoc]
      next refused =>
        obtain ⟨e, run⟩ : ∃ e, (call.perform backend).run.run log = (.error e, log) :=
          perform_refused refused
        rw [run, List.nil_append]
  refine ⟨log_eq, fun request mem => ?_⟩
  rw [log_eq, List.mem_flatMap] at mem
  obtain ⟨call, -, mem⟩ := mem
  split at mem
  next admitted => exact valid_of_admitted admitted (Option.mem_toList.mp mem)
  next => cases mem

/-! ## Initialization -/

abbrev Mempool := UInt64

/-- A call of DPDK. -/
inductive DpdkCall
  | ealInit (argv : List String)
  | pktmbufPoolCreate (name : String) (mbufs mbufCache : UInt32) (dataRoomSize : UInt16)
      (socketId : Int32)
  | ethDevConfigure (port rxQueues txQueues : UInt16)
  | ethRxQueueSetup (port queue rxDesc : UInt16) (socketId : Int32) (pool : Mempool)
  | ethTxQueueSetup (port queue txDesc : UInt16) (socketId : Int32)
  | ethDevStart (port : UInt16)
  | ethPromiscuousEnable (port : UInt16)
  deriving DecidableEq

/-- What DPDK answers a call after the calls made before it: a code, or a pool. -/
structure Host where
  hardwareEnabled : Bool
  rc : List DpdkCall → DpdkCall → Int32
  pool : List DpdkCall → Option Mempool

/-- Code that calls DPDK, and may return early with `ε`. -/
abbrev Setup (ε : Type) := ExceptT ε (StateM (List DpdkCall))

section Init

variable (env : Host) (config : DpdkConfig) (pool : Mempool)

def Host.call {ε : Type} (call : DpdkCall) : Setup ε Int32 := do
  let log ← get
  set (log ++ [call])
  return env.rc log call

/-- `rc = call; if (rc < 0) return rc`. -/
def Host.check (call : DpdkCall) : Setup Int32 Unit := do
  let rc ← env.call call
  if rc < 0 then throw rc

/-- `for (uint16_t queue = 0; queue < queues; queue++)`. -/
def queues (n : UInt16) : List QueueId := (List.range n.toNat).map .ofNat

/-- `bypass_dpdk_configure_port`. The code of `rte_eth_promiscuous_enable` is not looked at. -/
def configurePort (port : DpdkPortConfig) (socketId : Int32) : Setup Int32 Unit := do
  env.check (.ethDevConfigure port.portId port.rxQueues port.txQueues)
  (queues port.rxQueues).forM fun queue =>
    env.check (.ethRxQueueSetup port.portId queue port.rxDesc socketId pool)
  (queues port.txQueues).forM fun queue =>
    env.check (.ethTxQueueSetup port.portId queue port.txDesc socketId)
  env.check (.ethDevStart port.portId)
  if port.promiscuous then
    let _ ← env.call (.ethPromiscuousEnable port.portId)

def createPool : Setup BackendError (Option Mempool) := do
  let log ← get
  set (log ++ [.pktmbufPoolCreate "bypass_io_mbuf_pool" config.mbufs config.mbufCache
    config.dataRoomSize config.socketId])
  return env.pool log

/-- `NativeDpdkRuntime::init`, and the runtime after it. -/
def init : Setup BackendError NativeDpdkRuntime := do
  if env.hardwareEnabled = false then throw (.runtime runtimeUnavailable)
  if config.ealArgs.any (·.contains '\x00') then
    throw (.invalidConfig "EAL argument contains NUL byte")
  let rc ← env.call (.ealInit config.ealArgs)
  if rc < 0 then throw (.runtime (.operationFailed "rte_eal_init" rc))
  match ← createPool env config with
  | none => throw (.runtime (.operationFailed "rte_pktmbuf_pool_create" (-1)))
  | some pool =>
    match ← (configurePort env pool config.port config.socketId).run with
    | .error rc => throw (.runtime (.operationFailed "bypass_dpdk_configure_port" rc))
    | .ok () => return ⟨true, config.dataRoomSize.toNat⟩

end Init

/-! ### What an initialization does -/

/-- The answer with which the code goes on. -/
def Host.Accepts (env : Host) (log : List DpdkCall) : DpdkCall → Prop
  | .pktmbufPoolCreate .. => (env.pool log).isSome
  | .ethPromiscuousEnable _ => True
  | call => 0 ≤ env.rc log call

/-- Each of these calls, made in their order, is accepted. -/
def Host.AcceptsAll (env : Host) : List DpdkCall → List DpdkCall → Prop
  | _, [] => True
  | log, call :: calls => env.Accepts log call ∧ env.AcceptsAll (log ++ [call]) calls

/-- The calls up to the first that is not accepted, which is `call` and gets the code `rc`. -/
def Host.Stops (env : Host) (log calls : List DpdkCall) (call : DpdkCall) (rc : Int32)
    (made : List DpdkCall) : Prop :=
  ∃ before after, calls = before ++ call :: after ∧ env.AcceptsAll log before ∧
    ¬ env.Accepts (log ++ before) call ∧ rc = env.rc (log ++ before) call ∧
    made = log ++ before ++ [call]

/-- The error for a call that is not accepted. -/
def DpdkCall.failure (rc : Int32) : DpdkCall → BackendError
  | .ealInit _ => .runtime (.operationFailed "rte_eal_init" rc)
  | .pktmbufPoolCreate .. => .runtime (.operationFailed "rte_pktmbuf_pool_create" (-1))
  | _ => .runtime (.operationFailed "bypass_dpdk_configure_port" rc)

def DpdkPortConfig.rxSetup (port : DpdkPortConfig) (socketId : Int32) (pool : Mempool)
    (queue : QueueId) : DpdkCall :=
  .ethRxQueueSetup port.portId queue port.rxDesc socketId pool

def DpdkPortConfig.txSetup (port : DpdkPortConfig) (socketId : Int32) (queue : QueueId) :
    DpdkCall :=
  .ethTxQueueSetup port.portId queue port.txDesc socketId

/-- The calls that bring the port up: the queues are set up before the port is started. -/
def DpdkPortConfig.bringUp (port : DpdkPortConfig) (socketId : Int32) (pool : Mempool) :
    List DpdkCall :=
  [.ethDevConfigure port.portId port.rxQueues port.txQueues] ++
    (queues port.rxQueues).map (port.rxSetup socketId pool) ++
    (queues port.txQueues).map (port.txSetup socketId) ++ [.ethDevStart port.portId]

def DpdkConfig.poolCalls (config : DpdkConfig) : List DpdkCall :=
  [.ealInit config.ealArgs, .pktmbufPoolCreate "bypass_io_mbuf_pool" config.mbufs
    config.mbufCache config.dataRoomSize config.socketId]

/-- All calls of an initialization, for the pool that DPDK creates. -/
def DpdkConfig.plan (config : DpdkConfig) (pool : Mempool) : List DpdkCall :=
  config.poolCalls ++ config.port.bringUp config.socketId pool ++
    if config.port.promiscuous then [.ethPromiscuousEnable config.portId] else []

/-- The port has been started. -/
def Host.Started (env : Host) (port : UInt16) (made : List DpdkCall) : Prop :=
  ∃ before after, made = before ++ .ethDevStart port :: after ∧
    env.Accepts before (.ethDevStart port)

/-- The switch for the hardware is on, and DPDK can be given the EAL arguments. -/
structure Host.Enabled (env : Host) (config : DpdkConfig) : Prop where
  hardware : env.hardwareEnabled = true
  ealArgs : ∀ arg ∈ config.ealArgs, '\x00' ∉ arg.toList

/-- How an initialization ends, and the calls it has made. Where one is not accepted it is in the
plan for the pool, if DPDK has created one. -/
inductive Host.Ended (env : Host) (config : DpdkConfig) :
    Except BackendError NativeDpdkRuntime × List DpdkCall → Prop
  | disabled (off : env.hardwareEnabled = false) :
    env.Ended config (.error (.runtime runtimeUnavailable), [])
  | refused (hardware : env.hardwareEnabled = true) {arg : String} (mem : arg ∈ config.ealArgs)
    (nul : '\x00' ∈ arg.toList) :
    env.Ended config (.error (.invalidConfig "EAL argument contains NUL byte"), [])
  | ready (enabled : env.Enabled config) {pool : Mempool}
    (created : env.pool [.ealInit config.ealArgs] = some pool)
    (accepted : env.AcceptsAll [] (config.plan pool)) :
    env.Ended config (.ok ⟨true, config.dataRoomSize.toNat⟩, config.plan pool)
  | stopped (enabled : env.Enabled config) {pool : Mempool}
    (created : ∀ found ∈ env.pool [.ealInit config.ealArgs], found = pool) {call : DpdkCall}
    {rc : Int32} {made : List DpdkCall} (stops : env.Stops [] (config.plan pool) call rc made) :
    env.Ended config (.error (call.failure rc), made)

section Plan

variable {env : Host} {config : DpdkConfig} {pool : Mempool} {log calls made : List DpdkCall}
variable {call : DpdkCall} {rc : Int32}

theorem nodup_queues (n : UInt16) : (queues n).Nodup := by
  have lt := n.toNat_lt
  refine List.Nodup.map_on (fun a ha b hb same => ?_) List.nodup_range
  rw [List.mem_range] at ha hb
  have inj := congrArg UInt16.toNat same
  rwa [UInt16.toNat_ofNat_of_lt' (ha.trans lt), UInt16.toNat_ofNat_of_lt' (hb.trans lt)] at inj

theorem mem_queues {n queue : UInt16} : queue ∈ queues n ↔ queue < n := by
  rw [queues, List.mem_map, UInt16.lt_iff_toNat_lt]
  constructor
  · rintro ⟨k, mem, rfl⟩
    grind [UInt16.toNat_ofNat', n.toNat_lt]
  · intro lt
    exact ⟨queue.toNat, List.mem_range.mpr lt, UInt16.ofNat_toNat⟩

/-- No call is made twice, and exactly the configured queues are set up. -/
theorem plan_nodup : (config.plan pool).Nodup ∧
    (∀ queue, config.port.rxSetup config.socketId pool queue ∈ config.plan pool ↔
      queue < config.port.rxQueues) ∧
    ∀ queue, config.port.txSetup config.socketId queue ∈ config.plan pool ↔
      queue < config.port.txQueues := by
  have rx : ((queues config.port.rxQueues).map (config.port.rxSetup config.socketId pool)).Nodup :=
    (nodup_queues _).map fun a b same => by
      injection same
  have tx : ((queues config.port.txQueues).map (config.port.txSetup config.socketId)).Nodup :=
    (nodup_queues _).map fun a b same => by
      injection same
  unfold DpdkConfig.plan DpdkConfig.poolCalls DpdkPortConfig.bringUp
  refine ⟨?_, fun queue => ?_, fun queue => ?_⟩
  · split <;> simp [List.nodup_append, rx, tx, DpdkPortConfig.rxSetup, DpdkPortConfig.txSetup] <;>
      grind
  · split <;> simp [DpdkPortConfig.rxSetup, DpdkPortConfig.txSetup, mem_queues]
  · split <;> simp [DpdkPortConfig.rxSetup, DpdkPortConfig.txSetup, mem_queues]

theorem acceptsAll_append {made : List DpdkCall} : env.AcceptsAll log (calls ++ made) ↔
    env.AcceptsAll log calls ∧ env.AcceptsAll (log ++ calls) made := by
  induction calls generalizing log with
  | nil => simp [Host.AcceptsAll]
  | cons call calls ih => simp [Host.AcceptsAll, ih, and_assoc]

theorem run_check (call : DpdkCall) : (env.check call).run.run log =
    (if env.rc log call < 0 then .error (env.rc log call) else .ok (), log ++ [call]) := by
  show (ExceptT.run (if env.rc log call < 0 then throw (env.rc log call) else pure ()) :
    StateM _ _) (log ++ [call]) = _
  split <;> rfl

theorem Setup.run_bind {ε α β : Type} {x : Setup ε α} {f : α → Setup ε β} :
    (x >>= f).run.run log = match x.run.run log with
      | (.ok a, log) => (f a).run.run log
      | (.error e, log) => (.error e, log) := by
  unfold ExceptT.run StateT.run
  simp only [bind, ExceptT.bind, ExceptT.mk, StateT.bind, ExceptT.bindCont]
  rcases x log with ⟨_ | _, _⟩ <;> rfl

/-- Checked calls are made until one is not accepted, with whose code they return. -/
theorem run_checks (coded : ∀ call ∈ calls, ∀ log, env.Accepts log call ↔ 0 ≤ env.rc log call) :
    (env.AcceptsAll log calls ∧ (calls.forM env.check).run.run log = (.ok (), log ++ calls)) ∨
    ∃ call rc made, env.Stops log calls call rc made ∧
      (calls.forM env.check).run.run log = (.error rc, made) := by
  induction calls generalizing log with
  | nil => exact .inl ⟨trivial, by rw [List.append_nil]; rfl⟩
  | cons call calls ih =>
    have accepts := coded call List.mem_cons_self log
    have cons : (call :: calls).forM env.check =
        (env.check call >>= fun _ => calls.forM env.check) := rfl
    rw [cons, Setup.run_bind, run_check]
    by_cases fails : env.rc log call < 0
    · rw [if_pos fails]
      refine .inr ⟨call, env.rc log call, log ++ [call], ⟨[], calls, rfl, trivial, ?_, ?_, ?_⟩, rfl⟩
      · rw [List.append_nil, accepts]
        exact Int32.not_le.mpr fails
      · rw [List.append_nil]
      · rw [List.append_nil]
    · rw [if_neg fails]
      have first := accepts.mpr (Int32.not_lt.mp fails)
      obtain ⟨rest, run⟩ | ⟨failing, rc, made, ⟨before, after, rfl, pre, no, rfl, rfl⟩, run⟩ :=
        @ih (log ++ [call]) fun c mem => coded c (List.mem_cons_of_mem _ mem)
      · refine .inl ⟨⟨first, rest⟩, run.trans ?_⟩
        rw [List.append_assoc, List.singleton_append]
      · refine .inr ⟨failing, _, _, ⟨call :: before, after, rfl, ⟨first, pre⟩, ?_, ?_, ?_⟩, run⟩
        · simpa using no
        · simp
        · simp

/-- Calls after which a further call is made: they stop where the first ones do. -/
theorem Host.Stops.append (stops : env.Stops log calls call rc made) (more : List DpdkCall) :
    env.Stops log (calls ++ more) call rc made := by
  obtain ⟨before, after, rfl, pre, no, code, rfl⟩ := stops
  exact ⟨before, after ++ more, by simp, pre, no, code, rfl⟩

theorem Host.Stops.prepend {first : List DpdkCall} (accepted : env.AcceptsAll log first)
    (stops : env.Stops (log ++ first) calls call rc made) :
    env.Stops log (first ++ calls) call rc made := by
  obtain ⟨before, after, rfl, pre, no, code, rfl⟩ := stops
  refine ⟨first ++ before, after, by simp, acceptsAll_append.mpr ⟨accepted, pre⟩, ?_, ?_, ?_⟩
  · rwa [← List.append_assoc]
  · rwa [← List.append_assoc]
  · simp

theorem configurePort_eq (port : DpdkPortConfig) (socketId : Int32) :
    configurePort env pool port socketId = (do
      (port.bringUp socketId pool).forM env.check
      if port.promiscuous then
        let _ ← env.call (.ethPromiscuousEnable port.portId)) := by
  simp [configurePort, DpdkPortConfig.bringUp, DpdkPortConfig.rxSetup, DpdkPortConfig.txSetup,
    List.forM_append, List.forM_map]

/-- The setup, the start of the port, and what comes after it. -/
theorem plan_start (config : DpdkConfig) (pool : Mempool) : ∃ setup, DpdkCall.ethDevStart config.portId ∉ setup ∧
    config.plan pool = setup ++ .ethDevStart config.portId ::
      if config.port.promiscuous then [.ethPromiscuousEnable config.portId] else [] := by
  refine ⟨[.ealInit config.ealArgs, .pktmbufPoolCreate "bypass_io_mbuf_pool" config.mbufs
    config.mbufCache config.dataRoomSize config.socketId, .ethDevConfigure config.port.portId
    config.port.rxQueues config.port.txQueues] ++
    (queues config.port.rxQueues).map (config.port.rxSetup config.socketId pool) ++
    (queues config.port.txQueues).map (config.port.txSetup config.socketId), ?_, ?_⟩
  · simp [DpdkPortConfig.rxSetup, DpdkPortConfig.txSetup]
  · simp [DpdkConfig.plan, DpdkConfig.poolCalls, DpdkPortConfig.bringUp, DpdkConfig.portId]

theorem started_plan (accepted : env.AcceptsAll [] (config.plan pool)) :
    env.Started config.portId (config.plan pool) := by
  obtain ⟨setup, -, split⟩ := plan_start config pool
  rw [split, acceptsAll_append] at accepted
  exact ⟨setup, _, split, accepted.2.1⟩

/-- Only the call for promiscuous mode comes after the start of the port, and no code of it stops
the initialization. -/
theorem Host.Stops.not_started (stops : env.Stops [] (config.plan pool) call rc made) :
    ¬ env.Started config.portId made := by
  rintro ⟨before, after, started, accepted⟩
  obtain ⟨first, rest, plan_eq, -, no, -, rfl⟩ := stops
  rw [List.nil_append] at started no
  rcases List.eq_nil_or_concat after with rfl | ⟨after, last, rfl⟩
  · obtain ⟨rfl, same⟩ := List.append_inj' started rfl
    cases same
    exact no accepted
  · rw [List.concat_eq_append, ← List.cons_append, ← List.append_assoc] at started
    obtain ⟨rfl, same⟩ := List.append_inj' started rfl
    obtain ⟨setup, outside, split⟩ := plan_start config pool
    rw [List.append_assoc, List.cons_append, split, List.append_cons_inj_of_notMem] at plan_eq
    · obtain ⟨-, -, rest_eq⟩ := plan_eq
      have last : call ∈ after ++ call :: rest := by simp
      rw [← rest_eq] at last
      split at last
      · rw [List.mem_singleton.mp last] at no
        exact no trivial
      · cases last
    · exact outside
    · split <;> simp

theorem run_configurePort (port : DpdkPortConfig) (socketId : Int32) :
    (env.AcceptsAll log (port.bringUp socketId pool) ∧
      (configurePort env pool port socketId).run.run log = (.ok (), log ++
        port.bringUp socketId pool ++
        if port.promiscuous then [.ethPromiscuousEnable port.portId] else [])) ∨
    ∃ call rc made, env.Stops log (port.bringUp socketId pool) call rc made ∧
      call.failure rc = .runtime (.operationFailed "bypass_dpdk_configure_port" rc) ∧
      (configurePort env pool port socketId).run.run log = (.error rc, made) := by
  have coded : ∀ call ∈ port.bringUp socketId pool,
      (∀ log, env.Accepts log call ↔ 0 ≤ env.rc log call) ∧
      ∀ rc, call.failure rc = .runtime (.operationFailed "bypass_dpdk_configure_port" rc) := by
    intro call mem
    simp only [DpdkPortConfig.bringUp, List.mem_append, List.mem_map, List.mem_singleton] at mem
    obtain ((rfl | ⟨queue, -, rfl⟩) | ⟨queue, -, rfl⟩) | rfl := mem <;>
      exact ⟨fun _ => Iff.rfl, fun _ => rfl⟩
  rw [configurePort_eq, Setup.run_bind]
  obtain ⟨accepted, run⟩ | ⟨call, rc, made, stops, run⟩ :=
    run_checks fun call mem => (coded call mem).1
  · refine .inl ⟨accepted, ?_⟩
    rw [run]
    by_cases promiscuous : port.promiscuous = true
    · rw [if_pos promiscuous, if_pos promiscuous]
      rfl
    · rw [if_neg promiscuous, if_neg promiscuous, List.append_nil]
      rfl
  · obtain ⟨before, after, calls, -⟩ := id stops
    refine .inr ⟨call, rc, made, stops, (coded call ?_).2 rc, ?_⟩
    · rw [calls]
      exact List.mem_append_right _ List.mem_cons_self
    · rw [run]

theorem run_init (enabled : env.hardwareEnabled = true)
    (valid : config.ealArgs.any (·.contains '\x00') = false) :
    (init env config).run.run [] =
      if env.rc [] (.ealInit config.ealArgs) < 0 then
        (.error (.runtime (.operationFailed "rte_eal_init" (env.rc [] (.ealInit config.ealArgs)))),
          [.ealInit config.ealArgs])
      else match env.pool [.ealInit config.ealArgs] with
        | none => (.error (.runtime (.operationFailed "rte_pktmbuf_pool_create" (-1))),
            config.poolCalls)
        | some pool =>
          match (configurePort env pool config.port config.socketId).run.run config.poolCalls with
          | (.error rc, made) =>
            (.error (.runtime (.operationFailed "bypass_dpdk_configure_port" rc)), made)
          | (.ok (), made) => (.ok ⟨true, config.dataRoomSize.toNat⟩, made) := by
  have run_call : ∀ call, (env.call call : Setup BackendError Int32).run.run [] =
      (.ok (env.rc [] call), [call]) := fun _ => rfl
  have run_pool : (createPool env config).run.run [.ealInit config.ealArgs] =
      (.ok (env.pool [.ealInit config.ealArgs]), config.poolCalls) := rfl
  unfold init
  simp only [enabled, valid, Bool.true_eq_false, Bool.false_eq_true, if_false,
    Setup.run_bind, run_call]
  split
  · rfl
  · simp only [run_pool, Setup.run_bind]
    cases env.pool [.ealInit config.ealArgs] with
    | none => rfl
    | some pool =>
      have run_c : (liftM (configurePort env pool config.port config.socketId).run :
          Setup BackendError (Except Int32 Unit)).run.run config.poolCalls =
          (.ok ((configurePort env pool config.port config.socketId).run.run config.poolCalls).1,
            ((configurePort env pool config.port config.socketId).run.run config.poolCalls).2) :=
        rfl
      simp only [Setup.run_bind, run_c]
      cases (configurePort env pool config.port config.socketId).run.run config.poolCalls with
      | mk result made => cases result <;> rfl

end Plan

theorem init_ended (env : Host) (config : DpdkConfig) :
    env.Ended config ((init env config).run.run []) := by
  by_cases disabled : env.hardwareEnabled = false
  · unfold init
    rw [if_pos disabled]
    exact .disabled disabled
  have hardware : env.hardwareEnabled = true := Bool.not_eq_false _ |>.mp disabled
  by_cases nul : config.ealArgs.any (·.contains '\x00') = true
  · unfold init
    rw [if_neg disabled, if_pos nul]
    obtain ⟨arg, mem, here⟩ := List.any_eq_true.mp nul
    exact .refused hardware mem (by simpa using here)
  have enabled : env.Enabled config :=
    ⟨hardware, fun arg mem here => nul (List.any_eq_true.mpr ⟨arg, mem, by simpa using here⟩)⟩
  rw [run_init hardware (Bool.not_eq_true _ |>.mp nul)]
  split
  next refused =>
    -- No pool has been created; the plan for any one begins alike.
    refine @Host.Ended.stopped _ _ enabled ((env.pool [.ealInit config.ealArgs]).getD 0) ?_ _ _ _
      ⟨[], _, rfl, trivial, Int32.not_le.mpr refused, rfl, rfl⟩
    intro found mem
    rw [Option.mem_def.mp mem, Option.getD_some]
  next initialised =>
  have eal : env.AcceptsAll [] [.ealInit config.ealArgs] := ⟨Int32.not_lt.mp initialised, trivial⟩
  cases created : env.pool [.ealInit config.ealArgs] with
  | none =>
    refine @Host.Ended.stopped _ _ enabled 0 (by simp [created]) _ _ _
      ⟨[.ealInit config.ealArgs], _, rfl, eal, ?_, rfl, rfl⟩
    simp [Host.Accepts, created]
  | some pool =>
    have pools : env.AcceptsAll [] config.poolCalls :=
      ⟨eal.1, by simp [Host.Accepts, created], trivial⟩
    obtain ⟨accepted, run⟩ | ⟨call, rc, made, stops, failure, run⟩ := @run_configurePort env pool
      config.poolCalls config.port config.socketId
    · simp only [run]
      refine .ready enabled created
        (acceptsAll_append.mpr ⟨acceptsAll_append.mpr ⟨pools, accepted⟩, ?_⟩)
      split
      · exact ⟨trivial, trivial⟩
      · trivial
    · simp only [run]
      rw [← failure]
      exact .stopped enabled (by simp [created]) ((stops.prepend pools).append _)

/-- An initialization that is enabled makes the calls of its plan in their order up to the first
that is not accepted, and returns an error for this one; one that is not makes no call. It succeeds
exactly where the port is started. Every plan sets up the configured queues and no other, and makes
no call twice. -/
theorem init_ready (env : Host) (config : DpdkConfig) :
    env.Ended config ((init env config).run.run []) ∧
      (((init env config).run.run []).1.isOk = true ↔
        env.Started config.portId ((init env config).run.run []).2) ∧
      ∀ pool, (config.plan pool).Nodup ∧
        (∀ queue, config.port.rxSetup config.socketId pool queue ∈ config.plan pool ↔
          queue < config.port.rxQueues) ∧
        ∀ queue, config.port.txSetup config.socketId queue ∈ config.plan pool ↔
          queue < config.port.txQueues := by
  have ended := init_ended env config
  refine ⟨ended, ?_, fun _ => plan_nodup⟩
  generalize (init env config).run.run [] = final at ended
  have nothing : ¬ env.Started config.portId [] := by
    rintro ⟨before, after, empty, -⟩
    simp at empty
  cases ended with
  | disabled | refused => exact iff_of_false Bool.false_ne_true nothing
  | ready _ _ accepted => exact iff_of_true rfl (started_plan accepted)
  | stopped _ _ stops => exact iff_of_false Bool.false_ne_true stops.not_started

end BypassIo.Backend.Dpdk
