import BypassIo.Backend.Spdk
import BypassIo.Library.Outcome

/-!
# The SPDK submission gate

What `SpdkBackend` checks before it calls its runtime: the target, the range of the namespace,
the queue pair, and the memory of each buffer. The runtime is a parameter; the requests made of
it are recorded in their order.

## Main results

* `lbaRange_eq_ok`, `totalPooledLen_eq_ok`: the arithmetic of the gate is that of the integers.
* `submission_gate`: which calls reach the runtime, and with what range.
-/

namespace BypassIo.Backend.Spdk
open Rust

/-! ## Buffers -/

structure HugeBuf where
  virt : UInt64
  phys : Option UInt64
  len : UInt64
  backing : HugeBufBacking
  locked : Bool

structure PooledBuf where
  inner : HugeBuf

namespace PooledBuf

def len (buf : PooledBuf) : UInt64 := buf.inner.len

/-- The memory of the buffer, as the runtime gets it. -/
def segment (buf : PooledBuf) : SpdkBufferSegment := ⟨buf.inner.virt, buf.len, buf.inner.backing⟩

/-- A device may read and write the buffer. -/
structure Dma (buf : PooledBuf) : Prop where
  backing : buf.inner.backing ≠ .pageableFallback
  locked : buf.inner.locked = true
  phys : buf.inner.phys.isSome = true

end PooledBuf

def SpdkBufferSegment.fromPooled (buf : PooledBuf) : Except SpdkError SpdkBufferSegment :=
  let huge := buf.inner
  if huge.backing = .pageableFallback then
    .error (.dmaBufferUnavailable "mapping is pageable fallback memory")
  else if huge.locked = false then
    .error (.dmaBufferUnavailable "mapping is not locked with mlock")
  else if huge.phys = none then
    .error (.dmaBufferUnavailable "physical address is not visible to userspace")
  else .ok ⟨huge.virt, huge.len, huge.backing⟩

def spdkSegments (bufs : List PooledBuf) : Except SpdkError (List SpdkBufferSegment) :=
  bufs.mapM SpdkBufferSegment.fromPooled

def totalPooledLen (bufs : List PooledBuf) : Except SpdkError UInt64 :=
  bufs.foldlM (fun total buf => checkedAdd total buf.len) 0

/-! ## Ranges -/

def NvmeNamespace.lbaRange (ns : NvmeNamespace) (offset len : UInt64) :
    Except SpdkError NvmeLbaRange :=
  if len = 0 then .error .zeroLengthIo
  else if len > ns.maxIoSize.toUInt64 then .error (.ioTooLarge len ns.maxIoSize.toUInt64)
  else
    let sector := ns.sectorSize.toUInt64
    if offset % sector ≠ 0 then .error (.unalignedIo offset len ns.sectorSize)
    else if len % sector ≠ 0 then .error (.unalignedIo offset len ns.sectorSize)
    else
      let lba := offset / sector
      let lbaCount := len / sector
      match checkedAdd64 lba lbaCount with
      | none => .error (.ioOutOfRange lba lbaCount ns.capacitySectors)
      | some last =>
        if last > ns.capacitySectors then .error (.ioOutOfRange lba lbaCount ns.capacitySectors)
        else .ok ⟨lba, lbaCount⟩

/-! ## The backend -/

structure SpdkBackend where
  namespaces : List NvmeNamespace
  qpairs : List IoQueuePair
  runtime : Request → Except SpdkError UInt64

/-- A call of the backend, with the requests it has made of the runtime. -/
abbrev Submission := ExceptT SpdkError (StateM (List Request))

namespace SpdkBackend

variable (backend : SpdkBackend)

def nvmeNamespace (nsid : UInt32) : Except SpdkError NvmeNamespace :=
  match backend.namespaces.find? fun ns => ns.nsid = nsid with
  | none => .error (.namespaceNotFound nsid)
  | some ns => .ok ns

def qpair : Except SpdkError IoQueuePair :=
  match backend.qpairs.head? with
  | none => .error .noQueuePairsConfigured
  | some qpair => .ok qpair

def prepareIo (target : DeviceTarget) (len offset : UInt64) :
    Except SpdkError (NvmeNamespace × IoQueuePair × NvmeLbaRange) :=
  match target with
  | .nvmeNs nsid => do
    let ns ← backend.nvmeNamespace nsid
    let range ← ns.lbaRange offset len
    let qpair ← backend.qpair
    return (ns, qpair, range)
  | _ => .error (.invalidTarget "DeviceTarget::NvmeNs")

/-- A call of the runtime. -/
def invoke (request : Request) : Submission UInt64 := do
  modify (· ++ [request])
  backend.runtime request

def read (target : DeviceTarget) (buf : PooledBuf) (offset : UInt64) : Submission UInt64 := do
  let (ns, qpair, range) ← backend.prepareIo target buf.len offset
  let segment ← SpdkBufferSegment.fromPooled buf
  backend.invoke (.read ns qpair segment range)

def write (target : DeviceTarget) (buf : PooledBuf) (offset : UInt64) : Submission UInt64 := do
  let (ns, qpair, range) ← backend.prepareIo target buf.len offset
  let segment ← SpdkBufferSegment.fromPooled buf
  backend.invoke (.write ns qpair segment range)

def readv (target : DeviceTarget) (bufs : List PooledBuf) (offset : UInt64) :
    Submission UInt64 := do
  let len ← totalPooledLen bufs
  let (ns, qpair, range) ← backend.prepareIo target len offset
  let segments ← spdkSegments bufs
  backend.invoke (.readv ns qpair segments range)

def writev (target : DeviceTarget) (bufs : List PooledBuf) (offset : UInt64) :
    Submission UInt64 := do
  let len ← totalPooledLen bufs
  let (ns, qpair, range) ← backend.prepareIo target len offset
  let segments ← spdkSegments bufs
  backend.invoke (.writev ns qpair segments range)

end SpdkBackend

/-- A call that reads or writes buffers. -/
inductive IoCall
  | read (buf : PooledBuf)
  | write (buf : PooledBuf)
  | readv (bufs : List PooledBuf)
  | writev (bufs : List PooledBuf)

namespace IoCall

def bufs : IoCall → List PooledBuf
  | read buf | write buf => [buf]
  | readv bufs | writev bufs => bufs

def submit (backend : SpdkBackend) (target : DeviceTarget) (offset : UInt64) :
    IoCall → Submission UInt64
  | read buf => backend.read target buf offset
  | write buf => backend.write target buf offset
  | readv bufs => backend.readv target bufs offset
  | writev bufs => backend.writev target bufs offset

/-- What the call asks of the runtime. -/
def request (ns : NvmeNamespace) (qpair : IoQueuePair) (range : NvmeLbaRange) : IoCall → Request
  | read buf => .read ns qpair buf.segment range
  | write buf => .write ns qpair buf.segment range
  | readv bufs => .readv ns qpair (bufs.map PooledBuf.segment) range
  | writev bufs => .writev ns qpair (bufs.map PooledBuf.segment) range

end IoCall

/-! ## The arithmetic -/

/-- The length of the buffers, in the integers. -/
def totalLen : List PooledBuf → Nat
  | [] => 0
  | buf :: bufs => buf.len.toNat + totalLen bufs

theorem checkedAdd_eq_ok {a b c : UInt64} :
    checkedAdd a b = .ok c ↔ c.toNat = a.toNat + b.toNat := by
  have small := c.toNat_lt
  unfold checkedAdd
  split
  · rename_i fits
    rw [Except.ok.injEq, ← UInt64.toNat_inj, UInt64.toNat_add, Nat.mod_eq_of_lt fits]
    exact eq_comm
  · rename_i past
    constructor
    · nofun
    · omega

/-- The sum of lengths succeeds exactly when it fits, and is the sum. -/
theorem totalPooledLen_eq_ok {bufs : List PooledBuf} {n : UInt64} :
    totalPooledLen bufs = .ok n ↔ n.toNat = totalLen bufs := by
  have general : ∀ total : UInt64,
      bufs.foldlM (fun total buf => checkedAdd total buf.len) total = .ok n ↔
        n.toNat = total.toNat + totalLen bufs := by
    induction bufs with
    | nil =>
      intro total
      rw [List.foldlM_nil, totalLen, Nat.add_zero, UInt64.toNat_inj, eq_comm]
      exact Except.ok.injEq n total ▸ Iff.rfl
    | cons buf bufs ih =>
      intro total
      rw [List.foldlM_cons, bind_eq_ok, totalLen, ← Nat.add_assoc]
      constructor
      · rintro ⟨sum, added, rest⟩
        rw [← checkedAdd_eq_ok.mp added]
        exact (ih sum).mp rest
      · intro whole
        have small := n.toNat_lt
        have held : (UInt64.ofNat (total.toNat + buf.len.toNat)).toNat =
            total.toNat + buf.len.toNat := UInt64.toNat_ofNat_of_lt' (by unfold UInt64.size; omega)
        refine ⟨_, checkedAdd_eq_ok.mpr held, (ih _).mpr ?_⟩
        rw [held]
        exact whole
  simpa [totalPooledLen] using general 0

theorem NvmeNamespace.sectorSize_pos (ns : NvmeNamespace) : 0 < ns.sectorSize.toNat :=
  Nat.pos_of_ne_zero fun zero => ns.sectorSize_ne (UInt32.toNat_inj.mp zero)

/-- The range of a request succeeds exactly when it lies on sectors of the namespace. -/
theorem lbaRange_eq_ok {ns : NvmeNamespace} {offset len : UInt64} {range : NvmeLbaRange} :
    ns.lbaRange offset len = .ok range ↔
      0 < len.toNat ∧ len.toNat ≤ ns.maxIoSize.toNat ∧
      range.lba.toNat * ns.sectorSize.toNat = offset.toNat ∧
      range.lbaCount.toNat * ns.sectorSize.toNat = len.toNat ∧
      offset.toNat + len.toNat ≤ ns.capacitySectors.toNat * ns.sectorSize.toNat := by
  have divides : ∀ a b : UInt64, b.toNat * ns.sectorSize.toNat = a.toNat ↔
      a % ns.sectorSize.toUInt64 = 0 ∧ b = a / ns.sectorSize.toUInt64 := by
    intro a b
    rw [← UInt64.toNat_inj, ← UInt64.toNat_inj, UInt64.toNat_mod, UInt64.toNat_div,
      UInt32.toNat_toUInt64]
    constructor
    · intro product
      rw [← product]
      exact ⟨Nat.mul_mod_left _ _, (Nat.mul_div_cancel _ ns.sectorSize_pos).symm⟩
    · rintro ⟨whole, quotient⟩
      rw [quotient]
      exact Nat.div_mul_cancel (Nat.dvd_of_mod_eq_zero whole)
  have positive : 0 < len.toNat ↔ len ≠ 0 := by
    rw [Nat.pos_iff_ne_zero, ne_eq, ne_eq, ← UInt64.toNat_inj]
    rfl
  rw [divides, divides, positive]
  unfold NvmeNamespace.lbaRange
  by_cases zero : len = 0
  · simp [zero]
  by_cases big : len > ns.maxIoSize.toUInt64
  · have past : ns.maxIoSize.toNat < len.toNat := UInt64.lt_iff_toNat_lt.mp big
    simp only [if_neg zero, if_pos big, reduceCtorEq, false_iff]
    omega
  have small : len.toNat ≤ ns.maxIoSize.toNat := Nat.le_of_not_lt fun past =>
    big (UInt64.lt_iff_toNat_lt.mpr past)
  by_cases start : offset % ns.sectorSize.toUInt64 = 0
  swap
  · simp [zero, big, start]
  by_cases size : len % ns.sectorSize.toUInt64 = 0
  swap
  · simp [zero, big, start, size]
  have lba := (divides offset _).mpr ⟨start, rfl⟩
  have lbaCount := (divides len _).mpr ⟨size, rfl⟩
  simp only [zero, big, start, size, small, not_true_eq_false, if_false, ne_eq, not_false_eq_true,
    true_and]
  rw [← lba, ← lbaCount, ← Nat.add_mul, Nat.mul_le_mul_right_iff ns.sectorSize_pos]
  cases added : checkedAdd64 (offset / ns.sectorSize.toUInt64) (len / ns.sectorSize.toUInt64) with
  | none =>
    have capacity := ns.capacitySectors.toNat_lt
    unfold checkedAdd64 at added
    split at added
    · cases added
    · simp only [reduceCtorEq, false_iff]
      omega
  | some last =>
    dsimp only
    rw [← toNat_of_checkedAdd64 added, ← UInt64.le_iff_toNat_le]
    obtain ⟨lba, count⟩ := range
    split
    · rename_i out
      simp only [reduceCtorEq, false_iff]
      exact fun inside => absurd inside.2.2 (UInt64.not_le.mpr out)
    · rename_i inside
      rw [UInt64.not_lt] at inside
      simp only [Except.ok.injEq, NvmeLbaRange.mk.injEq, inside, and_true]
      exact and_congr eq_comm eq_comm

/-! ## The checks -/

theorem fromPooled_eq_ok {buf : PooledBuf} {segment : SpdkBufferSegment} :
    SpdkBufferSegment.fromPooled buf = .ok segment ↔ buf.Dma ∧ segment = buf.segment := by
  obtain ⟨virt, phys, len, backing, locked⟩ := buf
  have dma : PooledBuf.Dma ⟨virt, phys, len, backing, locked⟩ ↔
      backing ≠ .pageableFallback ∧ locked = true ∧ phys.isSome = true :=
    ⟨fun h => ⟨h.backing, h.locked, h.phys⟩, fun h => ⟨h.1, h.2.1, h.2.2⟩⟩
  rw [dma]
  unfold SpdkBufferSegment.fromPooled PooledBuf.segment PooledBuf.len
  dsimp only
  split
  · simp_all
  · split
    · simp_all
    · rename_i paged unlocked
      split
      · simp_all
      · rename_i hidden
        rw [Except.ok.injEq, eq_comm]
        simp [paged, unlocked, Option.isSome_iff_ne_none.mpr hidden]

theorem spdkSegments_eq_ok {bufs : List PooledBuf} {segments : List SpdkBufferSegment} :
    spdkSegments bufs = .ok segments ↔
      (∀ buf ∈ bufs, buf.Dma) ∧ segments = bufs.map PooledBuf.segment := by
  unfold spdkSegments
  induction bufs generalizing segments with
  | nil => simp [pure, Except.pure, eq_comm]
  | cons buf bufs ih =>
    rw [mapM_cons_eq_ok]
    constructor
    · rintro ⟨segment, rest, first, later, rfl⟩
      obtain ⟨dma, rfl⟩ := fromPooled_eq_ok.mp first
      obtain ⟨all, rfl⟩ := ih.mp later
      exact ⟨List.forall_mem_cons.mpr ⟨dma, all⟩, rfl⟩
    · rintro ⟨all, rfl⟩
      obtain ⟨dma, all⟩ := List.forall_mem_cons.mp all
      exact ⟨_, _, fromPooled_eq_ok.mpr ⟨dma, rfl⟩, ih.mpr ⟨all, rfl⟩, rfl⟩

/-- The first namespace with the target's number. -/
def SpdkBackend.Targets (backend : SpdkBackend) (target : DeviceTarget) (ns : NvmeNamespace) : Prop :=
  ∃ nsid, target = .nvmeNs nsid ∧ backend.namespaces.find? (fun ns => ns.nsid = nsid) = some ns

theorem prepareIo_eq_ok {backend : SpdkBackend} {target : DeviceTarget} {len offset : UInt64}
    {ns : NvmeNamespace} {qpair : IoQueuePair} {range : NvmeLbaRange} :
    backend.prepareIo target len offset = .ok (ns, qpair, range) ↔
      backend.Targets target ns ∧ backend.qpairs.head? = some qpair ∧
        ns.lbaRange offset len = .ok range := by
  have known : ∀ nsid, backend.nvmeNamespace nsid = .ok ns ↔
      backend.namespaces.find? (fun ns => ns.nsid = nsid) = some ns := by
    intro nsid
    unfold SpdkBackend.nvmeNamespace
    split <;> rename_i found <;> simp [found]
  have queue : backend.qpair = .ok qpair ↔ backend.qpairs.head? = some qpair := by
    unfold SpdkBackend.qpair
    split <;> rename_i first <;> simp [first]
  unfold SpdkBackend.prepareIo SpdkBackend.Targets
  cases target with
  | nvmeNs nsid =>
    simp only [bind_eq_ok, pure, Except.pure, Except.ok.injEq, Prod.mk.injEq]
    constructor
    · rintro ⟨_, found, _, inside, _, first, rfl, rfl, rfl⟩
      exact ⟨⟨nsid, rfl, (known nsid).mp found⟩, queue.mp first, inside⟩
    · rintro ⟨⟨_, same, found⟩, first, inside⟩
      obtain rfl := DeviceTarget.nvmeNs.inj same
      exact ⟨ns, (known nsid).mpr found, range, inside, qpair, queue.mpr first, rfl, rfl, rfl⟩
  | fd | netPort => simp

/-- The checks of a call, in the order of the vectored ones. -/
def IoCall.check (backend : SpdkBackend) (target : DeviceTarget) (offset : UInt64)
    (call : IoCall) : Except SpdkError (NvmeNamespace × IoQueuePair × NvmeLbaRange) := do
  let len ← totalPooledLen call.bufs
  let found ← backend.prepareIo target len offset
  let _ ← spdkSegments call.bufs
  return found

section Calls

variable {ε σ α β : Type}

theorem run_lift_bind (x : Except ε α) (f : α → ExceptT ε (StateM σ) β) (log : σ) :
    (liftM x >>= f : ExceptT ε (StateM σ) β).run.run log =
      match x with
      | .ok a => (f a).run.run log
      | .error e => (.error e, log) := by
  cases x <;> rfl

theorem run_bind_ok {x : ExceptT ε (StateM σ) α} {f : α → ExceptT ε (StateM σ) β} {log log' : σ}
    {a : α} (h : x.run.run log = (.ok a, log')) :
    (x >>= f).run.run log = (f a).run.run log' := by
  rw [ExceptT.run_bind, StateT.run_bind, h]
  rfl

theorem run_bind_error {x : ExceptT ε (StateM σ) α} {f : α → ExceptT ε (StateM σ) β} {log log' : σ}
    {e : ε} (h : x.run.run log = (.error e, log')) :
    (x >>= f).run.run log = (.error e, log') := by
  rw [ExceptT.run_bind, StateT.run_bind, h]
  rfl

end Calls

theorem run_invoke (backend : SpdkBackend) (request : Request) (log : List Request) :
    (backend.invoke request).run.run log = (backend.runtime request, log ++ [request]) := by
  unfold SpdkBackend.invoke
  cases backend.runtime request <;> rfl

/-- One buffer, in the terms of several. -/
theorem single_buffer (buf : PooledBuf) : totalPooledLen [buf] = .ok buf.len ∧
    spdkSegments [buf] = (SpdkBufferSegment.fromPooled buf).map fun segment => [segment] := by
  constructor
  · rw [totalPooledLen_eq_ok]
    simp [totalLen]
  · unfold spdkSegments
    rw [List.mapM_cons, List.mapM_nil]
    cases SpdkBufferSegment.fromPooled buf <;> rfl

/-- A call that passes its checks calls the runtime; one that fails them returns the error. -/
theorem IoCall.run_submit (backend : SpdkBackend) (target : DeviceTarget) (offset : UInt64)
    (call : IoCall) (log : List Request) :
    (call.submit backend target offset).run.run log =
      match call.check backend target offset with
      | .ok (ns, qpair, range) => (backend.runtime (call.request ns qpair range),
          log ++ [call.request ns qpair range])
      | .error e => (.error e, log) := by
  cases call with
  | read buf | write buf =>
    obtain ⟨one, segments⟩ := single_buffer buf
    simp only [submit, SpdkBackend.read, SpdkBackend.write, check, bufs, request, one, segments,
      run_lift_bind]
    dsimp only [bind, Except.bind]
    cases backend.prepareIo target buf.len offset with
    | error e => rfl
    | ok found =>
      cases dma : SpdkBufferSegment.fromPooled buf with
      | error e => rfl
      | ok segment =>
        obtain ⟨-, rfl⟩ := fromPooled_eq_ok.mp dma
        exact run_invoke backend _ log
  | readv bufs | writev bufs =>
    simp only [submit, SpdkBackend.readv, SpdkBackend.writev, check, IoCall.bufs, request,
      run_lift_bind]
    dsimp only [bind, Except.bind]
    cases totalPooledLen bufs with
    | error e => rfl
    | ok len =>
      dsimp only
      cases backend.prepareIo target len offset with
      | error e => rfl
      | ok found =>
        cases dma : spdkSegments bufs with
        | error e => rfl
        | ok segments =>
          obtain ⟨-, rfl⟩ := spdkSegments_eq_ok.mp dma
          exact run_invoke backend _ log

/-! ## The gate -/

/-- What the gate asks of a call. -/
structure Admitted (backend : SpdkBackend) (target : DeviceTarget) (offset : UInt64)
    (bufs : List PooledBuf) (ns : NvmeNamespace) (qpair : IoQueuePair) : Prop where
  target : backend.Targets target ns
  qpair : backend.qpairs.head? = some qpair
  positive : 0 < totalLen bufs
  no_overflow : totalLen bufs < 2 ^ 64
  max_io_size : totalLen bufs ≤ ns.maxIoSize.toNat
  offset_aligned : ns.sectorSize.toNat ∣ offset.toNat
  len_aligned : ns.sectorSize.toNat ∣ totalLen bufs
  capacity : offset.toNat + totalLen bufs ≤ ns.capacitySectors.toNat * ns.sectorSize.toNat
  dma : ∀ buf ∈ bufs, buf.Dma

/-- The range covers exactly the bytes of the call. -/
structure NvmeLbaRange.CoversBytes (range : NvmeLbaRange) (ns : NvmeNamespace) (offset len : Nat) :
    Prop where
  start : range.lba.toNat * ns.sectorSize.toNat = offset
  size : range.lbaCount.toNat * ns.sectorSize.toNat = len

theorem IoCall.check_eq_ok {backend : SpdkBackend} {target : DeviceTarget} {offset : UInt64}
    {call : IoCall} {ns : NvmeNamespace} {qpair : IoQueuePair} {range : NvmeLbaRange} :
    call.check backend target offset = .ok (ns, qpair, range) ↔
      Admitted backend target offset call.bufs ns qpair ∧
        range.CoversBytes ns offset.toNat (totalLen call.bufs) := by
  unfold check
  simp only [bind_eq_ok, totalPooledLen_eq_ok, pure, Except.pure]
  constructor
  · rintro ⟨len, total, found, prepared, segments, all, same⟩
    obtain rfl := Except.ok.inj same
    obtain ⟨targets, first, inside⟩ := prepareIo_eq_ok.mp prepared
    obtain ⟨positive, small, start, size, capacity⟩ := lbaRange_eq_ok.mp inside
    obtain ⟨dma, -⟩ := spdkSegments_eq_ok.mp all
    have fits := len.toNat_lt
    rw [total] at positive small size capacity fits
    exact ⟨⟨targets, first, positive, fits, small, start ▸ Nat.dvd_mul_left _ _,
      size ▸ Nat.dvd_mul_left _ _, capacity, dma⟩, start, size⟩
  · rintro ⟨admitted, start, size⟩
    have total : (UInt64.ofNat (totalLen call.bufs)).toNat = totalLen call.bufs :=
      UInt64.toNat_ofNat_of_lt' admitted.no_overflow
    refine ⟨_, total, (ns, qpair, range), ?_, _, spdkSegments_eq_ok.mpr ⟨admitted.dma, rfl⟩, rfl⟩
    refine prepareIo_eq_ok.mpr ⟨admitted.target, admitted.qpair, lbaRange_eq_ok.mpr ?_⟩
    rw [total]
    exact ⟨admitted.positive, admitted.max_io_size, start, size, admitted.capacity⟩

/-- The range of an admitted call. -/
theorem Admitted.exists_range {backend : SpdkBackend} {target : DeviceTarget} {offset : UInt64}
    {bufs : List PooledBuf} {ns : NvmeNamespace} {qpair : IoQueuePair}
    (h : Admitted backend target offset bufs ns qpair) :
    ∃ range : NvmeLbaRange, range.CoversBytes ns offset.toNat (totalLen bufs) := by
  obtain ⟨lba, start⟩ := h.offset_aligned
  obtain ⟨count, size⟩ := h.len_aligned
  have sector := ns.sectorSize_pos
  have lba_le : lba ≤ offset.toNat := start ▸ Nat.le_mul_of_pos_left lba sector
  have count_le : count ≤ totalLen bufs := size ▸ Nat.le_mul_of_pos_left count sector
  have offset_lt := offset.toNat_lt
  have fits := h.no_overflow
  refine ⟨⟨UInt64.ofNat lba, UInt64.ofNat count⟩, ?_, ?_⟩
  · rw [UInt64.toNat_ofNat_of_lt' (by unfold UInt64.size; omega), Nat.mul_comm, start]
  · rw [UInt64.toNat_ofNat_of_lt' (by unfold UInt64.size; omega), Nat.mul_comm, size]

/-- A call either meets every condition, and then makes one request of the runtime, for the range
of exactly its bytes, and returns what the runtime returns; or it meets them with no namespace
and queue pair, and then returns an error and makes no request. The lengths are those of the
integers: a sum or a range that is not is not computed. -/
theorem submission_gate (backend : SpdkBackend) (target : DeviceTarget) (offset : UInt64)
    (call : IoCall) (log : List Request) :
    ((∃ ns qpair range, Admitted backend target offset call.bufs ns qpair ∧
        range.CoversBytes ns offset.toNat (totalLen call.bufs) ∧
        (call.submit backend target offset).run.run log =
          (backend.runtime (call.request ns qpair range),
            log ++ [call.request ns qpair range])) ∨
      (∀ ns qpair, ¬ Admitted backend target offset call.bufs ns qpair) ∧
        ∃ e, (call.submit backend target offset).run.run log = (.error e, log)) ∧
    (∀ n, totalPooledLen call.bufs = .ok n ↔ n.toNat = totalLen call.bufs) ∧
    ∀ (ns : NvmeNamespace) (len : UInt64) (range : NvmeLbaRange),
      ns.lbaRange offset len = .ok range ↔ 0 < len.toNat ∧ len.toNat ≤ ns.maxIoSize.toNat ∧
        range.CoversBytes ns offset.toNat len.toNat ∧
        offset.toNat + len.toNat ≤ ns.capacitySectors.toNat * ns.sectorSize.toNat := by
  refine ⟨?_, fun n => totalPooledLen_eq_ok, fun ns len range => ?_⟩
  · rw [call.run_submit]
    cases checked : call.check backend target offset with
    | ok found =>
      obtain ⟨ns, qpair, range⟩ := found
      obtain ⟨admitted, covers⟩ := IoCall.check_eq_ok.mp checked
      exact .inl ⟨ns, qpair, range, admitted, covers, rfl⟩
    | error e =>
      refine .inr ⟨fun ns qpair admitted => ?_, e, rfl⟩
      obtain ⟨range, covers⟩ := admitted.exists_range
      have passed := IoCall.check_eq_ok.mpr ⟨admitted, covers⟩
      rw [passed] at checked
      cases checked
  · rw [lbaRange_eq_ok]
    constructor
    · rintro ⟨positive, small, start, size, capacity⟩
      exact ⟨positive, small, ⟨start, size⟩, capacity⟩
    · rintro ⟨positive, small, ⟨start, size⟩, capacity⟩
      exact ⟨positive, small, start, size, capacity⟩

end BypassIo.Backend.Spdk
