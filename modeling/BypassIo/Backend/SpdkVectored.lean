import Mathlib.Algebra.Ring.Nat
import BypassIo.Backend.SpdkGate

/-!
# Vectored SPDK commands

The gate checks that the total length of the buffers lies on sectors. `readv` and `writev` of the
native runtime then submit a command for each buffer, of as many whole sectors as its own length
has, and leave out what is left of it.

## Main definitions

* `NativeSpdkRuntime.readv`, `NativeSpdkRuntime.writev`: the loops, with the commands they submit.
* `Exact`: the commands cover the range and move every byte of the buffers to its place.

## Main results

* `run_vectored`: what the loop submits and returns.
* `vectored_exact_iff`: the commands are exact when every buffer is SPDK DMA memory of a number of
  whole sectors.
-/

namespace BypassIo.Backend.Spdk
open Rust Columns

/-! ## The loop -/

/-- A call of the runtime, with the commands it has submitted. -/
abbrev Issued := ExceptT SpdkError (StateM (List Payload))

namespace NativeSpdkRuntime

variable (rt : NativeSpdkRuntime) (answer : List Payload → Except SpdkError Unit)

/-- `submit_payload_io`. What the submission and the completion of the last command report is
`answer`. -/
def submitPayloadIo (io : PayloadIo) : Issued UInt64 := do
  let (_, payload) ← rt.prepare (.payload io none)
  modify (· ++ [payload])
  answer (← get)
  return io.size

/-- The loop of `readv` and `writev`. -/
def vectored (direction : Direction) (ns : NvmeNamespace) (qpair : IoQueuePair) :
    List SpdkBufferSegment → UInt64 → UInt64 → Issued UInt64
  | [], _, total => return total
  | segment :: segments, lba, total => do
    let lbaCount := segment.len / ns.sectorSize.toUInt64
    let done ← rt.submitPayloadIo answer ⟨direction, ns, qpair, segment, ⟨lba, lbaCount⟩⟩
    let lba ← checkedAdd lba lbaCount
    let total ← checkedAdd total done
    vectored direction ns qpair segments lba total

def readv (ns : NvmeNamespace) (qpair : IoQueuePair) (segments : List SpdkBufferSegment)
    (range : NvmeLbaRange) : Issued UInt64 :=
  rt.vectored answer .read ns qpair segments range.lba 0

def writev (ns : NvmeNamespace) (qpair : IoQueuePair) (segments : List SpdkBufferSegment)
    (range : NvmeLbaRange) : Issued UInt64 :=
  rt.vectored answer .write ns qpair segments range.lba 0

end NativeSpdkRuntime

/-! ## What the commands move -/

namespace Payload

def lba : Payload → Nat
  | io _ _ _ lba _ => lba.toNat
  | flush _ => 0

def blocks : Payload → Nat
  | io _ _ _ _ lbaCount => lbaCount.toNat
  | flush _ => 0

/-- The bytes a command moves: a byte of the buffer at an address, and a byte of the device. -/
def moved (sector : Nat) : Payload → List ((UInt64 × Nat) × Nat)
  | io _ _ buf lba lbaCount =>
    (List.range (lbaCount.toNat * sector)).map fun j => ((buf, j), lba.toNat * sector + j)
  | flush _ => []

end Payload

/-- The bytes of a buffer, by its address and their position. -/
def PooledBuf.bytes (buf : PooledBuf) : List (UInt64 × Nat) :=
  (List.range buf.len.toNat).map fun j => (buf.inner.virt, j)

/-- Each command starts where the one before ends. -/
def Contiguous : Nat → List Payload → Prop
  | _, [] => True
  | lba, command :: commands => command.lba = lba ∧ Contiguous (lba + command.blocks) commands

/-- The commands of a call with these buffers at byte `offset`, and its result. -/
structure Exact (ns : NvmeNamespace) (range : NvmeLbaRange) (offset : Nat)
    (bufs : List PooledBuf) (result : Except SpdkError UInt64) (commands : List Payload) :
    Prop where
  contiguous : Contiguous range.lba.toNat commands
  blocks : (commands.map Payload.blocks).sum = range.lbaCount.toNat
  whole : List.Forall₂ (fun buf command =>
    command.blocks * ns.sectorSize.toNat = buf.len.toNat) bufs commands
  placed : commands.flatMap (Payload.moved ns.sectorSize.toNat) =
    (bufs.flatMap PooledBuf.bytes).zipIdx offset
  returned : ∃ n, result = .ok n ∧ n.toNat = totalLen bufs

/-! ## What the loop does -/

section Loop

variable {rt : NativeSpdkRuntime} {answer : List Payload → Except SpdkError Unit}
  {direction : Direction} {ns : NvmeNamespace} {qpair : IoQueuePair} {bufs : List PooledBuf}

/-- The whole sectors of a buffer. -/
def blocksOf (ns : NvmeNamespace) (buf : PooledBuf) : UInt64 :=
  buf.len / ns.sectorSize.toUInt64

def blockSum (ns : NvmeNamespace) (bufs : List PooledBuf) : Nat :=
  (bufs.map fun buf => (blocksOf ns buf).toNat).sum

theorem blockSum_cons (ns : NvmeNamespace) (buf : PooledBuf) (bufs : List PooledBuf) :
    blockSum ns (buf :: bufs) = (blocksOf ns buf).toNat + blockSum ns bufs := rfl

/-- The commands for the buffers, from a block on. -/
def commandsOf (direction : Direction) (ns : NvmeNamespace) :
    List PooledBuf → UInt64 → List Payload
  | [], _ => []
  | buf :: bufs, lba =>
    .io direction ns.nsid buf.inner.virt lba (blocksOf ns buf).toUInt32 ::
      commandsOf direction ns bufs (lba + blocksOf ns buf)

theorem toNat_blocksOf (ns : NvmeNamespace) (buf : PooledBuf) :
    (blocksOf ns buf).toNat = buf.len.toNat / ns.sectorSize.toNat := by
  rw [blocksOf, UInt64.toNat_div, UInt32.toNat_toUInt64]

theorem blocksOf_mul_le (ns : NvmeNamespace) (buf : PooledBuf) :
    (blocksOf ns buf).toNat * ns.sectorSize.toNat ≤ buf.len.toNat := by
  rw [toNat_blocksOf]
  exact Nat.div_mul_le_self _ _

theorem blockSum_mul_le (ns : NvmeNamespace) (bufs : List PooledBuf) :
    blockSum ns bufs * ns.sectorSize.toNat ≤ totalLen bufs := by
  induction bufs with
  | nil => simp [blockSum]
  | cons buf bufs ih =>
    have head := blocksOf_mul_le ns buf
    simp only [blockSum_cons, totalLen, Nat.add_mul] at ih ⊢
    omega

theorem blocksOf_mul_of_dvd {buf : PooledBuf} (h : ns.sectorSize.toNat ∣ buf.len.toNat) :
    (blocksOf ns buf).toNat * ns.sectorSize.toNat = buf.len.toNat := by
  rw [toNat_blocksOf, Nat.div_mul_cancel h]

theorem blockSum_mul_of_dvd (h : ∀ buf ∈ bufs, ns.sectorSize.toNat ∣ buf.len.toNat) :
    blockSum ns bufs * ns.sectorSize.toNat = totalLen bufs := by
  induction bufs with
  | nil => simp [blockSum, totalLen]
  | cons buf bufs ih =>
    obtain ⟨here, rest⟩ := List.forall_mem_cons.mp h
    have head := blocksOf_mul_of_dvd here
    have tail := ih rest
    simp only [blockSum_cons, totalLen, Nat.add_mul] at tail ⊢
    omega

/-- The runtime has the namespace and the queue pair, and every command succeeds. -/
structure Succeeds (rt : NativeSpdkRuntime) (answer : List Payload → Except SpdkError Unit)
    (ns : NvmeNamespace) (qpair : IoQueuePair) : Prop where
  known : ns.nsid ∈ rt.namespaces
  queue : qpair.id < rt.qpairs
  answers : ∀ commands, answer commands = .ok ()

/-- A command for a buffer passes the checks. -/
theorem prepare_payload (known : ns.nsid ∈ rt.namespaces) (queue : qpair.id < rt.qpairs)
    {buf : PooledBuf} (dma : buf.inner.backing = .spdkDma) {lba lbaCount : UInt64}
    (small : lbaCount.toNat < 2 ^ 32) (loop : Option Vectored) :
    rt.prepare (.payload ⟨direction, ns, qpair, buf.segment, ⟨lba, lbaCount⟩⟩ loop) =
      .ok (qpair.id, .io direction ns.nsid buf.inner.virt lba lbaCount.toUInt32) := by
  have fits : lbaCount.toNat < 4294967296 := small
  simp [NativeSpdkRuntime.prepare, NativeSpdkRuntime.checkSegment, PooledBuf.segment, dma,
    NativeSpdkRuntime.hasNamespace, known, fits, NativeSpdkRuntime.qpair, queue, bind,
    Except.bind, pure, Except.pure]

theorem run_submitPayloadIo (h : Succeeds rt answer ns qpair) (direction : Direction)
    (lba : UInt64) {buf : PooledBuf} {lbaCount : UInt64} (log : List Payload)
    (dma : buf.inner.backing = .spdkDma) (small : lbaCount.toNat < 2 ^ 32) :
    (rt.submitPayloadIo answer ⟨direction, ns, qpair, buf.segment, ⟨lba, lbaCount⟩⟩).run.run log =
      (.ok (lbaCount * ns.sectorSize.toUInt64),
        log ++ [.io direction ns.nsid buf.inner.virt lba lbaCount.toUInt32]) := by
  unfold NativeSpdkRuntime.submitPayloadIo
  rw [run_lift_bind, prepare_payload h.known h.queue dma small]
  refine (run_lift_bind (answer (log ++ [_])) _ (log ++ [_])).trans ?_
  rw [h.answers]
  rfl

/-- A buffer that is not DMA memory gets no command. -/
theorem run_submitPayloadIo_refused (range : NvmeLbaRange) {buf : PooledBuf} (log : List Payload)
    (other : buf.inner.backing ≠ .spdkDma) :
    (rt.submitPayloadIo answer ⟨direction, ns, qpair, buf.segment, range⟩).run.run log =
      (.error (.dmaBufferUnavailable
        "native SPDK I/O requires buffers allocated after SPDK environment initialization"), log) := by
  have refused : rt.prepare (.payload ⟨direction, ns, qpair, buf.segment, range⟩ none) =
      .error (.dmaBufferUnavailable
        "native SPDK I/O requires buffers allocated after SPDK environment initialization") := by
    simp [NativeSpdkRuntime.prepare, NativeSpdkRuntime.checkSegment, PooledBuf.segment, other, bind,
      Except.bind]
  unfold NativeSpdkRuntime.submitPayloadIo
  rw [run_lift_bind, refused]

theorem checkedAdd_of_lt {a b : UInt64} (h : a.toNat + b.toNat < 2 ^ 64) :
    checkedAdd a b = .ok (a + b) ∧ (a + b).toNat = a.toNat + b.toNat := by
  have sum : (a + b).toNat = a.toNat + b.toNat := by
    rw [UInt64.toNat_add, Nat.mod_eq_of_lt h]
  exact ⟨checkedAdd_eq_ok.mpr sum, sum⟩

/-- The additions of one turn of the loop are those of the integers. -/
theorem turn_adds {buf : PooledBuf} {lba total : UInt64}
    (room : lba.toNat + blockSum ns (buf :: bufs) < 2 ^ 64)
    (fits : total.toNat + totalLen (buf :: bufs) < 2 ^ 64) :
    checkedAdd lba (blocksOf ns buf) = .ok (lba + blocksOf ns buf) ∧
    checkedAdd total (blocksOf ns buf * ns.sectorSize.toUInt64) =
      .ok (total + blocksOf ns buf * ns.sectorSize.toUInt64) ∧
    (lba + blocksOf ns buf).toNat = lba.toNat + (blocksOf ns buf).toNat ∧
    (total + blocksOf ns buf * ns.sectorSize.toUInt64).toNat =
      total.toNat + (blocksOf ns buf).toNat * ns.sectorSize.toNat := by
  have head := blocksOf_mul_le ns buf
  have sum := blockSum_cons ns buf bufs
  rw [totalLen] at fits
  have size : (blocksOf ns buf * ns.sectorSize.toUInt64).toNat =
      (blocksOf ns buf).toNat * ns.sectorSize.toNat := by
    rw [UInt64.toNat_mul, UInt32.toNat_toUInt64, Nat.mod_eq_of_lt (by omega)]
  obtain ⟨nextLba, lbaSum⟩ := checkedAdd_of_lt (a := lba) (b := blocksOf ns buf) (by omega)
  obtain ⟨nextTotal, totalSum⟩ := checkedAdd_of_lt (a := total)
    (b := blocksOf ns buf * ns.sectorSize.toUInt64) (by omega)
  exact ⟨nextLba, nextTotal, lbaSum, by rw [totalSum, size]⟩

/-- One turn of the loop. -/
theorem run_vectored_cons (h : Succeeds rt answer ns qpair) {buf : PooledBuf} {lba total : UInt64}
    (dma : buf.inner.backing = .spdkDma) (small : (blocksOf ns buf).toNat < 2 ^ 32)
    (room : lba.toNat + blockSum ns (buf :: bufs) < 2 ^ 64)
    (fits : total.toNat + totalLen (buf :: bufs) < 2 ^ 64) (log : List Payload) :
    (rt.vectored answer direction ns qpair ((buf :: bufs).map PooledBuf.segment) lba
        total).run.run log =
      (rt.vectored answer direction ns qpair (bufs.map PooledBuf.segment) (lba + blocksOf ns buf)
        (total + blocksOf ns buf * ns.sectorSize.toUInt64)).run.run
        (log ++ [.io direction ns.nsid buf.inner.virt lba (blocksOf ns buf).toUInt32]) := by
  obtain ⟨nextLba, nextTotal, -, -⟩ := turn_adds room fits
  have first := run_submitPayloadIo h direction lba log dma small
  rw [List.map_cons, NativeSpdkRuntime.vectored]
  refine (run_bind_ok first).trans ((run_lift_bind (checkedAdd lba (blocksOf ns buf)) _ _).trans ?_)
  rw [nextLba]
  refine (run_lift_bind (checkedAdd total _) _ _).trans ?_
  rw [nextTotal]

/-- The loop submits the command of each buffer in turn and returns what they move. -/
theorem run_vectored (h : Succeeds rt answer ns qpair)
    (dma : ∀ buf ∈ bufs, buf.inner.backing = .spdkDma) (lba total : UInt64)
    (small : ∀ buf ∈ bufs, (blocksOf ns buf).toNat < 2 ^ 32)
    (room : lba.toNat + blockSum ns bufs < 2 ^ 64)
    (fits : total.toNat + totalLen bufs < 2 ^ 64) (log : List Payload) :
    ∃ n : UInt64, (rt.vectored answer direction ns qpair (bufs.map PooledBuf.segment) lba
        total).run.run log = (.ok n, log ++ commandsOf direction ns bufs lba) ∧
      n.toNat = total.toNat + blockSum ns bufs * ns.sectorSize.toNat := by
  induction bufs generalizing lba total log with
  | nil => exact ⟨total, by simp [NativeSpdkRuntime.vectored, commandsOf]; rfl, by simp [blockSum]⟩
  | cons buf bufs ih =>
    obtain ⟨here, rest⟩ := List.forall_mem_cons.mp small
    obtain ⟨first, others⟩ := List.forall_mem_cons.mp dma
    obtain ⟨-, -, lbaSum, totalSum⟩ := turn_adds room fits
    have head := blocksOf_mul_le ns buf
    have sum := blockSum_cons ns buf bufs
    rw [run_vectored_cons h first here room fits]
    rw [totalLen] at fits
    obtain ⟨n, run, count⟩ := ih others (lba + blocksOf ns buf)
      (total + blocksOf ns buf * ns.sectorSize.toUInt64) rest (by omega) (by omega)
      (log ++ [.io direction ns.nsid buf.inner.virt lba (blocksOf ns buf).toUInt32])
    refine ⟨n, ?_, by rw [count, totalSum, sum, Nat.add_mul]; omega⟩
    rw [run, commandsOf, List.append_assoc, List.singleton_append]

/-- The loop stops with an error at the first buffer that is not DMA memory. -/
theorem run_vectored_refused (h : Succeeds rt answer ns qpair)
    (other : ¬ ∀ buf ∈ bufs, buf.inner.backing = .spdkDma) (lba total : UInt64)
    (small : ∀ buf ∈ bufs, (blocksOf ns buf).toNat < 2 ^ 32)
    (room : lba.toNat + blockSum ns bufs < 2 ^ 64)
    (fits : total.toNat + totalLen bufs < 2 ^ 64) (log : List Payload) :
    ∃ e commands, (rt.vectored answer direction ns qpair (bufs.map PooledBuf.segment) lba
        total).run.run log = (.error e, log ++ commands) := by
  induction bufs generalizing lba total log with
  | nil => exact absurd (List.forall_mem_nil _) other
  | cons buf bufs ih =>
    obtain ⟨here, rest⟩ := List.forall_mem_cons.mp small
    by_cases dma : buf.inner.backing = .spdkDma
    · obtain ⟨-, -, lbaSum, totalSum⟩ := turn_adds room fits
      have head := blocksOf_mul_le ns buf
      have sum := blockSum_cons ns buf bufs
      rw [run_vectored_cons h dma here room fits]
      rw [totalLen] at fits
      obtain ⟨e, commands, run⟩ := ih (fun all => other (List.forall_mem_cons.mpr ⟨dma, all⟩))
        (lba + blocksOf ns buf) (total + blocksOf ns buf * ns.sectorSize.toUInt64) rest (by omega)
        (by omega) (log ++ [.io direction ns.nsid buf.inner.virt lba (blocksOf ns buf).toUInt32])
      exact ⟨e, _, run.trans (by rw [List.append_assoc])⟩
    · have stop := @run_submitPayloadIo_refused rt answer direction ns qpair
        ⟨lba, blocksOf ns buf⟩ buf log dma
      rw [List.map_cons, NativeSpdkRuntime.vectored]
      exact ⟨_, [], (run_bind_error stop).trans (by rw [List.append_nil])⟩

/-- The commands of a call of the concurrent runtime that all succeed: each is prepared at the
lock and followed by the rest of the loop. -/
inductive Submits (rt : NativeSpdkRuntime) : CallState → List Payload → CallState → Prop
  | nil (state : CallState) : Submits rt state [] state
  | cons {io : Io} {q : Nat} {payload : Payload} {payloads : List Payload} {last : CallState}
      (prepared : rt.prepare io = .ok (q, payload)) (rest : Submits rt io.succeed payloads last) :
      Submits rt (.lock io) (payload :: payloads) last

theorem succeed_vectored {io : PayloadIo} {v : Vectored} {lba total : UInt64}
    (nextLba : checkedAdd v.lba io.range.lbaCount = .ok lba)
    (nextTotal : checkedAdd v.total io.size = .ok total) :
    (Io.payload io (some v)).succeed = Vectored.start { v with lba, total } := by
  simp [Io.succeed, nextLba, nextTotal, bind, Except.bind, pure, Except.pure]

/-- The loop of the concurrent runtime submits the same commands and returns the same number. -/
theorem submits_vectored (h : Succeeds rt answer ns qpair)
    (dma : ∀ buf ∈ bufs, buf.inner.backing = .spdkDma) (lba total : UInt64)
    (small : ∀ buf ∈ bufs, (blocksOf ns buf).toNat < 2 ^ 32)
    (room : lba.toNat + blockSum ns bufs < 2 ^ 64)
    (fits : total.toNat + totalLen bufs < 2 ^ 64) :
    ∃ n : UInt64, Submits rt
        (Vectored.start ⟨direction, ns, qpair, bufs.map PooledBuf.segment, lba, total⟩)
        (commandsOf direction ns bufs lba) (.returned (.ok (.size n))) ∧
      n.toNat = total.toNat + blockSum ns bufs * ns.sectorSize.toNat := by
  induction bufs generalizing lba total with
  | nil => exact ⟨total, .nil _, by simp [blockSum]⟩
  | cons buf bufs ih =>
    obtain ⟨here, rest⟩ := List.forall_mem_cons.mp small
    obtain ⟨first, others⟩ := List.forall_mem_cons.mp dma
    obtain ⟨nextLba, nextTotal, lbaSum, totalSum⟩ := turn_adds room fits
    have sum := blockSum_cons ns buf bufs
    have head := blocksOf_mul_le ns buf
    rw [totalLen] at fits
    obtain ⟨n, submits, count⟩ := ih others (lba + blocksOf ns buf)
      (total + blocksOf ns buf * ns.sectorSize.toUInt64) rest (by omega) (by omega)
    refine ⟨n, .cons (prepare_payload h.known h.queue first here _) ?_,
      by rw [count, totalSum, sum, Nat.add_mul]; omega⟩
    have next := @succeed_vectored ⟨direction, ns, qpair, buf.segment, ⟨lba, blocksOf ns buf⟩⟩
      ⟨direction, ns, qpair, bufs.map PooledBuf.segment, lba, total⟩ _ _ nextLba nextTotal
    rw [← next] at submits
    exact submits

/-! ## Exactness -/

theorem toNat_toUInt32 {n : UInt64} (h : n.toNat < 2 ^ 32) : n.toUInt32.toNat = n.toNat := by
  rw [UInt64.toNat_toUInt32, Nat.mod_eq_of_lt h]

theorem contiguous_commandsOf (small : ∀ buf ∈ bufs, (blocksOf ns buf).toNat < 2 ^ 32)
    {lba : UInt64} (room : lba.toNat + blockSum ns bufs < 2 ^ 64) :
    Contiguous lba.toNat (commandsOf direction ns bufs lba) := by
  induction bufs generalizing lba with
  | nil => trivial
  | cons buf bufs ih =>
    obtain ⟨here, rest⟩ := List.forall_mem_cons.mp small
    have sum := blockSum_cons ns buf bufs
    have next := (checkedAdd_of_lt (a := lba) (b := blocksOf ns buf) (by omega)).2
    refine ⟨rfl, ?_⟩
    rw [Payload.blocks, toNat_toUInt32 here, ← next]
    exact ih rest (by omega)

theorem blocks_commandsOf (small : ∀ buf ∈ bufs, (blocksOf ns buf).toNat < 2 ^ 32) (lba : UInt64) :
    ((commandsOf direction ns bufs lba).map Payload.blocks).sum = blockSum ns bufs := by
  induction bufs generalizing lba with
  | nil => rfl
  | cons buf bufs ih =>
    obtain ⟨here, rest⟩ := List.forall_mem_cons.mp small
    rw [commandsOf, List.map_cons, List.sum_cons, ih rest, Payload.blocks, toNat_toUInt32 here]
    rfl

theorem whole_commandsOf (small : ∀ buf ∈ bufs, (blocksOf ns buf).toNat < 2 ^ 32)
    (divides : ∀ buf ∈ bufs, ns.sectorSize.toNat ∣ buf.len.toNat) (lba : UInt64) :
    List.Forall₂ (fun buf command => command.blocks * ns.sectorSize.toNat = buf.len.toNat) bufs
      (commandsOf direction ns bufs lba) := by
  induction bufs generalizing lba with
  | nil => exact .nil
  | cons buf bufs ih =>
    obtain ⟨here, rest⟩ := List.forall_mem_cons.mp small
    obtain ⟨dvd, dvds⟩ := List.forall_mem_cons.mp divides
    refine .cons ?_ (ih rest dvds _)
    rw [Payload.blocks, toNat_toUInt32 here, blocksOf_mul_of_dvd dvd]

/-- The bytes of one command are the bytes of its buffer, numbered from its first sector. -/
theorem moved_eq {buf : PooledBuf} {lba : UInt64} (small : (blocksOf ns buf).toNat < 2 ^ 32)
    (divides : ns.sectorSize.toNat ∣ buf.len.toNat) :
    Payload.moved ns.sectorSize.toNat
        (.io direction ns.nsid buf.inner.virt lba (blocksOf ns buf).toUInt32) =
      buf.bytes.zipIdx (lba.toNat * ns.sectorSize.toNat) := by
  rw [Payload.moved, toNat_toUInt32 small, blocksOf_mul_of_dvd divides, PooledBuf.bytes]
  apply List.ext_getElem
  · simp
  · intro j _ _
    simp

theorem placed_commandsOf (small : ∀ buf ∈ bufs, (blocksOf ns buf).toNat < 2 ^ 32)
    (divides : ∀ buf ∈ bufs, ns.sectorSize.toNat ∣ buf.len.toNat) {lba : UInt64}
    (room : lba.toNat + blockSum ns bufs < 2 ^ 64) :
    (commandsOf direction ns bufs lba).flatMap (Payload.moved ns.sectorSize.toNat) =
      (bufs.flatMap PooledBuf.bytes).zipIdx (lba.toNat * ns.sectorSize.toNat) := by
  induction bufs generalizing lba with
  | nil => rfl
  | cons buf bufs ih =>
    obtain ⟨here, rest⟩ := List.forall_mem_cons.mp small
    obtain ⟨dvd, dvds⟩ := List.forall_mem_cons.mp divides
    have sum := blockSum_cons ns buf bufs
    have next := (checkedAdd_of_lt (a := lba) (b := blocksOf ns buf) (by omega)).2
    have size : buf.bytes.length = (blocksOf ns buf).toNat * ns.sectorSize.toNat := by
      rw [blocksOf_mul_of_dvd dvd]
      simp [PooledBuf.bytes]
    rw [commandsOf, List.flatMap_cons, moved_eq here dvd, ih rest dvds (by omega),
      List.flatMap_cons, List.zipIdx_append, size, next, Nat.add_mul]

/-- The range of an accepted call, in the integers. -/
structure Accepts (ns : NvmeNamespace) (offset : Nat) (bufs : List PooledBuf)
    (range : NvmeLbaRange) : Prop where
  start : range.lba.toNat * ns.sectorSize.toNat = offset
  size : range.lbaCount.toNat * ns.sectorSize.toNat = totalLen bufs
  max_io_size : totalLen bufs < 2 ^ 32
  capacity : range.lba.toNat + range.lbaCount.toNat < 2 ^ 64

theorem accepts_of_lbaRange {offset len : UInt64} {range : NvmeLbaRange}
    (total : totalPooledLen bufs = .ok len) (h : ns.lbaRange offset len = .ok range) :
    Accepts ns offset.toNat bufs range := by
  obtain ⟨-, small, start, size, capacity⟩ := lbaRange_eq_ok.mp h
  rw [totalPooledLen_eq_ok.mp total] at small size capacity
  rw [← start, ← size, ← Nat.add_mul, Nat.mul_le_mul_right_iff ns.sectorSize_pos] at capacity
  have sectors := ns.capacitySectors.toNat_lt
  exact ⟨start, size, Nat.lt_of_le_of_lt small ns.maxIoSize.toNat_lt, by omega⟩

theorem Accepts.blockSum_le {offset : Nat} {range : NvmeLbaRange}
    (h : Accepts ns offset bufs range) : blockSum ns bufs ≤ range.lbaCount.toNat := by
  have most := blockSum_mul_le ns bufs
  rw [← h.size] at most
  exact (Nat.mul_le_mul_right_iff ns.sectorSize_pos).mp most

theorem len_le_totalLen {buf : PooledBuf} (mem : buf ∈ bufs) : buf.len.toNat ≤ totalLen bufs := by
  induction mem with
  | head bufs => exact Nat.le_add_right _ _
  | tail other _ ih => exact Nat.le_trans ih (Nat.le_add_left _ _)

theorem Accepts.small {offset : Nat} {range : NvmeLbaRange} (h : Accepts ns offset bufs range) :
    ∀ buf ∈ bufs, (blocksOf ns buf).toNat < 2 ^ 32 := by
  intro buf mem
  have len := len_le_totalLen mem
  have few := h.max_io_size
  have less := Nat.div_le_self buf.len.toNat ns.sectorSize.toNat
  rw [toNat_blocksOf]
  omega

theorem Accepts.room {offset : Nat} {range : NvmeLbaRange} (h : Accepts ns offset bufs range) :
    range.lba.toNat + blockSum ns bufs < 2 ^ 64 := by
  have few := h.blockSum_le
  have last := h.capacity
  omega

/-- The commands for the buffers of an accepted call are exact when the buffers are whole
sectors, and only then. -/
theorem Accepts.exact_iff {offset : Nat} {range : NvmeLbaRange} (h : Accepts ns offset bufs range)
    {n : UInt64} (count : n.toNat = blockSum ns bufs * ns.sectorSize.toNat) :
    Exact ns range offset bufs (.ok n) (commandsOf direction ns bufs range.lba) ↔
      ∀ buf ∈ bufs, ns.sectorSize.toNat ∣ buf.len.toNat := by
  constructor
  · intro exact buf mem
    obtain ⟨command, -, size⟩ := exists_of_forall₂_left exact.whole mem
    exact ⟨command.blocks, by rw [← size, Nat.mul_comm]⟩
  · intro divides
    have bytes := blockSum_mul_of_dvd divides
    refine ⟨contiguous_commandsOf h.small h.room, ?_, whole_commandsOf h.small divides _, ?_, n,
      rfl, count.trans bytes⟩
    · rw [blocks_commandsOf h.small]
      exact Nat.eq_of_mul_eq_mul_right ns.sectorSize_pos (bytes.trans h.size.symm)
    · rw [placed_commandsOf h.small divides h.room, h.start]

/-- The native `readv` and `writev` of an accepted call cover the range exactly when every buffer
is SPDK DMA memory and its length is a multiple of the sector size. -/
theorem vectored_exact_iff {backend : SpdkBackend} {target : DeviceTarget} {offset len : UInt64}
    {range : NvmeLbaRange} (total : totalPooledLen bufs = .ok len)
    (accepted : backend.prepareIo target len offset = .ok (ns, qpair, range))
    (succeeds : Succeeds rt answer ns qpair) (log : List Payload) :
    (∃ result commands, (rt.readv answer ns qpair (bufs.map PooledBuf.segment) range).run.run log =
        (result, log ++ commands) ∧
      (Exact ns range offset.toNat bufs result commands ↔
        ∀ buf ∈ bufs, buf.inner.backing = .spdkDma ∧ ns.sectorSize.toNat ∣ buf.len.toNat)) ∧
    ∃ result commands, (rt.writev answer ns qpair (bufs.map PooledBuf.segment) range).run.run log =
        (result, log ++ commands) ∧
      (Exact ns range offset.toNat bufs result commands ↔
        ∀ buf ∈ bufs, buf.inner.backing = .spdkDma ∧ ns.sectorSize.toNat ∣ buf.len.toNat) := by
  have accepts := accepts_of_lbaRange total (prepareIo_eq_ok.mp accepted).2.2
  have either : ∀ direction, ∃ result commands,
      (rt.vectored answer direction ns qpair (bufs.map PooledBuf.segment) range.lba 0).run.run log =
        (result, log ++ commands) ∧
      (Exact ns range offset.toNat bufs result commands ↔
        ∀ buf ∈ bufs, buf.inner.backing = .spdkDma ∧ ns.sectorSize.toNat ∣ buf.len.toNat) := by
    intro direction
    have fits : (0 : UInt64).toNat + totalLen bufs < 2 ^ 64 := by
      have := accepts.max_io_size
      rw [UInt64.toNat_zero]
      omega
    by_cases dma : ∀ buf ∈ bufs, buf.inner.backing = .spdkDma
    · obtain ⟨n, run, count⟩ :=
        run_vectored succeeds dma range.lba 0 accepts.small accepts.room fits log
      rw [UInt64.toNat_zero, Nat.zero_add] at count
      refine ⟨_, _, run, (accepts.exact_iff count).trans (forall₂_congr fun buf mem => ?_)⟩
      exact (and_iff_right (dma buf mem)).symm
    · -- A call that returns an error is not exact.
      obtain ⟨e, commands, run⟩ :=
        run_vectored_refused succeeds dma range.lba 0 accepts.small accepts.room fits log
      refine ⟨_, _, run, iff_of_false (fun exact => ?_) fun all => dma fun buf mem => (all buf mem).1⟩
      obtain ⟨n, same, -⟩ := exact.returned
      cases same
  exact ⟨either .read, either .write⟩

end Loop

/-! ## Two sector sizes -/

theorem nsid_one_ne : (1 : UInt32) ≠ 0 := by decide

theorem capacity_ne : (1048576 : UInt64) ≠ 0 := by decide

theorem max_io_size_ne : (4294967295 : UInt32) ≠ 0 := by decide

/-- A namespace of 2²⁰ sectors. -/
def namespaceOf (sectorSize : UInt32) (h : sectorSize ≠ 0) : NvmeNamespace where
  nsid := 1
  sectorSize
  capacitySectors := 1048576
  maxIoSize := 4294967295
  nsid_ne := nsid_one_ne
  sectorSize_ne := h
  capacitySectors_ne := capacity_ne
  maxIoSize_ne := max_io_size_ne

/-- A buffer of one huge page. -/
def hugePage (virt : UInt64) : PooledBuf := ⟨⟨virt, some virt, 2097152, .spdkDma, true⟩⟩

theorem succeeds_always {sectorSize : UInt32} (h : sectorSize ≠ 0) :
    Succeeds ⟨[1], 1⟩ (fun _ => .ok ()) (namespaceOf sectorSize h) ⟨0⟩ where
  known := List.mem_singleton_self _
  queue := Nat.one_pos
  answers _ := rfl

theorem dma_hugePages (addrs : List UInt64) :
    ∀ buf ∈ addrs.map hugePage, buf.inner.backing = .spdkDma := by
  intro buf mem
  obtain ⟨addr, -, rfl⟩ := List.mem_map.mp mem
  rfl

theorem vectored_exact_iff_two :
    (∃ result commands, (NativeSpdkRuntime.readv ⟨[1], 1⟩ (fun _ => .ok ())
        (namespaceOf 512 (by decide)) ⟨0⟩ (([4096, 8192].map hugePage).map PooledBuf.segment)
        ⟨8, 8192⟩).run.run [] = (result, [] ++ commands) ∧
      (Exact (namespaceOf 512 (by decide)) ⟨8, 8192⟩ 4096 ([4096, 8192].map hugePage) result
          commands ↔
        ∀ buf ∈ [4096, 8192].map hugePage, buf.inner.backing = .spdkDma ∧ 512 ∣ buf.len.toNat)) ∧
    ∃ result commands, (NativeSpdkRuntime.writev ⟨[1], 1⟩ (fun _ => .ok ())
        (namespaceOf 512 (by decide)) ⟨0⟩ (([4096, 8192].map hugePage).map PooledBuf.segment)
        ⟨8, 8192⟩).run.run [] = (result, [] ++ commands) ∧
      (Exact (namespaceOf 512 (by decide)) ⟨8, 8192⟩ 4096 ([4096, 8192].map hugePage) result
          commands ↔
        ∀ buf ∈ [4096, 8192].map hugePage, buf.inner.backing = .spdkDma ∧ 512 ∣ buf.len.toNat) := by
  have total : totalPooledLen ([4096, 8192].map hugePage) = .ok 4194304 := by rfl
  have accepted : SpdkBackend.prepareIo ⟨[namespaceOf 512 (by decide)], [⟨0⟩], fun _ => .ok 0⟩
      (.nvmeNs 1) 4194304 4096 = .ok (namespaceOf 512 (by decide), ⟨0⟩, ⟨8, 8192⟩) := by rfl
  exact vectored_exact_iff total accepted (succeeds_always _) []

/-- Sectors of 528 bytes: the 33 buffers are 131072 of them, and the commands for the buffers are
3971 each, which leaves out the last 464 bytes of every buffer. -/
theorem readv_leaves_out :
    ∃ bufs : List PooledBuf, ∃ len commands,
      totalPooledLen bufs = .ok len ∧ len = 69206016 ∧
      SpdkBackend.prepareIo ⟨[namespaceOf 528 (by decide)], [⟨0⟩], fun _ => .ok 0⟩ (.nvmeNs 1) len
        0 = .ok (namespaceOf 528 (by decide), ⟨0⟩, ⟨0, 131072⟩) ∧
      Succeeds ⟨[1], 1⟩ (fun _ => .ok ()) (namespaceOf 528 (by decide)) ⟨0⟩ ∧
      (∀ buf ∈ bufs, buf.inner.backing = .spdkDma) ∧
      (NativeSpdkRuntime.readv ⟨[1], 1⟩ (fun _ => .ok ()) (namespaceOf 528 (by decide)) ⟨0⟩
        (bufs.map PooledBuf.segment) ⟨0, 131072⟩).run.run [] = (.ok 69190704, commands) ∧
      ¬ Exact (namespaceOf 528 (by decide)) ⟨0, 131072⟩ 0 bufs (.ok 69190704) commands := by
  have total : totalPooledLen ((List.replicate 33 4096).map hugePage) = .ok 69206016 := by rfl
  have accepted : SpdkBackend.prepareIo ⟨[namespaceOf 528 (by decide)], [⟨0⟩], fun _ => .ok 0⟩
      (.nvmeNs 1) 69206016 0 = .ok (namespaceOf 528 (by decide), ⟨0⟩, ⟨0, 131072⟩) := by rfl
  have accepts := accepts_of_lbaRange total (prepareIo_eq_ok.mp accepted).2.2
  have succeeds := succeeds_always (show (528 : UInt32) ≠ 0 by decide)
  have dma := dma_hugePages (List.replicate 33 4096)
  obtain ⟨n, run, count⟩ := @run_vectored _ _ .read _ _ _ succeeds dma 0 0 accepts.small
    accepts.room (by rw [← totalPooledLen_eq_ok.mp total]; decide) []
  have returned : n = 69190704 := UInt64.toNat_inj.mp (count.trans (by rfl))
  subst returned
  refine ⟨_, _, _, total, rfl, accepted, succeeds, dma, run, ?_⟩
  intro exact
  obtain ⟨n, same, whole⟩ := exact.returned
  cases same
  rw [← totalPooledLen_eq_ok.mp total] at whole
  exact absurd whole (by decide)

end BypassIo.Backend.Spdk
