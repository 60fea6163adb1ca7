import Mathlib.Algebra.Order.BigOperators.Group.List
import Mathlib.Algebra.Order.Group.Nat
import BypassIo.Backend.DpdkReads
import BypassIo.Buf.Hugepage

/-!
# Packets in the buffers of a pool

`write_packet` and `write_packets` of the native runtime, and the vectored read, with buffers that
`HugeBuf::alloc` has made. Such a buffer is a number of whole pages, and the runtime sends the
whole of it as one packet.

## Main results

* `pooled_never_sent`: no write of a pooled buffer sends anything.
* `pooled_reads_lossless`: a vectored read into pooled buffers loses no packet that fits a page.
-/

namespace BypassIo.Backend.Dpdk
open BypassIo.Buf
open BypassIo.Buf.Hugepage (HugeBuf Process)

/-! ## Writes -/

/-- A buffer to send, and what DPDK answers when an mbuf is allocated for it and its bytes are
appended. -/
structure Outgoing where
  buf : PooledBuf
  alloc : Option Mbuf
  append : Bool

def Outgoing.attempt (out : Outgoing) : Attempt := ⟨⟨out.buf.bytes⟩, out.alloc, out.append⟩

namespace NativeDpdkRuntime

variable (rt : NativeDpdkRuntime)

def writePacket (out : Outgoing) (nic : UInt16 → UInt16) : Call Nat := do
  let sent ← rt.txBurst [out.attempt] nic
  if sent = 0 then return 0 else return out.buf.len

def writePackets (outs : List Outgoing) (nic : UInt16 → UInt16) : Call Nat := do
  let sent ← rt.txBurst (outs.map Outgoing.attempt) nic
  return ((outs.take sent.toNat).map fun out => out.buf.len).sum

end NativeDpdkRuntime

/-! ## Buffers of a process -/

/-- The buffers are live buffers of the process, each one at most once. -/
def Backed (s : Process) (bufs : List PooledBuf) : Prop :=
  ∃ live : List HugeBuf, live.Subperm s.live ∧
    bufs.map PooledBuf.len = live.map fun buf => buf.len.toNat

section

variable {s : Process} {bufs : List PooledBuf} {rt : NativeDpdkRuntime}
  {outs : List Outgoing} {nic : UInt16 → UInt16} {w w' : Mbufs} {r : Except DpdkError Nat}

/-- A buffer has at least one page of 2 MiB. -/
theorem HugeBuf.Sized.page_le {buf : HugeBuf} (h : buf.Sized) : 2097152 ≤ buf.len.toNat := by
  have page : 2097152 ≤ buf.pageSize.bytes.toNat := by cases buf.pageSize <;> decide
  exact page.trans (Nat.le_of_dvd h.pos h.whole)

theorem Backed.page_le (backed : Backed s bufs) (conserved : s.Conserved) :
    ∀ buf ∈ bufs, 2097152 ≤ buf.len := by
  intro buf mem
  obtain ⟨live, among, lens⟩ := backed
  have len_mem := List.mem_map_of_mem (f := PooledBuf.len) mem
  rw [lens, List.mem_map] at len_mem
  obtain ⟨huge, huge_mem, len_eq⟩ := len_mem
  rw [← len_eq]
  exact HugeBuf.Sized.page_le (conserved.sized huge (among.subset huge_mem))

theorem Backed.total (backed : Backed s bufs) (conserved : s.Conserved) :
    (bufs.map PooledBuf.len).sum ≤ Rust.usizeMax := by
  obtain ⟨live, ⟨ordered, perm, sublist⟩, lens⟩ := backed
  rw [lens, ← (perm.map _).sum_eq]
  exact ((sublist.map _).sum_le_sum fun _ _ => Nat.zero_le _).trans conserved.total

/-- The error of a burst whose first packet is too long for an mbuf. -/
def NativeDpdkRuntime.refusal (rt : NativeDpdkRuntime) (len : Nat) : DpdkError :=
  if rt.mempool then .packetTooLarge len u16Max else runtimeUnavailable

/-- Such a burst ends before an mbuf is allocated for any of its packets. -/
theorem run_txBurst_large {attempt : Attempt} {attempts : List Attempt}
    (large : u16Max < attempt.packet.bytes.length) :
    (rt.txBurst (attempt :: attempts) nic).run.run w =
      some (.error (rt.refusal attempt.packet.bytes.length), w) := by
  unfold NativeDpdkRuntime.txBurst NativeDpdkRuntime.refusal
  by_cases ready : rt.mempool = false
  · rw [if_pos ready, if_neg (by simp [ready])]
    rfl
  · rw [if_neg ready, if_pos (by simpa using ready), List.mapM_cons]
    unfold NativeDpdkRuntime.packetToMbuf
    rw [if_pos large]
    rfl

theorem run_bind_error {α β : Type} {x : Call α} {f : α → Call β} {e : DpdkError}
    (h : x.run.run w = some (.error e, w')) : (x >>= f).run.run w = some (.error e, w') :=
  run_bind.mpr (.inr ⟨e, h, rfl⟩)

/-- Packets that fit a page fit the buffers, and their sum is at most that of the buffers. -/
theorem fits_of_pages {queue : List Packet} (pages : ∀ buf ∈ bufs, 2097152 ≤ buf.len)
    (total : (bufs.map PooledBuf.len).sum ≤ Rust.usizeMax)
    (fit : ∀ packet ∈ queue, packet.bytes.length ≤ 2097152) : Fits queue bufs 0 := by
  obtain ⟨packets, used⟩ := attempts_leading queue bufs
  have each : ∀ a ∈ attempts queue bufs, a.1.bytes.length ≤ a.2.len := by
    intro a mem
    exact (fit a.1 (packets.subset (List.mem_map_of_mem mem))).trans
      (pages a.2 (used.subset (List.mem_map_of_mem mem)))
  have bounded : ((attempts queue bufs).map (·.1.bytes.length)).sum ≤
      ((attempts queue bufs).map (·.2.len)).sum := List.sum_le_sum each
  have leading : ((attempts queue bufs).map (·.2.len)).sum ≤ (bufs.map PooledBuf.len).sum := by
    have sub := (used.sublist.map PooledBuf.len).sum_le_sum fun _ _ => Nat.zero_le _
    rwa [List.map_map] at sub
  exact ⟨each, by omega⟩

/-- No call that writes buffers of the process sends a packet, allocates an mbuf or changes where
any mbuf is: it returns an error. -/
theorem pooled_never_sent {allowed : Process → Hugepage.Event → Prop}
    (reach : Hugepage.machine.Reach allowed s) {out : Outgoing}
    (backed : Backed s ((out :: outs).map Outgoing.buf)) :
    (rt.writePacket out nic).run.run w = some (.error (rt.refusal out.buf.len), w) ∧
      (rt.writePackets (out :: outs) nic).run.run w =
        some (.error (rt.refusal out.buf.len), w) := by
  have long := backed.page_le (Hugepage.reach_inv reach).conserved out.buf List.mem_cons_self
  have large : u16Max < out.attempt.packet.bytes.length :=
    Nat.lt_of_lt_of_le (by decide) long
  constructor
  · exact run_bind_error (run_txBurst_large large)
  · exact run_bind_error (run_txBurst_large large)

/-- A vectored read into buffers of the process loses no packet, whatever the queue holds of
packets that fit a page of 2 MiB: the errors of the loop are out of reach. -/
theorem pooled_reads_lossless {allowed : Process → Hugepage.Event → Prop}
    (reach : Hugepage.machine.Reach allowed s) {queue : List Packet} (backed : Backed s bufs)
    (fit : ∀ packet ∈ queue, packet.bytes.length ≤ 2097152) :
    Lossless queue bufs (readPackets queue bufs 0) ∧
      ∃ total, (readPackets queue bufs 0).result = .ok total := by
  have conserved := (Hugepage.reach_inv reach).conserved
  have fits : Fits queue bufs 0 := fits_of_pages (backed.page_le conserved)
    (backed.total conserved) fit
  obtain ⟨-, run⟩ | ⟨unfit, -⟩ := readPackets_spec queue bufs (Nat.zero_le Rust.usizeMax)
  · rw [run]
    exact ⟨fits.lossless, _, rfl⟩
  · exact absurd fits unfit

end

/-! ## One page -/

/-- A process with one buffer of one page. -/
def onePage : Process :=
  ⟨⟨[⟨4194304, 2097152, Hugepage.flagsOf .hugePage .mib2, true⟩], []⟩,
    [Hugepage.bufAt 4194304 .hugePage true], []⟩

theorem reach_onePage : Hugepage.machine.Reach Machine.Always onePage :=
  .step (e := .allocBuf (Hugepage.hugeAt 4194304 none 0) 64 .mib2) (.start rfl) trivial (by decide)

theorem backed_onePage : Backed onePage [bufOf 2097152] :=
  ⟨[Hugepage.bufAt 4194304 .hugePage true], List.Subperm.refl _,
    congrArg (fun len => [len]) (len_bufOf 2097152)⟩

theorem pooled_never_sent_page :
    (NativeDpdkRuntime.writePacket ⟨true, 2176⟩ ⟨bufOf 2097152, some 1, true⟩ id).run.run
        ⟨[1], [], [], []⟩ =
      some (.error (NativeDpdkRuntime.refusal ⟨true, 2176⟩ (bufOf 2097152).len),
        ⟨[1], [], [], []⟩) ∧
    (NativeDpdkRuntime.writePackets ⟨true, 2176⟩ [⟨bufOf 2097152, some 1, true⟩] id).run.run
        ⟨[1], [], [], []⟩ =
      some (.error (NativeDpdkRuntime.refusal ⟨true, 2176⟩ (bufOf 2097152).len),
        ⟨[1], [], [], []⟩) := by
  have backed : Backed onePage (([⟨bufOf 2097152, some 1, true⟩] : List Outgoing).map
    Outgoing.buf) := backed_onePage
  exact pooled_never_sent reach_onePage backed

theorem pooled_reads_lossless_page :
    Lossless [packetOf 64, packetOf 1500] [bufOf 2097152]
        (readPackets [packetOf 64, packetOf 1500] [bufOf 2097152] 0) ∧
      ∃ total, (readPackets [packetOf 64, packetOf 1500] [bufOf 2097152] 0).result = .ok total := by
  refine pooled_reads_lossless reach_onePage backed_onePage fun packet mem => ?_
  simp only [List.mem_cons, List.not_mem_nil, or_false] at mem
  obtain rfl | rfl := mem
  · rw [length_packetOf]
    decide
  · rw [length_packetOf]
    decide

end BypassIo.Backend.Dpdk
