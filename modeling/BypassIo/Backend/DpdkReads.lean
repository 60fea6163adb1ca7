import Mathlib.Algebra.Ring.Nat
import BypassIo.Library.Outcome
import BypassIo.Backend.Dpdk

/-!
# Vectored reads of packets

`read_packet` takes a packet off the queue of the NIC before it compares its length with that of
the buffer, and `read_packets` returns the error of a read without the packets of the reads before.

## Main results

* `rxBurst_delivers`: a burst returns the packets that the NIC gives.
* `readPackets_spec`: what a vectored read stores, returns and leaves in the queue.
* `readPackets_lossless_iff`: when it loses no packet.
-/

namespace BypassIo.Backend.Dpdk
open Rust

/-! ## The queue of the NIC -/

/-- The entry of a packet in an mbuf. -/
def Received.of (entry : Mbuf × Packet) : Received := ⟨some entry.1, some entry.2.bytes⟩

/-- A loop of moves does not fail. -/
theorem moves_ok {f : Mbuf → Mbufs → Option Mbufs} {ms : List Mbuf} {w w' : Mbufs}
    {r : Except DpdkError Unit}
    (run : (ms.forM fun m => move (f m)).run.run w = some (r, w')) : r = .ok () := by
  induction ms generalizing w with
  | nil => exact (run_pure.mp run).1
  | cons m ms ih =>
    obtain ⟨_, v, -, rest⟩ | ⟨e, first, -⟩ := run_bind.mp run
    · exact ih rest
    · cases (run_move.mp first).1

theorem takePackets_returns {entries : List (Mbuf × Packet)} {w w' : Mbufs}
    {r : Except DpdkError (List (Option Packet))}
    (run : ((entries.map Received.of).mapM NativeDpdkRuntime.takePacket).run.run w = some (r, w')) :
    r = .ok (entries.map fun entry => some entry.2) := by
  induction entries generalizing w w' r with
  | nil => exact (run_pure.mp run).1
  | cons entry entries ih =>
    have taken : ∀ {v r w'}, (NativeDpdkRuntime.takePacket (.of entry)).run.run v = some (r, w') →
        r = .ok (some entry.2) := by
      intro v r w' run
      obtain ⟨_, u, -, last⟩ | ⟨e, freed, -⟩ := run_bind.mp run
      · exact (run_pure.mp last).1
      · cases (run_move.mp freed).1
    rw [List.map_cons, List.mapM_cons] at run
    obtain ⟨p, v, first, run⟩ | ⟨e, first, -⟩ := run_bind.mp run
    · obtain rfl := Except.ok.inj (taken first)
      obtain ⟨ps, u, rest, run⟩ | ⟨e, rest, -⟩ := run_bind.mp run
      · obtain rfl := Except.ok.inj (ih rest)
        exact (run_pure.mp run).1
      · cases ih rest
    · cases taken first

/-- The burst returns the packets it is given, in their order. -/
theorem rxBurst_delivers {entries : List (Mbuf × Packet)} {maxPackets : UInt16} {w w' : Mbufs}
    {r : Except DpdkError (List Packet)}
    (run : (NativeDpdkRuntime.rxBurst (entries.map .of) maxPackets).run.run w = some (r, w')) :
    r = .ok (entries.map Prod.snd) := by
  unfold NativeDpdkRuntime.rxBurst ethRxBurst at run
  split at run
  · obtain ⟨_, v, received, run⟩ | ⟨e, received, -⟩ := run_bind.mp run
    · obtain ⟨ps, u, taken, run⟩ | ⟨e, taken, -⟩ := run_bind.mp run
      · obtain rfl := Except.ok.inj (takePackets_returns taken)
        rw [(run_pure.mp run).1]
        simp
      · cases takePackets_returns taken
    · cases moves_ok received
  · obtain ⟨_, v, received, -⟩ | ⟨e, received, -⟩ := run_bind.mp run
    · cases (run_move.mp received).2
    · cases (run_move.mp received).2

/-- `rx_burst`, with the packets that wait in the queue: those it takes, and those it leaves. -/
def rxBurst (queue : List Packet) (maxPackets : UInt16) : List Packet × List Packet :=
  (queue.take maxPackets.toNat, queue.drop maxPackets.toNat)

/-! ## Reads -/

/-- A buffer, by its bytes. -/
structure PooledBuf where
  bytes : List UInt8
  deriving DecidableEq

def PooledBuf.len (buf : PooledBuf) : Nat := buf.bytes.length

/-- `slice[..bytes.len()].copy_from_slice(bytes)`. -/
def PooledBuf.copyFrom (buf : PooledBuf) (bytes : List UInt8) : PooledBuf :=
  ⟨bytes ++ buf.bytes.drop bytes.length⟩

/-- What a call returns, and how it leaves its buffers and the queue. -/
structure Reading (β : Type) where
  result : Except DpdkError Nat
  bufs : β
  queue : List Packet

def readPacket (queue : List Packet) (buf : PooledBuf) : Reading PooledBuf :=
  match rxBurst queue 1 with
  | ([], queue) => ⟨.ok 0, buf, queue⟩
  | (packet :: _, queue) =>
    if packet.bytes.length > buf.len then
      ⟨.error (.packetTooLarge packet.bytes.length buf.len), buf, queue⟩
    else ⟨.ok packet.bytes.length, buf.copyFrom packet.bytes, queue⟩

/-- The loop of `read_packets`, from a total on. -/
def readPackets (queue : List Packet) : List PooledBuf → Nat → Reading (List PooledBuf)
  | [], total => ⟨.ok total, [], queue⟩
  | buf :: bufs, total =>
    match readPacket queue buf with
    | ⟨.error e, buf, queue⟩ => ⟨.error e, buf :: bufs, queue⟩
    | ⟨.ok read, buf, queue⟩ =>
      match checkedAdd total read with
      | none => ⟨.error (.operationFailed "read_packets length overflow" (-1)), buf :: bufs, queue⟩
      | some total =>
        if read = 0 then ⟨.ok total, buf :: bufs, queue⟩
        else
          let rest := readPackets queue bufs total
          { rest with bufs := buf :: rest.bufs }

/-! ## Loss -/

/-- The call reports every packet it takes: with a total, they are stored whole and in order in
the leading buffers and the total is that of their lengths; with an error, none is taken. -/
structure Lossless (queue : List Packet) (bufs : List PooledBuf) (out : Reading (List PooledBuf)) :
    Prop where
  reported : ∀ total, out.result = .ok total → ∃ taken, queue = taken ++ out.queue ∧
    List.Forall₂ (fun packet buf => packet.bytes <+: buf.bytes) taken
      (out.bufs.take taken.length) ∧
    out.bufs.drop taken.length = bufs.drop taken.length ∧
    out.bufs.map PooledBuf.len = bufs.map PooledBuf.len ∧
    total = (taken.map (·.bytes.length)).sum
  kept : ∀ e, out.result = .error e → out.queue = queue

/-- The packets a call reads, with their buffers: up to the end of the queue or of the buffers, or
to an empty packet. -/
def attempts : List Packet → List PooledBuf → List (Packet × PooledBuf)
  | packet :: queue, buf :: bufs =>
    (packet, buf) :: if packet.bytes = [] then [] else attempts queue bufs
  | _, _ => []

/-- Every packet fits in its buffer, and their total is a `usize`. -/
structure Fits (queue : List Packet) (bufs : List PooledBuf) (total : Nat) : Prop where
  each : ∀ a ∈ attempts queue bufs, a.1.bytes.length ≤ a.2.len
  sum : total + ((attempts queue bufs).map (·.1.bytes.length)).sum ≤ usizeMax

@[simp] theorem len_copyFrom {buf : PooledBuf} {bytes : List UInt8} (h : bytes.length ≤ buf.len) :
    (buf.copyFrom bytes).len = buf.len := by
  simp only [PooledBuf.len, PooledBuf.copyFrom, List.length_append, List.length_drop] at h ⊢
  omega

/-- The packets a call reads are the first of the queue, and their buffers the first. -/
theorem attempts_leading (queue : List Packet) (bufs : List PooledBuf) :
    (attempts queue bufs).map Prod.fst <+: queue ∧ (attempts queue bufs).map Prod.snd <+: bufs := by
  fun_induction attempts queue bufs with
  | case1 packet queue buf bufs ih =>
    split
    · simp
    · simpa [List.prefix_cons_inj] using ih
  | case2 => simp

theorem readPacket_nil (buf : PooledBuf) : readPacket [] buf = ⟨.ok 0, buf, []⟩ := rfl

theorem readPacket_cons (packet : Packet) (queue : List Packet) (buf : PooledBuf) :
    readPacket (packet :: queue) buf =
      if packet.bytes.length > buf.len then
        ⟨.error (.packetTooLarge packet.bytes.length buf.len), buf, queue⟩
      else ⟨.ok packet.bytes.length, buf.copyFrom packet.bytes, queue⟩ := rfl

/-- The first packet fits, and so do those after it, if it is not empty. -/
theorem fits_cons {packet : Packet} {queue : List Packet} {buf : PooledBuf}
    {bufs : List PooledBuf} {total : Nat} :
    Fits (packet :: queue) (buf :: bufs) total ↔
      packet.bytes.length ≤ buf.len ∧ total + packet.bytes.length ≤ usizeMax ∧
        (packet.bytes ≠ [] → Fits queue bufs (total + packet.bytes.length)) := by
  by_cases empty : packet.bytes = []
  · constructor
    · rintro ⟨each, sum⟩
      simp_all [attempts]
    · rintro ⟨here, sum, -⟩
      constructor <;> simp_all [attempts]
  · constructor
    · rintro ⟨each, sum⟩
      simp only [attempts, if_neg empty, List.forall_mem_cons, List.map_cons,
        List.sum_cons] at each sum
      exact ⟨each.1, by omega, fun _ => ⟨each.2, by omega⟩⟩
    · rintro ⟨here, -, rest⟩
      obtain ⟨each, sum⟩ := rest empty
      constructor
      · simpa [attempts, empty] using ⟨here, fun a b => each (a, b)⟩
      · simp only [attempts, if_neg empty, List.map_cons, List.sum_cons]
        omega

/-- Where every packet fits, the call reads them all; where one does not, it takes at least one
from the queue and returns an error. -/
theorem readPackets_spec (queue : List Packet) (bufs : List PooledBuf) {total : Nat}
    (small : total ≤ usizeMax) :
    Fits queue bufs total ∧ readPackets queue bufs total =
        ⟨.ok (total + ((attempts queue bufs).map (·.1.bytes.length)).sum),
          (attempts queue bufs).map (fun a => a.2.copyFrom a.1.bytes) ++
            bufs.drop (attempts queue bufs).length,
          queue.drop (attempts queue bufs).length⟩ ∨
      ¬ Fits queue bufs total ∧ (∃ e, (readPackets queue bufs total).result = .error e) ∧
        (readPackets queue bufs total).queue.length < queue.length := by
  induction bufs generalizing queue total with
  | nil =>
    have none : attempts queue [] = [] := by cases queue <;> rfl
    refine .inl ⟨⟨by simp [none], by simpa [none] using small⟩, ?_⟩
    simp [readPackets, none]
  | cons buf bufs ih =>
    cases queue with
    | nil =>
      refine .inl ⟨⟨nofun, small⟩, ?_⟩
      simp [readPackets, readPacket_nil, attempts, checkedAdd, small]
    | cons packet queue =>
      rw [fits_cons, readPackets, readPacket_cons]
      by_cases large : packet.bytes.length > buf.len
      · rw [if_pos large]
        exact .inr ⟨fun fits => by omega, ⟨_, rfl⟩, by simp⟩
      rw [if_neg large]
      dsimp only
      by_cases past : usizeMax < total + packet.bytes.length
      · rw [checkedAdd, if_neg (by omega)]
        exact .inr ⟨fun fits => by omega, ⟨_, rfl⟩, by simp⟩
      rw [checkedAdd, if_pos (by omega)]
      dsimp only
      by_cases empty : packet.bytes = []
      · rw [if_pos (by simp [empty])]
        refine .inl ⟨⟨by omega, by omega, absurd empty⟩, ?_⟩
        simp [attempts, empty, PooledBuf.copyFrom]
      · rw [if_neg (by simpa using empty)]
        rcases @ih queue (total + packet.bytes.length) (by omega) with
          ⟨fits, run⟩ | ⟨unfit, failed, fewer⟩
        · refine .inl ⟨⟨by omega, by omega, fun _ => fits⟩, ?_⟩
          rw [run]
          simp [attempts, empty, Nat.add_assoc]
        · refine .inr ⟨fun fits => unfit (fits.2.2 empty), failed, ?_⟩
          exact Nat.lt_succ_of_lt fewer

/-- A call that reads every packet it tries stores them whole and reports them. -/
theorem Fits.lossless {queue : List Packet} {bufs : List PooledBuf} (fits : Fits queue bufs 0) :
    Lossless queue bufs ⟨.ok (0 + ((attempts queue bufs).map (·.1.bytes.length)).sum),
      (attempts queue bufs).map (fun a => a.2.copyFrom a.1.bytes) ++
        bufs.drop (attempts queue bufs).length,
      queue.drop (attempts queue bufs).length⟩ := by
  have taken : (attempts queue bufs).map Prod.fst = queue.take (attempts queue bufs).length := by
    simpa using List.prefix_iff_eq_take.mp (attempts_leading queue bufs).1
  have used : (attempts queue bufs).map Prod.snd = bufs.take (attempts queue bufs).length := by
    simpa using List.prefix_iff_eq_take.mp (attempts_leading queue bufs).2
  refine ⟨fun total same => ⟨(attempts queue bufs).map Prod.fst, ?_, ?_, ?_, ?_, ?_⟩, nofun⟩
  · rw [taken, List.take_append_drop]
  · rw [List.length_map, List.take_left' (List.length_map _), List.forall₂_map_left_iff,
      List.forall₂_map_right_iff, List.forall₂_same]
    exact fun a _ => List.prefix_append _ _
  · rw [List.length_map, List.drop_left' (List.length_map _)]
  · have kept : ∀ a ∈ attempts queue bufs, (a.2.copyFrom a.1.bytes).len = a.2.len :=
      fun a mem => len_copyFrom (fits.each a mem)
    have lens : ((attempts queue bufs).map fun a => a.2.copyFrom a.1.bytes).map PooledBuf.len =
        (bufs.take (attempts queue bufs).length).map PooledBuf.len := by
      rw [← used, List.map_map, List.map_map]
      exact List.map_congr_left kept
    rw [List.map_append, lens, ← List.map_append, List.take_append_drop]
  · obtain rfl := Except.ok.inj same
    rw [Nat.zero_add, List.map_map]
    rfl

/-- A vectored read loses no packet exactly when every packet it reads fits in its buffer. -/
theorem readPackets_lossless_iff (queue : List Packet) (bufs : List PooledBuf) :
    Lossless queue bufs (readPackets queue bufs 0) ↔ Fits queue bufs 0 := by
  obtain ⟨fits, run⟩ | ⟨unfit, ⟨e, failed⟩, fewer⟩ := readPackets_spec queue bufs
    (Nat.zero_le usizeMax)
  · rw [run]
    exact iff_of_true fits.lossless fits
  · refine iff_of_false (fun lossless => ?_) unfit
    rw [lossless.kept e failed] at fewer
    exact Nat.lt_irrefl _ fewer

def packetOf (len : Nat) : Packet := ⟨List.replicate len 0⟩

def bufOf (len : Nat) : PooledBuf := ⟨List.replicate len 0⟩

theorem length_packetOf (len : Nat) : (packetOf len).bytes.length = len := List.length_replicate

theorem len_bufOf (len : Nat) : (bufOf len).len = len := List.length_replicate

/-- A packet that does not fit, after one that does: both are taken and neither is reported. -/
theorem readPackets_pair {first second : Packet} {buf buf' : PooledBuf}
    (fits : first.bytes.length ≤ buf.len) (nonempty : first.bytes.length ≠ 0)
    (small : first.bytes.length ≤ usizeMax) (past : buf'.len < second.bytes.length) :
    readPackets [first, second] [buf, buf'] 0 =
      ⟨.error (.packetTooLarge second.bytes.length buf'.len),
        [buf.copyFrom first.bytes, buf'], []⟩ := by
  rw [readPackets, readPacket_cons, if_neg (by omega)]
  dsimp only
  rw [checkedAdd, if_pos (by omega)]
  dsimp only
  rw [if_neg nonempty, readPackets, readPacket_cons, if_pos past]

/-- The second packet is a byte longer than its buffer of a huge page. -/
theorem readPackets_discards :
    (readPackets [packetOf 64, packetOf 2097153] [bufOf 2097152, bufOf 2097152] 0).result =
      .error (.packetTooLarge 2097153 2097152) ∧
    (readPackets [packetOf 64, packetOf 2097153] [bufOf 2097152, bufOf 2097152] 0).queue = [] ∧
    ¬ Lossless [packetOf 64, packetOf 2097153] [bufOf 2097152, bufOf 2097152]
      (readPackets [packetOf 64, packetOf 2097153] [bufOf 2097152, bufOf 2097152] 0) := by
  have run := @readPackets_pair (packetOf 64) (packetOf 2097153) (bufOf 2097152) (bufOf 2097152)
  rw [length_packetOf, length_packetOf, len_bufOf] at run
  have run := run (by decide) (by decide) (by decide) (by decide)
  have result := congrArg Reading.result run
  have queue := congrArg Reading.queue run
  refine ⟨result, queue, fun lossless => ?_⟩
  have same := lossless.kept _ result
  rw [queue] at same
  exact List.cons_ne_nil _ _ same.symm

end BypassIo.Backend.Dpdk
