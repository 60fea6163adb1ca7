import Mathlib.Data.List.Perm.Basic
import Mathlib.Tactic.Common
import BypassIo.Library.Machine

/-!
# The native DPDK runtime

`rx_burst` and `tx_burst` of `NativeDpdkRuntime`, with the answers of DPDK as inputs of the
calls: which mbuf an allocation returns, whether the packet can be appended to it, and how
many mbufs the NIC takes. An mbuf is in the pool, with the NIC, or owned by the runtime. A free
or a transmission of an mbuf that the runtime does not own is recorded in `invalid`.

Answers that DPDK cannot give, an allocation of an mbuf that is not in the pool or the receipt
of one that the NIC does not have, have no successor. Between calls the NIC returns mbufs it has
sent and takes mbufs to receive into.

## Main results

* `txBurst_owns`, `rxBurst_owns`: which mbufs the runtime owns after a call.
* `mbufs_conserved`: when a run of calls leaves every mbuf in the pool or with the NIC.
-/

namespace BypassIo.Backend.Dpdk

abbrev Mbuf := UInt64

structure Packet where
  bytes : List UInt8
  deriving DecidableEq

inductive DpdkError
  | runtimeUnavailable (detail : String)
  | operationFailed (operation : String) (rc : Int32)
  | packetTooLarge (len max : Nat)
  deriving DecidableEq

/-! ## DPDK -/

/-- Where the mbufs are. -/
structure Mbufs where
  free : List Mbuf
  nic : List Mbuf
  owned : List Mbuf
  invalid : List Mbuf
  deriving DecidableEq

namespace Mbufs

def allocate (mbuf : Mbuf) (w : Mbufs) : Option Mbufs :=
  if mbuf ∈ w.free then some { w with free := w.free.erase mbuf, owned := mbuf :: w.owned }
  else none

def receive (mbuf : Mbuf) (w : Mbufs) : Option Mbufs :=
  if mbuf ∈ w.nic then some { w with nic := w.nic.erase mbuf, owned := mbuf :: w.owned }
  else none

def release (mbuf : Mbuf) (w : Mbufs) : Mbufs :=
  if mbuf ∈ w.owned then { w with owned := w.owned.erase mbuf, free := mbuf :: w.free }
  else { w with invalid := mbuf :: w.invalid }

def transmit (mbuf : Mbuf) (w : Mbufs) : Mbufs :=
  if mbuf ∈ w.owned then { w with owned := w.owned.erase mbuf, nic := mbuf :: w.nic }
  else { w with invalid := mbuf :: w.invalid }

/-- The NIC returns an mbuf to the pool. -/
def complete (mbuf : Mbuf) (w : Mbufs) : Option Mbufs :=
  if mbuf ∈ w.nic then some { w with nic := w.nic.erase mbuf, free := mbuf :: w.free } else none

/-- The NIC takes an mbuf of the pool. -/
def refill (mbuf : Mbuf) (w : Mbufs) : Option Mbufs :=
  if mbuf ∈ w.free then some { w with free := w.free.erase mbuf, nic := mbuf :: w.nic } else none

end Mbufs

/-- A call of the runtime: it moves mbufs and returns a result. -/
abbrev Call := ExceptT DpdkError (StateT Mbufs Option)

/-- A move of DPDK, possible or not. -/
def move (f : Mbufs → Option Mbufs) : Call Unit := ExceptT.mk fun w => (f w).map (.ok (), ·)

/-- `rte_pktmbuf_alloc`, with its answer. -/
def pktmbufAlloc : Option Mbuf → Call (Option Mbuf)
  | none => return none
  | some mbuf => do
    move (Mbufs.allocate mbuf)
    return some mbuf

def pktmbufFree (mbuf : Mbuf) : Call Unit := move fun w => some (w.release mbuf)

/-- `rte_eth_tx_burst`. The NIC answers with a count, and owns that many entries from the
front. -/
def ethTxBurst (mbufs : List Mbuf) (nbPkts : UInt16) (nic : UInt16 → UInt16) : Call UInt16 := do
  (mbufs.take (nic nbPkts).toNat).forM fun mbuf => move fun w => some (w.transmit mbuf)
  return nic nbPkts

/-! ## The runtime -/

/-- Whether `init` has created the pool, and its data room. -/
structure NativeDpdkRuntime where
  mempool : Bool
  dataRoomSize : Nat

/-- A packet to send, and what DPDK answers when an mbuf is allocated for it and the packet is
appended. -/
structure Attempt where
  packet : Packet
  alloc : Option Mbuf
  append : Bool

/-- An entry that `rte_eth_rx_burst` fills: an mbuf or null, and the data of its packet or null. -/
structure Received where
  mbuf : Option Mbuf
  data : Option (List UInt8)

def u16Max : Nat := 65535

def runtimeUnavailable : DpdkError := .runtimeUnavailable
  "native DPDK adapter scaffold is compiled, but DPDK I/O calls are disabled pending safety audit"

/-- `rte_eth_rx_burst`: at most `max_packets` entries. -/
def ethRxBurst (entries : List Received) (maxPackets : UInt16) : Call Unit :=
  if entries.length ≤ maxPackets.toNat then
    (entries.filterMap Received.mbuf).forM fun mbuf => move (Mbufs.receive mbuf)
  else move fun _ => none

namespace NativeDpdkRuntime

variable (rt : NativeDpdkRuntime)

def packetToMbuf (attempt : Attempt) : Call Mbuf :=
  let len := attempt.packet.bytes.length
  if len > u16Max then throw (.packetTooLarge len u16Max)
  else do
    match ← pktmbufAlloc attempt.alloc with
    | none => throw (.operationFailed "rte_pktmbuf_alloc" (-1))
    | some mbuf =>
      if attempt.append then return mbuf
      else do
        pktmbufFree mbuf
        throw (.packetTooLarge len rt.dataRoomSize)

/-- One turn of the loop of `rx_burst`. The bytes are copied before the mbuf is freed. -/
def takePacket (entry : Received) : Call (Option Packet) :=
  match entry.mbuf with
  | none => return none
  | some mbuf => do
    pktmbufFree mbuf
    return entry.data.map Packet.mk

def rxBurst (entries : List Received) (maxPackets : UInt16) : Call (List Packet) := do
  ethRxBurst entries maxPackets
  let packets ← entries.mapM takePacket
  return packets.filterMap id

/-- The mbufs are collected up to the first error, with which the call returns. -/
def txBurst (attempts : List Attempt) (nic : UInt16 → UInt16) : Call UInt16 :=
  if rt.mempool = false then throw runtimeUnavailable
  else do
    let mbufs ← attempts.mapM rt.packetToMbuf
    let sent ← ethTxBurst mbufs (.ofNat mbufs.length) nic
    (mbufs.drop sent.toNat).forM pktmbufFree
    return sent

end NativeDpdkRuntime

/-- A call with the answers of DPDK, or a move of the NIC. -/
inductive Event
  | txBurst (attempts : List Attempt) (nic : UInt16 → UInt16)
  | rxBurst (entries : List Received) (maxPackets : UInt16)
  | complete (mbuf : Mbuf)
  | refill (mbuf : Mbuf)

def NativeDpdkRuntime.step (rt : NativeDpdkRuntime) (w : Mbufs) : Event → Option Mbufs
  | .txBurst attempts nic => ((rt.txBurst attempts nic).run.run w).map Prod.snd
  | .rxBurst entries maxPackets => ((rxBurst entries maxPackets).run.run w).map Prod.snd
  | .complete mbuf => w.complete mbuf
  | .refill mbuf => w.refill mbuf

/-- The runtime with a pool of these mbufs. -/
def machine (rt : NativeDpdkRuntime) (mbufs : List Mbuf) : Machine Mbufs Event where
  start w := w = ⟨mbufs, [], [], []⟩
  step := rt.step

/-! ## Inversion of calls -/

section

variable {α β : Type} {w w' : Mbufs} {r : Except DpdkError α}

theorem run_pure {a : α} :
    (pure a : Call α).run.run w = some (r, w') ↔ r = .ok a ∧ w' = w := by
  change some (Except.ok a, w) = some (r, w') ↔ _
  grind

theorem run_throw {e : DpdkError} :
    (throw e : Call α).run.run w = some (r, w') ↔ r = .error e ∧ w' = w := by
  change some (Except.error e, w) = some (r, w') ↔ _
  grind

theorem run_move {f : Mbufs → Option Mbufs} {r : Except DpdkError Unit} :
    (move f).run.run w = some (r, w') ↔ r = .ok () ∧ f w = some w' := by
  change (f w).map (Except.ok (), ·) = some (r, w') ↔ _
  rw [Option.map_eq_some_iff]
  grind

/-- A sequence ends with its second part, or with the error of its first. -/
theorem run_bind {x : Call β} {f : β → Call α} :
    (x >>= f).run.run w = some (r, w') ↔
      (∃ b v, x.run.run w = some (.ok b, v) ∧ (f b).run.run v = some (r, w')) ∨
        ∃ e, x.run.run w = some (.error e, w') ∧ r = .error e := by
  have unfolded : (x >>= f).run.run w = (x.run.run w).bind fun
      | (.ok b, v) => (f b).run.run v
      | (.error e, v) => some (.error e, v) := by
    simp only [ExceptT.run_bind, StateT.run_bind]
    refine bind_congr fun ⟨result, v⟩ => ?_
    cases result <;> rfl
  rw [unfolded, Option.bind_eq_some_iff]
  constructor
  · rintro ⟨⟨_ | b, v⟩, first, rest⟩
    · grind
    · exact .inl ⟨b, v, first, rest⟩
  · rintro (⟨b, v, first, rest⟩ | ⟨e, first, rfl⟩)
    · exact ⟨_, first, rest⟩
    · exact ⟨_, first, rfl⟩

end

/-! ## Ownership -/

/-- The runtime owns `ms`, and the pool and the NIC the rest of `mbufs`. -/
structure Owns (mbufs ms : List Mbuf) (w : Mbufs) : Prop where
  owned : w.owned.Perm ms
  invalid : w.invalid = []
  placed : (w.free ++ w.nic ++ ms).Perm mbufs

variable {mbufs ms new : List Mbuf} {m : Mbuf} {w w' : Mbufs} {rt : NativeDpdkRuntime}

theorem Owns.perm (owns : Owns mbufs ms w) (same : ms.Perm new) : Owns mbufs new w where
  owned := owns.owned.trans same
  invalid := owns.invalid
  placed := (same.symm.append_left _).trans owns.placed

theorem Owns.allocate (owns : Owns mbufs ms w) (run : w.allocate m = some w') :
    Owns mbufs (m :: ms) w' := by
  obtain ⟨mem, run⟩ := Option.ite_none_right_eq_some.mp run
  obtain rfl := Option.some.inj run
  refine ⟨owns.owned.cons m, owns.invalid, List.Perm.trans ?_ owns.placed⟩
  have moved := List.perm_cons_erase mem
  grind

theorem Owns.receive (owns : Owns mbufs ms w) (run : w.receive m = some w') :
    Owns mbufs (m :: ms) w' := by
  obtain ⟨mem, run⟩ := Option.ite_none_right_eq_some.mp run
  obtain rfl := Option.some.inj run
  refine ⟨owns.owned.cons m, owns.invalid, List.Perm.trans ?_ owns.placed⟩
  have moved := List.perm_cons_erase mem
  grind

theorem Owns.parted (owns : Owns mbufs (m :: ms) w) :
    m ∈ w.owned ∧ (w.owned.erase m).Perm ms := by
  refine ⟨owns.owned.mem_iff.mpr List.mem_cons_self, ?_⟩
  simpa using owns.owned.erase m

theorem Owns.release (owns : Owns mbufs (m :: ms) w) : Owns mbufs ms (w.release m) := by
  obtain ⟨mem, rest⟩ := owns.parted
  rw [Mbufs.release, if_pos mem]
  refine ⟨rest, owns.invalid, List.Perm.trans ?_ owns.placed⟩
  grind

theorem Owns.transmit (owns : Owns mbufs (m :: ms) w) : Owns mbufs ms (w.transmit m) := by
  obtain ⟨mem, rest⟩ := owns.parted
  rw [Mbufs.transmit, if_pos mem]
  refine ⟨rest, owns.invalid, List.Perm.trans ?_ owns.placed⟩
  grind

theorem Owns.complete (owns : Owns mbufs ms w) (run : w.complete m = some w') :
    Owns mbufs ms w' := by
  obtain ⟨mem, run⟩ := Option.ite_none_right_eq_some.mp run
  obtain rfl := Option.some.inj run
  refine ⟨owns.owned, owns.invalid, List.Perm.trans ?_ owns.placed⟩
  have moved := List.perm_cons_erase mem
  grind

theorem Owns.refill (owns : Owns mbufs ms w) (run : w.refill m = some w') :
    Owns mbufs ms w' := by
  obtain ⟨mem, run⟩ := Option.ite_none_right_eq_some.mp run
  obtain rfl := Option.some.inj run
  refine ⟨owns.owned, owns.invalid, List.Perm.trans ?_ owns.placed⟩
  have moved := List.perm_cons_erase mem
  grind

/-! ## Calls -/

/-- A loop that gives each mbuf away gives all of them away. -/
theorem Owns.forM {give : Mbuf → Mbufs → Mbufs} {r : Except DpdkError Unit}
    (gives : ∀ {m ms w}, Owns mbufs (m :: ms) w → Owns mbufs ms (give m w))
    (owns : Owns mbufs (new ++ ms) w)
    (run : (new.forM fun m => move fun w => some (give m w)).run.run w = some (r, w')) :
    r = .ok () ∧ Owns mbufs ms w' := by
  induction new generalizing w with
  | nil =>
    obtain ⟨rfl, rfl⟩ := run_pure.mp run
    exact ⟨rfl, owns⟩
  | cons m new ih =>
    rw [List.forM, run_bind] at run
    obtain ⟨_, v, first, rest⟩ | ⟨e, first, -⟩ := run
    · obtain ⟨-, given⟩ := run_move.mp first
      obtain rfl := Option.some.inj given
      exact ih (gives owns) rest
    · cases (run_move.mp first).1

/-- DPDK does not take the packet: it is too long, or no mbuf is allocated, or it cannot be
appended. -/
def Attempt.Fails (attempt : Attempt) : Prop :=
  u16Max < attempt.packet.bytes.length ∨ attempt.alloc = none ∨ attempt.append = false

/-- An mbuf is owned exactly where none of the three fails. -/
theorem packetToMbuf_owns {attempt : Attempt} {r : Except DpdkError Mbuf}
    (owns : Owns mbufs ms w) (run : (rt.packetToMbuf attempt).run.run w = some (r, w')) :
    (∃ m, r = .ok m ∧ ¬ attempt.Fails ∧ Owns mbufs (m :: ms) w') ∨
      ∃ e, r = .error e ∧ attempt.Fails ∧ Owns mbufs ms w' := by
  unfold NativeDpdkRuntime.packetToMbuf at run
  dsimp only at run
  split at run
  · next long =>
    obtain ⟨rfl, rfl⟩ := run_throw.mp run
    exact .inr ⟨_, rfl, .inl long, owns⟩
  next short =>
  cases found : attempt.alloc with
  | none =>
    rw [found, pktmbufAlloc, pure_bind] at run
    obtain ⟨rfl, rfl⟩ := run_throw.mp run
    exact .inr ⟨_, rfl, .inr (.inl found), owns⟩
  | some m =>
    simp only [found, pktmbufAlloc, bind_assoc, pure_bind] at run
    obtain ⟨_, v, first, rest⟩ | ⟨e, first, -⟩ := run_bind.mp run
    · have taken := owns.allocate (run_move.mp first).2
      split at rest
      · next appended =>
        obtain ⟨rfl, rfl⟩ := run_pure.mp rest
        refine .inl ⟨m, rfl, ?_, taken⟩
        simp [Attempt.Fails, found, appended, short]
      · next refused =>
        obtain ⟨_, u, freed, rest⟩ | ⟨e, freed, -⟩ := run_bind.mp rest
        · obtain ⟨-, freed⟩ := run_move.mp freed
          obtain rfl := Option.some.inj freed
          obtain ⟨rfl, rfl⟩ := run_throw.mp rest
          exact .inr ⟨_, rfl, .inr (.inr (by simpa using refused)), taken.release⟩
        · cases (run_move.mp freed).1
    · cases (run_move.mp first).1

/-- The packets up to the first that fails have an mbuf each. -/
theorem packetsToMbufs_owns {attempts : List Attempt} {r : Except DpdkError (List Mbuf)}
    (owns : Owns mbufs ms w)
    (run : (attempts.mapM rt.packetToMbuf).run.run w = some (r, w')) :
    (∃ new, r = .ok new ∧ (∀ a ∈ attempts, ¬ a.Fails) ∧ Owns mbufs (new ++ ms) w') ∨
      ∃ e before a after new, r = .error e ∧ attempts = before ++ a :: after ∧
        (∀ b ∈ before, ¬ b.Fails) ∧ a.Fails ∧ new.length = before.length ∧
        Owns mbufs (new ++ ms) w' := by
  induction attempts generalizing ms w r with
  | nil =>
    rw [List.mapM_nil] at run
    obtain ⟨rfl, rfl⟩ := run_pure.mp run
    exact .inl ⟨[], rfl, by simp, owns⟩
  | cons a attempts ih =>
    rw [List.mapM_cons] at run
    obtain ⟨m, v, first, run⟩ | ⟨e, first, rfl⟩ := run_bind.mp run
    · obtain ⟨_, ok, fine, owns⟩ | ⟨_, ok, -⟩ := packetToMbuf_owns owns first
      · obtain rfl := Except.ok.inj ok
        obtain ⟨rest, u, others, run⟩ | ⟨e, others, rfl⟩ := run_bind.mp run
        · obtain ⟨rfl, rfl⟩ := run_pure.mp run
          obtain ⟨_, ok, fine', owns⟩ | ⟨_, _, _, _, _, ok, -⟩ := ih owns others
          · obtain rfl := Except.ok.inj ok
            refine .inl ⟨_, rfl, by simp_all, owns.perm ?_⟩
            exact List.perm_middle
          · cases ok
        · obtain ⟨_, ok, -⟩ | ⟨_, before, b, after, new, -, rfl, fine', fails, length, owns⟩ :=
            ih owns others
          · cases ok
          · refine .inr ⟨e, a :: before, b, after, m :: new, rfl, rfl, by simp_all, fails,
              by simpa using length, owns.perm ?_⟩
            exact List.perm_middle
      · cases ok
    · obtain ⟨_, ok, -⟩ | ⟨_, -, fails, owns⟩ := packetToMbuf_owns owns first
      · cases ok
      · exact .inr ⟨e, [], a, attempts, [], rfl, rfl, by simp, fails, rfl, owns⟩

/-- The first packet fails, or none does. -/
def Leakless (attempts : List Attempt) : Prop :=
  (∃ a rest, attempts = a :: rest ∧ a.Fails) ∨ ∀ a ∈ attempts, ¬ a.Fails

theorem leakless_iff {before after : List Attempt} {a : Attempt}
    (fine : ∀ b ∈ before, ¬ b.Fails) (fails : a.Fails) :
    Leakless (before ++ a :: after) ↔ before = [] := by
  constructor
  · rintro (⟨b, rest, same, failed⟩ | all)
    · cases before with
      | nil => rfl
      | cons c before =>
        obtain ⟨rfl, -⟩ := List.cons.inj same
        exact absurd failed (fine c List.mem_cons_self)
    · exact absurd fails (all a (by simp))
  · rintro rfl
    exact .inl ⟨a, after, rfl, fails⟩

/-- The call owns an mbuf at its end exactly where a packet fails after one that does not. -/
theorem txBurst_owns {attempts : List Attempt} {nic : UInt16 → UInt16}
    {r : Except DpdkError UInt16} (owns : Owns mbufs [] w)
    (run : (rt.txBurst attempts nic).run.run w = some (r, w')) :
    ∃ kept, Owns mbufs kept w' ∧ (kept = [] ↔ rt.mempool = false ∨ Leakless attempts) := by
  unfold NativeDpdkRuntime.txBurst at run
  split at run
  · next missing =>
    obtain ⟨rfl, rfl⟩ := run_throw.mp run
    exact ⟨[], owns, by simp [missing]⟩
  next present =>
  obtain ⟨new, v, collected, run⟩ | ⟨e, collected, rfl⟩ := run_bind.mp run
  · obtain ⟨_, ok, fine, owns⟩ | ⟨_, _, _, _, _, ok, -⟩ := packetsToMbufs_owns owns collected
    · obtain rfl := Except.ok.inj ok
      refine ⟨[], ?_, iff_of_true rfl (.inr (.inr fine))⟩
      rw [← List.take_append_drop (nic (.ofNat new.length)).toNat new, List.append_assoc] at owns
      simp only [ethTxBurst, bind_assoc, pure_bind] at run
      obtain ⟨_, u, handed, run⟩ | ⟨e, handed, -⟩ := run_bind.mp run
      · obtain ⟨-, owns⟩ := owns.forM Owns.transmit handed
        obtain ⟨_, t, freed, run⟩ | ⟨e, freed, -⟩ := run_bind.mp run
        · obtain ⟨-, rfl⟩ := run_pure.mp run
          exact (owns.forM Owns.release freed).2
        · cases (owns.forM Owns.release freed).1
      · cases (owns.forM Owns.transmit handed).1
    · cases ok
  · obtain ⟨_, ok, -⟩ | ⟨_, before, a, after, new, -, rfl, fine, fails, length, owns⟩ :=
      packetsToMbufs_owns owns collected
    · cases ok
    · refine ⟨new, by simpa using owns, ?_⟩
      rw [leakless_iff fine fails, ← List.length_eq_zero_iff, length, List.length_eq_zero_iff]
      simp [present]

theorem takePacket_owns {entry : Received} {r : Except DpdkError (Option Packet)}
    (owns : Owns mbufs (entry.mbuf.toList ++ ms) w)
    (run : (NativeDpdkRuntime.takePacket entry).run.run w = some (r, w')) :
    (∃ p, r = .ok p) ∧ Owns mbufs ms w' := by
  unfold NativeDpdkRuntime.takePacket at run
  cases found : entry.mbuf with
  | none =>
    rw [found] at run owns
    obtain ⟨rfl, rfl⟩ := run_pure.mp run
    exact ⟨⟨_, rfl⟩, owns⟩
  | some m =>
    rw [found] at run owns
    obtain ⟨_, v, freed, run⟩ | ⟨e, freed, -⟩ := run_bind.mp run
    · obtain ⟨-, freed⟩ := run_move.mp freed
      obtain rfl := Option.some.inj freed
      obtain ⟨rfl, rfl⟩ := run_pure.mp run
      exact ⟨⟨_, rfl⟩, owns.release⟩
    · cases (run_move.mp freed).1

theorem takePackets_owns {entries : List Received} {r : Except DpdkError (List (Option Packet))}
    (owns : Owns mbufs (entries.filterMap Received.mbuf ++ ms) w)
    (run : (entries.mapM NativeDpdkRuntime.takePacket).run.run w = some (r, w')) :
    (∃ ps, r = .ok ps) ∧ Owns mbufs ms w' := by
  induction entries generalizing w r with
  | nil =>
    rw [List.mapM_nil] at run
    obtain ⟨rfl, rfl⟩ := run_pure.mp run
    exact ⟨⟨_, rfl⟩, owns⟩
  | cons entry entries ih =>
    have split : Owns mbufs (entry.mbuf.toList ++ (entries.filterMap Received.mbuf ++ ms)) w := by
      cases found : entry.mbuf <;> simpa [found] using owns
    rw [List.mapM_cons] at run
    obtain ⟨p, v, first, run⟩ | ⟨e, first, -⟩ := run_bind.mp run
    · obtain ⟨-, owns⟩ := takePacket_owns split first
      obtain ⟨ps, u, others, run⟩ | ⟨e, others, -⟩ := run_bind.mp run
      · obtain ⟨rfl, rfl⟩ := run_pure.mp run
        exact ⟨⟨_, rfl⟩, (ih owns others).2⟩
      · obtain ⟨⟨ps, ok⟩, -⟩ := ih owns others
        cases ok
    · obtain ⟨⟨p, ok⟩, -⟩ := takePacket_owns split first
      cases ok

theorem receive_owns {r : Except DpdkError Unit} (owns : Owns mbufs ms w)
    (run : (new.forM fun m => move (Mbufs.receive m)).run.run w = some (r, w')) :
    r = .ok () ∧ Owns mbufs (new ++ ms) w' := by
  induction new generalizing ms w with
  | nil =>
    obtain ⟨rfl, rfl⟩ := run_pure.mp run
    exact ⟨rfl, owns⟩
  | cons m new ih =>
    rw [List.forM, run_bind] at run
    obtain ⟨_, v, first, rest⟩ | ⟨e, first, -⟩ := run
    · obtain ⟨rfl, owns⟩ := ih (owns.receive (run_move.mp first).2) rest
      exact ⟨rfl, owns.perm List.perm_middle⟩
    · cases (run_move.mp first).1

/-- Every received mbuf is freed. -/
theorem rxBurst_owns {entries : List Received} {maxPackets : UInt16}
    {r : Except DpdkError (List Packet)} (owns : Owns mbufs ms w)
    (run : (NativeDpdkRuntime.rxBurst entries maxPackets).run.run w = some (r, w')) :
    Owns mbufs ms w' := by
  unfold NativeDpdkRuntime.rxBurst ethRxBurst at run
  split at run
  · obtain ⟨_, v, received, run⟩ | ⟨e, received, -⟩ := run_bind.mp run
    · obtain ⟨-, owns⟩ := receive_owns owns received
      obtain ⟨_, u, taken, run⟩ | ⟨e, taken, -⟩ := run_bind.mp run
      · obtain ⟨-, rfl⟩ := run_pure.mp run
        exact (takePackets_owns owns taken).2
      · exact (takePackets_owns owns taken).2
    · cases (receive_owns owns received).1
  · obtain ⟨_, v, received, -⟩ | ⟨e, received, -⟩ := run_bind.mp run
    · cases (run_move.mp received).2
    · cases (run_move.mp received).2

/-! ## Runs -/

/-- The runtime owns nothing, and has freed and sent only what it owned. -/
structure Conserved (mbufs : List Mbuf) (w : Mbufs) : Prop where
  owned : w.owned = []
  invalid : w.invalid = []
  placed : (w.free ++ w.nic).Perm mbufs

/-- A burst without a pool, or a batch that does not fail after its first packet. -/
def Careful (rt : NativeDpdkRuntime) (_ : Mbufs) : Event → Prop
  | .txBurst attempts _ => rt.mempool = false ∨ Leakless attempts
  | _ => True

theorem conserved_iff : Conserved mbufs w ↔ Owns mbufs [] w := by
  constructor
  · exact fun h => ⟨by simp [h.owned], h.invalid, by simpa using h.placed⟩
  · exact fun h => ⟨h.owned.eq_nil, h.invalid, by simpa using h.placed⟩

theorem conserved_step {e : Event} (conserved : Conserved mbufs w) (run : rt.step w e = some w') :
    Conserved mbufs w' ↔ Careful rt w e := by
  rw [conserved_iff] at conserved ⊢
  cases e with
  | txBurst attempts nic =>
    obtain ⟨⟨r, _⟩, call, rfl⟩ := Option.map_eq_some_iff.mp run
    obtain ⟨kept, owns, empty⟩ := txBurst_owns conserved call
    refine Iff.trans ?_ empty
    constructor
    · exact fun none => (owns.owned.symm.trans none.owned).eq_nil
    · rintro rfl
      exact owns
  | rxBurst entries maxPackets =>
    obtain ⟨⟨r, _⟩, call, rfl⟩ := Option.map_eq_some_iff.mp run
    exact iff_of_true (rxBurst_owns conserved call) trivial
  | complete m => exact iff_of_true (conserved.complete run) trivial
  | refill m => exact iff_of_true (conserved.refill run) trivial

/-- In a run of careful calls every mbuf stays in the pool or with the NIC, and the first call
that is not careful ends that. -/
theorem mbufs_conserved (h : (machine rt mbufs).Reach (Careful rt) w) :
    Conserved mbufs w ∧
      ∀ e w', rt.step w e = some w' → (Conserved mbufs w' ↔ Careful rt w e) := by
  have conserved : Conserved mbufs w := by
    refine h.invariant ?_ fun w e w' conserved careful run =>
      (conserved_step conserved run).mpr careful
    rintro _ rfl
    exact ⟨rfl, rfl, by simp⟩
  exact ⟨conserved, fun e w' run => conserved_step conserved run⟩

/-- A pool of two mbufs sends two packets. The NIC takes one of them, and the other is freed. -/
theorem mbufs_conserved_burst :
    ∃ w : Mbufs, (machine ⟨true, 2048⟩ [7, 8]).Reach (Careful ⟨true, 2048⟩) w ∧
      w.free = [8] ∧ w.nic = [7] ∧ Conserved [7, 8] w := by
  let burst : Event := .txBurst [⟨⟨[1]⟩, some 7, true⟩, ⟨⟨[2, 3]⟩, some 8, true⟩] fun _ => 1
  have careful : Careful ⟨true, 2048⟩ ⟨[7, 8], [], [], []⟩ burst := by
    refine .inr (.inr fun a mem => ?_)
    obtain rfl | rfl := List.mem_pair.mp mem
    all_goals simp [Attempt.Fails, u16Max]
  have sent : (machine ⟨true, 2048⟩ [7, 8]).step ⟨[7, 8], [], [], []⟩ burst =
      some ⟨[8], [7], [], []⟩ := by decide
  have run := Machine.Reach.step (.start rfl) careful sent
  exact ⟨_, run, rfl, rfl, (mbufs_conserved run).1⟩

/-- The pool has no mbuf left for the second packet, and the call returns with the mbuf of the
first. -/
theorem first_mbuf_leaks :
    ¬ ∀ (rt : NativeDpdkRuntime) (mbufs : List Mbuf) (w : Mbufs),
      (machine rt mbufs).Reach Machine.Always w → Conserved mbufs w := by
  intro conserved
  let burst : Event := .txBurst [⟨⟨[1]⟩, some 7, true⟩, ⟨⟨[2]⟩, none, true⟩] fun _ => 0
  have leaked : (machine ⟨true, 2048⟩ [7]).runs ⟨[7], [], [], []⟩ [burst] =
      some ⟨[], [], [7], []⟩ := by decide
  have start : (machine ⟨true, 2048⟩ [7]).Reach Machine.Always ⟨[7], [], [], []⟩ := .start rfl
  have kept := (conserved _ _ _ (start.runs leaked)).owned
  simp at kept

end BypassIo.Backend.Dpdk
