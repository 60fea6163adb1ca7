import Mathlib.Data.List.Perm.Basic
import BypassIo.Backend.SpdkLifecycle
import BypassIo.Library.Answered
import BypassIo.Library.Memory

/-!
# Memory of the buffers

`HugeBuf` and `BufPool` by the system calls they make, for a build without SPDK. The kernel
answers each call: an address or an error of `mmap`, a code of `mlock`, an entry of the pagemap.
It never places a mapping at 0 nor over another one, so such an answer has no successor. A call
or an access for memory that is not mapped is recorded in `misuses`.

A pool and its handles share the queue of the free buffers. Whoever of them is dropped last drops
the queue, and the buffers in it.

## Main definitions

* `mmapPreferred`, `HugeBuf.alloc`, `HugeBuf.drop`, `BufPool.new`.
* `machine`: a process that allocates and drops buffers and pools, and acquires and drops handles.

## Main results

* `alloc_ends`: what an allocation maps, and that a failed one maps nothing.
* `mappings_conserved`: in every state, what is mapped is what the live buffers own.
-/

namespace BypassIo.Buf.Hugepage
open Answered
open BypassIo.Backend.Spdk (HugeBufBacking)
open BypassIo.Backend.Spdk.Native (HugePageSize AllocError Mapping Memory roundUp)

deriving instance DecidableEq for HugePageSize

inductive IoError
  | os (errno : Int32)
  | invalidInput (detail : AllocError)
  | permissionDenied (detail : String)
  | other (detail : String)
  | fallback (hugeErr fallbackErr : IoError)

/-! ## The kernel -/

/-- A mapping of the process. -/
structure Mapped where
  addr : UInt64
  len : UInt64
  flags : Int32
  locked : Bool
  deriving DecidableEq

namespace Mapped

def isOf (addr len : UInt64) (m : Mapped) : Bool := m.addr = addr && m.len = len

/-- No byte is in both. -/
def Apart (m n : Mapped) : Prop :=
  FlatMemory.Apart m.addr.toNat m.len.toNat n.addr.toNat n.len.toNat

instance (m n : Mapped) : Decidable (m.Apart n) := inferInstanceAs (Decidable (_ ∨ _))

/-- The mapping has bytes, in the address space above 0. -/
structure Placed (m : Mapped) : Prop where
  addr : 0 < m.addr.toNat
  len : 0 < m.len.toNat
  within : m.addr.toNat + m.len.toNat ≤ 2 ^ 64

end Mapped

/-- A use of memory by its address and length. -/
inductive Use
  | mlock (addr len : UInt64)
  | munlock (addr len : UInt64)
  | munmap (addr len : UInt64)
  | write (addr len : UInt64)
  deriving DecidableEq

structure Kernel where
  mapped : List Mapped
  misuses : List Use
  deriving DecidableEq

namespace Kernel

variable (k : Kernel)

def mmap (addr len : UInt64) (flags : Int32) : Option Kernel :=
  if addr ≠ 0 ∧ addr.toNat + len.toNat ≤ 2 ^ 64 ∧
      ∀ m ∈ k.mapped, Mapped.Apart ⟨addr, len, flags, false⟩ m then
    some { k with mapped := ⟨addr, len, flags, false⟩ :: k.mapped }
  else none

/-- A use of memory, which changes the mappings if the memory is one of them. -/
def use (u : Use) (addr len : UInt64) (change : List Mapped → List Mapped) : Kernel :=
  if k.mapped.any (Mapped.isOf addr len) then { k with mapped := change k.mapped }
  else { k with misuses := k.misuses ++ [u] }

def setLocked (addr len : UInt64) (locked : Bool) (m : Mapped) : Mapped :=
  if m.isOf addr len then { m with locked } else m

/-- `mlock`, which may fail. -/
def mlock (addr len : UInt64) (succeeds : Bool) : Kernel :=
  k.use (.mlock addr len) addr len fun mapped =>
    if succeeds then mapped.map (setLocked addr len true) else mapped

def munlock (addr len : UInt64) : Kernel :=
  k.use (.munlock addr len) addr len (List.map (setLocked addr len false))

def munmap (addr len : UInt64) : Kernel :=
  k.use (.munmap addr len) addr len (List.eraseP (Mapped.isOf addr len))

/-- `write_bytes` over the memory. -/
def write (addr len : UInt64) : Kernel := k.use (.write addr len) addr len id

end Kernel

/-! ## Allocation -/

/-- `/proc/self/pagemap` and the page size: what opening the file, `sysconf` and reading an entry
at an offset return. -/
structure Pagemap where
  opened : Except IoError Unit
  pageSize : Int64
  entryAt : UInt64 → Except IoError UInt64

/-- What the kernel answers to one allocation. -/
structure Answers where
  huge : Except Int32 UInt64
  lockHuge : Option Int32
  anonymous : Except Int32 UInt64
  lockAnonymous : Option Int32
  pagemap : Pagemap

/-- A call that may fail, with the mappings it leaves. -/
abbrev Io := Answered Kernel IoError

def mapPrivate : Int32 := 0x02
def mapAnonymous : Int32 := 0x20
def mapHugetlb : Int32 := 0x40000
def mapHugeShift : Int32 := 26

def mmapFlags (size : HugePageSize) : Int32 :=
  let hugeBits := match size with
    | .mib2 => 21
    | .gib1 => 30
  mapPrivate ||| mapAnonymous ||| mapHugetlb ||| (hugeBits <<< mapHugeShift)

def mmapRaw (answer : Except Int32 UInt64) (len : UInt64) (flags : Int32) : Io UInt64 :=
  match answer with
  | .error errno => throw (.os errno)
  | .ok ptr => do
    move fun k => k.mmap ptr len flags
    if ptr = 0 then throw (.other "mmap returned null")
    else return ptr

def lockMapping (answer : Option Int32) (virt len : UInt64) : Io PUnit := do
  move fun k => some (k.mlock virt len answer.isNone)
  match answer with
  | none => return ⟨⟩
  | some errno => throw (.os errno)

/-- The mapping of huge pages that `mmap_preferred` tries first, which it keeps only locked. -/
def mmapHuge (a : Answers) (len : UInt64) (size : HugePageSize) : Io UInt64 := do
  let virt ← mmapRaw a.huge len (mmapFlags size)
  let locked : Except IoError PUnit ← attempt (lockMapping a.lockHuge virt len)
  match locked with
  | .error err => do
    move fun k => some (k.munmap virt len)
    throw err
  | .ok _ => return virt

def mmapPreferred (a : Answers) (len : UInt64) (size : HugePageSize) : Io Mapping := do
  let hugeResult : Except IoError UInt64 ← attempt (mmapHuge a len size)
  match hugeResult with
  | .ok virt => return ⟨virt, .hugePage, true⟩
  | .error hugeErr => do
    let mapped : Except IoError UInt64 ←
      attempt (mmapRaw a.anonymous len (mapPrivate ||| mapAnonymous))
    match mapped with
    | .error fallbackErr => throw (.fallback hugeErr fallbackErr)
    | .ok virt => do
      let locked : Except IoError PUnit ← attempt (lockMapping a.lockAnonymous virt len)
      let locked := locked.isOk
      return ⟨virt, if locked then .lockedFallback else .pageableFallback, locked⟩

def virtToPhys (pagemap : Pagemap) (virt : UInt64) : Except IoError UInt64 := do
  pagemap.opened
  if pagemap.pageSize ≤ 0 then throw (.other "sysconf(_SC_PAGESIZE) failed")
  else
    let basePageSize := pagemap.pageSize.toUInt64
    let vpn := virt / basePageSize
    let entry ← pagemap.entryAt (vpn * 8)
    if entry &&& ((1 : UInt64) <<< 63) = 0 then throw (.other "page is not present")
    else
      let pfn := entry &&& (((1 : UInt64) <<< 55) - 1)
      if pfn = 0 then
        throw (.permissionDenied "physical frame number is unavailable from pagemap")
      else return pfn * basePageSize + virt % basePageSize

/-- The buffer as the backends see it, with the page size it was allocated for. -/
structure HugeBuf extends Backend.Spdk.HugeBuf where
  pageSize : HugePageSize
  uringBufIndex : Option UInt32
  deriving DecidableEq

namespace HugeBuf

def alloc (a : Answers) (len : UInt64) (pageSize : HugePageSize) : Io HugeBuf := do
  let len ← ofResult ((roundUp len pageSize.bytes).mapError .invalidInput)
  let allocation ← mmapPreferred a len pageSize
  -- `prefault_mapping` writes over the whole range before the pagemap is read.
  move fun k => some (k.write allocation.virt len)
  let phys := (virtToPhys a.pagemap allocation.virt).toOption
  return ⟨⟨allocation.virt, phys, len, allocation.backing, allocation.locked⟩, pageSize, none⟩

def drop (buf : HugeBuf) (k : Kernel) : Kernel :=
  let k := if buf.locked then k.munlock buf.virt buf.len else k
  k.munmap buf.virt buf.len

end HugeBuf

/-! ## Pools -/

/-- The buffers of a queue that is dropped. -/
def dropQueue (free : List HugeBuf) (k : Kernel) : Kernel :=
  free.foldl (fun k buf => buf.drop k) k

/-- The queue of free buffers, and who shares it: the pool, and the live handles by their
buffers. -/
structure BufPool where
  free : List HugeBuf
  owned : Bool
  handles : List HugeBuf
  deriving DecidableEq

namespace BufPool

/-- The loop of `BufPool::new`, with the answers for each buffer. An error drops the queue. -/
def fill (bufSize : UInt64) (pageSize : HugePageSize) :
    List Answers → List HugeBuf → Io (List HugeBuf)
  | [], free => return free
  | a :: answers, free => do
    let allocated : Except IoError HugeBuf ← attempt (HugeBuf.alloc a bufSize pageSize)
    match allocated with
    | .ok buf => fill bufSize pageSize answers (free ++ [buf])
    | .error err => do
      move fun k => some (dropQueue free k)
      throw err

def new (answers : List Answers) (bufSize : UInt64) (pageSize : HugePageSize) : Io BufPool := do
  let free ← fill bufSize pageSize answers []
  return ⟨free, true, []⟩

/-- A share of the queue is given up. -/
def release (pool : BufPool) (k : Kernel) : BufPool × Kernel :=
  if pool.owned = false ∧ pool.handles = [] then ({ pool with free := [] }, dropQueue pool.free k)
  else (pool, k)

def acquire (pool : BufPool) : Option (BufPool × Option HugeBuf) :=
  if pool.owned then
    match pool.free with
    | [] => some (pool, none)
    | buf :: free => some ({ pool with free, handles := buf :: pool.handles }, some buf)
  else none

/-- `Drop for PooledBuf`: the buffer is pushed, and then the handle's share is given up. -/
def dropHandle (pool : BufPool) (buf : HugeBuf) (k : Kernel) : Option (BufPool × Kernel) :=
  if buf ∈ pool.handles then
    some (release { pool with free := pool.free ++ [buf], handles := pool.handles.erase buf } k)
  else none

def dropPool (pool : BufPool) (k : Kernel) : Option (BufPool × Kernel) :=
  if pool.owned then some (release { pool with owned := false } k) else none

/-- The buffers that the pool and its handles keep alive. -/
def live (pool : BufPool) : List HugeBuf := pool.free ++ pool.handles

end BufPool

/-! ## A process -/

structure Process where
  kernel : Kernel
  bufs : List HugeBuf
  pools : List BufPool
  deriving DecidableEq

inductive Event
  | allocBuf (answers : Answers) (len : UInt64) (pageSize : HugePageSize)
  | dropBuf (buf : HugeBuf)
  | newPool (answers : List Answers) (bufSize : UInt64) (pageSize : HugePageSize)
  | acquire (pool : Nat)
  | dropHandle (pool : Nat) (buf : HugeBuf)
  | dropPool (pool : Nat)

namespace Process

def new : Process := ⟨⟨[], []⟩, [], []⟩

/-- A pool of the process makes a step. -/
def update (s : Process) (i : Nat) (f : BufPool → Kernel → Option (BufPool × Kernel)) :
    Option Process := do
  let pool ← s.pools[i]?
  let (pool, kernel) ← f pool s.kernel
  return { s with kernel, pools := s.pools.set i pool }

def step (s : Process) : Event → Option Process
  | .allocBuf answers len pageSize =>
    match (HugeBuf.alloc answers len pageSize).run.run s.kernel with
    | none => none
    | some (.ok buf, kernel) => some { s with kernel, bufs := buf :: s.bufs }
    | some (.error _, kernel) => some { s with kernel }
  | .dropBuf buf =>
    if buf ∈ s.bufs then
      some { s with kernel := buf.drop s.kernel, bufs := s.bufs.erase buf }
    else none
  | .newPool answers bufSize pageSize =>
    match (BufPool.new answers bufSize pageSize).run.run s.kernel with
    | none => none
    | some (.ok pool, kernel) => some { s with kernel, pools := s.pools ++ [pool] }
    | some (.error _, kernel) => some { s with kernel }
  | .acquire i => s.update i fun pool k => pool.acquire.map fun (pool, _) => (pool, k)
  | .dropHandle i buf => s.update i fun pool k => pool.dropHandle buf k
  | .dropPool i => s.update i fun pool k => pool.dropPool k

/-- The buffers that are alive: held by the program, free in a pool, or behind a handle. -/
def live (s : Process) : List HugeBuf := s.bufs ++ s.pools.flatMap BufPool.live

end Process

def machine : Machine Process Event where
  start := (· = Process.new)
  step := Process.step

/-! ## Mappings -/

/-- The kernel has these mappings and no others, and has seen no misuse. -/
structure Holds (ms : List Mapped) (k : Kernel) : Prop where
  served : k.misuses = []
  mapped : k.mapped.Perm ms
  apart : ms.Pairwise Mapped.Apart
  placed : ∀ m ∈ ms, m.Placed

section

variable {ms ms' : List Mapped} {m : Mapped} {k k' : Kernel} {addr len : UInt64} {flags : Int32}

@[simp] theorem Mapped.isOf_eq_true : m.isOf addr len = true ↔ m.addr = addr ∧ m.len = len := by
  simp [Mapped.isOf]

theorem Mapped.Apart.symm {n : Mapped} (h : m.Apart n) : n.Apart m := FlatMemory.Apart.symm h

namespace Holds

theorem perm (h : Holds ms k) (same : ms.Perm ms') : Holds ms' k where
  served := h.served
  mapped := h.mapped.trans same
  apart := (same.pairwise_iff fun h => h.symm).mp h.apart
  placed n mem := h.placed n (same.mem_iff.mpr mem)

/-- No other mapping has the address of the first. -/
theorem only (h : Holds (m :: ms) k) : ∀ n ∈ ms, ¬ n.isOf m.addr m.len := by
  intro n mem same
  obtain ⟨addr, len⟩ := Mapped.isOf_eq_true.mp same
  have apart := (List.pairwise_cons.mp h.apart).1 n mem
  have bytes := (h.placed m List.mem_cons_self).len
  unfold Mapped.Apart FlatMemory.Apart at apart
  grind

theorem use (h : Holds (m :: ms) k) (u : Use) (change : List Mapped → List Mapped) :
    k.use u m.addr m.len change = { k with mapped := change k.mapped } := by
  have found : k.mapped.any (Mapped.isOf m.addr m.len) = true := by
    rw [List.any_eq_true]
    exact ⟨m, h.mapped.mem_iff.mpr List.mem_cons_self, by simp⟩
  rw [Kernel.use, if_pos found]

theorem mmap (h : Holds ms k) (positive : 0 < len.toNat) (run : k.mmap addr len flags = some k') :
    addr ≠ 0 ∧ Holds (⟨addr, len, flags, false⟩ :: ms) k' := by
  obtain ⟨⟨nonzero, within, apart⟩, run⟩ := Option.ite_none_right_eq_some.mp run
  obtain rfl := Option.some.inj run
  refine ⟨nonzero, h.served, h.mapped.cons _, ?_, ?_⟩
  · rw [List.pairwise_cons]
    exact ⟨fun n mem => apart n (h.mapped.mem_iff.mpr mem), h.apart⟩
  · have above : 0 < addr.toNat := Nat.pos_of_ne_zero fun zero => nonzero (UInt64.toNat_inj.mp zero)
    rw [List.forall_mem_cons]
    exact ⟨⟨above, positive, within⟩, h.placed⟩

theorem setLocked (h : Holds (m :: ms) k) (locked : Bool) :
    Holds ({ m with locked } :: ms)
      { k with mapped := k.mapped.map (Kernel.setLocked m.addr m.len locked) } := by
  have others : ms.map (Kernel.setLocked m.addr m.len locked) = ms := by
    rw [List.map_congr_left (g := id), List.map_id]
    intro n mem
    rw [Kernel.setLocked, if_neg (h.only n mem), id]
  refine ⟨h.served, ?_, ?_, ?_⟩
  · have moved := h.mapped.map (Kernel.setLocked m.addr m.len locked)
    rw [List.map_cons, others, Kernel.setLocked, if_pos (by simp)] at moved
    exact moved
  · obtain ⟨first, others⟩ := List.pairwise_cons.mp h.apart
    exact List.pairwise_cons.mpr ⟨first, others⟩
  · obtain ⟨⟨above, bytes, within⟩, others⟩ := List.forall_mem_cons.mp h.placed
    exact List.forall_mem_cons.mpr ⟨⟨above, bytes, within⟩, others⟩

theorem mlock (h : Holds (m :: ms) k) (unlocked : m.locked = false) (succeeds : Bool) :
    Holds ({ m with locked := succeeds } :: ms) (k.mlock m.addr m.len succeeds) := by
  rw [Kernel.mlock, h.use]
  cases succeeds with
  | true => exact h.setLocked true
  | false =>
    have same : { m with locked := false } = m := by rw [← unlocked]
    rw [same]
    exact h

theorem munlock (h : Holds (m :: ms) k) :
    Holds ({ m with locked := false } :: ms) (k.munlock m.addr m.len) := by
  rw [Kernel.munlock, h.use]
  exact h.setLocked false

theorem munmap (h : Holds (m :: ms) k) : Holds ms (k.munmap m.addr m.len) := by
  have distinct : (m :: ms).Pairwise fun a b =>
      Mapped.isOf m.addr m.len a → Mapped.isOf m.addr m.len b → False := by
    rw [List.pairwise_cons]
    refine ⟨fun n mem _ => h.only n mem, List.Pairwise.imp_of_mem ?_ h.apart.tail⟩
    exact fun mem _ _ same => absurd same (h.only _ mem)
  rw [Kernel.munmap, h.use]
  refine ⟨h.served, ?_, h.apart.tail, fun n mem => h.placed n (List.mem_cons_of_mem m mem)⟩
  have erased := List.Perm.eraseP (Mapped.isOf m.addr m.len)
    ((h.mapped.pairwise_iff fun apart b a => apart a b).mpr distinct) h.mapped
  rwa [List.eraseP_cons_of_pos (by simp)] at erased

theorem write (h : Holds (m :: ms) k) : k.write m.addr m.len = k := h.use _ _

end Holds

/-! ## Allocations -/

/-- How a mapping of a backing is made. -/
def flagsOf (backing : HugeBufBacking) (size : HugePageSize) : Int32 :=
  if backing = .hugePage then mmapFlags size else mapPrivate ||| mapAnonymous

/-- The backing says whether the memory is locked. -/
def Locks (backing : HugeBufBacking) (locked : Bool) : Prop :=
  backing ≠ .spdkDma ∧ (locked = true ↔ backing ≠ .pageableFallback)

theorem mmapRaw_ends (h : Holds ms k) (positive : 0 < len.toNat) (answer : Except Int32 UInt64) :
    Ends (mmapRaw answer len flags) k fun
      | .ok virt, k' => Holds (⟨virt, len, flags, false⟩ :: ms) k'
      | .error _, k' => Holds ms k' := by
  cases answer with
  | error errno => exact Ends.throw h
  | ok ptr =>
    refine Ends.bind (Ends.move fun k' run => ?_)
    obtain ⟨placed, held⟩ := h.mmap positive run
    dsimp only
    rw [if_neg placed]
    exact Ends.pure held

theorem lockMapping_ends (h : Holds (m :: ms) k) (unlocked : m.locked = false)
    (answer : Option Int32) :
    Ends (lockMapping answer m.addr m.len) k fun r k' =>
      Holds ({ m with locked := r.isOk } :: ms) k' := by
  refine Ends.bind (Ends.move fun k' run => ?_)
  obtain rfl := Option.some.inj run
  have held := h.mlock unlocked answer.isNone
  cases answer with
  | none => exact Ends.pure held
  | some errno => exact Ends.throw held

/-- A mapping that cannot be locked is unmapped again. -/
theorem mmapHuge_ends (h : Holds ms k) (positive : 0 < len.toNat) (a : Answers)
    (size : HugePageSize) :
    Ends (mmapHuge a len size) k fun
      | .ok virt, k' => Holds (⟨virt, len, mmapFlags size, true⟩ :: ms) k'
      | .error _, k' => Holds ms k' := by
  refine Ends.bind ((mmapRaw_ends h positive a.huge).mono fun r k' held => ?_)
  cases r with
  | error e => exact held
  | ok virt =>
    refine Ends.bind (Ends.attempt ((lockMapping_ends held rfl a.lockHuge).mono ?_))
    intro r k' held
    cases r with
    | ok => exact Ends.pure held
    | error e =>
      refine Ends.bind (Ends.move fun k'' run => ?_)
      obtain rfl := Option.some.inj run
      exact Ends.throw held.munmap

theorem mmapPreferred_ends (h : Holds ms k) (positive : 0 < len.toNat) (a : Answers)
    (size : HugePageSize) :
    Ends (mmapPreferred a len size) k fun
      | .ok m, k' => Locks m.backing m.locked ∧
          Holds (⟨m.virt, len, flagsOf m.backing size, m.locked⟩ :: ms) k'
      | .error _, k' => Holds ms k' := by
  refine Ends.bind (Ends.attempt ((mmapHuge_ends h positive a size).mono fun r k' held => ?_))
  cases r with
  | ok virt => exact Ends.pure ⟨by simp [Locks], held⟩
  | error hugeErr =>
    refine Ends.bind (Ends.attempt ((mmapRaw_ends held positive a.anonymous).mono ?_))
    intro r k' held
    cases r with
    | error e => exact Ends.throw held
    | ok virt =>
      refine Ends.bind (Ends.attempt ((lockMapping_ends held rfl a.lockAnonymous).mono ?_))
      intro r k' held
      apply Ends.pure
      cases r with
      | ok => exact ⟨by simp [Locks, Except.isOk, Except.toBool], held⟩
      | error e => exact ⟨by simp [Locks, Except.isOk, Except.toBool], held⟩

end

/-! ## Buffers -/

/-- The length is a positive number of pages, and the backing says what it is. -/
structure HugeBuf.Sized (buf : HugeBuf) : Prop where
  pos : 0 < buf.len.toNat
  whole : buf.pageSize.bytes.toNat ∣ buf.len.toNat
  locks : Locks buf.backing buf.locked

/-- The mapping of a buffer. -/
def HugeBuf.mapped (buf : HugeBuf) : Mapped :=
  ⟨buf.virt, buf.len, flagsOf buf.backing buf.pageSize, buf.locked⟩

theorem bytes_pos (size : HugePageSize) : 0 < size.bytes.toNat := by
  cases size <;> decide

/-- The least number of pages that holds `len` bytes; it fails for no bytes and where the sum
before the division wraps. -/
theorem roundUp_eq_ok {len n : UInt64} {size : HugePageSize} :
    roundUp len size.bytes = .ok n ↔ 0 < len.toNat ∧
      len.toNat + (size.bytes.toNat - 1) < 2 ^ 64 ∧
      n.toNat = (len.toNat + (size.bytes.toNat - 1)) / size.bytes.toNat * size.bytes.toNat := by
  have align : size.bytes ≠ 0 := by cases size <;> decide
  have less : (size.bytes - 1).toNat = size.bytes.toNat - 1 := by cases size <;> decide
  have zero : len = 0 ↔ len.toNat = 0 := by rw [← UInt64.toNat_inj]; rfl
  unfold roundUp
  by_cases empty : len = 0
  · simp [empty]
  have pos : 0 < len.toNat := by grind
  rw [if_neg empty, if_neg align]
  by_cases fits : len.toNat + (size.bytes.toNat - 1) < 2 ^ 64
  · have added : Rust.checkedAdd64 len (size.bytes - 1) = some (len + (size.bytes - 1)) :=
      Rust.checkedAdd64_eq_some.mpr ⟨by rwa [less], rfl⟩
    have sum := Rust.toNat_of_checkedAdd64 added
    have small := (len + (size.bytes - 1)).toNat_lt
    have le := Nat.div_mul_le_self (len + (size.bytes - 1)).toNat size.bytes.toNat
    rw [added]
    dsimp only
    rw [Except.ok.injEq, ← UInt64.toNat_inj, UInt64.toNat_mul, UInt64.toNat_div,
      Nat.mod_eq_of_lt (by omega), sum, less, eq_comm]
    grind
  · have past : Rust.checkedAdd64 len (size.bytes - 1) = none := by
      rw [Rust.checkedAdd64, less, if_neg fits]
    rw [past]
    grind

/-- What is mapped is what these buffers own. -/
structure Kept (bufs : List HugeBuf) (k : Kernel) : Prop where
  holds : Holds (bufs.map HugeBuf.mapped) k
  sized : ∀ buf ∈ bufs, buf.Sized

section

variable {bufs bufs' free rest : List HugeBuf} {buf : HugeBuf} {k k' : Kernel} {pool : BufPool}

theorem Kept.perm (h : Kept bufs k) (same : bufs.Perm bufs') : Kept bufs' k where
  holds := h.holds.perm (same.map _)
  sized b mem := h.sized b (same.mem_iff.mpr mem)

/-- A buffer that is allocated owns one mapping more; where the allocation fails nothing more is
mapped. -/
theorem alloc_ends (h : Kept bufs k) (a : Answers) (len : UInt64) (size : HugePageSize) :
    Ends (HugeBuf.alloc a len size) k fun
      | .ok buf, k' => roundUp len size.bytes = .ok buf.len ∧ buf.pageSize = size ∧
          Kept (buf :: bufs) k'
      | .error _, k' => Kept bufs k' := by
  refine Ends.bind (Ends.ofResult ?_)
  cases rounded : roundUp len size.bytes with
  | error e => exact h
  | ok n =>
    obtain ⟨pos, -, exact_⟩ := roundUp_eq_ok.mp rounded
    have page := bytes_pos size
    have whole : size.bytes.toNat ∣ n.toNat := exact_ ▸ Nat.dvd_mul_left _ _
    have some_page : 0 < n.toNat := by
      rw [exact_]
      exact Nat.mul_pos (Nat.div_pos (by omega) page) page
    refine Ends.bind ((mmapPreferred_ends h.holds some_page a size).mono fun r k' mapped => ?_)
    cases r with
    | error e => exact ⟨mapped, h.sized⟩
    | ok allocation =>
      obtain ⟨locks, held⟩ := mapped
      refine Ends.bind (Ends.move fun k'' run => ?_)
      obtain rfl := Option.some.inj run
      rw [held.write]
      refine Ends.pure ⟨rfl, rfl, held, ?_⟩
      rw [List.forall_mem_cons]
      exact ⟨⟨some_page, whole, locks⟩, h.sized⟩

/-- The drop of a buffer unmaps it and nothing else. -/
theorem Kept.drop (h : Kept (buf :: bufs) k) : Kept bufs (buf.drop k) where
  holds := by
    have mapped := h.holds
    unfold HugeBuf.drop
    split
    · exact (Holds.munlock (m := buf.mapped) mapped).munmap
    · exact Holds.munmap (m := buf.mapped) mapped
  sized b mem := h.sized b (List.mem_cons_of_mem buf mem)

theorem Kept.dropQueue (h : Kept (free ++ rest) k) : Kept rest (dropQueue free k) := by
  induction free generalizing k with
  | nil => exact h
  | cons buf free ih => exact ih h.drop

theorem fill_ends (h : Kept (free ++ rest) k) (answers : List Answers) (bufSize : UInt64)
    (size : HugePageSize) :
    Ends (BufPool.fill bufSize size answers free) k fun
      | .ok free, k' => Kept (free ++ rest) k'
      | .error _, k' => Kept rest k' := by
  induction answers generalizing free k with
  | nil => exact Ends.pure h
  | cons a answers ih =>
    refine Ends.bind (Ends.attempt ((alloc_ends h a bufSize size).mono fun r k' allocated => ?_))
    cases r with
    | ok buf =>
      apply ih
      apply allocated.2.2.perm
      grind
    | error e =>
      refine Ends.bind (Ends.move fun k'' run => ?_)
      obtain rfl := Option.some.inj run
      exact Ends.throw (Kept.dropQueue allocated)

theorem newPool_ends (h : Kept rest k) (answers : List Answers) (bufSize : UInt64)
    (size : HugePageSize) :
    Ends (BufPool.new answers bufSize size) k fun
      | .ok pool, k' => pool.owned = true ∧ Kept (pool.live ++ rest) k'
      | .error _, k' => Kept rest k' := by
  refine Ends.bind ((fill_ends (show Kept ([] ++ rest) k from h) answers bufSize size).mono fun r k' filled => ?_)
  cases r with
  | error e => exact filled
  | ok free =>
    refine Ends.pure ⟨rfl, ?_⟩
    simpa [BufPool.live] using filled

/-! ## Pools -/

/-- The queue of a pool without pool and handles is empty. -/
def BufPool.Closed (pool : BufPool) : Prop :=
  pool.owned = false → pool.handles = [] → pool.free = []

theorem release_kept (h : Kept (pool.live ++ rest) k) :
    (pool.release k).1.Closed ∧ Kept ((pool.release k).1.live ++ rest) (pool.release k).2 := by
  unfold BufPool.release
  split
  · next last =>
    refine ⟨fun _ _ => rfl, ?_⟩
    rw [BufPool.live, last.2, List.append_nil] at h
    simpa [BufPool.live, last.2] using h.dropQueue
  · next shared => exact ⟨fun dropped none => absurd ⟨dropped, none⟩ shared, h⟩

theorem acquire_kept {pool' : BufPool} {result : Option HugeBuf} (h : Kept (pool.live ++ rest) k)
    (run : pool.acquire = some (pool', result)) :
    pool'.Closed ∧ Kept (pool'.live ++ rest) k := by
  unfold BufPool.acquire at run
  obtain ⟨owned, run⟩ := Option.ite_none_right_eq_some.mp run
  split at run
  · obtain ⟨rfl, -⟩ := Prod.mk.inj (Option.some.inj run)
    exact ⟨fun dropped => absurd (owned.symm.trans dropped) nofun, h⟩
  · next buf free first =>
    obtain ⟨rfl, -⟩ := Prod.mk.inj (Option.some.inj run)
    refine ⟨fun dropped => absurd (owned.symm.trans dropped) nofun, h.perm ?_⟩
    simp only [BufPool.live, first]
    grind

theorem dropHandle_kept {result : BufPool × Kernel} (h : Kept (pool.live ++ rest) k)
    (run : pool.dropHandle buf k = some result) :
    result.1.Closed ∧ Kept (result.1.live ++ rest) result.2 := by
  obtain ⟨mem, run⟩ := Option.ite_none_right_eq_some.mp run
  obtain rfl := Option.some.inj run
  apply release_kept
  apply h.perm
  have moved := List.perm_cons_erase mem
  simp only [BufPool.live]
  grind

theorem dropPool_kept {result : BufPool × Kernel} (h : Kept (pool.live ++ rest) k)
    (run : pool.dropPool k = some result) :
    result.1.Closed ∧ Kept (result.1.live ++ rest) result.2 := by
  obtain ⟨-, run⟩ := Option.ite_none_right_eq_some.mp run
  obtain rfl := Option.some.inj run
  exact release_kept h

end

/-! ## Runs -/

/-- What holds between the steps. -/
structure Process.Inv (s : Process) : Prop where
  kept : Kept s.live s.kernel
  closed : ∀ pool ∈ s.pools, pool.Closed

/-- A step of one pool keeps the invariant where it keeps it for that pool among the others. -/
theorem Process.Inv.update {s t : Process} {i : Nat}
    {f : BufPool → Kernel → Option (BufPool × Kernel)} (h : s.Inv) (run : s.update i f = some t)
    (keeps : ∀ {pool rest k result}, Kept (pool.live ++ rest) k → f pool k = some result →
      result.1.Closed ∧ Kept (result.1.live ++ rest) result.2) : t.Inv := by
  obtain ⟨pool, found, run⟩ := Option.bind_eq_some_iff.mp run
  obtain ⟨⟨pool', kernel⟩, moved, same⟩ := Option.bind_eq_some_iff.mp run
  obtain rfl := Option.some.inj same
  obtain ⟨lt, rfl⟩ := List.getElem?_eq_some_iff.mp found
  obtain ⟨before, after, split, -, set⟩ := @List.exists_of_set _ i pool' s.pools lt
  generalize s.pools[i] = old at moved split
  have kept : Kept (old.live ++ (s.bufs ++ (before.flatMap BufPool.live ++
      after.flatMap BufPool.live))) s.kernel := by
    apply h.kept.perm
    simp only [Process.live, split, List.flatMap_append, List.flatMap_cons]
    grind
  obtain ⟨closed, kept⟩ := keeps kept moved
  constructor
  · apply kept.perm
    simp only [Process.live, set, List.flatMap_append, List.flatMap_cons]
    grind
  · intro p mem
    have old_closed := h.closed p
    rw [split] at old_closed
    rw [show Process.pools _ = _ from set] at mem
    grind

theorem inv_step {s t : Process} {e : Event} (h : s.Inv) (run : s.step e = some t) : t.Inv := by
  cases e with
  | allocBuf answers len pageSize =>
    have ends := alloc_ends h.kept answers len pageSize
    unfold Process.step at run
    dsimp only at run
    split at run
    · cases run
    · next buf kernel allocated =>
      obtain rfl := Option.some.inj run
      exact ⟨(ends.result allocated).2.2, h.closed⟩
    · next kernel failed =>
      obtain rfl := Option.some.inj run
      exact ⟨ends.result failed, h.closed⟩
  | dropBuf buf =>
    obtain ⟨mem, run⟩ := Option.ite_none_right_eq_some.mp run
    obtain rfl := Option.some.inj run
    refine ⟨Kept.drop (h.kept.perm ?_), h.closed⟩
    exact (List.perm_cons_erase mem).append_right _
  | newPool answers bufSize pageSize =>
    have ends := newPool_ends h.kept answers bufSize pageSize
    unfold Process.step at run
    dsimp only at run
    split at run
    · cases run
    · next pool kernel made =>
      obtain rfl := Option.some.inj run
      obtain ⟨owned, kept⟩ := ends.result made
      refine ⟨kept.perm ?_, ?_⟩
      · simp only [Process.live, List.flatMap_append, List.flatMap_cons, List.flatMap_nil]
        grind
      · have closed := h.closed
        have fresh : pool.Closed := fun dropped => absurd owned (by simp [dropped])
        grind
    · next kernel failed =>
      obtain rfl := Option.some.inj run
      exact ⟨ends.result failed, h.closed⟩
  | acquire i =>
    unfold Process.step at run
    refine h.update run fun {pool rest k result} kept acquired => ?_
    obtain ⟨⟨pool', popped⟩, popping, rfl⟩ := Option.map_eq_some_iff.mp acquired
    exact acquire_kept kept popping
  | dropHandle i buf =>
    unfold Process.step at run
    exact h.update run dropHandle_kept
  | dropPool i =>
    unfold Process.step at run
    exact h.update run dropPool_kept

/-- What is mapped is what the live buffers own. -/
structure Process.Conserved (s : Process) : Prop where
  /-- Every call and every access was for memory that was mapped. -/
  served : s.kernel.misuses = []
  /-- Each live buffer owns one mapping, of its length, backing and lock, and there is no other. -/
  mapped : s.kernel.mapped.Perm (s.live.map HugeBuf.mapped)
  /-- No two live buffers share a byte. -/
  apart : s.live.Pairwise fun a b => a.mapped.Apart b.mapped
  placed : ∀ buf ∈ s.live, buf.mapped.Placed
  sized : ∀ buf ∈ s.live, buf.Sized
  /-- When every buffer, handle and pool has been dropped, nothing is mapped. -/
  released : s.bufs = [] → (∀ pool ∈ s.pools, pool.owned = false ∧ pool.handles = []) →
    s.kernel.mapped = []

theorem Process.Inv.conserved {s : Process} (h : s.Inv) : s.Conserved where
  served := h.kept.holds.served
  mapped := h.kept.holds.mapped
  apart := List.pairwise_map.mp h.kept.holds.apart
  placed := List.forall_mem_map.mp h.kept.holds.placed
  sized := h.kept.sized
  released := by
    intro none dropped
    have empty : s.live = [] := by
      rw [Process.live, none, List.nil_append, List.flatMap_eq_nil_iff]
      intro pool mem
      obtain ⟨unowned, unheld⟩ := dropped pool mem
      rw [BufPool.live, h.closed pool mem unowned unheld, unheld, List.nil_append]
    have mapped := h.kept.holds.mapped
    rwa [empty, List.map_nil, List.perm_nil] at mapped

/-- The live buffers fit in the address space beside each other, with 0 left free. -/
theorem Process.Conserved.total {s : Process} (h : s.Conserved) :
    (s.live.map fun buf => buf.len.toNat).sum ≤ 2 ^ 64 - 1 := by
  have within : ∀ buf ∈ s.live, 1 ≤ buf.virt.toNat ∧ buf.virt.toNat + buf.len.toNat ≤ 2 ^ 64 := by
    intro buf mem
    obtain ⟨above, -, within⟩ := h.placed buf mem
    exact ⟨above, within⟩
  exact FlatMemory.sum_le_of_apart h.apart within

theorem reach_inv {s : Process} {allowed : Process → Event → Prop}
    (h : machine.Reach allowed s) : s.Inv := by
  refine h.invariant (I := Process.Inv) ?_ fun s e t inv _ run => inv_step inv run
  rintro s rfl
  exact ⟨⟨⟨rfl, .nil, .nil, nofun⟩, nofun⟩, nofun⟩

/-- Whatever the kernel answers and in whatever order buffers, pools and handles come and go, each
mapping is made for one buffer and unmapped with it. -/
theorem mappings_conserved {s : Process} {allowed : Process → Event → Prop}
    (h : machine.Reach allowed s) : s.Conserved := (reach_inv h).conserved

/-- A kernel without a pagemap that can be opened. -/
def noPagemap : Pagemap := ⟨.error (.os 2), 4096, fun _ => .error (.os 2)⟩

/-- The kernel has huge pages at this address, and locks them or not. -/
def hugeAt (addr : UInt64) (lock : Option Int32) (fallback : UInt64) : Answers :=
  ⟨.ok addr, lock, .ok fallback, some 12, noPagemap⟩

/-- The buffer of a mapping of 2 MiB. -/
def bufAt (addr : UInt64) (backing : HugeBufBacking) (locked : Bool) : HugeBuf :=
  ⟨⟨addr, none, 2097152, backing, locked⟩, .mib2, none⟩

/-- A pool whose second buffer cannot be locked; its handle outlives it. -/
theorem mappings_conserved_pool : ∃ s, machine.runs .new [
      .newPool [hugeAt 4194304 none 0, hugeAt 8388608 (some 12) 16777216] 1 .mib2,
      .acquire 0, .dropPool 0, .dropHandle 0 (bufAt 4194304 .hugePage true)] = some s ∧
    s.kernel.mapped = [] ∧ s.Conserved := by
  have run : machine.runs .new [
      .newPool [hugeAt 4194304 none 0, hugeAt 8388608 (some 12) 16777216] 1 .mib2,
      .acquire 0, .dropPool 0, .dropHandle 0 (bufAt 4194304 .hugePage true)] =
        some ⟨⟨[], []⟩, [], [⟨[], false, []⟩]⟩ := by decide
  exact ⟨_, run, rfl, mappings_conserved ((Machine.Reach.start rfl).runs run)⟩

/-! ## The coarser model -/

/-- The answers as the model of the SPDK environment has them. -/
def Answers.memory (a : Answers) (pagemap : Option UInt64) : Memory where
  zmalloc := none
  huge := if a.lockHuge = none then a.huge.toOption else none
  anonymous := a.anonymous.toOption
  locks := a.lockAnonymous.isNone
  pagemap := pagemap

section

variable {k : Kernel} {a : Answers} {len : UInt64} {flags : Int32}

theorem mmapRaw_returns (answer : Except Int32 UInt64) :
    Ends (mmapRaw answer len flags) k fun r _ => r.toOption = answer.toOption := by
  cases answer with
  | error errno => exact Ends.throw rfl
  | ok ptr =>
    refine Ends.bind (Ends.move fun k' run => ?_)
    obtain ⟨⟨placed, -⟩, -⟩ := Option.ite_none_right_eq_some.mp run
    dsimp only
    rw [if_neg placed]
    exact Ends.pure rfl

theorem lockMapping_returns (answer : Option Int32) (virt : UInt64) :
    Ends (lockMapping answer virt len) k fun r _ => r.isOk = answer.isNone := by
  refine Ends.bind (Ends.move fun k' run => ?_)
  cases answer with
  | none => exact Ends.pure rfl
  | some errno => exact Ends.throw rfl

theorem mmapHuge_returns (size : HugePageSize) (phys : Option UInt64) :
    Ends (mmapHuge a len size) k fun r _ => r.toOption = (a.memory phys).huge := by
  refine Ends.bind ((mmapRaw_returns a.huge).mono fun r k' same => ?_)
  cases r with
  | error e =>
    dsimp only
    rw [Answers.memory, ← same]
    dsimp only
    split
    · rfl
    · rfl
  | ok virt =>
    refine Ends.bind (Ends.attempt ((lockMapping_returns a.lockHuge virt).mono ?_))
    intro r k' locked
    cases lock : a.lockHuge with
    | none =>
      cases r with
      | ok =>
        apply Ends.pure
        rw [Answers.memory, if_pos lock, ← same]
      | error e => simp [lock, Except.isOk, Except.toBool] at locked
    | some errno =>
      cases r with
      | ok => simp [lock, Except.isOk, Except.toBool] at locked
      | error e =>
        refine Ends.bind (Ends.move fun k'' _ => Ends.throw ?_)
        rw [Answers.memory, lock]
        rfl

/-- The mapping, or the error, is that of the coarser model. -/
theorem mmapPreferred_refines (size : HugePageSize) (phys : Option UInt64) :
    Ends (mmapPreferred a len size) k fun r _ =>
      r.toOption = (Backend.Spdk.Native.mmapPreferred (a.memory phys)).toOption := by
  unfold Backend.Spdk.Native.mmapPreferred
  refine Ends.bind (Ends.attempt ((mmapHuge_returns size phys).mono fun r k' same => ?_))
  cases r with
  | ok virt =>
    rw [← same]
    exact Ends.pure rfl
  | error hugeErr =>
    rw [← same]
    refine Ends.bind (Ends.attempt ((mmapRaw_returns a.anonymous).mono fun r k' same => ?_))
    rw [show (a.memory phys).anonymous = a.anonymous.toOption from rfl, ← same]
    cases r with
    | error e => exact Ends.throw rfl
    | ok virt =>
      refine Ends.bind (Ends.attempt ((lockMapping_returns a.lockAnonymous virt).mono ?_))
      intro r k' locked
      apply Ends.pure
      rw [locked]
      rfl

/-- Where buffers are not allocated from SPDK, an allocation returns what it returns in the
coarser model, for some answer of the pagemap. -/
theorem alloc_refines {env : Backend.Spdk.Native.Env} (disabled : env.dmaAllocations = false)
    (size : HugePageSize) :
    Ends (HugeBuf.alloc a len size) k fun r _ => ∃ phys r',
      (Backend.Spdk.Native.HugeBuf.alloc (a.memory phys) len size).run.run env = (r', env) ∧
        r.toOption.map HugeBuf.toHugeBuf = r'.toOption := by
  refine Ends.bind (Ends.ofResult ?_)
  cases rounded : roundUp len size.bytes with
  | error e =>
    refine ⟨none, .error e, ?_, rfl⟩
    rw [Backend.Spdk.Native.HugeBuf.alloc, Backend.Spdk.run_lift_bind, rounded]
  | ok n =>
    have coarse : ∀ phys, (Backend.Spdk.Native.HugeBuf.alloc (a.memory phys) len size).run.run env =
        ((Backend.Spdk.Native.mmapPreferred (a.memory phys)).map fun m =>
          ⟨m.virt, phys, n, m.backing, m.locked⟩, env) := by
      intro phys
      have read : (get : Backend.Spdk.Native.Allocation Backend.Spdk.Native.Env).run.run env =
          (.ok env, env) := rfl
      rw [Backend.Spdk.Native.HugeBuf.alloc, Backend.Spdk.run_lift_bind, rounded]
      dsimp only
      rw [Backend.Spdk.run_bind_ok read, disabled, Backend.Spdk.Native.mmapAlloc, if_neg nofun,
        Backend.Spdk.run_lift_bind]
      cases Backend.Spdk.Native.mmapPreferred (a.memory phys) <;> rfl
    have independent : ∀ phys, Backend.Spdk.Native.mmapPreferred (a.memory phys) =
        Backend.Spdk.Native.mmapPreferred (a.memory none) := fun _ => rfl
    refine Ends.bind ((mmapPreferred_refines size none).mono fun r k' same => ?_)
    cases r with
    | error e =>
      refine ⟨none, _, coarse none, ?_⟩
      cases mapping : Backend.Spdk.Native.mmapPreferred (a.memory none) with
      | error e => rfl
      | ok m => cases same.trans (congrArg Except.toOption mapping)
    | ok allocation =>
      refine Ends.bind (Ends.move fun k'' _ => Ends.pure ?_)
      refine ⟨(virtToPhys a.pagemap allocation.virt).toOption, _, coarse _, ?_⟩
      cases mapping : Backend.Spdk.Native.mmapPreferred (a.memory none) with
      | error e => cases same.trans (congrArg Except.toOption mapping)
      | ok m =>
        cases same.trans (congrArg Except.toOption mapping)
        rw [independent, mapping]
        rfl

end

end BypassIo.Buf.Hugepage
