import BypassIo.Library.Bytes
import BypassIo.Library.Outcome
import BypassIo.Backend.Dpdk

/-!
# Packet parsers

`Packet::ethernet`, `ipv4`, `udp` and `udp_payload`. A parser returns a header or `None`; an index
or a slice out of bounds is a panic.

## Main definitions

* `IsIpv4`, `IsUdp`: the byte strings that have these headers.

## Main results

* `ethernet_eq`, `ipv4_eq`, `udp_eq`, `udpPayload_eq`: what each parser returns on every byte
  string.
* `parsers_exact`: each accepts its byte strings, returns the fields at their places, and never
  panics.
-/

namespace BypassIo.Backend.Dpdk
open Octet Rust

/-! ## Slices -/

abbrev Parse := Outcome Unit

/-- `None`. -/
def absent {α : Type} : Parse α := .error (.error ())

/-- `data.get(..n)?`. -/
def getTo (data : Bytes) (n : Nat) : Parse Bytes :=
  if n ≤ data.length then .ok (data.take n) else absent

/-- `data.get(n..)?`. -/
def getFrom (data : Bytes) (n : Nat) : Parse Bytes :=
  if n ≤ data.length then .ok (data.drop n) else absent

/-- `&data[start..stop]`: panics out of bounds. -/
def slice (data : Bytes) (start stop : Nat) : Parse Bytes :=
  if start ≤ stop ∧ stop ≤ data.length then .ok ((data.drop start).take (stop - start))
  else .error .panic

/-- `copy_from_slice` into an array: panics unless the lengths are the same. -/
def copyFromSlice (n : Nat) (data : Bytes) : Parse (Vector UInt8 n) :=
  if h : data.length = n then .ok ⟨data.toArray, h⟩ else .error .panic

/-- `u16::from_be_bytes`. -/
def u16OfBe (high low : UInt8) : UInt16 := UInt16.ofNat (256 * high.toNat + low.toNat)

/-- `u8::checked_mul`. -/
def checkedMul8 (a b : UInt8) : Parse UInt8 :=
  if a.toNat * b.toNat < 256 then .ok (a * b) else absent

/-- `usize::checked_add`. -/
def addLen (a b : Nat) : Parse Nat :=
  match checkedAdd a b with
  | some sum => .ok sum
  | none => absent

/-! ## Headers -/

def ethernetHeaderLen : Nat := 14
def ipv4MinHeaderLen : UInt8 := 20
def udpHeaderLen : Nat := 8
def ipProtoUdp : UInt8 := 17

inductive EtherType
  | ipv4
  | ipv6
  | arp
  | other (value : UInt16)
  deriving DecidableEq

/-- `From<u16> for EtherType`. -/
def EtherType.of (value : UInt16) : EtherType :=
  if value = 0x0800 then ipv4
  else if value = 0x86dd then ipv6
  else if value = 0x0806 then arp
  else other value

structure EthernetHeader where
  dst : Vector UInt8 6
  src : Vector UInt8 6
  etherType : EtherType
  deriving DecidableEq

structure Ipv4Addr where
  a : UInt8
  b : UInt8
  c : UInt8
  d : UInt8
  deriving DecidableEq

structure Ipv4Header where
  headerLen : UInt8
  protocol : UInt8
  src : Ipv4Addr
  dst : Ipv4Addr
  deriving DecidableEq

structure UdpHeader where
  srcPort : UInt16
  dstPort : UInt16
  len : UInt16
  deriving DecidableEq

def EthernetHeader.parse (data : Bytes) : Parse EthernetHeader := do
  let header ← getTo data ethernetHeaderLen
  let dst ← copyFromSlice 6 (← slice header 0 6)
  let src ← copyFromSlice 6 (← slice header 6 12)
  let etherType := EtherType.of (u16OfBe (← index header 12) (← index header 13))
  return ⟨dst, src, etherType⟩

def Ipv4Header.parse (data : Bytes) : Parse Ipv4Header :=
  match data.head? with
  | none => absent
  | some first =>
    let version := first >>> 4
    if version ≠ 4 then absent
    else do
      let ihlWords := first &&& 0x0f
      let headerLen ← checkedMul8 ihlWords 4
      if headerLen < ipv4MinHeaderLen then absent
      else
        let header ← getTo data headerLen.toNat
        let protocol ← index header 9
        let src := ⟨← index header 12, ← index header 13, ← index header 14, ← index header 15⟩
        let dst := ⟨← index header 16, ← index header 17, ← index header 18, ← index header 19⟩
        return ⟨headerLen, protocol, src, dst⟩

def UdpHeader.parse (data : Bytes) : Parse UdpHeader := do
  let header ← getTo data udpHeaderLen
  return ⟨u16OfBe (← index header 0) (← index header 1),
    u16OfBe (← index header 2) (← index header 3),
    u16OfBe (← index header 4) (← index header 5)⟩

namespace Packet

variable (p : Packet)

def ethernet : Parse EthernetHeader := EthernetHeader.parse p.bytes

def ipv4 : Parse Ipv4Header := do
  if (← p.ethernet).etherType ≠ .ipv4 then absent
  else Ipv4Header.parse (← getFrom p.bytes ethernetHeaderLen)

def udp : Parse UdpHeader := do
  let ip ← p.ipv4
  if ip.protocol ≠ ipProtoUdp then absent
  else
    let offset ← addLen ethernetHeaderLen ip.headerLen.toNat
    UdpHeader.parse (← getFrom p.bytes offset)

def udpPayload : Parse Bytes := do
  let ip ← p.ipv4
  if ip.protocol ≠ ipProtoUdp then absent
  else
    let offset ← addLen (← addLen ethernetHeaderLen ip.headerLen.toNat) udpHeaderLen
    getFrom p.bytes offset

end Packet

/-! ## Fields by their places -/

/-- The byte at a place. -/
def byteAt (data : Bytes) (i : Nat) : UInt8 := data.getD i 0

variable {data : Bytes} {i n : Nat}

theorem index_eq {ε : Type} (h : i < data.length) :
    (index data i : Outcome ε UInt8) = .ok (byteAt data i) := by
  simp [index, byteAt, h]

theorem byteAt_take (h : i < n) : byteAt (data.take n) i = byteAt data i := by
  simp [byteAt, h]

theorem byteAt_drop : byteAt (data.drop n) i = byteAt data (n + i) := by
  simp [byteAt]

/-- The number in the low half of byte 14: the length of the IPv4 header in words. -/
def ihl (data : Bytes) : Nat := (byteAt data 14).toNat % 16

/-- The Ethernet header says IPv4, and an IPv4 header of at least five words follows whole. -/
@[mk_iff]
structure IsIpv4 (data : Bytes) : Prop where
  ethernet : 14 ≤ data.length
  etherType : byteAt data 12 = 0x08 ∧ byteAt data 13 = 0x00
  version : (byteAt data 14).toNat / 16 = 4
  words : 5 ≤ ihl data
  whole : 14 + 4 * ihl data ≤ data.length

/-- The IPv4 header says UDP, and a UDP header follows whole. -/
@[mk_iff]
structure IsUdp (data : Bytes) : Prop extends IsIpv4 data where
  protocol : byteAt data 23 = 17
  header : 14 + 4 * ihl data + 8 ≤ data.length

instance : Decidable (IsIpv4 data) := decidable_of_iff' _ (isIpv4_iff data)

instance : Decidable (IsUdp data) := decidable_of_iff' _ (isUdp_iff data)

/-- The big-endian number at a place. -/
def u16At (data : Bytes) (i : Nat) : UInt16 := u16OfBe (byteAt data i) (byteAt data (i + 1))

def addrAt (data : Bytes) (i : Nat) : Ipv4Addr :=
  ⟨byteAt data i, byteAt data (i + 1), byteAt data (i + 2), byteAt data (i + 3)⟩

def ethernetAt (data : Bytes) : EthernetHeader :=
  ⟨.ofFn fun i => byteAt data i, .ofFn fun i => byteAt data (6 + i), .of (u16At data 12)⟩

def ipv4At (data : Bytes) : Ipv4Header :=
  ⟨UInt8.ofNat (4 * ihl data), byteAt data 23, addrAt data 26, addrAt data 30⟩

/-- The place of the UDP header. -/
def udpOffset (data : Bytes) : Nat := 14 + 4 * ihl data

def udpAt (data : Bytes) : UdpHeader :=
  ⟨u16At data (udpOffset data), u16At data (udpOffset data + 2), u16At data (udpOffset data + 4)⟩

/-! ## What the parsers return -/

theorem ok_bind {α β : Type} (a : α) (f : α → Parse β) : (Except.ok a >>= f : Parse β) = f a := rfl

theorem absent_bind {α β : Type} (f : α → Parse β) : (absent >>= f) = (absent : Parse β) := rfl

/-- An array is read from inside of a byte string. -/
theorem copyFromSlice_slice {start n : Nat} (h : start + n ≤ data.length) :
    ∃ bytes, slice data start (start + n) = .ok bytes ∧
      copyFromSlice n bytes = .ok (.ofFn fun i => byteAt data (start + i)) := by
  have length : ((data.drop start).take n).length = n := by
    simp
    omega
  refine ⟨(data.drop start).take n, by simp [slice, h], ?_⟩
  rw [copyFromSlice, dif_pos length]
  congr 1
  apply Vector.ext
  intro i lt
  have inside : start + i < data.length := by omega
  simp [byteAt, inside]

theorem ethernet_eq (p : Packet) :
    p.ethernet = if 14 ≤ p.bytes.length then .ok (ethernetAt p.bytes) else absent := by
  unfold Packet.ethernet EthernetHeader.parse getTo ethernetHeaderLen
  split
  · next whole =>
    have length : (p.bytes.take 14).length = 14 := by
      simpa using whole
    have dstInside : 0 + 6 ≤ (p.bytes.take 14).length := by omega
    have srcInside : 6 + 6 ≤ (p.bytes.take 14).length := by omega
    obtain ⟨dst, dstSlice, dstCopy⟩ := copyFromSlice_slice dstInside
    obtain ⟨src, srcSlice, srcCopy⟩ := copyFromSlice_slice srcInside
    rw [ok_bind, dstSlice, ok_bind, dstCopy, ok_bind, srcSlice, ok_bind, srcCopy, ok_bind,
      index_eq (by omega), ok_bind, index_eq (by omega), ok_bind]
    have dstAt : ∀ i : Fin 6, byteAt (p.bytes.take 14) (0 + i) = byteAt p.bytes i := fun i => by
      rw [byteAt_take (by omega), Nat.zero_add]
    have srcAt : ∀ i : Fin 6, byteAt (p.bytes.take 14) (6 + i) = byteAt p.bytes (6 + i) := fun i =>
      byteAt_take (by omega)
    simp only [dstAt, srcAt]
    rw [byteAt_take (by omega), byteAt_take (by omega)]
    rfl
  · rfl

theorem toNat_u16OfBe (high low : UInt8) :
    (u16OfBe high low).toNat = 256 * high.toNat + low.toNat := by
  have := high.toNat_lt
  have := low.toNat_lt
  rw [u16OfBe, UInt16.toNat_ofNat_of_lt' (by unfold UInt16.size; omega)]

/-- The EtherType of IPv4 in bytes. -/
theorem etherType_eq_ipv4 {high low : UInt8} :
    EtherType.of (u16OfBe high low) = .ipv4 ↔ high = 0x08 ∧ low = 0x00 := by
  have type : EtherType.of (u16OfBe high low) = .ipv4 ↔ u16OfBe high low = 0x0800 := by
    unfold EtherType.of
    split_ifs <;> simp_all
  have bytes := toNat_u16OfBe high low
  have := low.toNat_lt
  rw [type, ← UInt16.toNat_inj, bytes, ← UInt8.toNat_inj, ← UInt8.toNat_inj]
  change _ = 2048 ↔ _ = 8 ∧ _ = 0
  omega

theorem toNat_high (first : UInt8) : (first >>> 4).toNat = first.toNat / 16 := by
  rw [UInt8.toNat_shiftRight]
  exact Nat.shiftRight_eq_div_pow first.toNat 4

theorem toNat_low (first : UInt8) : (first &&& 0x0f).toNat = first.toNat % 16 := by
  rw [UInt8.toNat_and]
  exact Nat.and_two_pow_sub_one_eq_mod first.toNat 4

/-- The length of the header in bytes does not overflow. -/
theorem checkedMul8_low (first : UInt8) : checkedMul8 (first &&& 0x0f) 4 =
    .ok (UInt8.ofNat (4 * (first.toNat % 16))) := by
  have four : (4 : UInt8).toNat = 4 := rfl
  have low := toNat_low first
  have product : (first &&& 0x0f).toNat * (4 : UInt8).toNat < 256 := by
    rw [low, four]
    omega
  rw [checkedMul8, if_pos product]
  congr 1
  apply UInt8.toNat_inj.mp
  rw [UInt8.toNat_mul, low, four, UInt8.toNat_ofNat', Nat.mul_comm]

/-- The header that an IPv4 parser finds at the front of a byte string. -/
theorem ipv4Header_parse_eq (data : Bytes) : Ipv4Header.parse data =
    if (byteAt data 0).toNat / 16 = 4 ∧ 5 ≤ (byteAt data 0).toNat % 16 ∧
        4 * ((byteAt data 0).toNat % 16) ≤ data.length then
      .ok ⟨UInt8.ofNat (4 * ((byteAt data 0).toNat % 16)), byteAt data 9, addrAt data 12,
        addrAt data 16⟩
    else absent := by
  cases data with
  | nil => rfl
  | cons first rest =>
    have version : first >>> 4 = 4 ↔ first.toNat / 16 = 4 := by
      rw [← UInt8.toNat_inj, toNat_high]
      rfl
    have length : (UInt8.ofNat (4 * (first.toNat % 16))).toNat = 4 * (first.toNat % 16) := by
      rw [UInt8.toNat_ofNat', Nat.mod_eq_of_lt (by omega)]
    have short : UInt8.ofNat (4 * (first.toNat % 16)) < ipv4MinHeaderLen ↔
        ¬ 5 ≤ first.toNat % 16 := by
      rw [UInt8.lt_iff_toNat_lt, length]
      change _ < 20 ↔ _
      omega
    have head : byteAt (first :: rest) 0 = first := rfl
    simp only [Ipv4Header.parse, List.head?_cons, head, ne_eq, version, checkedMul8_low, ok_bind,
      short, getTo, length]
    by_cases four : first.toNat / 16 = 4
    · by_cases words : 5 ≤ first.toNat % 16
      · by_cases whole : 4 * (first.toNat % 16) ≤ (first :: rest).length
        · have taken : ((first :: rest).take (4 * (first.toNat % 16))).length =
              4 * (first.toNat % 16) := by
            simpa using whole
          rw [if_neg (by simpa using four), if_neg (by simpa using words), if_pos whole,
            if_pos ⟨four, words, whole⟩]
          simp (disch := omega) only [ok_bind, index_eq, byteAt_take]
          rfl
        · rw [if_neg (by simpa using four), if_neg (by simpa using words), if_neg whole,
            if_neg fun h => whole h.2.2, absent_bind]
      · rw [if_neg (by simpa using four), if_pos words, if_neg fun h => words h.2.1]
    · rw [if_pos four, if_neg fun h => four h.1]

theorem addrAt_drop : addrAt (data.drop n) i = addrAt data (n + i) := by
  simp only [addrAt, byteAt_drop, Nat.add_assoc]

theorem u16At_drop : u16At (data.drop n) i = u16At data (n + i) := by
  simp only [u16At, byteAt_drop, Nat.add_assoc]

theorem ipv4_eq (p : Packet) :
    p.ipv4 = if IsIpv4 p.bytes then .ok (ipv4At p.bytes) else absent := by
  rw [Packet.ipv4, ethernet_eq]
  by_cases ethernet : 14 ≤ p.bytes.length
  · rw [if_pos ethernet, ok_bind, getFrom, ethernetHeaderLen, if_pos ethernet, ok_bind,
      ipv4Header_parse_eq]
    have type : (ethernetAt p.bytes).etherType = .ipv4 ↔
        byteAt p.bytes 12 = 0x08 ∧ byteAt p.bytes 13 = 0x00 := etherType_eq_ipv4
    by_cases etherType : byteAt p.bytes 12 = 0x08 ∧ byteAt p.bytes 13 = 0x00
    · have accepted : IsIpv4 p.bytes ↔ (byteAt (p.bytes.drop 14) 0).toNat / 16 = 4 ∧
          5 ≤ (byteAt (p.bytes.drop 14) 0).toNat % 16 ∧
          4 * ((byteAt (p.bytes.drop 14) 0).toNat % 16) ≤ (p.bytes.drop 14).length := by
        rw [isIpv4_iff, byteAt_drop, List.length_drop]
        unfold ihl
        grind
      rw [if_neg (not_not_intro (type.mpr etherType)), if_congr accepted rfl rfl]
      simp only [addrAt_drop, byteAt_drop]
      rfl
    · rw [if_pos fun same => etherType (type.mp same), if_neg fun h => etherType h.etherType]
  · rw [if_neg ethernet, if_neg fun h => ethernet h.ethernet, absent_bind]

theorem udpHeader_parse_eq (data : Bytes) : UdpHeader.parse data =
    if 8 ≤ data.length then .ok ⟨u16At data 0, u16At data 2, u16At data 4⟩ else absent := by
  unfold UdpHeader.parse getTo udpHeaderLen
  split
  · next whole =>
    have taken : (data.take 8).length = 8 := by
      simpa using whole
    simp (disch := omega) only [ok_bind, index_eq, byteAt_take]
    rfl
  · rfl

theorem addLen_eq {a b : Nat} (h : a + b ≤ usizeMax) : addLen a b = .ok (a + b) := by
  rw [addLen, checkedAdd, if_pos h]

theorem ihl_lt (data : Bytes) : ihl data < 16 := Nat.mod_lt _ (by omega)

theorem toNat_headerLen (data : Bytes) :
    (ipv4At data).headerLen.toNat = 4 * ihl data := by
  have := ihl_lt data
  exact (UInt8.toNat_ofNat').trans (Nat.mod_eq_of_lt (by omega))

/-- Neither sum of the lengths of headers overflows. -/
theorem addLen_headers (data : Bytes) :
    addLen ethernetHeaderLen (ipv4At data).headerLen.toNat = .ok (udpOffset data) ∧
      addLen (udpOffset data) udpHeaderLen = .ok (udpOffset data + 8) := by
  have words := ihl_lt data
  rw [toNat_headerLen]
  unfold ethernetHeaderLen udpHeaderLen udpOffset
  exact ⟨addLen_eq (by unfold usizeMax; omega), addLen_eq (by unfold usizeMax; omega)⟩

theorem udp_eq (p : Packet) :
    p.udp = if IsUdp p.bytes then .ok (udpAt p.bytes) else absent := by
  rw [Packet.udp, ipv4_eq]
  by_cases ip : IsIpv4 p.bytes
  · have whole : udpOffset p.bytes ≤ p.bytes.length := ip.whole
    have accepted : IsUdp p.bytes ↔ (ipv4At p.bytes).protocol = ipProtoUdp ∧
        8 ≤ (p.bytes.drop (udpOffset p.bytes)).length := by
      rw [isUdp_iff, List.length_drop]
      unfold udpOffset ipv4At ipProtoUdp at *
      grind
    rw [if_pos ip, ok_bind, (addLen_headers p.bytes).1, ok_bind, getFrom, if_pos whole, ok_bind,
      udpHeader_parse_eq]
    by_cases protocol : (ipv4At p.bytes).protocol = ipProtoUdp
    · rw [if_neg (not_not_intro protocol)]
      simp only [accepted, protocol, true_and, u16At_drop]
      rfl
    · rw [if_pos protocol, if_neg fun h => protocol (accepted.mp h).1]
  · rw [if_neg ip, absent_bind, if_neg fun h => ip h.toIsIpv4]

theorem udpPayload_eq (p : Packet) : p.udpPayload =
    if IsUdp p.bytes then .ok (p.bytes.drop (udpOffset p.bytes + 8)) else absent := by
  rw [Packet.udpPayload, ipv4_eq]
  by_cases ip : IsIpv4 p.bytes
  · have accepted : IsUdp p.bytes ↔ (ipv4At p.bytes).protocol = ipProtoUdp ∧
        udpOffset p.bytes + 8 ≤ p.bytes.length := by
      rw [isUdp_iff]
      unfold udpOffset ipv4At ipProtoUdp
      grind
    rw [if_pos ip, ok_bind, (addLen_headers p.bytes).1, ok_bind, (addLen_headers p.bytes).2,
      ok_bind, getFrom]
    by_cases protocol : (ipv4At p.bytes).protocol = ipProtoUdp
    · rw [if_neg (not_not_intro protocol)]
      simp only [accepted, protocol, true_and]
    · rw [if_pos protocol, if_neg fun h => protocol (accepted.mp h).1]
  · rw [if_neg ip, absent_bind, if_neg fun h => ip h.toIsIpv4]

/-! ## The parsers accept their byte strings -/

/-- The number in two bytes, the high byte first. -/
def numberAt (data : Bytes) (i : Nat) : Nat :=
  256 * (byteAt data i).toNat + (byteAt data (i + 1)).toNat

theorem toNat_u16At : (u16At data i).toNat = numberAt data i := toNat_u16OfBe _ _

structure EthernetHeader.ReadFrom (header : EthernetHeader) (data : Bytes) : Prop where
  dst (i : Nat) (h : i < 6) : header.dst[i] = byteAt data i
  src (i : Nat) (h : i < 6) : header.src[i] = byteAt data (6 + i)
  etherType : header.etherType = .of (UInt16.ofNat (numberAt data 12))

structure Ipv4Header.ReadFrom (header : Ipv4Header) (data : Bytes) : Prop where
  headerLen : header.headerLen.toNat = 4 * ihl data
  protocol : header.protocol = byteAt data 23
  src : header.src = addrAt data 26
  dst : header.dst = addrAt data 30

structure UdpHeader.ReadFrom (header : UdpHeader) (data : Bytes) : Prop where
  srcPort : header.srcPort.toNat = numberAt data (udpOffset data)
  dstPort : header.dstPort.toNat = numberAt data (udpOffset data + 2)
  len : header.len.toNat = numberAt data (udpOffset data + 4)

theorem ethernetAt_readFrom (data : Bytes) : (ethernetAt data).ReadFrom data where
  dst i h := by simp [ethernetAt]
  src i h := by simp [ethernetAt]
  etherType := rfl

theorem ipv4At_readFrom (data : Bytes) : (ipv4At data).ReadFrom data :=
  ⟨toNat_headerLen data, rfl, rfl, rfl⟩

theorem udpAt_readFrom (data : Bytes) : (udpAt data).ReadFrom data :=
  ⟨toNat_u16At, toNat_u16At, toNat_u16At⟩

section Accepts

variable {α : Type} {c : Prop} [Decidable c] {a : α} {parsed : Parse α}

theorem not_panic (h : parsed = if c then .ok a else absent) : parsed ≠ .error .panic := by
  unfold absent at h
  split at h <;> simp [h]

theorem exists_ok_iff (h : parsed = if c then .ok a else absent) : (∃ b, parsed = .ok b) ↔ c := by
  unfold absent at h
  split at h <;> simp [*]

theorem eq_of_ok {b : α} (h : parsed = if c then .ok a else absent) (ok : parsed = .ok b) :
    b = a := by
  unfold absent at h
  split at h <;> simp_all

end Accepts

/-- On every byte string no parser panics, and each returns a header exactly when the byte string
has that header, with the bytes and the big-endian numbers at its places. The payload is there
exactly when the UDP header is. -/
theorem parsers_exact (p : Packet) :
    (p.ethernet ≠ .error .panic ∧ p.ipv4 ≠ .error .panic ∧ p.udp ≠ .error .panic ∧
      p.udpPayload ≠ .error .panic) ∧
    ((∃ header, p.ethernet = .ok header) ↔ 14 ≤ p.bytes.length) ∧
    ((∃ header, p.ipv4 = .ok header) ↔ IsIpv4 p.bytes) ∧
    ((∃ header, p.udp = .ok header) ↔ IsUdp p.bytes) ∧
    ((∃ payload, p.udpPayload = .ok payload) ↔ IsUdp p.bytes) ∧
    (∀ header, p.ethernet = .ok header → header.ReadFrom p.bytes) ∧
    (∀ header, p.ipv4 = .ok header → header.ReadFrom p.bytes) ∧
    (∀ header, p.udp = .ok header → header.ReadFrom p.bytes) ∧
    ∀ payload, p.udpPayload = .ok payload →
      payload = p.bytes.drop (udpOffset p.bytes + 8) := by
  have ethernet := ethernet_eq p
  have ipv4 := ipv4_eq p
  have udp := udp_eq p
  have payload := udpPayload_eq p
  refine ⟨⟨not_panic ethernet, not_panic ipv4, not_panic udp, not_panic payload⟩,
    exists_ok_iff ethernet, exists_ok_iff ipv4, exists_ok_iff udp, exists_ok_iff payload,
    fun header ok => ?_, fun header ok => ?_, fun header ok => ?_,
    fun rest ok => eq_of_ok payload ok⟩
  · rw [eq_of_ok ethernet ok]
    exact ethernetAt_readFrom p.bytes
  · rw [eq_of_ok ipv4 ok]
    exact ipv4At_readFrom p.bytes
  · rw [eq_of_ok udp ok]
    exact udpAt_readFrom p.bytes

end BypassIo.Backend.Dpdk
