import BypassIo.Backend.Packet

/-!
# UDP frames

A UDP datagram in an IPv4 packet in an Ethernet II frame, with any options, any payload and any
padding at its end. The parsers return the fields of the headers. `udp_payload` does not read the
length in the UDP header: it returns the bytes up to the end of the frame.

## Main results

* `Frame.packet_udpPayload`: the payload is returned together with the padding.
* `frame_inverse_iff`: parsing is the inverse of framing on the frames without padding, and on no
  other frame.
-/

namespace BypassIo.Backend.Dpdk
open Octet Rust

/-- The octets of a frame. The options are whole words, and the lengths fit their fields. -/
structure Frame where
  dst : Vector UInt8 6
  src : Vector UInt8 6
  service : UInt8
  identification : UInt16
  fragment : UInt16
  timeToLive : UInt8
  headerChecksum : UInt16
  srcAddr : Ipv4Addr
  dstAddr : Ipv4Addr
  options : Bytes
  srcPort : UInt16
  dstPort : UInt16
  udpChecksum : UInt16
  payload : Bytes
  padding : Bytes
  aligned : 4 ∣ options.length
  optionsFit : options.length ≤ 40
  lengthFits : 20 + options.length + 8 + payload.length < 65536

/-- `u16::to_be_bytes`. -/
def u16ToBe (value : UInt16) : Bytes :=
  [UInt8.ofNat (value.toNat / 256), UInt8.ofNat value.toNat]

def Ipv4Addr.octets (addr : Ipv4Addr) : Bytes := [addr.a, addr.b, addr.c, addr.d]

namespace Frame

variable (f : Frame)

/-- The length of the IPv4 header in words. -/
def words : Nat := 5 + f.options.length / 4

def udpLength : Nat := 8 + f.payload.length

def totalLength : Nat := 20 + f.options.length + f.udpLength

def ethernetBytes : Bytes := f.dst.toList ++ f.src.toList ++ u16ToBe 0x0800

def ipv4Bytes : Bytes :=
  [UInt8.ofNat (64 + f.words), f.service] ++ u16ToBe (UInt16.ofNat f.totalLength) ++
    u16ToBe f.identification ++ u16ToBe f.fragment ++ [f.timeToLive, ipProtoUdp] ++
    u16ToBe f.headerChecksum ++ f.srcAddr.octets ++ f.dstAddr.octets

def udpBytes : Bytes :=
  u16ToBe f.srcPort ++ u16ToBe f.dstPort ++ u16ToBe (UInt16.ofNat f.udpLength) ++
    u16ToBe f.udpChecksum

def bytes : Bytes :=
  f.ethernetBytes ++ (f.ipv4Bytes ++ (f.options ++ (f.udpBytes ++ (f.payload ++ f.padding))))

/-- The headers that the frame is built from. -/
def ethernet : EthernetHeader := ⟨f.dst, f.src, .ipv4⟩

def ipv4 : Ipv4Header :=
  ⟨UInt8.ofNat (20 + f.options.length), ipProtoUdp, f.srcAddr, f.dstAddr⟩

def udp : UdpHeader := ⟨f.srcPort, f.dstPort, UInt16.ofNat f.udpLength⟩

@[simp] theorem length_ethernetBytes : f.ethernetBytes.length = 14 := by
  simp [ethernetBytes, u16ToBe]

@[simp] theorem length_ipv4Bytes : f.ipv4Bytes.length = 20 := by
  simp [ipv4Bytes, u16ToBe, Ipv4Addr.octets]

@[simp] theorem length_udpBytes : f.udpBytes.length = 8 := by
  simp [udpBytes, u16ToBe]

theorem words_lt : f.words < 16 := by
  have := f.optionsFit
  unfold words
  omega

/-- The options fill the words after the first five. -/
theorem four_mul_words : 4 * f.words = 20 + f.options.length := by
  have := f.aligned
  unfold words
  omega

end Frame

/-! ## The bytes of a concatenation -/

section Append

variable {front back : Bytes} {i n : Nat}

theorem byteAt_append_left (h : i < front.length) : byteAt (front ++ back) i = byteAt front i := by
  simp [byteAt, List.getElem?_append_left h]

theorem byteAt_append_right (h : front.length = n) :
    byteAt (front ++ back) (n + i) = byteAt back i := by
  subst h
  simp [byteAt, List.getElem?_append_right]

theorem u16At_append_left (h : i + 1 < front.length) :
    u16At (front ++ back) i = u16At front i := by
  simp only [u16At, byteAt_append_left (Nat.lt_of_succ_lt h), byteAt_append_left h]

theorem byteAt_toList {bytes : Vector UInt8 n} (h : i < n) : byteAt bytes.toList i = bytes[i] := by
  simp [byteAt, h]

end Append

theorem u16OfBe_u16ToBe (value : UInt16) :
    u16OfBe (UInt8.ofNat (value.toNat / 256)) (UInt8.ofNat value.toNat) = value := by
  apply UInt16.toNat_inj.mp
  have := value.toNat_lt
  rw [toNat_u16OfBe, UInt8.toNat_ofNat', UInt8.toNat_ofNat']
  omega

/-! ## What the parsers find in a frame -/

namespace Frame

variable (f : Frame)

theorem length_bytes : f.bytes.length =
    14 + (20 + f.options.length) + 8 + f.payload.length + f.padding.length := by
  simp only [bytes, List.length_append, length_ethernetBytes, length_ipv4Bytes, length_udpBytes]
  omega

theorem byteAt_ipv4 {i : Nat} (h : i < 20) :
    byteAt f.bytes (14 + i) = byteAt f.ipv4Bytes i := by
  rw [bytes, byteAt_append_right f.length_ethernetBytes, byteAt_append_left (by simpa using h)]

/-- The first byte of the IPv4 header holds the version and the length. -/
theorem toNat_byteAt_14 : (byteAt f.bytes 14).toNat = 64 + f.words := by
  have first : byteAt f.bytes 14 = UInt8.ofNat (64 + f.words) :=
    f.byteAt_ipv4 (by omega : 0 < 20)
  have := f.words_lt
  rw [first, UInt8.toNat_ofNat', Nat.mod_eq_of_lt (by omega)]

theorem four_mul_ihl : 4 * ihl f.bytes = 20 + f.options.length := by
  have := f.words_lt
  rw [ihl, toNat_byteAt_14, ← four_mul_words]
  omega

theorem udpOffset_bytes : udpOffset f.bytes = 14 + (20 + f.options.length) := by
  rw [udpOffset, four_mul_ihl]

/-- The UDP header stands after the options. -/
theorem drop_udpOffset :
    f.bytes.drop (udpOffset f.bytes) = f.udpBytes ++ (f.payload ++ f.padding) := by
  rw [udpOffset_bytes, bytes, ← List.drop_drop, List.drop_left' f.length_ethernetBytes,
    ← List.drop_drop, List.drop_left' f.length_ipv4Bytes, List.drop_left]

theorem u16At_udp {i : Nat} (h : i + 1 < 8) :
    u16At f.bytes (udpOffset f.bytes + i) = u16At f.udpBytes i := by
  rw [← u16At_drop, drop_udpOffset, u16At_append_left (by simpa using h)]

theorem byteAt_ethernet {i : Nat} (h : i < 14) :
    byteAt f.bytes i = byteAt f.ethernetBytes i :=
  byteAt_append_left (by simpa using h)

theorem isUdp : IsUdp f.bytes where
  ethernet := by
    rw [length_bytes]
    omega
  etherType := by
    rw [byteAt_ethernet f (by omega), byteAt_ethernet f (by omega)]
    simp [ethernetBytes, byteAt, u16ToBe]
  version := by
    have := f.words_lt
    rw [toNat_byteAt_14]
    omega
  words := by
    have := f.four_mul_ihl
    omega
  whole := by
    rw [four_mul_ihl, length_bytes]
    omega
  protocol := f.byteAt_ipv4 (by omega : 9 < 20)
  header := by
    rw [four_mul_ihl, length_bytes]
    omega

theorem ethernetAt_bytes : ethernetAt f.bytes = f.ethernet := by
  have dst : ∀ i, (h : i < 6) → byteAt f.bytes i = f.dst[i] := fun i h => by
    rw [byteAt_ethernet f (by omega), ethernetBytes, byteAt_append_left (by simp; omega),
      byteAt_append_left (by simpa using h), byteAt_toList h]
  have src : ∀ i, (h : i < 6) → byteAt f.bytes (6 + i) = f.src[i] := fun i h => by
    rw [byteAt_ethernet f (by omega), ethernetBytes, byteAt_append_left (by simp; omega),
      byteAt_append_right f.dst.length_toList, byteAt_toList h]
  have etherType := etherType_eq_ipv4.mpr f.isUdp.etherType
  rw [ethernetAt, ethernet, EthernetHeader.mk.injEq]
  refine ⟨?_, ?_, etherType⟩
  · apply Vector.ext
    intro i h
    simp [dst i h]
  · apply Vector.ext
    intro i h
    simp [src i h]

theorem addrAt_ipv4 {i : Nat} (h : i + 3 < 20) :
    addrAt f.bytes (14 + i) = addrAt f.ipv4Bytes i := by
  simp (disch := omega) only [addrAt, Nat.add_assoc, byteAt_ipv4]

theorem ipv4At_bytes : ipv4At f.bytes = f.ipv4 := by
  have src : addrAt f.bytes 26 = f.srcAddr := f.addrAt_ipv4 (by omega : 12 + 3 < 20)
  have dst : addrAt f.bytes 30 = f.dstAddr := f.addrAt_ipv4 (by omega : 16 + 3 < 20)
  have protocol : byteAt f.bytes 23 = ipProtoUdp := f.isUdp.protocol
  rw [ipv4At, ipv4, four_mul_ihl, src, dst, protocol]

theorem udpAt_bytes : udpAt f.bytes = f.udp := by
  have srcPort : u16At f.bytes (udpOffset f.bytes) = f.srcPort :=
    (f.u16At_udp (by omega : 0 + 1 < 8)).trans (u16OfBe_u16ToBe f.srcPort)
  have dstPort : u16At f.bytes (udpOffset f.bytes + 2) = f.dstPort :=
    (f.u16At_udp (by omega : 2 + 1 < 8)).trans (u16OfBe_u16ToBe f.dstPort)
  have length : u16At f.bytes (udpOffset f.bytes + 4) = UInt16.ofNat f.udpLength :=
    (f.u16At_udp (by omega : 4 + 1 < 8)).trans (u16OfBe_u16ToBe _)
  rw [udpAt, udp, srcPort, dstPort, length]

/-- The packet that holds the frame. -/
def packet : Packet := ⟨f.bytes⟩

theorem packet_ethernet : f.packet.ethernet = .ok f.ethernet := by
  have whole : 14 ≤ f.packet.bytes.length := f.isUdp.ethernet
  rw [ethernet_eq, if_pos whole, packet, ethernetAt_bytes]

theorem packet_ipv4 : f.packet.ipv4 = .ok f.ipv4 := by
  rw [ipv4_eq, packet, if_pos f.isUdp.toIsIpv4, ipv4At_bytes]

theorem packet_udp : f.packet.udp = .ok f.udp := by
  rw [udp_eq, packet, if_pos f.isUdp, udpAt_bytes]

/-- The payload runs to the end of the frame, whatever the UDP length says. -/
theorem packet_udpPayload : f.packet.udpPayload = .ok (f.payload ++ f.padding) := by
  rw [udpPayload_eq, packet, if_pos f.isUdp, ← List.drop_drop, drop_udpOffset,
    List.drop_left' f.length_udpBytes]

/-- Every parser returns what the frame was built from. -/
structure Inverse : Prop where
  ethernet : f.packet.ethernet = .ok f.ethernet
  ipv4 : f.packet.ipv4 = .ok f.ipv4
  udp : f.packet.udp = .ok f.udp
  payload : f.packet.udpPayload = .ok f.payload

end Frame

/-- The parsers are the inverse of framing exactly on the frames without padding. -/
theorem frame_inverse_iff (f : Frame) : f.Inverse ↔ f.padding = [] := by
  constructor
  · intro inverse
    have same : Except.ok (f.payload ++ f.padding) = (Except.ok f.payload : Parse Bytes) :=
      f.packet_udpPayload.symm.trans inverse.payload
    exact List.append_right_eq_self.mp (Except.ok.inj same)
  · intro none
    refine ⟨f.packet_ethernet, f.packet_ipv4, f.packet_udp, ?_⟩
    rw [f.packet_udpPayload, none, List.append_nil]

/-- The smallest Ethernet frame has padding after four bytes of payload. -/
theorem short_frame_keeps_padding : ∃ f : Frame,
    f.payload = [68, 65, 84, 65] ∧ f.bytes.length = 60 ∧
      f.packet.udpPayload = .ok ([68, 65, 84, 65] ++ List.replicate 14 0) ∧ ¬ f.Inverse := by
  refine ⟨⟨⟨#[0, 1, 2, 3, 4, 5], rfl⟩, ⟨#[6, 7, 8, 9, 10, 11], rfl⟩, 0, 0, 0, 64, 0, ⟨10, 0, 0, 1⟩,
    ⟨239, 1, 2, 3⟩, [], 1234, 9000, 0, [68, 65, 84, 65], List.replicate 14 0, by decide,
    by decide, by decide⟩, rfl, rfl, rfl, fun inverse => ?_⟩
  cases inverse.payload

end BypassIo.Backend.Dpdk
