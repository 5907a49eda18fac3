import AstralOS.Lib.Checked

/-!
# Packets

The models of `network/ethernet.rs`, `arp.rs`, `ip.rs`, `udp.rs` and `tcp.rs`: how frames are parsed and built.  A parser
checks the length of its data first and then reads it by index and range; a read outside the data panics.  All parsers but
one never panic on any data; `UdpDatagram.parse` does exactly on a datagram whose length field is less than 8
(`UdpDatagram.returns_parse_iff`).
-/

namespace AstralOS.Network

open Checked

/-! ### Ethernet -/

def ethertypeIpv4 : BitVec 16 := 0x0800
def ethertypeArp : BitVec 16 := 0x0806

@[ext] structure MacAddress where
  bytes : Vector Byte 6
  deriving DecidableEq

def MacAddress.fromBytes (bytes : List Byte) : Checked MacAddress := do
  return ⟨← copy 6 (← range bytes 0 6)⟩

def beBytes16 (x : BitVec 16) : List Byte := [x.extractLsb' 8 8, x.extractLsb' 0 8]

structure EthernetFrame where
  dstMac : MacAddress
  srcMac : MacAddress
  ethertype : BitVec 16
  payload : List Byte

namespace EthernetFrame

def parse (data : List Byte) : Checked (Option EthernetFrame) := do
  if data.length < 14 then return none
  let dstMac ← MacAddress.fromBytes (← range data 0 6)
  let srcMac ← MacAddress.fromBytes (← range data 6 12)
  let ethertype ← index16 data 12
  let payload ← suffix data 14
  return some { dstMac, srcMac, ethertype, payload }

def new (dstMac srcMac : MacAddress) (ethertype : BitVec 16) (payload : List Byte) : EthernetFrame :=
  ⟨dstMac, srcMac, ethertype, payload⟩

def toBytes (f : EthernetFrame) : List Byte :=
  let frame := f.dstMac.bytes.toList ++ f.srcMac.bytes.toList ++ beBytes16 f.ethertype ++ f.payload
  frame ++ List.replicate (60 - frame.length) 0

end EthernetFrame

/-! ### IPv4 -/

def protocolIcmp : Byte := 1
def protocolTcp : Byte := 6
def protocolUdp : Byte := 17

@[ext] structure Ipv4Address where
  bytes : Vector Byte 4
  deriving DecidableEq

def Ipv4Address.fromBytes (bytes : List Byte) : Checked Ipv4Address := do
  return ⟨← copy 4 (← range bytes 0 4)⟩

def Ipv4Address.toU32 (a : Ipv4Address) : BitVec 32 := a.bytes.get 0 ++ a.bytes.get 1 ++ a.bytes.get 2 ++ a.bytes.get 3

structure Ipv4Packet where
  version : Byte
  ihl : Byte
  dscp : Byte
  ecn : Byte
  totalLength : BitVec 16
  identification : BitVec 16
  flags : Byte
  fragmentOffset : BitVec 16
  ttl : Byte
  protocol : Byte
  checksum : BitVec 16
  srcAddr : Ipv4Address
  dstAddr : Ipv4Address
  payload : List Byte

def addWord (sum word : BitVec 32) : BitVec 32 :=
  let sum := sum + word
  if sum > 0xFFFF then (sum &&& 0xFFFF) + (sum >>> 16) else sum

def checksumLoop (sum : BitVec 32) : List Byte → BitVec 32
  | [] => sum
  | [a] => addWord sum (a.setWidth 32 <<< 8)
  | a :: b :: rest => checksumLoop (addWord sum ((a ++ b).setWidth 32)) rest

def calculateChecksum (data : List Byte) : BitVec 16 := (~~~checksumLoop 0 data).setWidth 16

namespace Ipv4Packet

def parse (data : List Byte) : Checked (Option Ipv4Packet) := do
  if data.length < 20 then return none
  let first ← index data 0
  let version := first >>> 4
  let ihl := first &&& 0x0F
  let headerLen := (ihl * 4).toNat
  if version ≠ 4 ∨ headerLen > data.length then return none
  let totalLength ← index16 data 2
  let srcAddr ← Ipv4Address.fromBytes (← range data 12 16)
  let dstAddr ← Ipv4Address.fromBytes (← range data 16 20)
  return some {
    version
    ihl
    dscp := (← index data 1) >>> 2
    ecn := (← index data 1) &&& 0x03
    totalLength
    identification := ← index16 data 4
    flags := (← index data 6) >>> 5
    fragmentOffset := ((← index data 6) &&& 0x1F) ++ (← index data 7)
    ttl := ← index data 8
    protocol := ← index data 9
    checksum := ← index16 data 10
    srcAddr
    dstAddr
    payload := ← suffix data headerLen }

def new (src dst : Ipv4Address) (protocol : Byte) (payload : List Byte) : Ipv4Packet where
  version := 4
  ihl := 5
  dscp := 0
  ecn := 0
  totalLength := BitVec.ofNat 16 (20 + payload.length)
  identification := 0
  flags := 0
  fragmentOffset := 0
  ttl := 64
  protocol := protocol
  checksum := 0
  srcAddr := src
  dstAddr := dst
  payload := payload

def toBytes (p : Ipv4Packet) : Checked (List Byte) := do
  let packet := [(p.version <<< 4) ||| p.ihl, (p.dscp <<< 2) ||| p.ecn] ++ beBytes16 p.totalLength ++
    beBytes16 p.identification ++ beBytes16 ((p.flags.setWidth 16 <<< 13) ||| p.fragmentOffset) ++ [p.ttl, p.protocol] ++
    [0, 0] ++ p.srcAddr.bytes.toList ++ p.dstAddr.bytes.toList
  let checksum := calculateChecksum (← range packet 0 20)
  let packet ← store packet 10 ((checksum >>> 8).setWidth 8)
  let packet ← store packet 11 (checksum.setWidth 8)
  return packet ++ p.payload

end Ipv4Packet

/-! ### ARP -/

def arpRequest : BitVec 16 := 1
def arpReply : BitVec 16 := 2

structure ArpPacket where
  hwType : BitVec 16
  protoType : BitVec 16
  hwAddrLen : Byte
  protoAddrLen : Byte
  operation : BitVec 16
  senderHwAddr : Vector Byte 6
  senderProtoAddr : Vector Byte 4
  targetHwAddr : Vector Byte 6
  targetProtoAddr : Vector Byte 4

namespace ArpPacket

def parse (data : List Byte) : Checked (Option ArpPacket) := do
  if data.length < 28 then return none
  let senderHw ← copy 6 (← range data 8 14)
  let senderProto ← copy 4 (← range data 14 18)
  let targetHw ← copy 6 (← range data 18 24)
  let targetProto ← copy 4 (← range data 24 28)
  return some {
    hwType := ← index16 data 0
    protoType := ← index16 data 2
    hwAddrLen := ← index data 4
    protoAddrLen := ← index data 5
    operation := ← index16 data 6
    senderHwAddr := senderHw
    senderProtoAddr := senderProto
    targetHwAddr := targetHw
    targetProtoAddr := targetProto }

def newReply (senderMac senderIp targetMac targetIp : List Byte) : Checked ArpPacket := do
  return {
    hwType := 1
    protoType := 0x0800
    hwAddrLen := 6
    protoAddrLen := 4
    operation := arpReply
    senderHwAddr := ← copy 6 senderMac
    senderProtoAddr := ← copy 4 senderIp
    targetHwAddr := ← copy 6 targetMac
    targetProtoAddr := ← copy 4 targetIp }

def toBytes (p : ArpPacket) : List Byte :=
  beBytes16 p.hwType ++ beBytes16 p.protoType ++ [p.hwAddrLen, p.protoAddrLen] ++ beBytes16 p.operation ++
    p.senderHwAddr.toList ++ p.senderProtoAddr.toList ++ p.targetHwAddr.toList ++ p.targetProtoAddr.toList

end ArpPacket

/-! ### UDP and TCP -/

structure UdpDatagram where
  srcPort : BitVec 16
  dstPort : BitVec 16
  length : BitVec 16
  checksum : BitVec 16
  payload : List Byte

/-- The payload is cut by the length field, which is only compared with the length of the data. -/
def UdpDatagram.parse (data : List Byte) : Checked (Option UdpDatagram) := do
  if data.length < 8 then return none
  let length ← index16 data 4
  if data.length < length.toNat then return none
  return some {
    srcPort := ← index16 data 0
    dstPort := ← index16 data 2
    length
    checksum := ← index16 data 6
    payload := ← range data 8 length.toNat }

def UdpDatagram.new (srcPort dstPort : BitVec 16) (payload : List Byte) : UdpDatagram where
  srcPort := srcPort
  dstPort := dstPort
  length := BitVec.ofNat 16 (8 + payload.length)
  checksum := 0
  payload := payload

def UdpDatagram.toBytes (d : UdpDatagram) : List Byte :=
  beBytes16 d.srcPort ++ beBytes16 d.dstPort ++ beBytes16 d.length ++ beBytes16 d.checksum ++ d.payload

def tcpFlagFin : Byte := 0x01
def tcpFlagSyn : Byte := 0x02
def tcpFlagAck : Byte := 0x10

structure TcpSegment where
  srcPort : BitVec 16
  dstPort : BitVec 16
  sequence : BitVec 32
  acknowledgment : BitVec 32
  dataOffset : Byte
  flags : Byte
  window : BitVec 16
  checksum : BitVec 16
  urgentPtr : BitVec 16
  payload : List Byte

namespace TcpSegment

def parse (data : List Byte) : Checked (Option TcpSegment) := do
  if data.length < 20 then return none
  let dataOffset := (← index data 12) >>> 4
  let headerLen := (dataOffset * 4).toNat
  if headerLen > data.length then return none
  return some {
    srcPort := ← index16 data 0
    dstPort := ← index16 data 2
    sequence := ← index32 data 4
    acknowledgment := ← index32 data 8
    dataOffset
    flags := ← index data 13
    window := ← index16 data 14
    checksum := ← index16 data 16
    urgentPtr := ← index16 data 18
    payload := ← suffix data headerLen }

def hasFlag (segment : TcpSegment) (flag : Byte) : Bool := segment.flags &&& flag != 0

end TcpSegment

/-! ### What the parsers return -/

theorem MacAddress.exists_fromBytes (data : List Byte) {start stop : Nat} (hn : start + 6 = stop)
    (h : stop ≤ data.length) :
    ∃ r a, range data start stop = .ok r ∧ MacAddress.fromBytes r = .ok a ∧ a.bytes.toList = (data.drop start).take 6 := by
  obtain ⟨r, v, hr, hv, hrl, hvl⟩ := exists_range_copy hn h
  have hlen : r.length = 6 := by rw [← hvl]; simp
  refine ⟨r, ⟨v⟩, hr, ?_, hvl.trans hrl⟩
  unfold MacAddress.fromBytes
  rw [range_length hlen, ok_bind, hv]
  rfl

theorem Ipv4Address.exists_fromBytes (data : List Byte) {start stop : Nat} (hn : start + 4 = stop)
    (h : stop ≤ data.length) :
    ∃ r a, range data start stop = .ok r ∧ Ipv4Address.fromBytes r = .ok a ∧
      a.bytes.toList = (data.drop start).take 4 := by
  obtain ⟨r, v, hr, hv, hrl, hvl⟩ := exists_range_copy hn h
  have hlen : r.length = 4 := by rw [← hvl]; simp
  refine ⟨r, ⟨v⟩, hr, ?_, hvl.trans hrl⟩
  unfold Ipv4Address.fromBytes
  rw [range_length hlen, ok_bind, hv]
  rfl

theorem EthernetFrame.parse_of_lt {data : List Byte} (h : data.length < 14) : parse data = .ok none := if_pos h

theorem EthernetFrame.parse_of_le {data : List Byte} (h : 14 ≤ data.length) :
    ∃ f, parse data = .ok (some f) ∧ f.dstMac.bytes.toList = data.take 6 ∧
      f.srcMac.bytes.toList = (data.drop 6).take 6 ∧ f.ethertype = be16 data 12 ∧ f.payload = data.drop 14 := by
  obtain ⟨r1, dst, hr1, hdst, hdst'⟩ := MacAddress.exists_fromBytes data (Nat.zero_add 6) (by omega)
  obtain ⟨r2, src, hr2, hsrc, hsrc'⟩ := MacAddress.exists_fromBytes data (show 6 + 6 = 12 from rfl) (by omega)
  refine ⟨⟨dst, src, be16 data 12, data.drop 14⟩, ?_, hdst', hsrc', rfl, rfl⟩
  unfold parse
  rw [if_neg (by omega), hr1, ok_bind, hdst, ok_bind, hr2, ok_bind, hsrc, ok_bind, index16_of_lt (by omega), ok_bind,
    suffix_of_le h]
  rfl

def headerLen (first : Byte) : Nat := 4 * (first.toNat % 16)

theorem ihl_toNat (first : Byte) : (first &&& 0x0F).toNat = first.toNat % 16 := by
  exact Nat.and_two_pow_sub_one_eq_mod _ 4

theorem headerLen_eq (first : Byte) : ((first &&& 0x0F) * 4).toNat = headerLen first := by
  unfold headerLen
  grind [BitVec.toNat_mul, ihl_toNat]

def Ipv4Packet.Accepts (data : List Byte) : Prop :=
  20 ≤ data.length ∧ data.getD 0 0 >>> 4 = 4 ∧ headerLen (data.getD 0 0) ≤ data.length

theorem Ipv4Packet.parse_of_not_accepts {data : List Byte} (h : ¬Accepts data) : parse data = .ok none := by
  unfold parse
  by_cases hlen : data.length < 20
  · rw [if_pos hlen]
    rfl
  · rw [if_neg hlen, index_of_lt (by omega), ok_bind]
    dsimp only
    rw [headerLen_eq, if_pos]
    · rfl
    · unfold Accepts at h
      grind

theorem Ipv4Packet.parse_of_accepts {data : List Byte} (h : Accepts data) :
    ∃ src dst, src.bytes.toList = (data.drop 12).take 4 ∧ dst.bytes.toList = (data.drop 16).take 4 ∧
      parse data = .ok (some {
        version := data.getD 0 0 >>> 4
        ihl := data.getD 0 0 &&& 0x0F
        dscp := data.getD 1 0 >>> 2
        ecn := data.getD 1 0 &&& 0x03
        totalLength := be16 data 2
        identification := be16 data 4
        flags := data.getD 6 0 >>> 5
        fragmentOffset := (data.getD 6 0 &&& 0x1F) ++ data.getD 7 0
        ttl := data.getD 8 0
        protocol := data.getD 9 0
        checksum := be16 data 10
        srcAddr := src
        dstAddr := dst
        payload := data.drop (headerLen (data.getD 0 0)) }) := by
  obtain ⟨hlen, hver, hhead⟩ := h
  obtain ⟨r1, src, hr1, hsrc, hsrc'⟩ := Ipv4Address.exists_fromBytes data (show 12 + 4 = 16 from rfl) (by omega)
  obtain ⟨r2, dst, hr2, hdst, hdst'⟩ := Ipv4Address.exists_fromBytes data (show 16 + 4 = 20 from rfl) (by omega)
  have hidx : ∀ i, i < 20 → index data i = .ok (data.getD i 0) := fun i hi => index_of_lt (by omega)
  have hi16 : ∀ i, i + 1 < 20 → index16 data i = .ok (be16 data i) := fun i hi => index16_of_lt (by omega)
  refine ⟨src, dst, hsrc', hdst', ?_⟩
  unfold parse
  rw [if_neg (by omega), hidx 0 (by omega), ok_bind]
  dsimp only
  rw [headerLen_eq, if_neg (fun hc => hc.elim (fun hv => hv hver) (by omega)), hi16 2 (by omega), ok_bind, hr1, ok_bind, hsrc, ok_bind, hr2,
    ok_bind, hdst, ok_bind, hidx 1 (by omega), hi16 4 (by omega), hidx 6 (by omega), hidx 7 (by omega),
    hidx 8 (by omega), hidx 9 (by omega), hi16 10 (by omega), suffix_of_le hhead]
  rfl

theorem Ipv4Packet.returns_toBytes (p : Ipv4Packet) : Returns p.toBytes := by
  unfold toBytes
  dsimp only
  rw [range_of_le (Nat.zero_le _) (by simp [beBytes16]), ok_bind, store_of_lt _ (by simp [beBytes16]), ok_bind,
    store_of_lt _ (by simp [beBytes16])]
  exact ⟨_, rfl⟩

@[simp] theorem MacAddress.fromBytes_toList (v : Vector Byte 6) : MacAddress.fromBytes v.toList = .ok ⟨v⟩ := by
  unfold MacAddress.fromBytes
  rw [range_length (by simp), ok_bind, copy_toList]
  rfl

@[simp] theorem Ipv4Address.fromBytes_toList (v : Vector Byte 4) : Ipv4Address.fromBytes v.toList = .ok ⟨v⟩ := by
  unfold Ipv4Address.fromBytes
  rw [range_length (by simp), ok_bind, copy_toList]
  rfl

section

variable (data : List Byte)

theorem ArpPacket.returns_parse : Returns (parse data) := by
  by_cases h : data.length < 28
  · exact ⟨none, if_pos h⟩
  · obtain ⟨r1, v1, hr1, hv1, -⟩ := exists_range_copy (l := data) (show 8 + 6 = 14 from rfl) (by omega)
    obtain ⟨r2, v2, hr2, hv2, -⟩ := exists_range_copy (l := data) (show 14 + 4 = 18 from rfl) (by omega)
    obtain ⟨r3, v3, hr3, hv3, -⟩ := exists_range_copy (l := data) (show 18 + 6 = 24 from rfl) (by omega)
    obtain ⟨r4, v4, hr4, hv4, -⟩ := exists_range_copy (l := data) (show 24 + 4 = 28 from rfl) (by omega)
    have hidx : ∀ i, i < 28 → index data i = .ok (data.getD i 0) := fun i hi => index_of_lt (by omega)
    have hi16 : ∀ i, i + 1 < 28 → index16 data i = .ok (be16 data i) := fun i hi => index16_of_lt (by omega)
    unfold parse
    rw [if_neg h, hr1, ok_bind, hv1, ok_bind, hr2, ok_bind, hv2, ok_bind, hr3, ok_bind, hv3, ok_bind, hr4, ok_bind, hv4,
      ok_bind, hi16 0 (by omega), hi16 2 (by omega), hidx 4 (by omega), hidx 5 (by omega), hi16 6 (by omega)]
    exact ⟨_, rfl⟩

def TcpSegment.Accepts : Prop :=
  20 ≤ data.length ∧ 4 * (data.getD 12 0 >>> 4).toNat ≤ data.length

theorem TcpSegment.parse_spec :
    ∃ r, parse data = .ok r ∧ (r.isSome ↔ Accepts data) ∧
      ∀ segment ∈ r, segment.dataOffset = data.getD 12 0 >>> 4 ∧
        segment.payload = data.drop (4 * (data.getD 12 0 >>> 4).toNat) := by
  unfold parse Accepts
  by_cases h : data.length < 20
  · exact ⟨none, if_pos h, ⟨nofun, fun hacc => by omega⟩, nofun⟩
  · have hidx : ∀ i, i < 20 → index data i = .ok (data.getD i 0) := fun i hi => index_of_lt (by omega)
    have hi16 : ∀ i, i + 1 < 20 → index16 data i = .ok (be16 data i) := fun i hi => index16_of_lt (by omega)
    have hi32 : ∀ i, i + 3 < 20 → index32 data i = .ok (be32 data i) := fun i hi => index32_of_lt (by omega)
    have hlen : ((data.getD 12 0 >>> 4) * 4).toNat = 4 * (data.getD 12 0 >>> 4).toNat := by
      simp [BitVec.toNat_mul, BitVec.toNat_ushiftRight, Nat.shiftRight_eq_div_pow]
      omega
    rw [if_neg h, hidx 12 (by omega), ok_bind]
    dsimp only
    rw [hlen]
    by_cases hhead : 4 * (data.getD 12 0 >>> 4).toNat > data.length
    · exact ⟨none, if_pos hhead, ⟨nofun, fun hacc => by omega⟩, nofun⟩
    · rw [if_neg hhead, hi16 0 (by omega), hi16 2 (by omega), hi32 4 (by omega), hi32 8 (by omega),
        hidx 13 (by omega), hi16 14 (by omega), hi16 16 (by omega), hi16 18 (by omega), suffix_of_le (by omega)]
      simp_all

theorem UdpDatagram.returns_parse_iff :
    Returns (parse data) ↔ ¬(8 ≤ data.length ∧ (be16 data 4).toNat < 8) := by
  unfold parse
  by_cases h : data.length < 8
  · rw [if_pos h]
    exact ⟨fun _ hc => by omega, fun _ => ⟨none, rfl⟩⟩
  · have hi16 : ∀ i, i + 1 < 8 → index16 data i = .ok (be16 data i) := fun i hi => index16_of_lt (by omega)
    rw [if_neg h, hi16 4 (by omega), ok_bind]
    by_cases hlen : data.length < (be16 data 4).toNat
    · rw [if_pos hlen]
      exact ⟨fun _ hc => by omega, fun _ => ⟨none, rfl⟩⟩
    · rw [if_neg hlen, hi16 0 (by omega), ok_bind, hi16 2 (by omega), ok_bind, hi16 6 (by omega), ok_bind]
      by_cases hs : (be16 data 4).toNat < 8
      · have herr : range data 8 (be16 data 4).toNat = .error (.range 8 (be16 data 4).toNat data.length) :=
          if_neg fun hc => by omega
        rw [herr, error_bind]
        exact ⟨fun hr => absurd hr (not_returns_error _), fun hc => absurd ⟨by omega, hs⟩ hc⟩
      · rw [range_of_le (by omega) (by omega)]
        exact ⟨fun _ hc => hs hc.2, fun _ => ⟨_, rfl⟩⟩

end

/-! ### What the parsers accept -/

def BehindHeader (data payload : List Byte) : Prop := payload <:+ data ∧ 20 + payload.length ≤ data.length

theorem behindHeader_drop {data : List Byte} {n : Nat} (h : 20 ≤ n) (hn : n ≤ data.length) :
    BehindHeader data (data.drop n) := by
  refine ⟨List.drop_suffix n data, ?_⟩
  rw [List.length_drop]
  omega

structure Ipv4Packet.WellFormed (data : List Byte) (p : Ipv4Packet) : Prop where
  version : p.version = 4
  ihl : 5 ≤ p.ihl.toNat
  header_le : 4 * p.ihl.toNat ≤ p.totalLength.toNat
  total_le : p.totalLength.toNat ≤ data.length
  payload : BehindHeader data p.payload

structure TcpSegment.WellFormed (data : List Byte) (segment : TcpSegment) : Prop where
  dataOffset : 5 ≤ segment.dataOffset.toNat
  payload : BehindHeader data segment.payload

theorem Ipv4Packet.parse_wellFormed_iff (data : List Byte) :
    (∀ p, parse data = .ok (some p) → p.WellFormed data) ↔
      (Accepts data → 5 ≤ (data.getD 0 0).toNat % 16 ∧ headerLen (data.getD 0 0) ≤ (be16 data 2).toNat ∧
        (be16 data 2).toNat ≤ data.length) := by
  by_cases hacc : Accepts data
  · obtain ⟨src, dst, -, -, hpa⟩ := parse_of_accepts hacc
    obtain ⟨hlen, hver, hhead⟩ := hacc
    have hihl := ihl_toNat (data.getD 0 0)
    rw [hpa]
    constructor
    · intro h _
      obtain ⟨-, h1, h2, h3, -⟩ := h _ rfl
      rw [hihl] at h1 h2
      exact ⟨h1, h2, h3⟩
    · intro h p hp
      obtain rfl := Option.some.inj (Except.ok.inj hp)
      obtain ⟨h1, h2, h3⟩ := h ⟨hlen, hver, hhead⟩
      refine ⟨hver, hihl ▸ h1, hihl ▸ h2, h3, behindHeader_drop ?_ hhead⟩
      unfold headerLen
      omega
  · simp_all [parse_of_not_accepts hacc]

theorem TcpSegment.parse_wellFormed_iff (data : List Byte) :
    (∀ segment, parse data = .ok (some segment) → segment.WellFormed data) ↔
      (Accepts data → 5 ≤ (data.getD 12 0 >>> 4).toNat) := by
  obtain ⟨r, hpar, hsome, hr⟩ := parse_spec data
  rw [hpar, ← hsome]
  cases r with
  | none => exact ⟨fun _ => nofun, fun _ _ h => nomatch h⟩
  | some segment =>
    obtain ⟨ho, hpay⟩ := hr segment rfl
    obtain ⟨-, hhead⟩ := hsome.1 rfl
    have hiff : segment.WellFormed data ↔ 5 ≤ (data.getD 12 0 >>> 4).toNat := by
      refine ⟨fun h => ho ▸ h.dataOffset, fun h => ⟨ho ▸ h, ?_⟩⟩
      rw [hpay]
      exact behindHeader_drop (by omega) hhead
    simp_all

/-- The parsers look at the length fields only to see whether the header fits in the data: what they accept is well formed
exactly if the fields of the accepted data are. -/
theorem parsers_wellFormed_iff (data : List Byte) :
    ((∀ p, Ipv4Packet.parse data = .ok (some p) → p.WellFormed data) ∧
      ∀ segment, TcpSegment.parse data = .ok (some segment) → segment.WellFormed data) ↔
    (Ipv4Packet.Accepts data → 5 ≤ (data.getD 0 0).toNat % 16 ∧ headerLen (data.getD 0 0) ≤ (be16 data 2).toNat ∧
      (be16 data 2).toNat ≤ data.length) ∧
    (TcpSegment.Accepts data → 5 ≤ (data.getD 12 0 >>> 4).toNat) :=
  and_congr (Ipv4Packet.parse_wellFormed_iff data) (TcpSegment.parse_wellFormed_iff data)

/-- The byte `0x40` and 19 zeros are an IPv4 packet of no header, and a TCP segment of none. -/
theorem parsers_accept_short_header :
    ∃ data : List Byte, (∃ p, Ipv4Packet.parse data = .ok (some p) ∧ ¬p.WellFormed data) ∧
      ∃ segment, TcpSegment.parse data = .ok (some segment) ∧ ¬segment.WellFormed data :=
  ⟨0x40 :: List.replicate 19 0, ⟨_, rfl, fun h => absurd h.ihl (by decide)⟩,
    ⟨_, rfl, fun h => absurd h.dataOffset (by decide)⟩⟩

end AstralOS.Network
