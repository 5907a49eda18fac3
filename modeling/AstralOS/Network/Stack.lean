import AstralOS.Network.Packets

/-!
# The network stack

The model of `network/mod.rs` and `network/socket.rs`: what happens to a received frame.  The devices are any type with a
hardware address and a `send`; the dispatch does not depend on more.  `processPacket_returns_iff` says which frames are
handled without a panic, in any state of the stack.
-/

namespace AstralOS.Network

open Checked

/-! ### Sockets -/

inductive TcpState
  | closed | listen | synSent | synReceived | established | finWait1 | finWait2 | closeWait | closing | lastAck | timeWait
  deriving DecidableEq

structure TcpConnection where
  state : TcpState
  localPort : BitVec 16
  sendUnack : BitVec 32
  recvNext : BitVec 32
  recvBuffer : List Byte

def TcpConnection.handleSegment (conn : TcpConnection) (segment : TcpSegment) : TcpConnection :=
  match conn.state with
  | .listen =>
    if segment.hasFlag tcpFlagSyn then { conn with recvNext := segment.sequence + 1, state := .synReceived } else conn
  | .established =>
    let conn := if segment.hasFlag tcpFlagAck then { conn with sendUnack := segment.acknowledgment } else conn
    let conn :=
      if segment.payload.isEmpty then conn
      else
        { conn with
          recvBuffer := conn.recvBuffer ++ segment.payload
          recvNext := conn.recvNext + BitVec.ofNat 32 segment.payload.length }
    if segment.hasFlag tcpFlagFin then { conn with state := .closeWait } else conn
  | _ => conn

structure UdpSocket where
  localPort : BitVec 16
  recvQueue : List (Ipv4Address × BitVec 16 × List Byte)

inductive Socket
  | tcp (conn : TcpConnection)
  | udp (socket : UdpSocket)

abbrev SocketTable := List (BitVec 64 × Socket)

namespace SocketTable

def deliver (f : Socket → Option Socket) : SocketTable → SocketTable
  | [] => []
  | (handle, socket) :: rest =>
    match f socket with
    | some socket' => (handle, socket') :: rest
    | none => (handle, socket) :: deliver f rest

def deliverTcp (table : SocketTable) (segment : TcpSegment) : SocketTable :=
  table.deliver fun
    | .tcp conn => if conn.localPort = segment.dstPort then some (.tcp (conn.handleSegment segment)) else none
    | .udp _ => none

def deliverUdp (table : SocketTable) (src : Ipv4Address) (datagram : UdpDatagram) : SocketTable :=
  table.deliver fun
    | .udp socket =>
      if socket.localPort = datagram.dstPort then
        some (.udp { socket with recvQueue := socket.recvQueue ++ [(src, datagram.srcPort, datagram.payload)] })
      else none
    | .tcp _ => none

end SocketTable

/-! ### The stack -/

/-- A network device (`NetworkDevice`). -/
class NetworkDevice (δ : Type) where
  macAddress : δ → MacAddress
  send : δ → List Byte → Except String Unit × δ

/-- The stack (`NetworkStack`); of the configuration only the address is used here. -/
structure NetworkStack (δ : Type) where
  devices : List δ
  arpCache : BitVec 32 → Option MacAddress
  socketTable : SocketTable
  address : Ipv4Address

namespace NetworkStack

variable {δ : Type} [NetworkDevice δ]

section

variable (st : NetworkStack δ)

def sendPacket (packet : List Byte) : Except String Unit × NetworkStack δ :=
  match st.devices with
  | [] => (.error "No network device available", st)
  | device :: rest =>
    let (result, device) := NetworkDevice.send device packet
    (result, { st with devices := device :: rest })

def getMacAddress : MacAddress :=
  match st.devices with
  | [] => ⟨Vector.replicate 6 0⟩
  | device :: _ => NetworkDevice.macAddress device

def sendArpReply (request : ArpPacket) : Checked (NetworkStack δ) := do
  let reply ← ArpPacket.newReply st.getMacAddress.bytes.toList st.address.bytes.toList request.senderHwAddr.toList
    request.senderProtoAddr.toList
  let frame : EthernetFrame :=
    { dstMac := ← MacAddress.fromBytes request.senderHwAddr.toList
      srcMac := st.getMacAddress
      ethertype := ethertypeArp
      payload := reply.toBytes }
  return (st.sendPacket frame.toBytes).2

def handleArpPacket (payload : List Byte) : Checked (NetworkStack δ) := do
  match ← ArpPacket.parse payload with
  | none => return st
  | some packet =>
    if packet.operation = arpRequest then
      if packet.targetProtoAddr = st.address.bytes then st.sendArpReply packet else return st
    else if packet.operation = arpReply then
      let ip ← Ipv4Address.fromBytes packet.senderProtoAddr.toList
      let mac ← MacAddress.fromBytes packet.senderHwAddr.toList
      return { st with arpCache := fun key => if key = ip.toU32 then some mac else st.arpCache key }
    else return st

def sendIcmpReply (request : Ipv4Packet) : Checked (NetworkStack δ) := do
  let reply ← store request.payload 0 0
  let reply ← store reply 2 0
  let reply ← store reply 3 0
  let checksum := calculateChecksum reply
  let reply ← store reply 2 ((checksum >>> 8).setWidth 8)
  let reply ← store reply 3 (checksum.setWidth 8)
  let ipReply := Ipv4Packet.new st.address request.srcAddr protocolIcmp reply
  match st.arpCache request.srcAddr.toU32 with
  | none => return st
  | some mac =>
    let frame : EthernetFrame :=
      { dstMac := mac
        srcMac := st.getMacAddress
        ethertype := ethertypeIpv4
        payload := ← ipReply.toBytes }
    return (st.sendPacket frame.toBytes).2

section

variable (packet : Ipv4Packet)

def handleIcmpPacket : Checked (NetworkStack δ) := do
  if packet.payload.length ≥ 8 then
    if (← index packet.payload 0) = 8 then st.sendIcmpReply packet else return st
  else return st

def handleTcpPacket : Checked (NetworkStack δ) := do
  match ← TcpSegment.parse packet.payload with
  | none => return st
  | some segment => return { st with socketTable := st.socketTable.deliverTcp segment }

def handleUdpPacket : Checked (NetworkStack δ) := do
  match ← UdpDatagram.parse packet.payload with
  | none => return st
  | some datagram => return { st with socketTable := st.socketTable.deliverUdp packet.srcAddr datagram }

end

def handleIpPacket (payload : List Byte) : Checked (NetworkStack δ) := do
  match ← Ipv4Packet.parse payload with
  | none => return st
  | some packet =>
    if packet.dstAddr ≠ st.address then return st
    if packet.protocol = protocolIcmp then st.handleIcmpPacket packet
    else if packet.protocol = protocolTcp then st.handleTcpPacket packet
    else if packet.protocol = protocolUdp then st.handleUdpPacket packet
    else return st

def processPacket (packet : List Byte) : Checked (NetworkStack δ) := do
  match ← EthernetFrame.parse packet with
  | none => return st
  | some frame =>
    if frame.ethertype = ethertypeArp then st.handleArpPacket frame.payload
    else if frame.ethertype = ethertypeIpv4 then st.handleIpPacket frame.payload
    else return st

end

/-! ### Frames that are handled -/

section

variable (st : NetworkStack δ)

theorem returns_sendArpReply (request : ArpPacket) : Returns (st.sendArpReply request) := by
  unfold sendArpReply ArpPacket.newReply
  simp only [copy_toList, MacAddress.fromBytes_toList, ok_bind, pure_bind]
  exact ⟨_, rfl⟩

theorem returns_handleArpPacket (payload : List Byte) : Returns (st.handleArpPacket payload) := by
  obtain ⟨r, hr⟩ := ArpPacket.returns_parse payload
  unfold handleArpPacket
  rw [hr, ok_bind]
  cases r with
  | none => exact returns_ok st
  | some packet =>
    dsimp only
    by_cases hreq : packet.operation = arpRequest
    · rw [if_pos hreq]
      by_cases hown : packet.targetProtoAddr = st.address.bytes
      · rw [if_pos hown]
        exact st.returns_sendArpReply packet
      · rw [if_neg hown]
        exact returns_ok st
    · rw [if_neg hreq]
      by_cases hrep : packet.operation = arpReply
      · rw [if_pos hrep, Ipv4Address.fromBytes_toList, ok_bind, MacAddress.fromBytes_toList]
        exact ⟨_, rfl⟩
      · rw [if_neg hrep]
        exact returns_ok st

theorem returns_sendIcmpReply {request : Ipv4Packet} (h : 8 ≤ request.payload.length) :
    Returns (st.sendIcmpReply request) := by
  unfold sendIcmpReply
  rw [store_of_lt _ (by omega), ok_bind, store_of_lt _ (by simp; omega), ok_bind, store_of_lt _ (by simp; omega), ok_bind]
  dsimp only
  rw [store_of_lt _ (by simp; omega), ok_bind, store_of_lt _ (by simp; omega), ok_bind]
  cases st.arpCache request.srcAddr.toU32 with
  | none => exact returns_ok st
  | some mac => exact (returns_bind_iff fun bytes => returns_ok _).2 (Ipv4Packet.returns_toBytes _)

theorem returns_handleIcmpPacket (packet : Ipv4Packet) : Returns (st.handleIcmpPacket packet) := by
  unfold handleIcmpPacket
  by_cases h : packet.payload.length ≥ 8
  · rw [if_pos h, index_of_lt (by omega), ok_bind]
    by_cases hecho : packet.payload.getD 0 0 = 8
    · rw [if_pos hecho]
      exact st.returns_sendIcmpReply h
    · rw [if_neg hecho]
      exact returns_ok st
  · rw [if_neg h]
    exact returns_ok st

end

omit [NetworkDevice δ] in
theorem returns_handleTcpPacket (st : NetworkStack δ) (packet : Ipv4Packet) : Returns (st.handleTcpPacket packet) := by
  obtain ⟨r, hr, -⟩ := TcpSegment.parse_spec packet.payload
  unfold handleTcpPacket
  rw [hr, ok_bind]
  cases r with
  | none => exact returns_ok st
  | some segment => exact returns_ok _

omit [NetworkDevice δ] in
theorem returns_handleUdpPacket_iff (st : NetworkStack δ) (packet : Ipv4Packet) :
    Returns (st.handleUdpPacket packet) ↔ ¬(8 ≤ packet.payload.length ∧ (be16 packet.payload 4).toNat < 8) := by
  rw [← UdpDatagram.returns_parse_iff]
  refine returns_bind_iff fun r => ?_
  cases r with
  | none => exact returns_ok st
  | some datagram => exact returns_ok _

/-- An IPv4 packet for the address that carries a UDP datagram with a length field of less than 8. -/
def ShortUdp (address : Ipv4Address) (payload : List Byte) : Prop :=
  Ipv4Packet.Accepts payload ∧ (payload.drop 16).take 4 = address.bytes.toList ∧ payload.getD 9 0 = protocolUdp ∧
    headerLen (payload.getD 0 0) + 8 ≤ payload.length ∧ (be16 payload (headerLen (payload.getD 0 0) + 4)).toNat < 8

theorem returns_handleIpPacket_iff (st : NetworkStack δ) (payload : List Byte) :
    Returns (st.handleIpPacket payload) ↔ ¬ShortUdp st.address payload := by
  unfold handleIpPacket ShortUdp
  by_cases hacc : Ipv4Packet.Accepts payload
  · obtain ⟨src, dst, -, hdst, hp⟩ := Ipv4Packet.parse_of_accepts hacc
    have haddr : dst = st.address ↔ (payload.drop 16).take 4 = st.address.bytes.toList := by
      rw [← hdst]
      refine ⟨fun h => by rw [h], fun h => ?_⟩
      cases dst
      cases hst : st.address
      rw [hst] at h
      rw [Ipv4Address.mk.injEq]
      exact Vector.toList_inj.1 h
    rw [hp, ok_bind]
    dsimp only
    by_cases hown : dst = st.address
    · rw [if_neg (not_not.2 hown)]
      by_cases hicmp : payload.getD 9 0 = protocolIcmp
      · rw [if_pos hicmp]
        refine ⟨fun _ hc => absurd (hicmp.symm.trans hc.2.2.1) (by decide), fun _ => st.returns_handleIcmpPacket _⟩
      · rw [if_neg hicmp]
        by_cases htcp : payload.getD 9 0 = protocolTcp
        · rw [if_pos htcp]
          exact ⟨fun _ hc => absurd (htcp.symm.trans hc.2.2.1) (by decide), fun _ => st.returns_handleTcpPacket _⟩
        · rw [if_neg htcp]
          by_cases hudp : payload.getD 9 0 = protocolUdp
          · grind [returns_handleUdpPacket_iff, be16_drop, List.length_drop]
          · rw [if_neg hudp]
            exact ⟨fun _ hc => hudp hc.2.2.1, fun _ => returns_ok st⟩
    · rw [if_pos hown]
      exact ⟨fun _ hc => hown (haddr.2 hc.2.1), fun _ => returns_ok st⟩
  · rw [Ipv4Packet.parse_of_not_accepts hacc, ok_bind]
    exact ⟨fun _ hc => hacc hc.1, fun _ => returns_ok st⟩

/-- A frame is handled without a panic exactly if it does not carry a UDP datagram for this host whose length field is
less than 8. -/
theorem processPacket_returns_iff (st : NetworkStack δ) (packet : List Byte) :
    Returns (st.processPacket packet) ↔ ¬(be16 packet 12 = ethertypeIpv4 ∧ ShortUdp st.address (packet.drop 14)) := by
  unfold processPacket
  by_cases hlen : packet.length < 14
  · rw [EthernetFrame.parse_of_lt hlen, ok_bind]
    refine ⟨fun _ hc => ?_, fun _ => returns_ok st⟩
    have := hc.2.1.1
    rw [List.length_drop] at this
    omega
  · obtain ⟨f, hpar, -, -, htype, hpay⟩ := EthernetFrame.parse_of_le (by omega : 14 ≤ packet.length)
    rw [hpar, ok_bind]
    dsimp only
    rw [htype, hpay]
    by_cases harp : be16 packet 12 = ethertypeArp
    · rw [if_pos harp]
      exact ⟨fun _ hc => absurd (harp.symm.trans hc.1) (by decide), fun _ => st.returns_handleArpPacket _⟩
    · rw [if_neg harp]
      by_cases hip : be16 packet 12 = ethertypeIpv4
      · simp [hip, returns_handleIpPacket_iff]
      · rw [if_neg hip]
        exact ⟨fun _ hc => hip hc.1, fun _ => returns_ok st⟩

def shortFrame : List Byte :=
  List.replicate 12 0 ++ [0x08, 0x00] ++
    [0x45, 0, 0, 28, 0, 0, 0, 0, 64, 17, 0, 0, 10, 0, 2, 2, 10, 0, 2, 15] ++ [0, 7, 0, 7, 0, 0, 0, 0]

instance : NetworkDevice Unit where
  macAddress := fun _ => ⟨Vector.replicate 6 0⟩
  send := fun _ _ => (.ok (), ())

def initial : NetworkStack Unit :=
  { devices := [], arpCache := fun _ => none, socketTable := [], address := ⟨#v[10, 0, 2, 15]⟩ }

/-- The payload of that datagram would be the range from 8 to 0. -/
theorem processPacket_panics : initial.processPacket shortFrame = .error (.range 8 0 8) := rfl

end NetworkStack

end AstralOS.Network
