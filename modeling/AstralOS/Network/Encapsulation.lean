import AstralOS.Lib.OnesComplement
import AstralOS.Network.Packets

/-!
# Packets inside frames

What a receiver gets back from the bytes of a packet inside an Ethernet frame.  The checksum of an IPv4 header makes its
one's complement sum all ones (`calculateChecksum_header`).  A frame is padded to 60 bytes, and `Ipv4Packet.parse` takes
everything behind the header for the payload: the padding comes with it (`receiveIpv4_sendIpv4`).  A UDP datagram has a
length of its own and loses the padding again (`udp_survives_encapsulation`).
-/

namespace AstralOS.Network

open Checked BitVec
open List hiding Vector

/-! ### The checksum -/

def words : List Byte → List Nat
  | [] => []
  | [a] => [256 * a.toNat]
  | a :: b :: rest => (256 * a.toNat + b.toNat) :: words rest

theorem words_le (data : List Byte) : ∀ w ∈ words data, w ≤ 0xFFFF := by
  induction data using words.induct with
  | case1 => simp [words]
  | case2 a =>
    intro w hw
    rw [words, mem_singleton] at hw
    omega
  | case3 a b rest ih =>
    intro w hw
    rcases mem_cons.1 hw with rfl | hw
    · omega
    · exact ih w hw

theorem addWord_toNat {sum word : BitVec 32} (hs : sum.toNat ≤ 0xFFFF) (hw : word.toNat ≤ 0xFFFF) :
    (addWord sum word).toNat = OnesComplement.add 0xFFFF sum.toNat word.toNat := by
  have hadd : (sum + word).toNat = sum.toNat + word.toNat := by
    rw [toNat_add]
    omega
  unfold addWord OnesComplement.add
  by_cases h : 0xFFFF < sum.toNat + word.toNat
  · have hgt : sum + word > 0xFFFF := by
      rw [gt_iff_lt, lt_def, hadd]
      exact h
    have hlow : ((sum + word) &&& ((0xFFFF : Nat) : BitVec 32)).toNat = (sum.toNat + word.toNat) % 2 ^ 16 := by
      rw [toNat_and, hadd]
      exact Nat.and_two_pow_sub_one_eq_mod _ 16
    rw [if_pos hgt, if_pos h, toNat_add, hlow, toNat_ushiftRight, hadd, Nat.shiftRight_eq_div_pow]
    omega
  · grind [gt_iff_lt, lt_def]

theorem append_toNat (a b : Byte) : ((a ++ b).setWidth 32).toNat = 256 * a.toNat + b.toNat := by
  have hb := b.isLt
  rw [toNat_setWidth, toNat_append, ← Nat.shiftLeft_add_eq_or_of_lt hb, Nat.shiftLeft_eq]
  omega

theorem shift_toNat (a : Byte) : (a.setWidth 32 <<< 8).toNat = 256 * a.toNat := by
  simp [toNat_shiftLeft, toNat_setWidth, Nat.shiftLeft_eq]
  omega

theorem checksumLoop_toNat (data : List Byte) {sum : BitVec 32} (hs : sum.toNat ≤ 0xFFFF) :
    (checksumLoop sum data).toNat = (words data).foldl (OnesComplement.add 0xFFFF) sum.toNat := by
  induction data using words.induct generalizing sum with
  | case1 => rfl
  | case2 a =>
    have hw : (a.setWidth 32 <<< 8).toNat ≤ 0xFFFF := by
      rw [shift_toNat]
      omega
    rw [checksumLoop, words, addWord_toNat hs hw, shift_toNat]
    rfl
  | case3 a b rest ih =>
    have hw : ((a ++ b).setWidth 32).toNat ≤ 0xFFFF := by
      rw [append_toNat]
      omega
    have hadd := addWord_toNat hs hw
    have hle : (addWord sum ((a ++ b).setWidth 32)).toNat ≤ 0xFFFF := by
      rw [hadd]
      exact OnesComplement.add_le hs hw
    rw [checksumLoop, words, foldl_cons, ih hle, hadd, append_toNat]

theorem calculateChecksum_toNat (data : List Byte) :
    (calculateChecksum data).toNat = 0xFFFF - (words data).foldl (OnesComplement.add 0xFFFF) 0 := by
  have hloop := checksumLoop_toNat data (show (0 : BitVec 32).toNat ≤ 0xFFFF by decide)
  have hle := OnesComplement.foldl_add_le (m := 0xFFFF) (a := 0) (by decide) (words_le data)
  unfold calculateChecksum
  grind

theorem words_set {data : List Byte} {i : Nat} (h : 2 * i + 1 < data.length) (a b : Byte) :
    i < (words data).length ∧
      words ((data.set (2 * i) a).set (2 * i + 1) b) = (words data).set i (256 * a.toNat + b.toNat) := by
  induction data using words.induct generalizing i with
  | case1 => cases h
  | case2 => simp at h
  | case3 c d rest ih =>
    cases i with
    | zero => exact ⟨Nat.succ_pos _, rfl⟩
    | succ i =>
      grind [length_cons, words]

def storeChecksum (data : List Byte) (pos : Nat) (checksum : BitVec 16) : List Byte :=
  (data.set pos ((checksum >>> 8).setWidth 8)).set (pos + 1) (checksum.setWidth 8)

theorem calculateChecksum_store {data : List Byte} {i : Nat} (h0 : data[2 * i]? = some 0)
    (h1 : data[2 * i + 1]? = some 0) : calculateChecksum (storeChecksum data (2 * i) (calculateChecksum data)) = 0 := by
  obtain ⟨hlt0, h0⟩ := List.getElem?_eq_some_iff.1 h0
  obtain ⟨hlt, h1⟩ := List.getElem?_eq_some_iff.1 h1
  have hself : (data.set (2 * i) 0).set (2 * i + 1) 0 = data := by
    rw [← h0, set_getElem_self, h0, ← h1, set_getElem_self]
  obtain ⟨hi, hset⟩ := words_set hlt 0 0
  have hzero : (words data).set i 0 = words data := by
    rw [hself] at hset
    exact hset.symm
  generalize hc : calculateChecksum data = c
  have hcNat : 256 * ((c >>> 8).setWidth 8).toNat + (c.setWidth 8).toNat = c.toNat := by
    simp [toNat_setWidth, toNat_ushiftRight, Nat.shiftRight_eq_div_pow]
    omega
  apply eq_of_toNat_eq
  have hsum := OnesComplement.foldl_add_complement (m := 0xFFFF) (by decide) (words_le data) hi
  rw [hzero] at hsum
  rw [calculateChecksum_toNat, storeChecksum, (words_set hlt _ _).2, hcNat, ← hc, calculateChecksum_toNat, hsum]
  rfl

/-- The Internet checksum: the running sum stays below 32 bits, the result is the complement of the one's complement sum of
the words, whatever their order, and a message with its checksum in it has the checksum 0. -/
theorem calculateChecksum_correct (data : List Byte) :
    (∀ i w, (words data)[i]? = some w → (checksumLoop 0 (data.take (2 * i))).toNat + w < 2 ^ 32) ∧
    calculateChecksum data = ~~~BitVec.ofNat 16 ((words data).foldl (OnesComplement.add 0xFFFF) 0) ∧
    (∀ data', (words data').Perm (words data) → calculateChecksum data' = calculateChecksum data) ∧
    ∀ i, data[2 * i]? = some 0 → data[2 * i + 1]? = some 0 →
      calculateChecksum (storeChecksum data (2 * i) (calculateChecksum data)) = 0 := by
  have hle : ∀ data : List Byte, (words data).foldl (OnesComplement.add 0xFFFF) 0 ≤ 0xFFFF := fun data =>
    OnesComplement.foldl_add_le (by decide) (words_le data)
  refine ⟨fun i w hw => ?_, ?_, fun data' hperm => ?_, fun i => calculateChecksum_store⟩
  · have hloop := checksumLoop_toNat (data.take (2 * i)) (show (0 : BitVec 32).toNat ≤ 0xFFFF by decide)
    have hword := words_le data w (mem_of_getElem? hw)
    grind
  · have := hle data
    apply eq_of_toNat_eq
    rw [calculateChecksum_toNat, toNat_not, toNat_ofNat, Nat.mod_eq_of_lt (by omega)]
  · apply eq_of_toNat_eq
    rw [calculateChecksum_toNat, calculateChecksum_toNat,
      OnesComplement.foldl_add_congr (words_le data') (words_le data) hperm.sum_eq]

/-! ### The header of a packet -/

@[simp] theorem length_beBytes16 (x : BitVec 16) : (beBytes16 x).length = 2 := rfl

theorem beBytes16_toNat (x : BitVec 16) :
    (x.extractLsb' 8 8).toNat = x.toNat / 256 ∧ (x.extractLsb' 0 8).toNat = x.toNat % 256 := by
  simp [extractLsb'_toNat, Nat.shiftRight_eq_div_pow]
  omega

theorem be16_beBytes16 (x : BitVec 16) (rest : List Byte) : be16 (beBytes16 x ++ rest) 0 = x := by
  apply eq_of_toNat_eq
  have hlow := (x.extractLsb' 0 8).isLt
  change (x.extractLsb' 8 8 ++ x.extractLsb' 0 8).toNat = x.toNat
  rw [toNat_append, ← Nat.shiftLeft_add_eq_or_of_lt hlow, Nat.shiftLeft_eq, (beBytes16_toNat x).1,
    (beBytes16_toNat x).2]
  omega

namespace Ipv4Packet

section

variable (p : Ipv4Packet)

def headerFront : List Byte :=
  [(p.version <<< 4) ||| p.ihl, (p.dscp <<< 2) ||| p.ecn] ++ beBytes16 p.totalLength ++ beBytes16 p.identification ++
    beBytes16 ((p.flags.setWidth 16 <<< 13) ||| p.fragmentOffset) ++ [p.ttl, p.protocol]

def header (checksum : BitVec 16) : List Byte :=
  p.headerFront ++ beBytes16 checksum ++ (p.srcAddr.bytes.toList ++ p.dstAddr.bytes.toList)

@[simp] theorem length_headerFront : p.headerFront.length = 10 := rfl

@[simp] theorem length_header (checksum : BitVec 16) : (p.header checksum).length = 20 := by
  simp [header, beBytes16]

theorem storeChecksum_header (c : BitVec 16) : storeChecksum (p.header 0) 10 c = p.header c := by
  have hhigh : (c >>> 8).setWidth 8 = c.extractLsb' 8 8 := by
    grind
  have hlow : c.setWidth 8 = c.extractLsb' 0 8 := by
    grind
  rfl

theorem toBytes_eq : p.toBytes = .ok (p.header (calculateChecksum (p.header 0)) ++ p.payload) := by
  have hzero : beBytes16 0 = [0, 0] := by decide
  have hp : [(p.version <<< 4) ||| p.ihl, (p.dscp <<< 2) ||| p.ecn] ++ beBytes16 p.totalLength ++
      beBytes16 p.identification ++ beBytes16 ((p.flags.setWidth 16 <<< 13) ||| p.fragmentOffset) ++
      [p.ttl, p.protocol] ++ [0, 0] ++ p.srcAddr.bytes.toList ++ p.dstAddr.bytes.toList = p.header 0 := by
    unfold header headerFront
    rw [hzero, append_assoc (_ ++ [0, 0])]
  unfold toBytes
  dsimp only
  rw [hp, range_length (length_header p 0), ok_bind, store_of_lt _ (by simp), ok_bind, store_of_lt _ (by simp),
    ok_bind, ← storeChecksum_header p (calculateChecksum (p.header 0))]
  rfl

theorem calculateChecksum_header :
    calculateChecksum (p.header (calculateChecksum (p.header 0))) = 0 := by
  rw [← storeChecksum_header]
  exact calculateChecksum_store (i := 5) rfl rfl

end

end Ipv4Packet

/-! ### Frames -/

def padding (payload : List Byte) : List Byte := List.replicate (46 - payload.length) 0

theorem EthernetFrame.parse_toBytes (dst src : MacAddress) (ethertype : BitVec 16) (payload : List Byte) :
    parse (EthernetFrame.new dst src ethertype payload).toBytes =
      .ok (some ⟨dst, src, ethertype, payload ++ padding payload⟩) := by
  have hb : (EthernetFrame.new dst src ethertype payload).toBytes =
      dst.bytes.toList ++ (src.bytes.toList ++ (beBytes16 ethertype ++ (payload ++ padding payload))) := by
    have hpad : 60 - (dst.bytes.toList ++ src.bytes.toList ++ beBytes16 ethertype ++ payload).length =
        46 - payload.length := by
      simp [beBytes16]
      omega
    unfold toBytes EthernetFrame.new padding
    dsimp only
    rw [hpad]
    simp
  have hdst : dst.bytes.toList.length = 6 := by simp
  have hsrc : src.bytes.toList.length = 6 := by simp
  have hlen : 14 ≤ (EthernetFrame.new dst src ethertype payload).toBytes.length := by
    rw [hb]
    simp [beBytes16]
    omega
  obtain ⟨f, hf, hd, hs, he, hp⟩ := parse_of_le hlen
  rw [hb] at hd hs he hp
  rw [take_left' hdst] at hd
  rw [drop_left' hdst, take_left' hsrc] at hs
  have hdrop : (dst.bytes.toList ++ (src.bytes.toList ++ (beBytes16 ethertype ++ (payload ++ padding payload)))).drop 12 =
      beBytes16 ethertype ++ (payload ++ padding payload) := by
    rw [show 12 = 6 + 6 from rfl, ← drop_drop, drop_left' hdst, drop_left' hsrc]
  rw [show 14 = 12 + 2 from rfl, ← drop_drop, hdrop, drop_left' (length_beBytes16 ethertype)] at hp
  rw [show 12 = 12 + 0 from rfl, ← be16_drop, hdrop, be16_beBytes16] at he
  rw [hf]
  cases f with
  | mk dst' src' ethertype' payload' =>
    cases MacAddress.ext (Vector.toList_inj.1 hd)
    cases MacAddress.ext (Vector.toList_inj.1 hs)
    cases he
    cases hp
    rfl

theorem Ipv4Packet.header_new (src dst : Ipv4Address) (protocol : Byte) (payload : List Byte) (checksum : BitVec 16) :
    (Ipv4Packet.new src dst protocol payload).header checksum =
      [0x45, 0] ++ beBytes16 (BitVec.ofNat 16 (20 + payload.length)) ++ [0, 0, 0, 0, 64, protocol] ++
        beBytes16 checksum ++ (src.bytes.toList ++ dst.bytes.toList) := by
  have hzero : beBytes16 0 = [0, 0] := by decide
  unfold header headerFront Ipv4Packet.new
  grind

theorem Ipv4Packet.parse_header (src dst : Ipv4Address) (protocol : Byte) (payload rest : List Byte)
    (checksum : BitVec 16) :
    parse ((Ipv4Packet.new src dst protocol payload).header checksum ++ rest) =
      .ok (some { Ipv4Packet.new src dst protocol payload with checksum := checksum, payload := rest }) := by
  have hlen := length_header (Ipv4Packet.new src dst protocol payload) checksum
  have hsrc : src.bytes.toList.length = 4 := by simp
  have hdst : dst.bytes.toList.length = 4 := by simp
  have hhead : headerLen 0x45 = 20 := by decide
  rw [header_new] at hlen ⊢
  generalize hdata : [0x45, 0] ++ beBytes16 (BitVec.ofNat 16 (20 + payload.length)) ++ [0, 0, 0, 0, 64, protocol] ++
    beBytes16 checksum ++ (src.bytes.toList ++ dst.bytes.toList) ++ rest = data
  have hf : data.getD 0 0 = 0x45 := by
    subst hdata
    rfl
  have ha : Accepts data := by
    refine ⟨?_, ?_, ?_⟩
    · grind
    · rw [hf]
      decide
    · grind
  obtain ⟨src', dst', hsrc', hdst', hp⟩ := parse_of_accepts ha
  have hb : data.drop 12 = src.bytes.toList ++ (dst.bytes.toList ++ rest) := by
    subst hdata
    change (src.bytes.toList ++ dst.bytes.toList) ++ rest = _
    rw [List.append_assoc]
  rw [hb, take_left' hsrc] at hsrc'
  rw [show 16 = 12 + 4 from rfl, ← drop_drop, hb, drop_left' hsrc, take_left' hdst] at hdst'
  cases Ipv4Address.ext (Vector.toList_inj.1 hsrc')
  cases Ipv4Address.ext (Vector.toList_inj.1 hdst')
  have ht : be16 data 2 = BitVec.ofNat 16 (20 + payload.length) := by
    subst hdata
    exact be16_beBytes16 _ []
  have hsum : be16 data 10 = checksum := by
    subst hdata
    exact be16_beBytes16 checksum []
  have hdrop : data.drop 20 = rest := by
    rw [← hdata, drop_left' hlen]
  have hid : be16 data 4 = 0 := by
    subst hdata
    exact be16_beBytes16 0 []
  obtain ⟨h1, h6, h7, h8, h9⟩ : data.getD 1 0 = 0 ∧ data.getD 6 0 = 0 ∧ data.getD 7 0 = 0 ∧ data.getD 8 0 = 64 ∧
      data.getD 9 0 = protocol := by
    subst hdata
    exact ⟨rfl, rfl, rfl, rfl, rfl⟩
  rw [hp, hf, hhead, ht, hsum, hid, h1, h6, h7, h8, h9, hdrop, show (0x45 : Byte) >>> 4 = 4 by decide,
    show (0 : Byte) >>> 5 = 0 by decide, show ((0 : Byte) &&& 0x1F) ++ (0 : Byte) = (0 : BitVec 16) by decide]
  rfl

theorem UdpDatagram.parse_toBytes (srcPort dstPort : BitVec 16) {payload : List Byte} (h : payload.length ≤ 65527)
    (rest : List Byte) :
    parse ((UdpDatagram.new srcPort dstPort payload).toBytes ++ rest) =
      .ok (some (UdpDatagram.new srcPort dstPort payload)) := by
  have hf : (BitVec.ofNat 16 (8 + payload.length)).toNat = 8 + payload.length := by
    rw [toNat_ofNat]
    omega
  generalize hdata : (UdpDatagram.new srcPort dstPort payload).toBytes ++ rest = data
  have hlen : data.length = 8 + payload.length + rest.length := by
    rw [← hdata]
    simp [toBytes, UdpDatagram.new]
    omega
  obtain ⟨h0, h2, h4, h6⟩ : be16 data 0 = srcPort ∧ be16 data 2 = dstPort ∧
      be16 data 4 = BitVec.ofNat 16 (8 + payload.length) ∧ be16 data 6 = 0 := by
    subst hdata
    exact ⟨be16_beBytes16 _ [], be16_beBytes16 _ [], be16_beBytes16 _ [], be16_beBytes16 0 []⟩
  have hdrop : data.drop 8 = payload ++ rest := by
    subst hdata
    rfl
  have hin : ∀ i, i + 1 < 8 → index16 data i = .ok (be16 data i) := fun i hi => index16_of_lt (by omega)
  unfold parse
  rw [if_neg (by omega), hin 4 (by omega), ok_bind, h4, hf, if_neg (by omega), hin 0 (by omega),
    hin 2 (by omega), hin 6 (by omega), range_of_le (by omega) (by omega), hdrop, Nat.add_sub_cancel_left,
    take_left, h0, h2, h6]
  rfl

/-! ### Through a frame -/

def sendIpv4 (dstMac srcMac : MacAddress) (ethertype : BitVec 16) (packet : Ipv4Packet) : Checked (List Byte) := do
  return (EthernetFrame.new dstMac srcMac ethertype (← packet.toBytes)).toBytes

def receiveIpv4 (bytes : List Byte) : Checked (Option (EthernetFrame × Ipv4Packet)) := do
  match ← EthernetFrame.parse bytes with
  | none => return none
  | some frame =>
    match ← Ipv4Packet.parse frame.payload with
    | none => return none
    | some packet => return some (frame, packet)

def receiveUdp (bytes : List Byte) : Checked (Option (EthernetFrame × Ipv4Packet × UdpDatagram)) := do
  match ← receiveIpv4 bytes with
  | none => return none
  | some (frame, packet) =>
    match ← UdpDatagram.parse packet.payload with
    | none => return none
    | some datagram => return some (frame, packet, datagram)

section

variable (dstMac srcMac : MacAddress) (ethertype : BitVec 16) (src dst : Ipv4Address)

/-- What arrives of a packet: its addresses, a header whose checksum is right, and the payload with the padding of the
frame. -/
structure Arrives (protocol : Byte) (payload : List Byte) (frame : EthernetFrame) (packet : Ipv4Packet) : Prop where
  dstMac : frame.dstMac = dstMac
  srcMac : frame.srcMac = srcMac
  ethertype : frame.ethertype = ethertype
  header : calculateChecksum (frame.payload.take 20) = 0
  srcAddr : packet.srcAddr = src
  dstAddr : packet.dstAddr = dst
  protocol : packet.protocol = protocol
  payload : packet.payload = payload ++ List.replicate (26 - payload.length) 0

theorem receiveIpv4_sendIpv4 (protocol : Byte) (payload : List Byte) :
    ∃ bytes frame packet,
      sendIpv4 dstMac srcMac ethertype (Ipv4Packet.new src dst protocol payload) = .ok bytes ∧
      receiveIpv4 bytes = .ok (some (frame, packet)) ∧
      Arrives dstMac srcMac ethertype src dst protocol payload frame packet := by
  generalize hsum : calculateChecksum ((Ipv4Packet.new src dst protocol payload).header 0) = checksum
  generalize hh : (Ipv4Packet.new src dst protocol payload).header checksum = header
  have hlen : header.length = 20 := hh ▸ Ipv4Packet.length_header _ _
  have hzero : calculateChecksum header = 0 := by
    rw [← hh, ← hsum]
    exact Ipv4Packet.calculateChecksum_header _
  have hpad : padding (header ++ payload) = List.replicate (26 - payload.length) 0 := by
    grind [padding, length_append]
  have hsend : sendIpv4 dstMac srcMac ethertype (Ipv4Packet.new src dst protocol payload) =
      .ok (EthernetFrame.new dstMac srcMac ethertype (header ++ payload)).toBytes := by
    unfold sendIpv4
    rw [Ipv4Packet.toBytes_eq, hsum, hh, ok_bind]
    rfl
  have hr : receiveIpv4 (EthernetFrame.new dstMac srcMac ethertype (header ++ payload)).toBytes =
      .ok (some (⟨dstMac, srcMac, ethertype, header ++ (payload ++ List.replicate (26 - payload.length) 0)⟩,
        { Ipv4Packet.new src dst protocol payload with
          checksum := checksum, payload := payload ++ List.replicate (26 - payload.length) 0 })) := by
    unfold receiveIpv4
    rw [EthernetFrame.parse_toBytes, ok_bind, hpad]
    dsimp only
    rw [List.append_assoc, ← hh, Ipv4Packet.parse_header]
    rfl
  refine ⟨_, _, _, hsend, hr, rfl, rfl, rfl, ?_, rfl, rfl, rfl, rfl⟩
  rw [take_left' hlen]
  exact hzero

/-- UDP datagrams survive: the addresses, the ports and exactly the payload arrive, and the header of the packet has the
checksum 0. -/
theorem udp_survives_encapsulation (srcPort dstPort : BitVec 16) (payload : List Byte) (h : payload.length ≤ 65507) :
    ∃ bytes frame packet datagram,
      sendIpv4 dstMac srcMac ethertype
        (Ipv4Packet.new src dst protocolUdp (UdpDatagram.new srcPort dstPort payload).toBytes) = .ok bytes ∧
      receiveUdp bytes = .ok (some (frame, packet, datagram)) ∧
      frame.dstMac = dstMac ∧ frame.srcMac = srcMac ∧ packet.srcAddr = src ∧ packet.dstAddr = dst ∧
      datagram.srcPort = srcPort ∧ datagram.dstPort = dstPort ∧ datagram.payload = payload ∧
      calculateChecksum (frame.payload.take 20) = 0 := by
  obtain ⟨bytes, frame, packet, hsend, hr, ha⟩ := receiveIpv4_sendIpv4 dstMac srcMac ethertype src dst
    protocolUdp (UdpDatagram.new srcPort dstPort payload).toBytes
  refine ⟨bytes, frame, packet, UdpDatagram.new srcPort dstPort payload, hsend, ?_, ha.dstMac, ha.srcMac, ha.srcAddr,
    ha.dstAddr, rfl, rfl, rfl, ha.header⟩
  unfold receiveUdp
  rw [hr, ok_bind]
  dsimp only
  rw [ha.payload, UdpDatagram.parse_toBytes srcPort dstPort (by omega)]
  rfl

/-- The payload of a packet arrives with the padding of its frame, so it is what was sent exactly if the frame needs no
padding. -/
theorem ipv4_payload_survives_iff (protocol : Byte) (payload : List Byte) :
    ∃ bytes frame packet,
      sendIpv4 dstMac srcMac ethertype (Ipv4Packet.new src dst protocol payload) = .ok bytes ∧
      receiveIpv4 bytes = .ok (some (frame, packet)) ∧ (packet.payload = payload ↔ 26 ≤ payload.length) := by
  obtain ⟨bytes, frame, packet, hsend, hr, ha⟩ :=
    receiveIpv4_sendIpv4 dstMac srcMac ethertype src dst protocol payload
  grind [ha.payload, append_right_eq_self, replicate_eq_nil_iff]

end

/-- A datagram without payload arrives without the padding of its frame. -/
theorem udp_survives_encapsulation_empty :
    ([] : List Byte).length ≤ 65507 ∧
      ∃ bytes frame packet datagram,
        sendIpv4 ⟨Vector.replicate 6 0xFF⟩ ⟨#v[0x52, 0x54, 0, 0x12, 0x34, 0x56]⟩ ethertypeIpv4
          (Ipv4Packet.new ⟨#v[10, 0, 2, 15]⟩ ⟨#v[10, 0, 2, 2]⟩ protocolUdp (UdpDatagram.new 68 67 []).toBytes) =
            .ok bytes ∧
        receiveUdp bytes = .ok (some (frame, packet, datagram)) ∧ datagram.payload = [] := by
  obtain ⟨bytes, frame, packet, datagram, hsend, hr, -, -, -, -, -, -, hp, -⟩ :=
    udp_survives_encapsulation ⟨Vector.replicate 6 0xFF⟩ ⟨#v[0x52, 0x54, 0, 0x12, 0x34, 0x56]⟩ ethertypeIpv4
      ⟨#v[10, 0, 2, 15]⟩ ⟨#v[10, 0, 2, 2]⟩ 68 67 [] (by decide)
  exact ⟨by decide, bytes, frame, packet, datagram, hsend, hr, hp⟩

/-- An ICMP echo request of eight bytes: type, code, checksum, identifier and sequence number. -/
def echoRequest : List Byte := [8, 0, 0xF7, 0xFD, 0, 1, 0, 1]

/-- The echo request arrives with 18 bytes more. -/
theorem echoRequest_padded :
    ∃ bytes frame packet,
      sendIpv4 ⟨Vector.replicate 6 0xFF⟩ ⟨#v[0x52, 0x54, 0, 0x12, 0x34, 0x56]⟩ ethertypeIpv4
        (Ipv4Packet.new ⟨#v[10, 0, 2, 15]⟩ ⟨#v[10, 0, 2, 2]⟩ protocolIcmp echoRequest) = .ok bytes ∧
      receiveIpv4 bytes = .ok (some (frame, packet)) ∧ packet.payload = echoRequest ++ List.replicate 18 0 ∧
      packet.payload ≠ echoRequest := by
  obtain ⟨bytes, frame, packet, hsend, hr, ha⟩ :=
    receiveIpv4_sendIpv4 ⟨Vector.replicate 6 0xFF⟩ ⟨#v[0x52, 0x54, 0, 0x12, 0x34, 0x56]⟩ ethertypeIpv4
      ⟨#v[10, 0, 2, 15]⟩ ⟨#v[10, 0, 2, 2]⟩ protocolIcmp echoRequest
  refine ⟨bytes, frame, packet, hsend, hr, ha.payload, ?_⟩
  rw [ha.payload]
  decide

end AstralOS.Network
