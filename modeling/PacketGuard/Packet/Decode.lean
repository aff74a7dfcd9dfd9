import PacketGuard.Core.Checksum
import PacketGuard.Packet.Types

/-! The link, network and transport decoders of `packet/packet.cpp`.  Each
returns its result together with the diagnostics it reports. -/
namespace PacketGuard.Packet
open PacketGuard.Core

/-- `has_bytes`. -/
def hasBytes (bytes : ByteView) (offset length : Nat) : Bool :=
  offset ≤ bytes.size && length ≤ bytes.size - offset

theorem hasBytes_iff {v : ByteView} {offset length : Nat} :
    hasBytes v offset length = true ↔ offset + length ≤ v.size := by
  simp only [hasBytes, Bool.and_eq_true, decide_eq_true_eq]
  omega

def parseEthernet (bytes : ByteView) : Result EthernetFrame × Diagnostics :=
  if bytes.size < 14 then (failure "ethernet frame too short", [])
  else
    let frame : EthernetFrame :=
      { destination := ⟨bytes.copy 0 6⟩, source := ⟨bytes.copy 6 6⟩,
        etherType := readBe16 (bytes.ptr 12) }
    if frame.etherType = 0x8100 ∨ frame.etherType = 0x88a8 then
      if bytes.size < 18 then (failure "tagged ethernet frame too short", [])
      else
        (.ok { frame with etherType := readBe16 (bytes.ptr 16), headerLength := 18 },
          Diagnostics.info "ethernet.vlan".toList "VLAN tagged frame".toList 12)
    else (.ok frame, [])

/-- The packet whose header length and total length have been checked and, for
the total length, clipped to the captured bytes. -/
def readIpv4Header (bytes : ByteView) (headerLength totalLength : Nat) : IPv4Packet :=
  let flagsFragment := readBe16 (bytes.ptr 6)
  { version := (bytes.data 0).toNat >>> 4
    ihl := (bytes.data 0).toNat &&& 0x0f
    dscpEcn := (bytes.data 1).toNat
    totalLength := totalLength
    identification := readBe16 (bytes.ptr 4)
    flagsFragment := flagsFragment
    ttl := (bytes.data 8).toNat
    protocol := (bytes.data 9).toNat
    headerChecksum := readBe16 (bytes.ptr 10)
    source := ⟨BitVec.ofNat 32 (readBe32 (bytes.ptr 12))⟩
    destination := ⟨BitVec.ofNat 32 (readBe32 (bytes.ptr 16))⟩
    checksumValid :=
      match bytes.slice 0 headerLength with
      | .ok hdr => internetChecksum hdr == 0
      | .error _ => false
    fragmented := flagsFragment &&& 0x3fff != 0 || flagsFragment &&& 0x2000 != 0
    headerLength := headerLength
    payloadLength := totalLength - headerLength }

/-- The warnings about a packet that has been read. -/
def ipv4Notes (ip : IPv4Packet) : Diagnostics :=
  (if ip.ttl = 0 then Diagnostics.warn "ipv4.ttl".toList "IPv4 TTL is zero".toList 8 else []) ++
    if !ip.checksumValid then
      Diagnostics.warn "ipv4.checksum".toList "IPv4 header checksum did not validate".toList 10
    else []

def parseIpv4Packet (bytes : ByteView) : Result IPv4Packet × Diagnostics :=
  if bytes.size < 20 then (failure "ipv4 packet too short", [])
  else
    let ihl := (bytes.data 0).toNat &&& 0x0f
    let headerLength := ihl * 4
    if (bytes.data 0).toNat >>> 4 ≠ 4 then (failure "not an ipv4 packet", [])
    else if ihl < 5 ∨ bytes.size < headerLength then (failure "invalid ipv4 header length", [])
    else
      let totalLength := readBe16 (bytes.ptr 2)
      let differs := decide (totalLength < headerLength ∨ bytes.size < totalLength)
      let lengthNote := if differs then
          Diagnostics.warn "ipv4.length".toList
            "IPv4 total length differs from captured bytes".toList 2
        else []
      if totalLength < headerLength then (failure "invalid ipv4 total length", lengthNote)
      else
        let ip := readIpv4Header bytes headerLength
          (if differs then bytes.size % 2 ^ 16 else totalLength)
        (.ok ip, lengthNote ++ ipv4Notes ip)

def parseTcpSegment (bytes : ByteView) : Result TcpSegment × Diagnostics :=
  if bytes.size < 20 then (failure "tcp segment too short", [])
  else
    let dataOffset := (bytes.data 12).toNat >>> 4
    let headerLen := dataOffset * 4
    if dataOffset < 5 ∨ bytes.size < headerLen then (failure "invalid tcp data offset", [])
    else
      let tcp : TcpSegment :=
        { sourcePort := readBe16 (bytes.ptr 0)
          destinationPort := readBe16 (bytes.ptr 2)
          sequence := readBe32 (bytes.ptr 4)
          acknowledgment := readBe32 (bytes.ptr 8)
          dataOffset := dataOffset
          flags := (((bytes.data 12).toNat &&& 0x01) <<< 8) ||| (bytes.data 13).toNat
          window := readBe16 (bytes.ptr 14)
          checksum := readBe16 (bytes.ptr 16)
          urgent := readBe16 (bytes.ptr 18)
          payloadLength := bytes.size - headerLen
          options := if 20 < headerLen then bytes.copy 20 (headerLen - 20) else [] }
      (.ok tcp,
        if tcp.flags &&& 0x006 = 0x006 then
          Diagnostics.warn "tcp.flags".toList "TCP SYN and RST both set".toList 13
        else [])

def parseUdpDatagram (bytes : ByteView) : Result UdpDatagram × Diagnostics :=
  if bytes.size < 8 then (failure "udp datagram too short", [])
  else
    let length := readBe16 (bytes.ptr 4)
    if length < 8 then (failure "invalid udp length", [])
    else
      let clipped := decide (bytes.size < length)
      let length := if clipped then bytes.size % 2 ^ 16 else length
      (.ok
        { sourcePort := readBe16 (bytes.ptr 0)
          destinationPort := readBe16 (bytes.ptr 2)
          length := length
          checksum := readBe16 (bytes.ptr 6)
          payloadLength := length - 8 },
        if clipped then
          Diagnostics.warn "udp.length".toList "UDP length exceeds captured payload".toList 4
        else [])

end PacketGuard.Packet
