import PacketGuard.Packet.Dns

/-! Packet payloads and capture files (`packet/packet.cpp`). -/
namespace PacketGuard.Packet
open PacketGuard.Core

/-- What `decode_packet_payload` does with the transport bytes of `md.ipv4`. -/
def decodeTransport (md : PacketMetadata) (protocol : Nat) (transport : ByteView) :
    PacketMetadata × Diagnostics :=
  if protocol = 6 then
    match parseTcpSegment transport with
    | (.ok tcp, diag) => ({ md with tcp := some tcp }, diag)
    | (.error e, diag) => ({ md with notes := md.notes ++ [e.message] }, diag)
  else if protocol = 17 then
    match parseUdpDatagram transport with
    | (.ok udp, diag) =>
      let md := { md with udp := some udp }
      if udp.sourcePort = 53 ∨ udp.destinationPort = 53 then
        match transport.slice 8 udp.payloadLength with
        | .ok dnsPayload =>
          match parseDnsMessage dnsPayload with
          | (.ok dns, diag') => ({ md with dns := some dns }, diag ++ diag')
          | (.error e, diag') => ({ md with notes := md.notes ++ [e.message] }, diag ++ diag')
        | .error _ => (md, diag)
      else (md, diag)
    | (.error e, diag) => ({ md with notes := md.notes ++ [e.message] }, diag)
  else (md, [])

/-- What `decode_packet_payload` does with the bytes behind the link header. -/
def decodeIp (md : PacketMetadata) (ipBytes : ByteView) : PacketMetadata × Diagnostics :=
  match parseIpv4Packet ipBytes with
  | (.error e, diag) => ({ md with notes := md.notes ++ [e.message] }, diag)
  | (.ok ip, diag) =>
    let md := { md with ipv4 := some ip }
    match ipBytes.slice ip.headerLength ip.payloadLength with
    | .error _ => (md, diag)
    | .ok transport =>
      let (md, diag') := decodeTransport md ip.protocol transport
      (md, diag ++ diag')

def decodePacketPayload (timestamp : Timestamp) (bytes : ByteView) (originalLength : Nat)
    (linkType : Nat) : PacketMetadata × Diagnostics :=
  let md : PacketMetadata :=
    { timestamp := timestamp, originalLength := originalLength, capturedLength := bytes.size }
  if linkType ≠ 1 then
    ({ md with notes := ["unsupported link type ".toList ++ natToString linkType] }, [])
  else
    match parseEthernet bytes with
    | (.error e, diag) => ({ md with notes := [e.message] }, diag)
    | (.ok eth, diag) =>
      let md := { md with ethernet := some eth }
      if eth.etherType ≠ 0x0800 then (md, diag)
      else
        match bytes.slice eth.headerLength (bytes.size - eth.headerLength) with
        | .error _ => (md, diag)
        | .ok ipBytes =>
          let (md, diag') := decodeIp md ipBytes
          (md, diag ++ diag')

/-! ## Capture files -/

/-- The byte order and resolution a magic number announces: `(le, ns)`. -/
def pcapMagic (magicBe magicLe : Nat) : Option (Bool × Bool) :=
  if magicLe = 0xa1b2c3d4 then some (true, false)
  else if magicBe = 0xa1b2c3d4 then some (false, false)
  else if magicLe = 0xa1b23c4d then some (true, true)
  else if magicBe = 0xa1b23c4d then some (false, true)
  else none

/-- The reader `rd16` of `parse_pcap`. -/
def rd16 (bytes : ByteView) (le : Bool) (off : Nat) : Nat :=
  if le then readLe16 (bytes.ptr off) else readBe16 (bytes.ptr off)

/-- The reader `rd32` of `parse_pcap`. -/
def rd32 (bytes : ByteView) (le : Bool) (off : Nat) : Nat :=
  if le then readLe32 (bytes.ptr off) else readBe32 (bytes.ptr off)

/-- The packet whose record header is at `offset` and whose bytes are `pktBytes`. -/
def decodeRecord (bytes : ByteView) (le ns : Bool) (linkType offset : Nat) (pktBytes : ByteView) :
    PcapPacket × Diagnostics :=
  let tsSec := rd32 bytes le offset
  let tsFrac := rd32 bytes le (offset + 4)
  let origLen := rd32 bytes le (offset + 12)
  let ts := normalizeTimestamp tsSec (if ns then tsFrac else tsFrac * 1000)
  let (md, diag) := decodePacketPayload ts pktBytes origLen linkType
  (⟨md, pktBytes.toVector⟩, diag)

/-- The record loop of `parse_pcap`. -/
def parseRecords (bytes : ByteView) (le ns : Bool) (linkType offset : Nat) :
    List PcapPacket × Diagnostics :=
  if _h : offset < bytes.size then
    if bytes.size - offset < 16 then
      ([], Diagnostics.warn "pcap.record".toList
        "Trailing bytes after final packet header".toList offset)
    else
      let inclLen := rd32 bytes le (offset + 8)
      if bytes.size - (offset + 16) < inclLen then
        ([], Diagnostics.error "pcap.packet".toList
          "Captured packet length exceeds file".toList (offset + 16))
      else
        match bytes.slice (offset + 16) inclLen with
        | .error _ => ([], []) -- not reached: `inclLen` bytes are there
        | .ok pktBytes =>
          let (pkt, diag) := decodeRecord bytes le ns linkType offset pktBytes
          let (pkts, diag') := parseRecords bytes le ns linkType (offset + 16 + inclLen)
          (pkt :: pkts, diag ++ diag')
  else ([], [])
termination_by bytes.size - offset

def parsePcap (bytes : ByteView) : Result PcapFile :=
  if bytes.size < 24 then failure "pcap file too short"
  else
    match pcapMagic (readBe32 (bytes.ptr 0)) (readLe32 (bytes.ptr 0)) with
    | none => failure "unsupported pcap magic"
    | some (le, ns) =>
      let major := rd16 bytes le 4
      let linkType := rd32 bytes le 20
      let versionNote := if major ≠ 2 then
          Diagnostics.warn "pcap.version".toList "PCAP major version is unusual".toList 4
        else []
      let (packets, diag) := parseRecords bytes le ns linkType 24
      .ok
        { littleEndian := le
          nanosecondResolution := ns
          major := major
          minor := rd16 bytes le 6
          thisZone := (rd32 bytes le 8 : Int).bmod (2 ^ 32)
          snaplen := rd32 bytes le 16
          linkType := linkType
          packets := packets
          diagnostics := versionNote ++ diag }

end PacketGuard.Packet
