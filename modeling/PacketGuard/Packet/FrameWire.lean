import PacketGuard.Packet.HeaderChecksum

/-! # Frames on the wire

The wire image of an Ethernet frame with an IPv4 packet in it, and what
`decode_packet_payload` recovers from it: every header field, at each layer, the
notes and the diagnostics.  Each decoder is described by one lemma about a view
that holds the image of its header; the frame puts the layers inside each other.
-/
namespace PacketGuard.Packet
open PacketGuard.Core PacketGuard.Lib

/-! ## The layers -/

/-- A VLAN tag, of a customer (0x8100) or of a provider (0x88a8). -/
structure WireTag where
  ofProvider : Bool
  control : UInt16

def WireTag.tpid (t : WireTag) : Nat := if t.ofProvider then 0x88a8 else 0x8100

/-- An Ethernet header that announces IPv4. -/
structure WireEthernet where
  destination : List UInt8
  source : List UInt8
  tag : Option WireTag
  destination_length : destination.length = 6
  source_length : source.length = 6

/-- What stands between the addresses and the packet. -/
def WireEthernet.typeField (e : WireEthernet) : List UInt8 :=
  match e.tag with
  | none => bigEndian 2 0x0800
  | some t => bigEndian 2 t.tpid ++ (bigEndian 2 t.control.toNat ++ bigEndian 2 0x0800)

def WireEthernet.encode (e : WireEthernet) : List UInt8 :=
  e.destination ++ (e.source ++ e.typeField)

/-- The header a reader should recover. -/
def WireEthernet.frame (e : WireEthernet) : EthernetFrame :=
  { destination := ⟨e.destination⟩, source := ⟨e.source⟩, etherType := 0x0800
    headerLength := if e.tag.isSome then 18 else 14 }

/-- Option bytes, in whole words; a header of at most 60 bytes has at most 40 of them. -/
structure WireOptions where
  bytes : List UInt8
  words : bytes.length % 4 = 0
  fits : bytes.length ≤ 40

/-- The words of a header of 20 bytes with the options. -/
def WireOptions.headerWords (o : WireOptions) : Nat := 5 + o.bytes.length / 4

structure WireIpv4 where
  dscpEcn : UInt8
  identification : UInt16
  flagsFragment : UInt16
  ttl : UInt8
  headerChecksum : UInt16
  source : IPv4Address
  destination : IPv4Address
  options : WireOptions

/-- The header of a packet with `payloadLength` bytes behind it. -/
def WireIpv4.encode (h : WireIpv4) (protocol : UInt8) (payloadLength : Nat) : List UInt8 :=
  [UInt8.ofNat (0x40 + h.options.headerWords)] ++ ([h.dscpEcn] ++
    (bigEndian 2 (20 + h.options.bytes.length + payloadLength) ++
      (bigEndian 2 h.identification.toNat ++
        (bigEndian 2 h.flagsFragment.toNat ++ ([h.ttl] ++ ([protocol] ++
        (bigEndian 2 h.headerChecksum.toNat ++ (bigEndian 4 h.source.value.toNat ++
          (bigEndian 4 h.destination.value.toNat ++ h.options.bytes)))))))))

/-- The packet a reader should recover. -/
def WireIpv4.packet (h : WireIpv4) (protocol : UInt8) (payloadLength : Nat) : IPv4Packet :=
  { version := 4
    ihl := h.options.headerWords
    dscpEcn := h.dscpEcn.toNat
    totalLength := 20 + h.options.bytes.length + payloadLength
    identification := h.identification.toNat
    flagsFragment := h.flagsFragment.toNat
    ttl := h.ttl.toNat
    protocol := protocol.toNat
    headerChecksum := h.headerChecksum.toNat
    source := h.source
    destination := h.destination
    checksumValid := internetChecksum (.ofVector (h.encode protocol payloadLength)) == 0
    fragmented := decide (h.flagsFragment.toNat % 2 ^ 14 ≠ 0)
    headerLength := 20 + h.options.bytes.length
    payloadLength := payloadLength }

structure WireTcp where
  sourcePort : UInt16
  destinationPort : UInt16
  sequence : UInt32
  acknowledgment : UInt32
  reserved : Fin 8
  flags : Fin 512
  window : UInt16
  checksum : UInt16
  urgent : UInt16
  options : WireOptions
  payload : List UInt8

def WireTcp.encode (t : WireTcp) : List UInt8 :=
  bigEndian 2 t.sourcePort.toNat ++
    (bigEndian 2 t.destinationPort.toNat ++ (bigEndian 4 t.sequence.toNat ++
    (bigEndian 4 t.acknowledgment.toNat ++
      ([UInt8.ofNat (t.options.headerWords * 16 + t.reserved * 2 + t.flags / 256)] ++
        ([UInt8.ofNat (t.flags % 256)] ++
          (bigEndian 2 t.window.toNat ++ (bigEndian 2 t.checksum.toNat ++
          (bigEndian 2 t.urgent.toNat ++ (t.options.bytes ++ t.payload)))))))))

/-- The segment a reader should recover. -/
def WireTcp.segment (t : WireTcp) : TcpSegment :=
  { sourcePort := t.sourcePort.toNat
    destinationPort := t.destinationPort.toNat
    sequence := t.sequence.toNat
    acknowledgment := t.acknowledgment.toNat
    dataOffset := t.options.headerWords
    flags := t.flags
    window := t.window.toNat
    checksum := t.checksum.toNat
    urgent := t.urgent.toNat
    payloadLength := t.payload.length
    options := t.options.bytes }

/-- A datagram; `trailing` is what the packet carries behind it. -/
structure WireUdp where
  sourcePort : UInt16
  destinationPort : UInt16
  checksum : UInt16
  payload : List UInt8
  trailing : List UInt8

def WireUdp.encode (u : WireUdp) : List UInt8 :=
  bigEndian 2 u.sourcePort.toNat ++ (bigEndian 2 u.destinationPort.toNat ++
    (bigEndian 2 (8 + u.payload.length) ++
      (bigEndian 2 u.checksum.toNat ++ (u.payload ++ u.trailing))))

/-- The datagram a reader should recover. -/
def WireUdp.datagram (u : WireUdp) : UdpDatagram :=
  { sourcePort := u.sourcePort.toNat
    destinationPort := u.destinationPort.toNat
    length := 8 + u.payload.length
    checksum := u.checksum.toNat
    payloadLength := u.payload.length }

inductive WireTransport
  | tcp (segment : WireTcp)
  | udp (datagram : WireUdp)
  | other (protocol : UInt8) (bytes : List UInt8) (hother : protocol ≠ 6 ∧ protocol ≠ 17)

def WireTransport.protocol : WireTransport → UInt8
  | .tcp _ => 6
  | .udp _ => 17
  | .other protocol _ _ => protocol

def WireTransport.encode : WireTransport → List UInt8
  | .tcp segment => segment.encode
  | .udp datagram => datagram.encode
  | .other _ bytes _ => bytes

/-- A frame to be written; `padding` stands behind the packet. -/
structure WireFrame where
  ethernet : WireEthernet
  ipv4 : WireIpv4
  transport : WireTransport
  padding : List UInt8
  fits : 20 + ipv4.options.bytes.length + transport.encode.length < 2 ^ 16

/-- The packet inside the frame, with its header. -/
def WireFrame.packetBytes (f : WireFrame) : List UInt8 :=
  f.ipv4.encode f.transport.protocol f.transport.encode.length ++ f.transport.encode

def WireFrame.encode (f : WireFrame) : List UInt8 :=
  f.ethernet.encode ++ (f.packetBytes ++ f.padding)

/-! ## What a reader should recover -/

/-- What the payload of a datagram adds to `md`. -/
def WireUdp.withDns (u : WireUdp) (md : PacketMetadata) : PacketMetadata × Diagnostics :=
  if u.sourcePort = 53 ∨ u.destinationPort = 53 then
    match parseDnsMessage (.ofVector u.payload) with
    | (.ok dns, diag) => ({ md with dns := some dns }, diag)
    | (.error e, diag) => ({ md with notes := md.notes ++ [e.message] }, diag)
  else (md, [])

/-- What the transport layer adds to `md`. -/
def WireTransport.addTo (md : PacketMetadata) : WireTransport → PacketMetadata × Diagnostics
  | .tcp t =>
    ({ md with tcp := some t.segment },
      if (t.flags : Nat).testBit 1 ∧ (t.flags : Nat).testBit 2 then
        Diagnostics.warn "tcp.flags".toList "TCP SYN and RST both set".toList 13
      else [])
  | .udp u => u.withDns { md with udp := some u.datagram }
  | .other _ _ _ => (md, [])

/-- The link and network layers of the frame, decoded. -/
def WireFrame.headers (f : WireFrame) (ts : Timestamp) (originalLength : Nat) : PacketMetadata :=
  { timestamp := ts
    originalLength := originalLength
    capturedLength := f.encode.length
    ethernet := some f.ethernet.frame
    ipv4 := some (f.ipv4.packet f.transport.protocol f.transport.encode.length) }

/-- The frame, decoded, and what is reported about it. -/
def WireFrame.decoded (f : WireFrame) (ts : Timestamp)
    (originalLength : Nat) : PacketMetadata × Diagnostics :=
  let transport := f.transport.addTo (f.headers ts originalLength)
  (transport.1,
    (if f.ethernet.tag.isSome then
      Diagnostics.info "ethernet.vlan".toList "VLAN tagged frame".toList 12
    else []) ++
    (ipv4Notes (f.ipv4.packet f.transport.protocol f.transport.encode.length) ++ transport.2))

/-! ## The link layer -/

theorem WireEthernet.headerLength (e : WireEthernet) : e.encode.length = e.frame.headerLength := by
  have hd := e.destination_length
  have hs := e.source_length
  cases htag : e.tag with
  | none => simp [WireEthernet.encode, WireEthernet.typeField, WireEthernet.frame, htag, hd, hs]
  | some t => simp [WireEthernet.encode, WireEthernet.typeField, WireEthernet.frame, htag, hd, hs]

/-- **The link header.** -/
theorem parseEthernet_encode {v : ByteView} (e : WireEthernet) (h : v.Holds 0 e.encode) :
    parseEthernet v = (.ok e.frame,
      if e.tag.isSome then Diagnostics.info "ethernet.vlan".toList "VLAN tagged frame".toList 12
        else []) := by
  have hle := h.le
  rw [e.headerLength] at hle
  have hdestination := h.left.copy
  have hsource := h.right.left.copy
  have htype := h.right.right
  rw [e.destination_length] at hdestination hsource htype
  rw [e.source_length] at hsource htype
  simp only [Nat.zero_add, Nat.reduceAdd] at hsource htype
  unfold parseEthernet
  cases htag : e.tag with
  | none =>
    rw [WireEthernet.typeField, htag] at htype
    have hread := htype.readBe16 (by decide)
    simp only [WireEthernet.frame, htag, Option.isSome_none, Bool.false_eq_true, if_false] at hle ⊢
    rw [if_neg (by omega), hdestination, hsource, hread]
    rfl
  | some t =>
    rw [WireEthernet.typeField, htag] at htype
    have htpid : t.tpid < 2 ^ 16 ∧ (t.tpid = 0x8100 ∨ t.tpid = 0x88a8) := by
      unfold WireTag.tpid
      cases t.ofProvider <;> decide
    have hread := htype.left.readBe16 htpid.1
    have hinner := htype.right.right
    simp only [length_bigEndian, Nat.reduceAdd] at hinner
    have hread' := hinner.readBe16 (by decide)
    simp only [WireEthernet.frame, htag, Option.isSome_some, if_true] at hle ⊢
    rw [if_neg (by omega), hdestination, hsource, hread]
    rw [if_pos htpid.2, if_neg (by omega), hread']

/-! ## The network layer -/

theorem WireOptions.headerWords_lt (o : WireOptions) : o.headerWords < 16 := by
  have := o.fits
  unfold WireOptions.headerWords
  omega

theorem WireOptions.headerWords_mul (o : WireOptions) :
    o.headerWords * 4 = 20 + o.bytes.length := by
  have := o.words
  unfold WireOptions.headerWords
  omega

/-- A byte made of two nibbles. -/
theorem nibbles {high low : Nat} (hhigh : high < 16) (hlow : low < 16) :
    (UInt8.ofNat (high * 16 + low)).toNat >>> 4 = high ∧
    (UInt8.ofNat (high * 16 + low)).toNat &&& 0x0f = low := by
  have hbyte : (UInt8.ofNat (high * 16 + low)).toNat = high * 16 + low := by
    rw [UInt8.toNat_ofNat']
    omega
  have hmask : (high * 16 + low) &&& 0x0f = (high * 16 + low) % 2 ^ 4 :=
    Nat.and_two_pow_sub_one_eq_mod _ 4
  rw [hbyte, hmask, Nat.shiftRight_eq_div_pow]
  omega

theorem WireIpv4.length_encode (h : WireIpv4) (protocol : UInt8) (n : Nat) :
    (h.encode protocol n).length = 20 + h.options.bytes.length := by
  simp only [WireIpv4.encode, List.length_append, length_bigEndian, List.length_singleton]
  omega

/-- The second test of `fragmented` is part of the first. -/
theorem fragmented_eq (x : Nat) :
    (x &&& 0x3fff != 0 || x &&& 0x2000 != 0) = decide (x % 2 ^ 14 ≠ 0) := by
  have hmask : x &&& 0x3fff = x % 2 ^ 14 := Nat.and_two_pow_sub_one_eq_mod x 14
  have hpart : x &&& 0x2000 = x &&& 0x3fff &&& 0x2000 := by
    rw [Nat.and_assoc]
    rfl
  rw [hpart, hmask]
  generalize x % 2 ^ 14 = low
  by_cases hzero : low = 0 <;> simp [hzero]

/-- The fields of a packet, where the view holds its header. -/
theorem readIpv4Header_encode {v : ByteView} (h : WireIpv4) (protocol : UInt8) {n : Nat}
    (hv : v.Holds 0 (h.encode protocol n)) :
    readIpv4Header v (20 + h.options.bytes.length) (20 + h.options.bytes.length + n) =
      h.packet protocol n := by
  have hle := hv.le
  have hall := hv.toVector_sub
  rw [h.length_encode] at hle
  simp only [h.length_encode, Nat.zero_add] at hle hall
  -- the fields, at their offsets
  have hdscpOn := hv.right
  have htotalOn := hdscpOn.right
  have hidOn := htotalOn.right
  have hflagsOn := hidOn.right
  have httlOn := hflagsOn.right
  have hprotocolOn := httlOn.right
  have hchecksumOn := hprotocolOn.right
  have hsourceOn := hchecksumOn.right
  have hdestinationOn := hsourceOn.right
  simp only [length_bigEndian, List.length_singleton, Nat.zero_add, Nat.reduceAdd]
    at hdscpOn htotalOn hidOn hflagsOn
  simp only [length_bigEndian, List.length_singleton, Nat.zero_add, Nat.reduceAdd]
    at httlOn hprotocolOn hchecksumOn
  simp only [length_bigEndian, List.length_singleton, Nat.zero_add, Nat.reduceAdd]
    at hsourceOn hdestinationOn
  obtain ⟨hversion, hihl⟩ := @nibbles 4 _ (by decide) h.options.headerWords_lt
  have hsame : (v.sub 0 (20 + h.options.bytes.length) (by omega)).SameBytes
      (.ofVector (h.encode protocol n)) := by
    rw [ByteView.SameBytes, ByteView.toVector_ofVector]
    exact hall
  unfold readIpv4Header WireIpv4.packet
  simp only [hv.left.data, hversion, hihl, hdscpOn.left.data,
    hidOn.left.readBe16 h.identification.toNat_lt,
    hflagsOn.left.readBe16 h.flagsFragment.toNat_lt, httlOn.left.data, hprotocolOn.left.data,
    hchecksumOn.left.readBe16 h.headerChecksum.toNat_lt,
      hsourceOn.left.readBe32 h.source.value.isLt,
    hdestinationOn.left.readBe32 h.destination.value.isLt,
      @ByteView.slice_eq_ok v 0 (20 + h.options.bytes.length) (by omega),
    internetChecksum_congr hsame, fragmented_eq]
  simp

/-- **The network header**, of a packet that is captured to its end. -/
theorem parseIpv4Packet_encode {v : ByteView} (h : WireIpv4) (protocol : UInt8) {n : Nat}
    (hv : v.Holds 0 (h.encode protocol n)) (hfits : 20 + h.options.bytes.length + n < 2 ^ 16)
    (hcap : 20 + h.options.bytes.length + n ≤ v.size) :
    parseIpv4Packet v = (.ok (h.packet protocol n), ipv4Notes (h.packet protocol n)) := by
  have htotalOn := hv.right.right
  simp only [List.length_singleton, Nat.zero_add, Nat.reduceAdd] at htotalOn
  have htotal : wireTotalLength v = 20 + h.options.bytes.length + n := htotalOn.left.readBe16 hfits
  obtain ⟨hversion, hihl⟩ := @nibbles 4 _ (by decide) h.options.headerWords_lt
  have hlength : wireHeaderLength v = 20 + h.options.bytes.length := by
    rw [wireHeaderLength, hv.left.data, hihl, h.options.headerWords_mul]
  have hwords : 5 ≤ h.options.headerWords := Nat.le_add_right 5 _
  have hheader : Ipv4Header v := by
    constructor
    · omega
    · rw [hv.left.data]
      exact hversion
    · rw [hv.left.data, hihl]
      exact hwords
    · omega
    · omega
  rw [parseIpv4Packet_complete hheader (by omega), hlength, htotal,
    readIpv4Header_encode h protocol hv]

/-! ## The transport layer -/

theorem WireTcp.length_encode (t : WireTcp) :
    t.encode.length = 20 + t.options.bytes.length + t.payload.length := by
  simp only [WireTcp.encode, List.length_append, length_bigEndian, List.length_singleton]
  omega

/-- The flag bits that the two bytes behind the acknowledgment hold. -/
theorem flags_eq (t : WireTcp) :
    (((UInt8.ofNat (t.options.headerWords * 16 + t.reserved * 2 + t.flags / 256)).toNat &&& 0x01)
        <<< 8) |||
      (UInt8.ofNat (t.flags % 256)).toNat = t.flags := by
  have hwords := t.options.headerWords_lt
  have hreserved := t.reserved.isLt
  have hflags := t.flags.isLt
  have hlow : (UInt8.ofNat (t.flags % 256)).toNat = t.flags % 256 := by
    rw [UInt8.toNat_ofNat']
    omega
  rw [or_byte_eq _ (UInt8.toNat_lt _), hlow, UInt8.toNat_ofNat', Nat.and_one_is_mod]
  omega

theorem dataOffset_eq (t : WireTcp) :
    (UInt8.ofNat (t.options.headerWords * 16 + t.reserved * 2 + t.flags / 256)).toNat >>> 4 =
      t.options.headerWords := by
  have hwords := t.options.headerWords_lt
  have hreserved := t.reserved.isLt
  have hflags := t.flags.isLt
  rw [UInt8.toNat_ofNat', Nat.shiftRight_eq_div_pow]
  omega

/-- SYN and RST are bits 1 and 2. -/
theorem and_six_eq (x : Nat) : x &&& 0x006 = 0x006 ↔ x.testBit 1 ∧ x.testBit 2 := by
  have hsix : ∀ i, Nat.testBit 0x006 i = decide (i = 1 ∨ i = 2) := by
    intro i
    match i with
    | 0 | 1 | 2 => rfl
    | i + 3 =>
      have hlt : 0x006 < 2 ^ (i + 3) :=
        Nat.lt_of_lt_of_le (by decide) (Nat.pow_le_pow_right (by decide) (Nat.le_add_left 3 i))
      rw [Nat.testBit_lt_two_pow hlt]
      exact (decide_eq_false (by omega)).symm
  constructor
  · intro h
    have hbit := fun i => congrArg (fun y : Nat => y.testBit i) h
    simp only [Nat.testBit_and, hsix] at hbit
    exact ⟨by simpa using hbit 1, by simpa using hbit 2⟩
  · rintro ⟨h1, h2⟩
    apply Nat.eq_of_testBit_eq
    intro i
    rw [Nat.testBit_and, hsix]
    by_cases hi : i = 1 ∨ i = 2
    · rcases hi with rfl | rfl <;> simp [h1, h2]
    · simp [hi]

/-- **The segment**, where it is all the view shows. -/
theorem parseTcpSegment_encode {v : ByteView} (t : WireTcp) (hv : v.Holds 0 t.encode)
    (hsize : v.size = t.encode.length) :
    parseTcpSegment v = (.ok t.segment,
      if (t.flags : Nat).testBit 1 ∧ (t.flags : Nat).testBit 2 then
        Diagnostics.warn "tcp.flags".toList "TCP SYN and RST both set".toList 13
      else []) := by
  rw [t.length_encode] at hsize
  have hdestinationOn := hv.right
  have hsequenceOn := hdestinationOn.right
  have hacknowledgmentOn := hsequenceOn.right
  have hoffsetOn := hacknowledgmentOn.right
  have hflagsOn := hoffsetOn.right
  have hwindowOn := hflagsOn.right
  have hchecksumOn := hwindowOn.right
  have hurgentOn := hchecksumOn.right
  have hoptionsOn := hurgentOn.right
  simp only [length_bigEndian, Nat.zero_add, Nat.reduceAdd] at hdestinationOn hsequenceOn
  simp only [length_bigEndian, Nat.zero_add, Nat.reduceAdd] at hacknowledgmentOn hoffsetOn
  simp only [length_bigEndian, List.length_singleton, Nat.zero_add, Nat.reduceAdd]
    at hflagsOn hwindowOn
  simp only [length_bigEndian, List.length_singleton, Nat.zero_add, Nat.reduceAdd]
    at hchecksumOn hurgentOn hoptionsOn
  have hwords : 5 ≤ t.options.headerWords := Nat.le_add_right 5 _
  have hmul := t.options.headerWords_mul
  have hoptions : (if 20 < t.options.headerWords * 4 then v.copy 20 (t.options.headerWords * 4 - 20)
      else []) =
      t.options.bytes := by
    rw [hmul, Nat.add_sub_cancel_left, hoptionsOn.left.copy]
    split
    · rfl
    · exact (List.eq_nil_of_length_eq_zero (by omega)).symm
  unfold parseTcpSegment
  rw [if_neg (by omega), hoffsetOn.left.data, hflagsOn.left.data, dataOffset_eq, flags_eq]
  simp only [hoptions]
  rw [if_neg (by omega)]
  simp only [and_six_eq, hv.left.readBe16 t.sourcePort.toNat_lt,
    hdestinationOn.left.readBe16 t.destinationPort.toNat_lt,
      hsequenceOn.left.readBe32 t.sequence.toNat_lt,
    hacknowledgmentOn.left.readBe32 t.acknowledgment.toNat_lt,
      hwindowOn.left.readBe16 t.window.toNat_lt,
    hchecksumOn.left.readBe16 t.checksum.toNat_lt, hurgentOn.left.readBe16 t.urgent.toNat_lt,
      hmul, hsize,
    Nat.add_sub_cancel_left]
  rfl

theorem WireUdp.length_encode (u : WireUdp) :
    u.encode.length = 8 + u.payload.length + u.trailing.length := by
  simp only [WireUdp.encode, List.length_append, length_bigEndian]
  omega

/-- **The datagram**, and where its payload lies. -/
theorem parseUdpDatagram_encode {v : ByteView} (u : WireUdp) (hv : v.Holds 0 u.encode)
    (hfits : u.encode.length < 2 ^ 16) :
    parseUdpDatagram v = (.ok u.datagram, []) ∧ v.Holds 8 u.payload := by
  have hle := hv.le
  rw [u.length_encode] at hle hfits
  have hdestinationOn := hv.right
  have hlengthOn := hdestinationOn.right
  have hchecksumOn := hlengthOn.right
  have hpayloadOn := hchecksumOn.right
  simp only [length_bigEndian, Nat.zero_add, Nat.reduceAdd]
    at hdestinationOn hlengthOn hchecksumOn hpayloadOn
  have hlength := hlengthOn.left.readBe16 (show 8 + u.payload.length < 2 ^ 16 by omega)
  have hclipped : ¬ v.size < 8 + u.payload.length := by omega
  refine ⟨?_, hpayloadOn.left⟩
  unfold parseUdpDatagram
  rw [if_neg (by omega), hlength]
  simp only [hclipped, decide_false, Bool.false_eq_true, if_false,
    hv.left.readBe16 u.sourcePort.toNat_lt, hdestinationOn.left.readBe16 u.destinationPort.toNat_lt,
      hchecksumOn.left.readBe16 u.checksum.toNat_lt,
    Nat.add_sub_cancel_left]
  rw [if_neg (by omega)]
  rfl

/-- **The transport layer**, one case for each protocol. -/
theorem decodeTransport_encode {v : ByteView} (t : WireTransport) (md : PacketMetadata)
    (hv : v.Holds 0 t.encode)
    (hsize : v.size = t.encode.length) (hfits : t.encode.length < 2 ^ 16) :
    decodeTransport md t.protocol.toNat v = t.addTo md := by
  cases t with
  | tcp t =>
    change decodeTransport md 6 v = _
    rw [decodeTransport, if_pos rfl, parseTcpSegment_encode t hv hsize]
    rfl
  | udp u =>
    obtain ⟨hparse, hpayload⟩ := parseUdpDatagram_encode u hv hfits
    have hsame : (v.sub 8 u.payload.length hpayload.le).SameBytes (.ofVector u.payload) := by
      rw [ByteView.SameBytes, ByteView.toVector_ofVector, hpayload.toVector_sub]
    have hports : (u.datagram.sourcePort = 53 ∨ u.datagram.destinationPort = 53) ↔
        u.sourcePort = 53 ∨ u.destinationPort = 53 :=
      or_congr (UInt16.toNat_inj (b := 53)) (UInt16.toNat_inj (b := 53))
    change decodeTransport md 17 v = _
    unfold decodeTransport
    rw [if_neg (by decide), if_pos rfl, hparse]
    simp only [hports, WireTransport.addTo, WireUdp.withDns]
    by_cases hdns : u.sourcePort = 53 ∨ u.destinationPort = 53
    · rw [if_pos hdns, if_pos hdns, show u.datagram.payloadLength = u.payload.length by rfl,
        ByteView.slice_eq_ok hpayload.le]
      simp only [parseDnsMessage_congr hsame]
      rcases parseDnsMessage (.ofVector u.payload) with ⟨_ | dns, diag⟩ <;> rfl
    · rw [if_neg hdns, if_neg hdns]
  | other protocol bytes hother =>
    have h6 : protocol.toNat ≠ 6 := fun heq => hother.1 (UInt8.toNat_inj.mp heq)
    have h17 : protocol.toNat ≠ 17 := fun heq => hother.2 (UInt8.toNat_inj.mp heq)
    change decodeTransport md protocol.toNat v = _
    unfold decodeTransport
    rw [if_neg h6, if_neg h17]
    rfl

/-! ## The frame -/

/-- **A packet**, where the view holds its image. -/
theorem decodeIp_encode {v : ByteView} (f : WireFrame) (md : PacketMetadata)
    (hv : v.Holds 0 f.packetBytes) :
    decodeIp md v =
      let packet := f.ipv4.packet f.transport.protocol f.transport.encode.length
      let transport := f.transport.addTo { md with ipv4 := some packet }
      (transport.1, ipv4Notes packet ++ transport.2) := by
  have hle := hv.le
  have hfits := f.fits
  have htransport := hv.right
  rw [WireFrame.packetBytes, List.length_append, f.ipv4.length_encode] at hle
  rw [f.ipv4.length_encode, Nat.zero_add] at htransport
  have hin := htransport.le
  have hpart : (v.sub (20 + f.ipv4.options.bytes.length) f.transport.encode.length hin).Holds 0
      f.transport.encode := by
    refine ⟨[], [], ?_, rfl⟩
    rw [htransport.toVector_sub, List.nil_append, List.append_nil]
  unfold decodeIp
  rw [parseIpv4Packet_encode f.ipv4 f.transport.protocol hv.left hfits (by omega)]
  simp only [WireIpv4.packet, ByteView.slice_eq_ok hin]
  rw [decodeTransport_encode f.transport _ hpart (ByteView.size_sub ..) (by omega)]

/-- **`decode_packet_payload` recovers every frame**: the fields of each layer, and what there is to
report about them. -/
theorem decodePacketPayload_encode (f : WireFrame) (ts : Timestamp) (originalLength : Nat) :
    decodePacketPayload ts (.ofVector f.encode) originalLength 1 = f.decoded ts originalLength := by
  have hframe : (ByteView.ofVector f.encode).Holds 0 f.encode := by
    have h := ByteView.holds_ofVector f.encode []
    rwa [List.append_nil] at h
  have hpacket := hframe.right
  rw [f.ethernet.headerLength, Nat.zero_add] at hpacket
  have hsize : (ByteView.ofVector f.encode).size = f.ethernet.frame.headerLength +
      (f.packetBytes ++ f.padding).length := by
    rw [ByteView.size_ofVector, WireFrame.encode, List.length_append, f.ethernet.headerLength]
  have hle : f.ethernet.frame.headerLength +
      ((ByteView.ofVector f.encode).size - f.ethernet.frame.headerLength) ≤
      (ByteView.ofVector f.encode).size := by omega
  have hrest : ((ByteView.ofVector f.encode).sub f.ethernet.frame.headerLength
      ((ByteView.ofVector f.encode).size - f.ethernet.frame.headerLength) hle).Holds 0
        f.packetBytes := by
    refine ⟨[], f.padding, ?_, rfl⟩
    rw [ByteView.toVector_sub, List.nil_append, hsize, Nat.add_sub_cancel_left, hpacket.drop_take]
  rw [decodePacketPayload_eq ts originalLength (parseEthernet_encode f.ethernet hframe.left)
    rfl hle, decodeIp_encode f _ hrest]
  rfl

end PacketGuard.Packet
