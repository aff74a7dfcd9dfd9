import PacketGuard.Core.Hex
import PacketGuard.Core.Report
import PacketGuard.Lib.Outcome
import PacketGuard.Lib.Tally
import PacketGuard.Packet.CaptureFrames

/-! # The report of a capture

`summarize_pcap` writes one line about the capture, one for each protocol that
occurs, one for each packet and one for each diagnostic.  Names and messages in
it come from the packets, but no packet can add a line, end one or hide one.
-/
namespace PacketGuard.Packet
open PacketGuard.Core PacketGuard.Lib

/-! ## Names -/

def ipProtocolName (protocol : Nat) : Str :=
  if protocol = 1 then "icmp".toList
  else if protocol = 6 then "tcp".toList
  else if protocol = 17 then "udp".toList
  else if protocol = 47 then "gre".toList
  else if protocol = 50 then "esp".toList
  else if protocol = 51 then "ah".toList
  else natToString protocol

/-- The bytes of a `std::uint16_t` in memory, on a host with the low byte first or last. -/
def hostBytes (lowFirst : Bool) (n : Nat) : List UInt8 :=
  if lowFirst then [UInt8.ofNat n, UInt8.ofNat (n >>> 8)]
    else [UInt8.ofNat (n >>> 8), UInt8.ofNat n]

/-- `std::setw(2)` and `std::setfill('0')` before a hexadecimal number. -/
def MacAddress.toString (mac : MacAddress) : Str :=
  [':'].intercalate (mac.bytes.map fun b => (Nat.toDigits 16 b.toNat).leftpad 2 '0')

/-- A hardware address is read back from its text. -/
theorem hexToBytes_macToString (mac : MacAddress) : hexToBytes mac.toString = mac.bytes := by
  have hpair : ∀ n < 256, (Nat.toDigits 16 n).leftpad 2 '0' = bytesToHex [UInt8.ofNat n] := by
    decide +kernel
  have hpairs : (mac.bytes.map fun b => (Nat.toDigits 16 b.toNat).leftpad 2 '0') =
      mac.bytes.map fun b => bytesToHex [b] := by
    refine List.map_congr_left fun b _ => ?_
    rw [hpair b.toNat b.toNat_lt, UInt8.ofNat_toNat]
  rw [MacAddress.toString, hpairs]
  exact hexToBytes_intercalate rfl mac.bytes

/-- Other types are shown by their bytes, in the order of the host. -/
def etherTypeName (lowFirst : Bool) (etherType : Nat) : Str :=
  if etherType = 0x0800 then "IPv4".toList
  else if etherType = 0x0806 then "ARP".toList
  else if etherType = 0x86dd then "IPv6".toList
  else if etherType = 0x8100 then "802.1Q".toList
  else "0x".toList ++ bytesToHex (hostBytes lowFirst etherType)

def dnsTypeName (type : Nat) : Str :=
  if type = 1 then "A".toList
  else if type = 2 then "NS".toList
  else if type = 5 then "CNAME".toList
  else if type = 6 then "SOA".toList
  else if type = 12 then "PTR".toList
  else if type = 15 then "MX".toList
  else if type = 16 then "TXT".toList
  else if type = 28 then "AAAA".toList
  else if type = 33 then "SRV".toList
  else if type = 65 then "HTTPS".toList
  else natToString type

/-! ## Packets -/

/-- The ports that a flow key shows. -/
def PacketMetadata.flowPorts (md : PacketMetadata) : Nat × Nat :=
  match md.tcp, md.udp with
  | some tcp, _ => (tcp.sourcePort, tcp.destinationPort)
  | none, some udp => (udp.sourcePort, udp.destinationPort)
  | none, none => (0, 0)

/-- The protocol that a flow key shows. -/
def PacketMetadata.flowProtocol (md : PacketMetadata) (ip : IPv4Packet) : Str :=
  match md.tcp, md.udp with
  | some _, _ => "tcp".toList
  | none, some _ => "udp".toList
  | none, none => ipProtocolName ip.protocol

def PacketMetadata.flowKey (md : PacketMetadata) : Str :=
  match md.ipv4 with
  | none => []
  | some ip =>
    ipv4ToString ip.source ++ ':' ::
      (natToString md.flowPorts.1 ++ " -> ".toList ++ ipv4ToString ip.destination ++
      ':' :: (natToString md.flowPorts.2 ++ '/' :: md.flowProtocol ip))

def DnsQuestion.text (q : DnsQuestion) : Str := q.name ++ ':' :: dnsTypeName q.type

def summarizePacket (md : PacketMetadata) : Str :=
  md.timestamp.toString ++ " len=".toList ++ natToString md.capturedLength ++
    (if md.ipv4.isSome then ' ' :: md.flowKey else []) ++
    (match md.dns with
      | some dns => " dns=".toList ++ [','].intercalate (dns.questions.map DnsQuestion.text)
      | none => []) ++
    if md.notes.isEmpty then [] else " notes=".toList ++ [';'].intercalate md.notes

/-! ## Captures -/

/-- What a packet is counted as. -/
def PacketMetadata.kind (lowFirst : Bool) (md : PacketMetadata) : Str :=
  if md.dns.isSome then "dns".toList
  else if md.tcp.isSome then "tcp".toList
  else if md.udp.isSome then "udp".toList
  else
    match md.ipv4, md.ethernet with
    | some ip, _ => ipProtocolName ip.protocol
    | none, some eth => etherTypeName lowFirst eth.etherType
    | none, none => "undecoded".toList

def protocolHistogram (lowFirst : Bool) (pcap : PcapFile) : StrMap Nat :=
  countAll (pcap.packets.map fun p => p.metadata.kind lowFirst)

def captureLine (pcap : PcapFile) : Str :=
  "packets=".toList ++ natToString pcap.packets.length ++ " linktype=".toList ++
    natToString pcap.linkType ++
    " snaplen=".toList ++ natToString pcap.snaplen

def histogramLine (kv : Str × Nat) : Str := kv.1 ++ '=' :: natToString kv.2

def packetLine (i : Nat) (p : PcapPacket) : Str :=
  natToString i ++ ' ' :: summarizePacket p.metadata

/-- The text of `summarize_pcap`. -/
def summarizePcap (lowFirst : Bool) (pcap : PcapFile) : Str :=
  captureLine pcap ++ ['\n'] ++
    textOf ((protocolHistogram lowFirst pcap).toList.map histogramLine) ++
    textOf (pcap.packets.zipIdx.map fun p => packetLine p.2 p.1) ++
    if pcap.diagnostics.isEmpty then [] else pcap.diagnostics.summary

/-! ## Quiet texts -/

/-- Neither the error of a decoder nor what it says breaks a line. -/
def Quiet {α : Type} (r : Result α × Diagnostics) : Prop := QuietFailure r.1 ∧ QuietNotes r.2

theorem quiet_parseEthernet (v : ByteView) : Quiet (parseEthernet v) := by
  simp only [parseEthernet]
  split
  · exact ⟨quietFailure (by decide), quietNotes_nil⟩
  split
  · split
    · exact ⟨quietFailure (by decide), quietNotes_nil⟩
    · exact ⟨trivial, quietNotes_said (by decide) (by decide)⟩
  · exact ⟨trivial, quietNotes_nil⟩

theorem quietNotes_ipv4Notes (ip : IPv4Packet) : QuietNotes (ipv4Notes ip) :=
  (quietNotes_ite (quietNotes_said (by decide) (by decide)) quietNotes_nil).append
    (quietNotes_ite (quietNotes_said (by decide) (by decide)) quietNotes_nil)

theorem quiet_parseIpv4Packet (v : ByteView) : Quiet (parseIpv4Packet v) := by
  have hnote : QuietNotes (Diagnostics.warn "ipv4.length".toList
      "IPv4 total length differs from captured bytes".toList 2) :=
    quietNotes_said (by decide) (by decide)
  simp only [parseIpv4Packet]
  split
  · exact ⟨quietFailure (by decide), quietNotes_nil⟩
  split
  · exact ⟨quietFailure (by decide), quietNotes_nil⟩
  split
  · exact ⟨quietFailure (by decide), quietNotes_nil⟩
  split
  · exact ⟨quietFailure (by decide), quietNotes_ite hnote quietNotes_nil⟩
  · exact ⟨trivial, (quietNotes_ite hnote quietNotes_nil).append (quietNotes_ipv4Notes _)⟩

theorem quiet_parseTcpSegment (v : ByteView) : Quiet (parseTcpSegment v) := by
  simp only [parseTcpSegment]
  split
  · exact ⟨quietFailure (by decide), quietNotes_nil⟩
  split
  · exact ⟨quietFailure (by decide), quietNotes_nil⟩
  · exact ⟨trivial, quietNotes_ite (quietNotes_said (by decide) (by decide)) quietNotes_nil⟩

theorem quiet_parseUdpDatagram (v : ByteView) : Quiet (parseUdpDatagram v) := by
  simp only [parseUdpDatagram]
  split
  · exact ⟨quietFailure (by decide), quietNotes_nil⟩
  split
  · exact ⟨quietFailure (by decide), quietNotes_nil⟩
  · exact ⟨trivial, quietNotes_ite (quietNotes_said (by decide) (by decide)) quietNotes_nil⟩

/-! ### DNS messages -/

theorem quiet_readDnsName (bytes : ByteView) (offset depth : Nat) :
    QuietFailure (readDnsName bytes offset depth) := by
  have hfrom : ∀ depth name offset, QuietFailure (readDnsNameFrom bytes depth name offset) := by
    intro depth name offset
    fun_induction readDnsNameFrom bytes depth name offset with
    | case2 => trivial
    | case5 depth name offset _ _ _ _ _ _ _ _ hfail ih => exact ih.of_eq_error hfail
    | case6 => trivial
    | case10 depth name offset _ _ _ _ _ _ _ _ ih => exact ih
    | _ => exact quietFailure (by decide)
  unfold readDnsName
  split
  · exact quietFailure (by decide)
  · exact hfrom _ _ _

theorem quiet_readQuestion (bytes : ByteView) (offset : Nat) :
    QuietFailure (readQuestion bytes offset) := by
  have hname := quiet_readDnsName bytes offset 0
  unfold readQuestion
  split
  · rename_i e hfail
    exact hname.of_eq_error hfail
  · split
    · exact quietFailure (by decide)
    · trivial

theorem quiet_readRecord (bytes : ByteView) (offset : Nat) :
    QuietFailure (readRecord bytes offset) := by
  have hname := quiet_readDnsName bytes offset 0
  unfold readRecord
  split
  · rename_i e hfail
    exact hname.of_eq_error hfail
  · split
    · exact quietFailure (by decide)
    · simp only
      split
      · exact quietFailure (by decide)
      · trivial

theorem quiet_readMany {α : Type} {read : Nat → Result (α × Nat)}
    (h : ∀ offset, QuietFailure (read offset))
    (count offset : Nat) : QuietFailure (readMany read count offset) := by
  induction count generalizing offset with
  | zero => trivial
  | succ count ih =>
    unfold readMany
    split
    · rename_i e hfail
      exact (h offset).of_eq_error hfail
    · rename_i x offset' _
      split
      · rename_i e hfail
        exact (ih offset').of_eq_error hfail
      · trivial

theorem quiet_parseDnsMessage (v : ByteView) : Quiet (parseDnsMessage v) := by
  have hmany := fun count offset => quiet_readMany (quiet_readQuestion v) count offset
  have hrecords := fun count offset => quiet_readMany (quiet_readRecord v) count offset
  have hsections : QuietFailure (readSections v) := by
    refine (hmany _ _).bind fun _ _ => ?_
    refine (hrecords _ _).bind fun _ _ => ?_
    refine (hrecords _ _).bind fun _ _ => ?_
    exact (hrecords _ _).bind fun _ _ => trivial
  unfold parseDnsMessage
  split
  · exact ⟨quietFailure (by decide), quietNotes_nil⟩
  split
  · rename_i e hfail
    exact ⟨hsections.of_eq_error hfail, quietNotes_nil⟩
  · exact ⟨trivial, quietNotes_ite (quietNotes_said (by decide) (by decide)) quietNotes_nil⟩

/-! ### Packets -/

/-- The notes of a packet fit into lines, and so does what is said about it. -/
def QuietOut (out : PacketMetadata × Diagnostics) : Prop :=
  (∀ n ∈ out.1.notes, OneLine n) ∧ QuietNotes out.2

theorem quiet_note {notes : List Str} (h : ∀ n ∈ notes, OneLine n) {note : Str}
    (hnote : OneLine note) :
    ∀ n ∈ notes ++ [note], OneLine n := by
  intro n hn
  rcases List.mem_append.mp hn with hn | hn
  · exact h n hn
  · rw [List.mem_singleton.mp hn]
    exact hnote

theorem quietOut_decodeTransport (md : PacketMetadata) (h : ∀ n ∈ md.notes, OneLine n)
    (protocol : Nat)
    (v : ByteView) : QuietOut (decodeTransport md protocol v) := by
  obtain ⟨htcp, htcpNotes⟩ := quiet_parseTcpSegment v
  obtain ⟨hudp, hudpNotes⟩ := quiet_parseUdpDatagram v
  unfold decodeTransport
  by_cases h6 : protocol = 6
  · rw [if_pos h6]
    rcases hparse : parseTcpSegment v with ⟨e | tcp, diag⟩ <;> rw [hparse] at htcp htcpNotes
    · exact ⟨quiet_note h htcp, htcpNotes⟩
    · exact ⟨h, htcpNotes⟩
  rw [if_neg h6]
  by_cases h17 : protocol = 17
  · rw [if_pos h17]
    rcases hparse : parseUdpDatagram v with ⟨e | udp, diag⟩ <;> rw [hparse] at hudp hudpNotes
    · exact ⟨quiet_note h hudp, hudpNotes⟩
    · by_cases h53 : udp.sourcePort = 53 ∨ udp.destinationPort = 53
      · simp only [if_pos h53]
        rcases v.slice 8 udp.payloadLength with _ | dnsPayload
        · exact ⟨h, hudpNotes⟩
        · obtain ⟨hdns, hdnsNotes⟩ := quiet_parseDnsMessage dnsPayload
          rcases hmsg : parseDnsMessage dnsPayload with ⟨e | dns, diag'⟩ <;>
            rw [hmsg] at hdns hdnsNotes
          · simp only [hmsg]
            exact ⟨quiet_note h hdns, hudpNotes.append hdnsNotes⟩
          · simp only [hmsg]
            exact ⟨h, hudpNotes.append hdnsNotes⟩
      · simp only [if_neg h53]
        exact ⟨h, hudpNotes⟩
  · rw [if_neg h17]
    exact ⟨h, quietNotes_nil⟩

theorem quietOut_decodeIp (md : PacketMetadata) (h : ∀ n ∈ md.notes, OneLine n) (v : ByteView) :
    QuietOut (decodeIp md v) := by
  obtain ⟨hip, hipNotes⟩ := quiet_parseIpv4Packet v
  unfold decodeIp
  rcases hparse : parseIpv4Packet v with ⟨e | ip, diag⟩ <;> rw [hparse] at hip hipNotes
  · exact ⟨quiet_note h hip, hipNotes⟩
  · simp only
    rcases v.slice ip.headerLength ip.payloadLength with _ | transport
    · exact ⟨h, hipNotes⟩
    · obtain ⟨hnotes, hdiag⟩ :=
        quietOut_decodeTransport { md with ipv4 := some ip } h ip.protocol transport
      exact ⟨hnotes, hipNotes.append hdiag⟩

theorem quietOut_decodePacketPayload (ts : Timestamp) (v : ByteView)
    (originalLength linkType : Nat) :
    QuietOut (decodePacketPayload ts v originalLength linkType) := by
  obtain ⟨heth, hethNotes⟩ := quiet_parseEthernet v
  have hnone : ∀ n ∈ ([] : List Str), OneLine n := fun n hn => absurd hn List.not_mem_nil
  unfold decodePacketPayload
  by_cases hlink : linkType ≠ 1
  · rw [if_pos hlink]
    refine ⟨?_, quietNotes_nil⟩
    exact quiet_note hnone (OneLine.append (by decide) (OneLine.natToString _))
  rw [if_neg hlink]
  rcases hparse : parseEthernet v with ⟨e | eth, diag⟩ <;> rw [hparse] at heth hethNotes
  · exact ⟨quiet_note hnone heth, hethNotes⟩
  · by_cases htype : eth.etherType ≠ 0x0800
    · simp only [if_pos htype]
      exact ⟨hnone, hethNotes⟩
    · simp only [if_neg htype]
      rcases v.slice eth.headerLength (v.size - eth.headerLength) with _ | ipBytes
      · exact ⟨hnone, hethNotes⟩
      · obtain ⟨hnotes, hdiag⟩ := quietOut_decodeIp
          { timestamp := ts, originalLength, capturedLength := v.size, ethernet := some eth }
            hnone ipBytes
        exact ⟨hnotes, hethNotes.append hdiag⟩

/-! ### Flows -/

/-- A flow key shows the protocol of the IP header. -/
def PacketMetadata.ShowsProtocol (md : PacketMetadata) : Prop :=
  ∀ ip, md.ipv4 = some ip → md.flowProtocol ip = ipProtocolName ip.protocol

theorem showsProtocol_of_none {md : PacketMetadata} (htcp : md.tcp = none) (hudp : md.udp = none) :
    md.ShowsProtocol := by
  intro ip _
  rw [PacketMetadata.flowProtocol, htcp, hudp]

theorem showsProtocol_decodeTransport (md : PacketMetadata) {ip : IPv4Packet} (htcp : md.tcp = none)
    (hudp : md.udp = none) (hip : md.ipv4 = some ip) (v : ByteView) :
    (decodeTransport md ip.protocol v).1.ShowsProtocol := by
  have hplain := showsProtocol_of_none htcp hudp
  have hudp' : ∀ udp : UdpDatagram, ∀ dns : Option DnsMessage, ∀ notes : List Str,
      ip.protocol = 17 →
      ({ md with udp := some udp, dns := dns, notes := notes } : PacketMetadata).ShowsProtocol := by
    intro udp dns notes h17 ip' hip'
    cases hip.symm.trans hip'
    simp only [PacketMetadata.flowProtocol, htcp, h17]
    rfl
  unfold decodeTransport
  by_cases h6 : ip.protocol = 6
  · rw [if_pos h6]
    rcases parseTcpSegment v with ⟨e | tcp, diag⟩
    · exact hplain
    · intro ip' hip'
      cases hip.symm.trans hip'
      simp only [PacketMetadata.flowProtocol, h6]
      rfl
  rw [if_neg h6]
  by_cases h17 : ip.protocol = 17
  · rw [if_pos h17]
    rcases parseUdpDatagram v with ⟨e | udp, diag⟩
    · exact hplain
    · by_cases h53 : udp.sourcePort = 53 ∨ udp.destinationPort = 53
      · simp only [if_pos h53]
        rcases v.slice 8 udp.payloadLength with _ | dnsPayload
        · exact hudp' udp md.dns md.notes h17
        · rcases hmsg : parseDnsMessage dnsPayload with ⟨e | dns, diag'⟩
          · simp only [hmsg]
            exact hudp' udp md.dns _ h17
          · simp only [hmsg]
            exact hudp' udp (some dns) md.notes h17
      · simp only [if_neg h53]
        exact hudp' udp md.dns md.notes h17
  · rw [if_neg h17]
    exact hplain

theorem showsProtocol_decodePacketPayload (ts : Timestamp) (v : ByteView)
    (originalLength linkType : Nat) :
    (decodePacketPayload ts v originalLength linkType).1.ShowsProtocol := by
  have hip : ∀ (md : PacketMetadata) (v : ByteView), md.tcp = none → md.udp = none →
      (decodeIp md v).1.ShowsProtocol := by
    intro md v htcp hudp
    unfold decodeIp
    rcases parseIpv4Packet v with ⟨e | ip, diag⟩
    · exact showsProtocol_of_none htcp hudp
    · simp only
      rcases v.slice ip.headerLength ip.payloadLength with _ | transport
      · exact showsProtocol_of_none htcp hudp
      · exact showsProtocol_decodeTransport { md with ipv4 := some ip } htcp hudp rfl transport
  unfold decodePacketPayload
  by_cases hlink : linkType ≠ 1
  · rw [if_pos hlink]
    exact showsProtocol_of_none rfl rfl
  rw [if_neg hlink]
  rcases parseEthernet v with ⟨e | eth, diag⟩
  · exact showsProtocol_of_none rfl rfl
  · by_cases htype : eth.etherType ≠ 0x0800
    · simp only [if_pos htype]
      exact showsProtocol_of_none rfl rfl
    · simp only [if_neg htype]
      rcases v.slice eth.headerLength (v.size - eth.headerLength) with _ | ipBytes
      · exact showsProtocol_of_none rfl rfl
      · exact hip _ _ rfl rfl

/-! ## Captures -/

/-- What every packet of a capture is known to be. -/
structure PcapPacket.Printable (p : PcapPacket) : Prop where
  notes : ∀ n ∈ p.metadata.notes, OneLine n
  protocol : p.metadata.ShowsProtocol
  length : p.metadata.capturedLength = p.payload.length
  timestamp : p.metadata.timestamp.Printable

theorem rd32_lt (v : ByteView) (le : Bool) (offset : Nat) : rd32 v le offset < 2 ^ 32 := by
  have hbyte : ∀ (b : UInt8), b.toNat < 2 ^ 32 ∧ b.toNat <<< 8 < 2 ^ 32 ∧ b.toNat <<< 16 < 2 ^ 32 ∧
      b.toNat <<< 24 < 2 ^ 32 := by
    intro b
    have hb := b.toNat_lt
    simp only [Nat.shiftLeft_eq]
    omega
  unfold rd32
  split
  · exact Nat.or_lt_two_pow
      (Nat.or_lt_two_pow (Nat.or_lt_two_pow (hbyte _).1 (hbyte _).2.1) (hbyte _).2.2.1)
      (hbyte _).2.2.2
  · exact Nat.or_lt_two_pow (Nat.or_lt_two_pow (Nat.or_lt_two_pow (hbyte _).2.2.2 (hbyte _).2.2.1)
      (hbyte _).2.1)
      (hbyte _).1

theorem printable_normalizeTimestamp {sec frac : Nat} (hsec : sec < 2 ^ 32)
    (hfrac : frac < 2 ^ 32 * 1000) :
    (normalizeTimestamp sec frac).Printable := by
  rw [normalizeTimestamp_of_nonneg _ (Int.natCast_nonneg frac)]
  constructor <;> simp only [lastSecond] <;> omega

theorem printable_decodeRecord (v : ByteView) (le ns : Bool) (linkType offset : Nat)
    (pktBytes : ByteView) :
    (decodeRecord v le ns linkType offset pktBytes).1.Printable := by
  have hsec := rd32_lt v le offset
  have hfrac := rd32_lt v le (offset + 4)
  have hstamp : (normalizeTimestamp (rd32 v le offset)
      (if ns then (rd32 v le (offset + 4) : Int) else rd32 v le (offset + 4) *
        1000)).Printable := by
    cases ns with
    | true => exact printable_normalizeTimestamp hsec (by omega)
    | false =>
      have hmicro : rd32 v le (offset + 4) * 1000 < 2 ^ 32 * 1000 := by omega
      exact_mod_cast printable_normalizeTimestamp hsec hmicro
  have hfixed := decodePacketPayload_fixed (normalizeTimestamp (rd32 v le offset)
    (if ns then (rd32 v le (offset + 4) : Int) else rd32 v le (offset + 4) * 1000)) pktBytes
    (rd32 v le (offset + 12)) linkType
  constructor
  · exact (quietOut_decodePacketPayload _ _ _ _).1
  · exact showsProtocol_decodePacketPayload _ _ _ _
  · rw [payload_decodeRecord, ByteView.length_toVector]
    exact hfixed.2.2
  · show (decodePacketPayload _ _ _ _).1.timestamp.Printable
    rw [hfixed.1]
    exact hstamp

/-- **Run lemma** for the record loop. -/
theorem printable_parseRecords (v : ByteView) (le ns : Bool) (linkType offset : Nat) :
    (∀ p ∈ (parseRecords v le ns linkType offset).1, p.Printable) ∧
      QuietNotes (parseRecords v le ns linkType offset).2 := by
  have hnone : ∀ p ∈ ([] : List PcapPacket), p.Printable := fun _ hp => absurd hp List.not_mem_nil
  refine parseRecords_induction (P := fun _ out => (∀ p ∈ out.1, p.Printable) ∧ QuietNotes out.2) ?_
    ?_ ?_ ?_ offset
  · exact fun _ _ => ⟨hnone, quietNotes_nil⟩
  · exact fun _ _ _ => ⟨hnone, quietNotes_said (by decide) (by decide)⟩
  · exact fun _ _ _ => ⟨hnone, quietNotes_said (by decide) (by decide)⟩
  · intro offset pkt rest hfits hpkt hrest
    rw [hpkt]
    refine ⟨List.forall_mem_cons.mpr ⟨printable_decodeRecord _ _ _ _ _ _, hrest.1⟩, ?_⟩
    exact (quietOut_decodePacketPayload _ _ _ _).2.append hrest.2

theorem printable_parsePcap {v : ByteView} {pcap : PcapFile} (h : parsePcap v = .ok pcap) :
    (∀ p ∈ pcap.packets, p.Printable) ∧ QuietNotes pcap.diagnostics := by
  unfold parsePcap at h
  split at h
  · cases h
  split at h
  · cases h
  · rename_i le ns _
    cases h
    obtain ⟨hpackets, hdiag⟩ := printable_parseRecords v le ns (rd32 v le 20) 24
    exact ⟨hpackets, (quietNotes_ite (quietNotes_said (by decide) (by decide))
      quietNotes_nil).append hdiag⟩

/-! ## Lines -/

theorem oneLine_ipProtocolName (protocol : Nat) : OneLine (ipProtocolName protocol) := by
  unfold ipProtocolName
  split_ifs
  iterate 6 decide
  exact OneLine.natToString _

theorem oneLine_etherTypeName (lowFirst : Bool) (etherType : Nat) :
    OneLine (etherTypeName lowFirst etherType) := by
  unfold etherTypeName
  split_ifs
  iterate 4 decide
  exact OneLine.append (by decide) (OneLine.bytesToHex _)

theorem oneLine_dnsTypeName (type : Nat) : OneLine (dnsTypeName type) := by
  unfold dnsTypeName
  split_ifs
  iterate 10 decide
  exact OneLine.natToString _

theorem oneLine_kind (lowFirst : Bool) (md : PacketMetadata) : OneLine (md.kind lowFirst) := by
  unfold PacketMetadata.kind
  split_ifs
  iterate 3 decide
  split
  · exact oneLine_ipProtocolName _
  · exact oneLine_etherTypeName _ _
  · decide

theorem oneLine_flowKey (md : PacketMetadata) : OneLine md.flowKey := by
  have hip : ∀ ip, OneLine (ipv4ToString ip) := fun ip =>
    OneLine.of_noSpace (noSpace_ipv4ToString ip)
  have hprotocol : ∀ ip, OneLine (md.flowProtocol ip) := by
    intro ip
    unfold PacketMetadata.flowProtocol
    split
    · decide
    · decide
    · exact oneLine_ipProtocolName _
  unfold PacketMetadata.flowKey
  split
  · exact OneLine.nil
  · refine (hip _).append
      (.cons (by decide) (((OneLine.natToString _).append (by decide)).append (hip _) |>.append ?_))
    exact .cons (by decide) ((OneLine.natToString _).append (.cons (by decide) (hprotocol _)))

theorem oneLine_packetLine {p : PcapPacket} (h : p.Printable) (hplain : p.metadata.ShowsPlain)
    (i : Nat) :
    OneLine (packetLine i p) := by
  have hflow : OneLine (if p.metadata.ipv4.isSome then ' ' :: p.metadata.flowKey else []) := by
    split
    · exact .cons (by decide) (oneLine_flowKey _)
    · exact .nil
  have hdns : OneLine (match p.metadata.dns with
      | some dns => " dns=".toList ++ [','].intercalate (dns.questions.map DnsQuestion.text)
      | none => []) := by
    split
    · rename_i dns hmsg
      refine OneLine.append (by decide) (.intercalate (by decide) fun text htext => ?_)
      obtain ⟨q, hq, rfl⟩ := List.mem_map.mp htext
      -- the name of a question is one of the names that the packet shows
      have hname : PlainName q.name :=
        hplain q.name (PacketMetadata.mem_domainNames_iff.mpr ⟨dns, hmsg, Or.inl ⟨q, hq, rfl⟩⟩)
      exact (OneLine.of_noSpace hname.2).append (.cons (by decide) (oneLine_dnsTypeName _))
    · exact .nil
  have hnotes : OneLine (if p.metadata.notes.isEmpty then []
      else " notes=".toList ++ [';'].intercalate p.metadata.notes) := by
    split
    · exact .nil
    · exact OneLine.append (by decide) (.intercalate (by decide) h.notes)
  have hlength : OneLine (p.metadata.timestamp.toString ++ " len=".toList ++
      natToString p.metadata.capturedLength) :=
    ((OneLine.timestamp _).append (by decide)).append (OneLine.natToString _)
  exact (OneLine.natToString i).append
    (.cons (by decide) (((hlength.append hflow).append hdns).append hnotes))

/-- **Nothing in a capture breaks a line of its report**: the report has one line
for the capture, one for each kind of packet with the number of its packets, one for
each packet and one for each diagnostic, and no others. The time stamps in it are
ordered as texts as they are in time. -/
theorem summarizePcap_lines {v : ByteView} {pcap : PcapFile} (h : parsePcap v = .ok pcap)
    (lowFirst : Bool) :
    getlines '\n' (summarizePcap lowFirst pcap) =
        captureLine pcap :: ((protocolHistogram lowFirst pcap).toList.map histogramLine ++
          (pcap.packets.zipIdx.map fun p => packetLine p.2 p.1) ++
          pcap.diagnostics.map Diagnostic.line) ∧
      (∀ kind n, (kind, n) ∈ (protocolHistogram lowFirst pcap).toList ↔
        (∃ p ∈ pcap.packets, p.metadata.kind lowFirst = kind) ∧
          n = pcap.packets.countP fun p => p.metadata.kind lowFirst = kind) ∧
      ((protocolHistogram lowFirst pcap).toList.map Prod.snd).sum = pcap.packets.length ∧
      ∀ p ∈ pcap.packets, ∀ q ∈ pcap.packets,
        (p.metadata.timestamp.toString < q.metadata.timestamp.toString ↔
          p.metadata.timestamp.seconds < q.metadata.timestamp.seconds ∨
            p.metadata.timestamp.seconds = q.metadata.timestamp.seconds ∧
              p.metadata.timestamp.nanos < q.metadata.timestamp.nanos) := by
  obtain ⟨hprintable, hquiet⟩ := printable_parsePcap h
  have hplain := showsPlain_parsePcap h
  refine ⟨?_, fun kind n => ?_, ?_, fun p hp q hq => ?_⟩
  · have hfirst : captureLine pcap ++ ['\n'] = textOf [captureLine pcap] := (List.append_nil _).symm
    rw [summarizePcap, hfirst, ← textOf_append, ← textOf_append, getlines_report ?_ hquiet]
    · simp only [List.cons_append, List.nil_append]
    intro line hline
    rcases List.mem_append.mp hline with hline | hline
    · rcases List.mem_append.mp hline with hline | hline
      · rw [List.mem_singleton.mp hline]
        exact ((((OneLine.append (by decide) (.natToString _)).append (by decide)).append
          (.natToString _)).append
          (by decide)).append (.natToString _)
      · obtain ⟨⟨kind, n⟩, hkind, rfl⟩ := List.mem_map.mp hline
        obtain ⟨p, -, rfl⟩ := List.mem_map.mp (mem_toList_countAll.mp hkind).1
        exact (oneLine_kind _ _).append (.cons (by decide) (.natToString _))
    · obtain ⟨⟨p, i⟩, hp, rfl⟩ := List.mem_map.mp hline
      have hmem : p ∈ pcap.packets := List.mem_of_getElem? (List.mem_zipIdx_iff_getElem?.mp hp)
      exact oneLine_packetLine (hprintable p hmem) (hplain p hmem) i
  · rw [protocolHistogram, mem_toList_countAll_map]
  · rw [protocolHistogram, sum_countAll, List.length_map]
  · exact toString_lt_iff (hprintable p hp).timestamp (hprintable q hq).timestamp

theorem summarizePcap_lines_evilCapture :
    ∃ pcap, parsePcap (.ofVector evilCapture.encode) = .ok pcap ∧
      ((protocolHistogram true pcap).toList.map Prod.snd).sum = 1 := by
  obtain ⟨pcap, hparse, hpackets, -⟩ := parsePcap_packets evilCapture
  refine ⟨pcap, hparse, ?_⟩
  rw [(summarizePcap_lines hparse true).2.2.1, hpackets]
  rfl

/-! ## Flow keys -/

theorem natToString_inj {n m : Nat} : natToString n = natToString m ↔ n = m := by
  refine ⟨fun h => ?_, congrArg _⟩
  have hvalue := congrArg (Nat.ofDigitChars 10 · 0) h
  simpa only [natToString, Nat.ofDigitChars_ten_toDigits] using hvalue

theorem ipv4ToString_inj {a b : IPv4Address} : ipv4ToString a = ipv4ToString b ↔ a = b := by
  refine ⟨fun h => ?_, congrArg _⟩
  have hparse := congrArg parseIpv4 h
  simpa only [parseIpv4_ipv4ToString, Option.some.injEq] using hparse

/-- A protocol is known by its name. -/
theorem ipProtocolName_inj {a b : Nat} : ipProtocolName a = ipProtocolName b ↔ a = b := by
  refine ⟨fun h => ?_, congrArg _⟩
  have hletter : ∀ {n : Nat} {c : Char} {rest : Str}, isDigit c = false →
      natToString n ≠ c :: rest := by
    intro n c rest hc heq
    exact not_mem_natToString hc n (heq ▸ List.mem_cons_self)
  unfold ipProtocolName at h
  -- two names, a name and a number, or two numbers
  split_ifs at h
  all_goals first
    | omega
    | exact absurd h (by decide)
    | exact absurd h (hletter rfl)
    | exact absurd h.symm (hletter rfl)
    | exact natToString_inj.mp h

theorem flowKey_inj {md md' : PacketMetadata} {ip ip' : IPv4Packet} (h : md.ipv4 = some ip)
    (h' : md'.ipv4 = some ip') :
    md.flowKey = md'.flowKey ↔ ip.source = ip'.source ∧ md.flowPorts.1 = md'.flowPorts.1 ∧
      ip.destination = ip'.destination ∧ md.flowPorts.2 = md'.flowPorts.2 ∧
      md.flowProtocol ip = md'.flowProtocol ip' := by
  have hip : ∀ ip, ':' ∉ ipv4ToString ip := fun ip => not_mem_ipv4ToString rfl (by decide) ip
  have hport : ∀ n, ' ' ∉ natToString n := fun n => not_mem_natToString rfl n
  have hlast : ∀ n, '/' ∉ natToString n := fun n => not_mem_natToString rfl n
  have harrow : ∀ rest : Str, " -> ".toList ++ rest = ' ' :: ("-> ".toList ++ rest) := fun _ => rfl
  unfold PacketMetadata.flowKey
  rw [h, h']
  simp only [List.append_assoc, harrow, List.cons_append]
  rw [append_cons_inj (hip _) (hip _), append_cons_inj (hport _) (hport _),
    List.append_cancel_left_eq,
    append_cons_inj (hip _) (hip _), append_cons_inj (hlast _) (hlast _)]
  simp only [ipv4ToString_inj, natToString_inj]

/-- **A flow key is the five-tuple** of a captured packet: two packets have one key
when they have the same addresses, ports and protocol, and only then. -/
theorem flowKey_eq_iff {v v' : ByteView} {pcap pcap' : PcapFile} (h : parsePcap v = .ok pcap)
    (h' : parsePcap v' = .ok pcap') {p p' : PcapPacket} (hp : p ∈ pcap.packets)
    (hp' : p' ∈ pcap'.packets)
    {ip ip' : IPv4Packet} (hip : p.metadata.ipv4 = some ip) (hip' : p'.metadata.ipv4 = some ip') :
    p.metadata.flowKey = p'.metadata.flowKey ↔
      ip.source = ip'.source ∧ ip.destination = ip'.destination ∧
        p.metadata.flowPorts = p'.metadata.flowPorts ∧ ip.protocol = ip'.protocol := by
  rw [flowKey_inj hip hip', ((printable_parsePcap h).1 p hp).protocol ip hip,
    ((printable_parsePcap h').1 p' hp').protocol ip' hip', ipProtocolName_inj, Prod.ext_iff]
  tauto

/-- An echo message between two hosts. -/
def echoFrame (type : UInt8) (source destination : IPv4Address) : WireFrame where
  ethernet := evilFrame.ethernet
  ipv4 := { evilFrame.ipv4 with source, destination }
  transport := .other 1 [type, 0, 0, 0] (by decide)
  padding := []
  fits := by
    change 20 + 0 + 4 < 2 ^ 16
    decide

def pinging : IPv4Address := ⟨0x0a000001⟩

def pinged : IPv4Address := ⟨0x08080808⟩

def echoPacket (seconds : UInt32) (frame : WireFrame)
    (h : frame.encode.length < 2 ^ 32) : WirePacket :=
  ⟨seconds, 5, 38, frame.encode, h⟩

/-- Two echo requests, and the answer to the second one. -/
def pingCapture : WireCapture :=
  { evilCapture with
    packets :=
      [echoPacket 1700000000 (echoFrame 8 pinging pinged) (by decide),
        echoPacket 1700000001 (echoFrame 8 pinging pinged) (by decide),
        echoPacket 1700000001 (echoFrame 0 pinged pinging) (by decide)] }

/-- The requests belong to one flow, the answer to another one. -/
theorem flowKey_eq_iff_ping :
    ∃ pcap request again answer, parsePcap (.ofVector pingCapture.encode) = .ok pcap ∧
      pcap.packets = [request, again, answer] ∧
      request.metadata.timestamp ≠ again.metadata.timestamp ∧
      request.metadata.flowKey = again.metadata.flowKey ∧
        again.metadata.flowKey ≠ answer.metadata.flowKey := by
  obtain ⟨pcap, hparse, hpackets, -⟩ := parsePcap_packets pingCapture
  have hmem : ∀ {i : Nat} {p : PcapPacket},
      (pingCapture.packets.map (WirePacket.decoded · false 1))[i]? = some p → p ∈ pcap.packets := by
    intro i p hp
    rw [hpackets]
    exact List.mem_of_getElem? hp
  have hip : ∀ seconds frame h, ((echoPacket seconds frame h).decoded false 1).metadata.ipv4 =
      (frame.decoded ((echoPacket seconds frame h).stamp false) 38).1.ipv4 := by
    intro seconds frame h
    exact congrArg (fun out => out.1.ipv4) (decodePacketPayload_encode frame _ 38)
  have hstamp : ∀ seconds : UInt32, normalizeTimestamp seconds.toNat (5 * 1000) =
      ⟨seconds.toNat, 5000⟩ := by
    intro seconds
    rw [normalizeTimestamp_of_nonneg _ (by decide)]
    norm_num
  have htime : ∀ seconds frame h,
      ((echoPacket seconds frame h).decoded false 1).metadata.timestamp =
      ⟨seconds.toNat, 5000⟩ := fun seconds frame h =>
    (decodePacketPayload_fixed _ _ _ _).1.trans (hstamp seconds)
  refine ⟨pcap, _, _, _, hparse, hpackets, fun hsame => ?_, ?_, fun hkey => ?_⟩
  · exact absurd ((htime _ _ _).symm.trans (hsame.trans (htime _ _ _))) (by decide)
  · refine (flowKey_eq_iff hparse hparse (hmem (i := 0) rfl) (hmem (i := 1) rfl) (hip _ _ _)
      (hip _ _ _)).mpr ?_
    exact ⟨rfl, rfl, rfl, rfl⟩
  · have hsame := (flowKey_eq_iff hparse hparse (hmem (i := 1) rfl) (hmem (i := 2) rfl) (hip _ _ _)
      (hip _ _ _)).mp hkey
    exact absurd hsame.1 (by decide)

end PacketGuard.Packet
