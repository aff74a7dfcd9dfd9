import PacketGuard.Packet.Frames

/-! # Capture files

What `parse_pcap` makes of a capture file: it recovers every file that was
written in the classic format, and of a file that is cut short it loses packets
at the end only, and says so.  Both rest on one fact about the record loop: it
stands at the offset behind the records it has returned.

At an offset the loop does one of four things (`record_cases`): it is at the end,
the header of a record does not fit, the payload does not fit, or it decodes a
record and goes on behind it.  `parseRecords_induction` is the induction over these
four, and everything about the loop is proved with it: what is returned accounts
for the bytes up to the offset where it stopped (`parseRecords_accounts`), and in a
longer view the loop returns the same and maybe more (`parseRecords_extends`).

That a cut is *said* takes a diagnostic that nothing else can have produced.  The
decoders report with codes of their own (`FromDecoders`), none of which is the code
of a truncation note, so the note is there exactly when the loop has stopped short.
-/
namespace PacketGuard.Packet
open PacketGuard.Core PacketGuard.Lib

/-! ## The codes of the diagnostics -/

/-- The diagnostic says that the record loop stopped before the end of the file. -/
def TruncationNote (d : Diagnostic) : Prop :=
  d.code = "pcap.record".toList ∨ d.code = "pcap.packet".toList

/-- The codes the packet decoders use. -/
def decoderCodes : List Str :=
  ["ethernet.vlan".toList, "ipv4.length".toList, "ipv4.ttl".toList, "ipv4.checksum".toList,
    "tcp.flags".toList, "udp.length".toList, "dns.truncated".toList]

/-- Every diagnostic of the list has a code of the packet decoders. -/
def FromDecoders (diag : Diagnostics) : Prop := ∀ d ∈ diag, d.code ∈ decoderCodes

theorem FromDecoders.append {a b : Diagnostics} (ha : FromDecoders a) (hb : FromDecoders b) :
    FromDecoders (a ++ b) := by
  intro d hd
  rcases List.mem_append.mp hd with hd | hd
  · exact ha d hd
  · exact hb d hd

theorem fromDecoders_nil : FromDecoders [] := by
  intro d hd
  cases hd

/-- The decoders add at most one entry at a time. -/
theorem fromDecoders_singleton {d : Diagnostic} (h : d.code ∈ decoderCodes) :
    FromDecoders [d] := by
  intro d' hd'
  rw [List.mem_singleton.mp hd']
  exact h

theorem FromDecoders.not_truncationNote {diag : Diagnostics} (h : FromDecoders diag) :
    ∀ d ∈ diag, ¬ TruncationNote d := by
  intro d hd hnote
  have hcode := h d hd
  rcases hnote with he | he <;>
    · rw [he] at hcode
      revert hcode
      decide

/-- Entries that are no truncation notes do not matter in front of others. -/
theorem exists_truncationNote_append {a b : Diagnostics} (ha : ∀ d ∈ a, ¬ TruncationNote d) :
    (∃ d ∈ a ++ b, TruncationNote d) ↔ ∃ d ∈ b, TruncationNote d := by
  constructor
  · rintro ⟨d, hd, hnote⟩
    rcases List.mem_append.mp hd with hd | hd
    · exact absurd hnote (ha d hd)
    · exact ⟨d, hd, hnote⟩
  · rintro ⟨d, hd, hnote⟩
    exact ⟨d, List.mem_append_right _ hd, hnote⟩

theorem fromDecoders_ite {p : Prop} [Decidable p] {a b : Diagnostics} (ha : FromDecoders a)
    (hb : FromDecoders b) : FromDecoders (if p then a else b) := by
  split
  · exact ha
  · exact hb

theorem fromDecoders_parseEthernet (v : ByteView) : FromDecoders (parseEthernet v).2 := by
  simp only [parseEthernet]
  repeat' split
  all_goals first
    | exact fromDecoders_nil
    | exact fromDecoders_singleton (by decide)

theorem fromDecoders_ipv4Notes (ip : IPv4Packet) : FromDecoders (ipv4Notes ip) :=
  (fromDecoders_ite (fromDecoders_singleton (by decide)) fromDecoders_nil).append
    (fromDecoders_ite (fromDecoders_singleton (by decide)) fromDecoders_nil)

theorem fromDecoders_parseIpv4Packet (v : ByteView) : FromDecoders (parseIpv4Packet v).2 := by
  have hnote : FromDecoders (Diagnostics.warn "ipv4.length".toList
      "IPv4 total length differs from captured bytes".toList 2) :=
    fromDecoders_singleton (by decide)
  simp only [parseIpv4Packet]
  split
  · exact fromDecoders_nil
  · split
    · exact fromDecoders_nil
    · split
      · exact fromDecoders_nil
      · split
        · exact fromDecoders_ite hnote fromDecoders_nil
        · exact (fromDecoders_ite hnote fromDecoders_nil).append (fromDecoders_ipv4Notes _)

theorem fromDecoders_parseTcpSegment (v : ByteView) : FromDecoders (parseTcpSegment v).2 := by
  simp only [parseTcpSegment]
  repeat' split
  all_goals first
    | exact fromDecoders_nil
    | exact fromDecoders_singleton (by decide)

theorem fromDecoders_parseUdpDatagram (v : ByteView) : FromDecoders (parseUdpDatagram v).2 := by
  simp only [parseUdpDatagram]
  repeat' split
  all_goals first
    | exact fromDecoders_nil
    | exact fromDecoders_singleton (by decide)

theorem fromDecoders_parseDnsMessage (v : ByteView) : FromDecoders (parseDnsMessage v).2 := by
  simp only [parseDnsMessage]
  repeat' split
  all_goals first
    | exact fromDecoders_nil
    | exact fromDecoders_singleton (by decide)

theorem fromDecoders_decodeTransport (md : PacketMetadata) (protocol : Nat) (v : ByteView) :
    FromDecoders (decodeTransport md protocol v).2 := by
  have htcp := fromDecoders_parseTcpSegment v
  have hudp := fromDecoders_parseUdpDatagram v
  unfold decodeTransport
  by_cases h6 : protocol = 6
  · rw [if_pos h6]
    rcases hparse : parseTcpSegment v with ⟨_ | tcp, diag⟩ <;>
      · rw [hparse] at htcp
        exact htcp
  · rw [if_neg h6]
    by_cases h17 : protocol = 17
    · rw [if_pos h17]
      rcases hparse : parseUdpDatagram v with ⟨_ | udp, diag⟩
      · rw [hparse] at hudp
        exact hudp
      · rw [hparse] at hudp
        by_cases h53 : udp.sourcePort = 53 ∨ udp.destinationPort = 53
        · simp only [if_pos h53]
          rcases v.slice 8 udp.payloadLength with _ | dnsPayload
          · exact hudp
          · have hdns := fromDecoders_parseDnsMessage dnsPayload
            rcases hmsg : parseDnsMessage dnsPayload with ⟨_ | dns, diag'⟩ <;>
              · rw [hmsg] at hdns
                simp only [hmsg]
                exact hudp.append hdns
        · simp only [if_neg h53]
          exact hudp
    · rw [if_neg h17]
      exact fromDecoders_nil

theorem fromDecoders_decodeIp (md : PacketMetadata) (v : ByteView) :
    FromDecoders (decodeIp md v).2 := by
  have hip := fromDecoders_parseIpv4Packet v
  unfold decodeIp
  rcases hparse : parseIpv4Packet v with ⟨_ | ip, diag⟩
  · rw [hparse] at hip
    exact hip
  · rw [hparse] at hip
    simp only
    rcases v.slice ip.headerLength ip.payloadLength with _ | transport
    · exact hip
    · exact hip.append (fromDecoders_decodeTransport _ _ _)

/-- Every diagnostic of a packet comes from one of its decoders. -/
theorem fromDecoders_decodePacketPayload (ts : Timestamp) (v : ByteView)
    (originalLength linkType : Nat) :
    FromDecoders (decodePacketPayload ts v originalLength linkType).2 := by
  have heth := fromDecoders_parseEthernet v
  unfold decodePacketPayload
  by_cases hlink : linkType ≠ 1
  · rw [if_pos hlink]
    exact fromDecoders_nil
  · rw [if_neg hlink]
    rcases hparse : parseEthernet v with ⟨_ | eth, diag⟩
    · rw [hparse] at heth
      exact heth
    · rw [hparse] at heth
      by_cases htype : eth.etherType ≠ 0x0800
      · simp only [if_pos htype]
        exact heth
      · simp only [if_neg htype]
        rcases v.slice eth.headerLength (v.size - eth.headerLength) with _ | ipBytes
        · exact heth
        · exact heth.append (fromDecoders_decodeIp _ _)

/-! ## The record loop -/

section Loop
variable {v : ByteView} {le ns : Bool} {linkType offset : Nat}

theorem parseRecords_end (h : v.size ≤ offset) :
    parseRecords v le ns linkType offset = ([], []) := by
  rw [parseRecords, dif_neg (by omega)]

theorem parseRecords_header (h : offset < v.size) (h16 : v.size < offset + 16) :
    parseRecords v le ns linkType offset =
      ([], Diagnostics.warn "pcap.record".toList
        "Trailing bytes after final packet header".toList offset) := by
  rw [parseRecords, dif_pos h, if_pos (by omega)]

theorem parseRecords_payload (h16 : offset + 16 ≤ v.size)
    (hlong : v.size < offset + 16 + rd32 v le (offset + 8)) :
    parseRecords v le ns linkType offset =
      ([], Diagnostics.error "pcap.packet".toList
        "Captured packet length exceeds file".toList (offset + 16)) := by
  rw [parseRecords, dif_pos (by omega), if_neg (by omega)]
  exact if_pos (by omega)

/-- One turn of the loop over a record that fits. -/
theorem parseRecords_record (h : offset + 16 + rd32 v le (offset + 8) ≤ v.size) :
    parseRecords v le ns linkType offset =
      let pkt := decodeRecord v le ns linkType offset
        (v.sub (offset + 16) (rd32 v le (offset + 8)) h)
      let rest := parseRecords v le ns linkType (offset + 16 + rd32 v le (offset + 8))
      (pkt.1 :: rest.1, pkt.2 ++ rest.2) := by
  rw [parseRecords, dif_pos (by omega), if_neg (by omega)]
  simp only
  rw [if_neg (by omega), ByteView.slice_eq_ok h]

/-- The three ways the loop can go on at an offset inside the file. -/
theorem record_cases (v : ByteView) (le : Bool) (offset : Nat) :
    v.size < offset + 16 ∨
      (offset + 16 ≤ v.size ∧ v.size < offset + 16 + rd32 v le (offset + 8)) ∨
      offset + 16 + rd32 v le (offset + 8) ≤ v.size := by
  omega

theorem fromDecoders_decodeRecord (pktBytes : ByteView) :
    FromDecoders (decodeRecord v le ns linkType offset pktBytes).2 :=
  fromDecoders_decodePacketPayload _ _ _ _

theorem payload_decodeRecord (pktBytes : ByteView) :
    (decodeRecord v le ns linkType offset pktBytes).1.payload = pktBytes.toVector := rfl

end Loop

/-- **Induction over the record loop.**  A property of what the loop returns from
an offset on holds, if it holds where the loop stops and is kept by a record. -/
theorem parseRecords_induction {v : ByteView} {le ns : Bool} {linkType : Nat}
    {P : Nat → List PcapPacket × Diagnostics → Prop}
    (done : ∀ offset, v.size ≤ offset → P offset ([], []))
    (header : ∀ offset, offset < v.size → v.size < offset + 16 →
      P offset ([], Diagnostics.warn "pcap.record".toList
        "Trailing bytes after final packet header".toList offset))
    (payload : ∀ offset, offset + 16 ≤ v.size → v.size < offset + 16 + rd32 v le (offset + 8) →
      P offset ([], Diagnostics.error "pcap.packet".toList
        "Captured packet length exceeds file".toList (offset + 16)))
    (record : ∀ offset pkt rest, ∀ h : offset + 16 + rd32 v le (offset + 8) ≤ v.size,
      pkt = decodeRecord v le ns linkType offset
        (v.sub (offset + 16) (rd32 v le (offset + 8)) h) →
      P (offset + 16 + rd32 v le (offset + 8)) rest →
      P offset (pkt.1 :: rest.1, pkt.2 ++ rest.2))
    (offset : Nat) : P offset (parseRecords v le ns linkType offset) := by
  induction hrem : v.size - offset using Nat.strong_induction_on generalizing offset with
  | _ remaining ih =>
    by_cases hend : v.size ≤ offset
    · rw [parseRecords_end hend]
      exact done offset hend
    · rcases record_cases v le offset with hshort | ⟨h16, hlong⟩ | hfits
      · rw [parseRecords_header (by omega) hshort]
        exact header offset (by omega) hshort
      · rw [parseRecords_payload h16 hlong]
        exact payload offset h16 hlong
      · rw [parseRecords_record hfits]
        exact record offset _ _ hfits rfl (ih _ (by omega) _ rfl)

/-! ## Truncated files -/

/-- The bytes that the records of `packets` take up. -/
def recordsLength (packets : List PcapPacket) : Nat :=
  (packets.map fun pkt => 16 + pkt.payload.length).sum

/-- **The loop stands behind the records it has returned**: either they reach to
the end of the file, or the file goes on and the loop says so. -/
theorem parseRecords_accounts (v : ByteView) (le ns : Bool) (linkType offset : Nat)
    (h : offset ≤ v.size) :
    (∃ d ∈ (parseRecords v le ns linkType offset).2, TruncationNote d) ↔
      offset + recordsLength (parseRecords v le ns linkType offset).1 ≠ v.size := by
  refine parseRecords_induction (P := fun offset r => offset ≤ v.size →
    ((∃ d ∈ r.2, TruncationNote d) ↔ offset + recordsLength r.1 ≠ v.size)) ?_ ?_ ?_ ?_ offset h
  · intro offset hend hle
    have heq : offset + recordsLength [] = v.size := by
      simp only [recordsLength, List.map_nil, List.sum_nil]
      omega
    simp [heq]
  · intro offset hlt _ _
    have hne : offset + recordsLength [] ≠ v.size := by
      simp only [recordsLength, List.map_nil, List.sum_nil]
      omega
    simp [hne, Diagnostics.warn, TruncationNote]
  · intro offset h16 _ _
    have hne : offset + recordsLength [] ≠ v.size := by
      simp only [recordsLength, List.map_nil, List.sum_nil]
      omega
    simp [hne, Diagnostics.error, TruncationNote]
  · intro offset pkt rest hfits hpkt ih _
    -- what the decoders report of a packet is not about the file
    have hnone : ∀ d ∈ pkt.2, ¬ TruncationNote d := by
      rw [hpkt]
      exact (fromDecoders_decodeRecord _).not_truncationNote
    have hlength : pkt.1.payload.length = rd32 v le (offset + 8) := by
      rw [hpkt, payload_decodeRecord, ByteView.length_toVector, ByteView.size_sub]
    rw [exists_truncationNote_append hnone, ih (by omega)]
    simp only [recordsLength, List.map_cons, List.sum_cons, hlength]
    omega

/-- A file that is cut short loses records at the end only. -/
theorem parseRecords_extends {v w : ByteView} (he : w.Extends v) (le ns : Bool)
    (linkType offset : Nat) :
    (parseRecords v le ns linkType offset).1 <+: (parseRecords w le ns linkType offset).1 := by
  have hsize := he.size_le
  refine parseRecords_induction
    (P := fun offset r => r.1 <+: (parseRecords w le ns linkType offset).1) ?_ ?_ ?_ ?_ offset
  · intro offset _
    exact List.nil_prefix
  · intro offset _ _
    exact List.nil_prefix
  · intro offset _ _
    exact List.nil_prefix
  · intro offset pkt rest hfits hpkt ih
    -- a record that fits the shorter file is the same record in the longer one
    have hread : ∀ off, off + 4 ≤ v.size → rd32 v le off = rd32 w le off := by
      intro off hoff
      simp only [rd32, he.readLe32_eq hoff, he.readBe32_eq hoff]
    have hincl := hread (offset + 8) (by omega)
    have hfits' : offset + 16 + rd32 w le (offset + 8) ≤ w.size := by omega
    have hsame : (v.sub (offset + 16) (rd32 v le (offset + 8)) hfits).SameBytes
        (w.sub (offset + 16) (rd32 w le (offset + 8)) hfits') := by
      have hs := he.sub hfits
      simp only [hincl] at hs ⊢
      exact hs
    have hrecord : pkt = decodeRecord w le ns linkType offset
        (w.sub (offset + 16) (rd32 w le (offset + 8)) hfits') := by
      have hpayload : (v.sub (offset + 16) (rd32 v le (offset + 8)) hfits).toVector =
        (w.sub (offset + 16) (rd32 w le (offset + 8)) hfits').toVector := hsame
      rw [hpkt, decodeRecord, decodeRecord, decodePacketPayload_congr hsame, hpayload,
        hread offset (by omega), hread (offset + 4) (by omega), hread (offset + 12) (by omega)]
    rw [hincl] at ih
    rw [parseRecords_record hfits', ← hrecord]
    exact List.prefix_cons_inj _ |>.mpr ih

/-! ## The classic format -/

/-- `width` bytes of `n` in the byte order of the file. -/
def word (le : Bool) (width n : Nat) : List UInt8 :=
  if le then littleEndian width n else bigEndian width n

/-- The magic number of the resolution. -/
def magicNumber (ns : Bool) : Nat := if ns then 0xa1b23c4d else 0xa1b2c3d4

/-- A packet to be written. -/
structure WirePacket where
  tsSec : UInt32
  tsFrac : UInt32
  originalLength : UInt32
  payload : List UInt8
  payload_length : payload.length < 2 ^ 32

/-- A capture file to be written. -/
structure WireCapture where
  littleEndian : Bool
  nanosecondResolution : Bool
  major : UInt16
  minor : UInt16
  thisZone : Int32
  sigfigs : UInt32
  snaplen : UInt32
  linkType : UInt32
  packets : List WirePacket

def WirePacket.encode (le : Bool) (p : WirePacket) : List UInt8 :=
  word le 4 p.tsSec.toNat ++ (word le 4 p.tsFrac.toNat ++ (word le 4 p.payload.length ++
    (word le 4 p.originalLength.toNat ++ p.payload)))

def WireCapture.encode (c : WireCapture) : List UInt8 :=
  let le := c.littleEndian
  word le 4 (magicNumber c.nanosecondResolution) ++ (word le 2 c.major.toNat ++
    (word le 2 c.minor.toNat ++ (word le 4 c.thisZone.toUInt32.toNat ++
      (word le 4 c.sigfigs.toNat ++ (word le 4 c.snaplen.toNat ++
        (word le 4 c.linkType.toNat ++ c.packets.flatMap (WirePacket.encode le)))))))

@[simp] theorem length_word (le : Bool) (width n : Nat) : (word le width n).length = width := by
  cases le <;> simp [word]

theorem rd16_word {v : ByteView} {le : Bool} {offset n : Nat} (h : v.Holds offset (word le 2 n))
    (hn : n < 2 ^ 16) : rd16 v le offset = n := by
  cases le with
  | false => exact h.readBe16 hn
  | true => exact h.readLe16 hn

theorem rd32_word {v : ByteView} {le : Bool} {offset n : Nat} (h : v.Holds offset (word le 4 n))
    (hn : n < 2 ^ 32) : rd32 v le offset = n := by
  cases le with
  | false => exact h.readBe32 hn
  | true => exact h.readLe32 hn

theorem pcapMagic_magicNumber : ∀ le ns : Bool,
    pcapMagic (bigEndianValue (word le 4 (magicNumber ns)))
      (bigEndianValue (word le 4 (magicNumber ns)).reverse) = some (le, ns) := by
  decide

/-- The magic number tells byte order and resolution apart. -/
theorem pcapMagic_word {v : ByteView} {le ns : Bool} (h : v.Holds 0 (word le 4 (magicNumber ns))) :
    pcapMagic (readBe32 (v.ptr 0)) (readLe32 (v.ptr 0)) = some (le, ns) := by
  have hcopy := h.copy
  rw [length_word] at hcopy
  rw [readBe32_ptr, readLe32_ptr, hcopy, pcapMagic_magicNumber]

/-- The time stamp `ts` is the instant of the packet, in nanoseconds. -/
structure WirePacket.StampedAt (p : WirePacket) (ns : Bool) (ts : Timestamp) : Prop where
  nonneg : 0 ≤ ts.nanos
  subsecond : ts.nanos < 10 ^ 9
  instant : ts.seconds * 10 ^ 9 + ts.nanos =
    (p.tsSec.toNat : Int) * 10 ^ 9 + p.tsFrac.toNat * (if ns then 1 else 1000)

/-- `pkt` is the packet `p`. -/
structure WirePacket.ReadAs (ns : Bool) (p : WirePacket) (pkt : PcapPacket) : Prop where
  payload : pkt.payload = p.payload
  capturedLength : pkt.metadata.capturedLength = p.payload.length
  originalLength : pkt.metadata.originalLength = p.originalLength.toNat
  timestamp : p.StampedAt ns pkt.metadata.timestamp

/-- The fields that `decode_packet_payload` sets before it looks at the bytes. -/
theorem decodePacketPayload_fixed (ts : Timestamp) (v : ByteView) (originalLength linkType : Nat) :
    (decodePacketPayload ts v originalLength linkType).1.timestamp = ts ∧
      (decodePacketPayload ts v originalLength linkType).1.originalLength = originalLength ∧
      (decodePacketPayload ts v originalLength linkType).1.capturedLength = v.size := by
  unfold decodePacketPayload
  by_cases hlink : linkType ≠ 1
  · rw [if_pos hlink]
    exact ⟨rfl, rfl, rfl⟩
  · rw [if_neg hlink]
    rcases parseEthernet v with ⟨_ | eth, diag⟩
    · exact ⟨rfl, rfl, rfl⟩
    · by_cases htype : eth.etherType ≠ 0x0800
      · simp [if_pos htype]
      · simp only
        rw [if_neg htype]
        rcases v.slice eth.headerLength (v.size - eth.headerLength) with _ | ipBytes
        · exact ⟨rfl, rfl, rfl⟩
        · have hkeeps := decodeIp_keeps
            { timestamp := ts, originalLength, capturedLength := v.size, ethernet := some eth }
            ipBytes
          exact ⟨hkeeps.timestamp, hkeeps.originalLength, hkeeps.capturedLength⟩

theorem normalizeTimestamp_stampedAt (p : WirePacket) (ns : Bool) :
    p.StampedAt ns (normalizeTimestamp p.tsSec.toNat
      (if ns then p.tsFrac.toNat else p.tsFrac.toNat * 1000)) := by
  have hnonneg : (0 : Int) ≤ if ns then (p.tsFrac.toNat : Int) else p.tsFrac.toNat * 1000 := by
    split <;> omega
  rw [normalizeTimestamp_of_nonneg _ hnonneg]
  constructor
  · simp only
    omega
  · simp only
    omega
  · cases ns <;>
      · simp only [Bool.false_eq_true, if_false, if_true]
        omega

section Record
variable {v : ByteView} {le : Bool} {offset : Nat} {p : WirePacket}

/-- The four words of a record header, and the bytes behind it. -/
theorem rd32_encode (h : v.Holds offset (p.encode le)) :
    rd32 v le offset = p.tsSec.toNat ∧ rd32 v le (offset + 4) = p.tsFrac.toNat ∧
      rd32 v le (offset + 8) = p.payload.length ∧
      rd32 v le (offset + 12) = p.originalLength.toNat ∧ v.Holds (offset + 16) p.payload := by
  have hfrac := h.right
  have hincl := hfrac.right
  have horig := hincl.right
  have hpayload := horig.right
  simp only [length_word, Nat.add_assoc, Nat.reduceAdd] at hfrac hincl horig hpayload
  exact ⟨rd32_word h.left p.tsSec.toNat_lt, rd32_word hfrac.left p.tsFrac.toNat_lt,
    rd32_word hincl.left p.payload_length, rd32_word horig.left p.originalLength.toNat_lt, hpayload⟩

theorem WirePacket.length_encode (p : WirePacket) (le : Bool) :
    (p.encode le).length = 16 + p.payload.length := by
  simp only [WirePacket.encode, List.length_append, length_word]
  omega

/-- A record is read as the packet it was written for. -/
theorem readAs_decodeRecord (h : v.Holds offset (p.encode le)) (ns : Bool) (linkType : Nat)
    (hfits : offset + 16 + rd32 v le (offset + 8) ≤ v.size) :
    p.ReadAs ns (decodeRecord v le ns linkType offset
      (v.sub (offset + 16) (rd32 v le (offset + 8)) hfits)).1 := by
  obtain ⟨hsec, hfrac, hincl, horig, hpayload⟩ := rd32_encode h
  obtain ⟨hts, horiginal, hcaptured⟩ := decodePacketPayload_fixed
    (normalizeTimestamp (rd32 v le offset)
      (if ns then rd32 v le (offset + 4) else rd32 v le (offset + 4) * 1000))
    (v.sub (offset + 16) (rd32 v le (offset + 8)) hfits) (rd32 v le (offset + 12)) linkType
  constructor
  · rw [payload_decodeRecord, ByteView.toVector_sub, hincl]
    exact hpayload.drop_take
  · exact hcaptured.trans (by rw [ByteView.size_sub, hincl])
  · exact horiginal.trans horig
  · rw [show (decodeRecord v le ns linkType offset _).1.metadata.timestamp = _ from hts,
      hsec, hfrac]
    exact normalizeTimestamp_stampedAt p ns

end Record

/-- The loop recovers the packets of a file, up to its end. -/
theorem parseRecords_encode {v : ByteView} {le ns : Bool} {linkType : Nat}
    (packets : List WirePacket) {offset : Nat}
    (h : v.Holds offset (packets.flatMap (WirePacket.encode le)))
    (hend : offset + (packets.flatMap (WirePacket.encode le)).length = v.size) :
    List.Forall₂ (WirePacket.ReadAs ns) packets (parseRecords v le ns linkType offset).1 ∧
      FromDecoders (parseRecords v le ns linkType offset).2 := by
  induction packets generalizing offset with
  | nil =>
    rw [parseRecords_end (by simpa using hend.ge)]
    exact ⟨.nil, fromDecoders_nil⟩
  | cons p packets ih =>
    rw [List.flatMap_cons] at h hend
    rw [List.length_append, p.length_encode] at hend
    obtain ⟨-, -, hincl, -, -⟩ := rd32_encode h.left
    have hrest := h.right
    rw [p.length_encode, ← Nat.add_assoc] at hrest
    obtain ⟨hall, hdiag⟩ := ih hrest (by omega)
    have hfits : offset + 16 + rd32 v le (offset + 8) ≤ v.size := by
      rw [hincl]
      omega
    have hrecord := readAs_decodeRecord h.left ns linkType hfits
    -- the length read from the header is where the next record starts
    rw [← hincl] at hall hdiag
    rw [parseRecords_record hfits]
    exact ⟨.cons hrecord hall, (fromDecoders_decodeRecord _).append hdiag⟩

/-- `file` is the capture `c`, and the record loop met no trouble. -/
structure WireCapture.ReadAs (c : WireCapture) (file : PcapFile) : Prop where
  littleEndian : file.littleEndian = c.littleEndian
  nanosecondResolution : file.nanosecondResolution = c.nanosecondResolution
  major : file.major = c.major.toNat
  minor : file.minor = c.minor.toNat
  thisZone : file.thisZone = c.thisZone.toInt
  snaplen : file.snaplen = c.snaplen.toNat
  linkType : file.linkType = c.linkType.toNat
  packets : List.Forall₂ (WirePacket.ReadAs c.nanosecondResolution) c.packets file.packets
  untroubled : ∀ d ∈ file.diagnostics, ¬ TruncationNote d

/-- The diagnostic about an unusual version is not about truncation. -/
theorem not_truncationNote_version {major : Nat} : ∀ d ∈ (if major ≠ 2 then
      Diagnostics.warn "pcap.version".toList "PCAP major version is unusual".toList 4
    else []), ¬ TruncationNote d := by
  intro d hd
  split at hd
  · rw [Diagnostics.warn, List.mem_singleton] at hd
    rw [hd]
    unfold TruncationNote
    decide
  · cases hd

/-- `file` is what the header of `v`, read in the byte order `le`, and the record
loop give. -/
structure ParsedFrom (v : ByteView) (le ns : Bool) (file : PcapFile) : Prop where
  littleEndian : file.littleEndian = le
  nanosecondResolution : file.nanosecondResolution = ns
  major : file.major = rd16 v le 4
  minor : file.minor = rd16 v le 6
  thisZone : file.thisZone = (rd32 v le 8 : Int).bmod (2 ^ 32)
  snaplen : file.snaplen = rd32 v le 16
  linkType : file.linkType = rd32 v le 20
  packets : file.packets = (parseRecords v le ns (rd32 v le 20) 24).1
  notes : (∃ d ∈ file.diagnostics, TruncationNote d) ↔
    ∃ d ∈ (parseRecords v le ns (rd32 v le 20) 24).2, TruncationNote d

/-- `parse_pcap` of a file whose magic number is known. -/
theorem parsePcap_eq {v : ByteView} {le ns : Bool} (h24 : 24 ≤ v.size)
    (hmagic : pcapMagic (readBe32 (v.ptr 0)) (readLe32 (v.ptr 0)) = some (le, ns)) :
    ∃ file, parsePcap v = .ok file ∧ ParsedFrom v le ns file := by
  rw [parsePcap, if_neg (by omega), hmagic]
  simp only
  refine ⟨_, rfl, rfl, rfl, rfl, rfl, ?_, rfl, rfl, rfl, ?_⟩
  · simp only
  · exact exists_truncationNote_append not_truncationNote_version

/-- **`parse_pcap` inverts the classic format**, for both byte orders and both
resolutions. -/
theorem parsePcap_encode (c : WireCapture) :
    ∃ file, parsePcap (.ofVector c.encode) = .ok file ∧ c.ReadAs file := by
  have h : (ByteView.ofVector c.encode).Holds 0 c.encode := by
    have h := ByteView.holds_ofVector c.encode []
    rwa [List.append_nil] at h
  have hmajorOn := h.right
  have hminorOn := hmajorOn.right
  have hzoneOn := hminorOn.right
  have hsigfigsOn := hzoneOn.right
  have hsnaplenOn := hsigfigsOn.right
  have hlinkOn := hsnaplenOn.right
  have hpackets := hlinkOn.right
  simp only [length_word, Nat.zero_add, Nat.reduceAdd] at hmajorOn hminorOn hzoneOn
  simp only [length_word, Nat.zero_add, Nat.reduceAdd] at hsnaplenOn hlinkOn hpackets
  have hlength : c.encode.length = 24 +
      (c.packets.flatMap (WirePacket.encode c.littleEndian)).length := by
    simp only [WireCapture.encode, List.length_append, length_word]
    omega
  obtain ⟨file, hparse, hfile⟩ :=
    parsePcap_eq (v := .ofVector c.encode) (by rw [ByteView.size_ofVector]; omega)
      (pcapMagic_word h.left)
  have hrecords : 24 + (c.packets.flatMap (WirePacket.encode c.littleEndian)).length =
      (ByteView.ofVector c.encode).size := by
    rw [ByteView.size_ofVector]
    omega
  obtain ⟨hall, hdiag⟩ : List.Forall₂ (WirePacket.ReadAs c.nanosecondResolution) c.packets
        (parseRecords (.ofVector c.encode) c.littleEndian c.nanosecondResolution
          (rd32 (.ofVector c.encode) c.littleEndian 20) 24).1 ∧
      FromDecoders (parseRecords (.ofVector c.encode) c.littleEndian c.nanosecondResolution
        (rd32 (.ofVector c.encode) c.littleEndian 20) 24).2 :=
    parseRecords_encode c.packets hpackets hrecords
  refine ⟨file, hparse, ?_⟩
  constructor
  · exact hfile.littleEndian
  · exact hfile.nanosecondResolution
  · exact hfile.major.trans (rd16_word hmajorOn.left c.major.toNat_lt)
  · exact hfile.minor.trans (rd16_word hminorOn.left c.minor.toNat_lt)
  · -- the zone is the one signed field
    rw [hfile.thisZone, rd32_word hzoneOn.left c.thisZone.toUInt32.toNat_lt]
    exact (BitVec.toInt_eq_toNat_bmod c.thisZone.toBitVec).symm
  · exact hfile.snaplen.trans (rd32_word hsnaplenOn.left c.snaplen.toNat_lt)
  · exact hfile.linkType.trans (rd32_word hlinkOn.left c.linkType.toNat_lt)
  · rw [hfile.packets]
    exact hall
  · intro d hd hnote
    obtain ⟨d', hd', hnote'⟩ := hfile.notes.mp ⟨d, hd, hnote⟩
    exact hdiag.not_truncationNote d' hd' hnote'

/-- The file starts with the magic number of a byte order and a resolution. -/
def AcceptedMagic (data : List UInt8) : Prop := ∃ le ns, word le 4 (magicNumber ns) <+: data

/-- **A cut loses packets at the end only, and is reported.**  Of the first `n`
bytes of a capture file the packets are the first packets of the file; and of
both, a diagnostic says that the record loop stopped early exactly when header
and records do not account for every byte. -/
theorem parsePcap_take {data : List UInt8} {n : Nat} (h24 : 24 ≤ n) (hn : n ≤ data.length)
    (hmagic : AcceptedMagic data) :
    ∃ cut file, parsePcap (.ofVector (data.take n)) = .ok cut ∧
      parsePcap (.ofVector data) = .ok file ∧ cut.packets <+: file.packets ∧
      ((∃ d ∈ cut.diagnostics, TruncationNote d) ↔ 24 + recordsLength cut.packets ≠ n) ∧
      ((∃ d ∈ file.diagnostics, TruncationNote d) ↔
        24 + recordsLength file.packets ≠ data.length) := by
  obtain ⟨le, ns, tail, htail⟩ := hmagic
  have he : (ByteView.ofVector data).Extends (.ofVector (data.take n)) := by
    rw [ByteView.Extends, ByteView.toVector_ofVector, ByteView.toVector_ofVector]
    exact List.take_prefix n data
  have hword : (ByteView.ofVector data).Holds 0 (word le 4 (magicNumber ns)) := by
    rw [← htail]
    exact ByteView.holds_ofVector _ tail
  have hword' : (ByteView.ofVector (data.take n)).Holds 0 (word le 4 (magicNumber ns)) := by
    rw [← htail, List.take_append, List.take_of_length_le (by rw [length_word]; omega)]
    exact ByteView.holds_ofVector _ _
  have hsize : (data.take n).length = n := List.length_take_of_le hn
  obtain ⟨cut, hcut, hfirst⟩ :=
    parsePcap_eq (v := .ofVector (data.take n)) (by rw [ByteView.size_ofVector]; omega)
      (pcapMagic_word hword')
  obtain ⟨file, hfile, hwhole⟩ :=
    parsePcap_eq (v := .ofVector data) (by rw [ByteView.size_ofVector]; omega)
      (pcapMagic_word hword)
  -- the cut keeps the header, so both loops run with one link type
  have hlink : rd32 (.ofVector (data.take n)) le 20 = rd32 (.ofVector data) le 20 := by
    have hle : 20 + 4 ≤ (ByteView.ofVector (data.take n)).size := by
      rw [ByteView.size_ofVector]
      omega
    simp only [rd32, he.readLe32_eq hle, he.readBe32_eq hle]
  refine ⟨cut, file, hcut, hfile, ?_, ?_, ?_⟩
  · rw [hfirst.packets, hwhole.packets, hlink]
    exact parseRecords_extends he _ _ _ _
  · rw [hfirst.notes, hfirst.packets,
      parseRecords_accounts _ _ _ _ _ (by rw [ByteView.size_ofVector]; omega),
      ByteView.size_ofVector, hsize]
  · rw [hwhole.notes, hwhole.packets,
      parseRecords_accounts _ _ _ _ _ (by rw [ByteView.size_ofVector]; omega),
      ByteView.size_ofVector]

/-- A file with one empty packet and two bytes behind it, cut inside the header of
the record. -/
theorem parsePcap_take_inside_record :
    ∃ cut file,
      parsePcap (.ofVector
        ((word true 4 (magicNumber false) ++ List.replicate 38 0).take 30)) = .ok cut ∧
      parsePcap (.ofVector (word true 4 (magicNumber false) ++ List.replicate 38 0)) = .ok file ∧
      cut.packets <+: file.packets ∧
      ((∃ d ∈ cut.diagnostics, TruncationNote d) ↔ 24 + recordsLength cut.packets ≠ 30) ∧
      ((∃ d ∈ file.diagnostics, TruncationNote d) ↔
        24 + recordsLength file.packets ≠
          (word true 4 (magicNumber false) ++ List.replicate 38 0).length) :=
  parsePcap_take (by decide) (by decide) ⟨true, false, List.prefix_append _ _⟩

end PacketGuard.Packet
